import EosEvmNode.ShipReceiver.Model
import EosEvmNode.Lib.Runs

/-! # Picking action traces — one trace under another name

    The loop that picks the action traces of a transaction reads the receiver and
    the name of each trace and the receipts of their parents.  Here one trace is
    given another name: what the loop picks then, compared with what it picked
    before. -/

namespace ShipReceiver

open Channels Runs

/-- The trace with another action name. -/
def ActionTrace.rename (n : Name) (act : ActionTrace) : ActionTrace :=
  { act with act := { act.act with name := n } }

/-- A name the receiver does not look for. -/
def Unrelated (n : Name) : Prop := n ≠ pushtxN ∧ n ≠ evmtxN ∧ n ≠ configchangeN

instance (n : Name) : Decidable (Unrelated n) :=
  inferInstanceAs (Decidable (_ ∧ _ ∧ _))

/-- An element of a list, and the list with that element modified. -/
theorem exists_split_of_getElem? {α : Type} {a : α} :
    ∀ {l : List α} {j : Nat}, l[j]? = some a →
      ∃ before after, l = before ++ a :: after ∧ before.length = j ∧
        ∀ f, l.modify j f = before ++ f a :: after := by
  intro l
  induction l with
  | nil => intro j h; cases h
  | cons x l ih =>
      intro j h
      cases j with
      | zero =>
          obtain rfl := Option.some.inj h
          exact ⟨[], l, rfl, rfl, fun f => rfl⟩
      | succ j =>
          obtain ⟨before, after, hl, hlen, hmod⟩ := ih (by simpa using h)
          refine ⟨x :: before, after, by rw [hl]; rfl, by rw [List.length_cons, hlen],
            ?_⟩
          intro f
          rw [List.modify_succ_cons, hmod f]
          rfl

section Sequence

variable {coreAccount search : Name} {actions actions' : List ActionTrace}

/-- Of the other traces only the receipts are read. -/
theorem sequenceOf_congr
    (h : actions.map (fun a => a.receipt) = actions'.map (fun a => a.receipt))
    (j : Nat) (act : ActionTrace) :
    sequenceOf actions j act = sequenceOf actions' j act := by
  have hparent : ∀ p : Nat, (actions[p]?).map (fun parent => parent.receipt)
      = (actions'[p]?).map (fun parent => parent.receipt) := by
    intro p
    rw [← List.getElem?_map, h, List.getElem?_map]
  simp only [sequenceOf, hparent]

/-- Where a place comes from: the receipt of the parent for `evmtx`, no receipt for
    `configchange`, the action's own for everything else. -/
theorem sequenceOf_cases {j k : Nat} {act : ActionTrace}
    (h : sequenceOf actions j act = .ok k) :
    (act.act.name = evmtxN ∧ ∃ parent receipt,
      actions[act.creatorActionOrdinal - 1]? = some parent ∧
      parent.receipt = some receipt ∧ k = receipt.globalSequence) ∨
    (act.act.name = configchangeN ∧ k = 0) ∨
    (act.act.name ≠ evmtxN ∧ act.act.name ≠ configchangeN ∧
      ∃ receipt, act.receipt = some receipt ∧ k = receipt.globalSequence) := by
  rw [sequenceOf] at h
  cases hreceipt : act.receipt with
  | none => rw [hreceipt] at h; cases h
  | some receipt =>
      simp only [hreceipt] at h
      by_cases hevm : act.act.name = evmtxN
      · -- the two checks on the parent's index, then its receipt
        rw [if_pos hevm] at h
        by_cases hroot : act.creatorActionOrdinal = 0
        · rw [if_pos hroot] at h
          cases h
        · rw [if_neg hroot] at h
          by_cases horder : j ≤ act.creatorActionOrdinal - 1
          · simp only [if_pos horder] at h
            cases h
          · simp only [if_neg horder] at h
            cases hparent : actions[act.creatorActionOrdinal - 1]? with
            | none => simp only [hparent, Option.map_none] at h; cases h
            | some parent =>
                cases hpr : parent.receipt with
                | none => simp only [hparent, Option.map_some, hpr] at h; cases h
                | some parentReceipt =>
                    simp only [hparent, Option.map_some, hpr] at h
                    exact Or.inl ⟨hevm, parent, parentReceipt, rfl, hpr,
                      (Except.ok.inj h).symm⟩
      · rw [if_neg hevm] at h
        by_cases hconfig : act.act.name = configchangeN
        · rw [if_pos hconfig] at h
          exact Or.inr (Or.inl ⟨hconfig, (Except.ok.inj h).symm⟩)
        · rw [if_neg hconfig] at h
          exact Or.inr (Or.inr ⟨hevm, hconfig, receipt, rfl, (Except.ok.inj h).symm⟩)

theorem orderAction_congr
    (h : actions.map (fun a => a.receipt) = actions'.map (fun a => a.receipt)) :
    orderAction coreAccount search actions
      = orderAction coreAccount search actions' := by
  funext ordered entry
  rw [orderAction, orderAction, sequenceOf_congr h]

/-- A trace that is not picked changes nothing. -/
theorem orderAction_of_not_selected {act : ActionTrace} {j : Nat}
    (h : isSelected coreAccount search act = false)
    (ordered : List (Nat × ActionTrace)) :
    orderAction coreAccount search actions ordered (act, j) = .ok ordered := by
  rw [orderAction, if_neg (by simp [h])]

/-- A picked trace is put in its place, if it has one. -/
theorem orderAction_of_selected {act : ActionTrace} {j : Nat}
    (h : isSelected coreAccount search act = true)
    (ordered : List (Nat × ActionTrace)) :
    orderAction coreAccount search actions ordered (act, j)
      = (sequenceOf actions j act).map
          (fun seq => OrderedMap.assign seq act ordered) := by
  rw [orderAction, if_pos h]
  cases sequenceOf actions j act <;> rfl

theorem isSelected_iff {act : ActionTrace} :
    isSelected coreAccount search act = true ↔
      (act.act.name = search ∨ act.act.name = configchangeN) ∧
        coreAccount = act.receiver := by
  rw [isSelected, decide_eq_true_eq]

/-- Either name is searched for, so an unrelated one is never picked. -/
theorem actionToSearch_eq (coreAccount : Name) (actions : List ActionTrace) :
    actionToSearch coreAccount actions = pushtxN ∨
      actionToSearch coreAccount actions = evmtxN := by
  rw [actionToSearch]
  split
  · exact Or.inr rfl
  · exact Or.inl rfl

theorem isSelected_rename {n : Name} (hn : Unrelated n) (act : ActionTrace) :
    isSelected coreAccount (actionToSearch coreAccount actions)
      (act.rename n) = false := by
  rw [isSelected, decide_eq_false_iff_not]
  rintro ⟨hname | hname, -⟩
  · rcases actionToSearch_eq coreAccount actions with h | h
    · exact hn.1 (hname.trans h)
    · exact hn.2.1 (hname.trans h)
  · exact hn.2.2 hname

/-- `evmtx` is searched for exactly when the contract's account received one. -/
theorem actionToSearch_eq_evmtx_iff :
    actionToSearch coreAccount actions = evmtxN ↔
      ∃ a ∈ actions, a.receiver = coreAccount ∧ a.act.name = evmtxN := by
  rw [actionToSearch]
  constructor
  · intro h
    split at h
    · next hany =>
        obtain ⟨a, ha, hdec⟩ := List.any_eq_true.mp hany
        exact ⟨a, ha, by simpa using hdec⟩
    · exact absurd h pushtxN_ne_evmtxN
  · rintro ⟨a, ha, h⟩
    rw [if_pos (List.any_eq_true.mpr ⟨a, ha, by simpa using h⟩)]

end Sequence

/-! ## The loop -/

section Loop

variable {coreAccount search : Name} {actions : List ActionTrace}

/-- The two maps differ in nothing but the entry of `seq`. -/
def SameBut (seq : Nat) (m m' : List (Nat × ActionTrace)) : Prop :=
  ∀ act, OrderedMap.assign seq act m = OrderedMap.assign seq act m'

/-- A later picked trace of the same place makes up for the difference. -/
theorem foldlM_orderAction_sameBut {seq : Nat} :
    ∀ {entries : List (ActionTrace × Nat)} {m m' : List (Nat × ActionTrace)},
      SameBut seq m m' →
      (∃ entry ∈ entries, isSelected coreAccount search entry.1 = true ∧
        sequenceOf actions entry.2 entry.1 = .ok seq) →
      entries.foldlM (orderAction coreAccount search actions) m
        = entries.foldlM (orderAction coreAccount search actions) m' := by
  intro entries
  induction entries with
  | nil =>
      rintro m m' - ⟨entry, hentry, -⟩
      cases hentry
  | cons first rest ih =>
      rintro m m' hsame ⟨entry, hentry, hsel, hseq⟩
      obtain ⟨act, j⟩ := first
      rw [List.foldlM_cons, List.foldlM_cons]
      cases hfirst : isSelected coreAccount search act with
      | false =>
          rw [orderAction_of_not_selected hfirst, orderAction_of_not_selected hfirst]
          refine ih hsame ⟨entry, ?_, hsel, hseq⟩
          rcases List.mem_cons.mp hentry with rfl | hmem
          · rw [hfirst] at hsel
            cases hsel
          · exact hmem
      | true =>
          rw [orderAction_of_selected hfirst, orderAction_of_selected hfirst]
          cases hkey : sequenceOf actions j act with
          | error err => rfl
          | ok k =>
              by_cases hk : k = seq
              · -- from here on the two maps are equal
                subst hk
                show List.foldlM _ (OrderedMap.assign k act m) rest
                  = List.foldlM _ (OrderedMap.assign k act m') rest
                rw [hsame act]
              · refine ih ?_ ⟨entry, ?_, hsel, hseq⟩
                · intro x
                  rw [OrderedMap.assign_comm (Ne.symm hk),
                    OrderedMap.assign_comm (Ne.symm hk), hsame x]
                · rcases List.mem_cons.mp hentry with rfl | hmem
                  · rw [hkey] at hseq
                    exact absurd (Except.ok.inj hseq) hk
                  · exact hmem

/-- What the loop leaves came from a picked trace. -/
theorem mem_of_foldlM_orderAction :
    ∀ {entries : List (ActionTrace × Nat)} {m m' : List (Nat × ActionTrace)},
      entries.foldlM (orderAction coreAccount search actions) m = .ok m' →
      ∀ x ∈ m', x ∈ m ∨ ∃ j, (x.2, j) ∈ entries ∧
        isSelected coreAccount search x.2 = true := by
  intro entries
  induction entries with
  | nil =>
      intro m m' h x hx
      obtain rfl := Except.ok.inj h
      exact Or.inl hx
  | cons first rest ih =>
      intro m m' h x hx
      obtain ⟨act, j⟩ := first
      rw [List.foldlM_cons] at h
      obtain ⟨m₁, h₁, h⟩ := bind_ok h
      rcases ih h x hx with hmem | ⟨j', hj', hsel⟩
      · cases hfirst : isSelected coreAccount search act with
        | false =>
            rw [orderAction_of_not_selected hfirst] at h₁
            obtain rfl := Except.ok.inj h₁
            exact Or.inl hmem
        | true =>
            rw [orderAction_of_selected hfirst] at h₁
            obtain ⟨k, -, rfl⟩ := map_ok h₁
            rcases OrderedMap.eq_or_mem_of_mem_assign hmem with rfl | hold
            · exact Or.inr ⟨j, List.mem_cons_self, hfirst⟩
            · exact Or.inl hold
      · exact Or.inr ⟨j', List.mem_cons_of_mem _ hj', hsel⟩

/-- An entry stays until a later picked trace takes its place. -/
theorem mem_foldlM_orderAction {seq : Nat} {act : ActionTrace} :
    ∀ {entries : List (ActionTrace × Nat)} {m m' : List (Nat × ActionTrace)},
      entries.foldlM (orderAction coreAccount search actions) m = .ok m' →
      (seq, act) ∈ m →
      (seq, act) ∈ m' ∨ ∃ entry ∈ entries,
        isSelected coreAccount search entry.1 = true ∧
          sequenceOf actions entry.2 entry.1 = .ok seq := by
  intro entries
  induction entries with
  | nil =>
      intro m m' h hmem
      obtain rfl := Except.ok.inj h
      exact Or.inl hmem
  | cons first rest ih =>
      intro m m' h hmem
      obtain ⟨x, j⟩ := first
      rw [List.foldlM_cons] at h
      obtain ⟨m₁, h₁, h⟩ := bind_ok h
      -- the entry is still there before the rest of the loop
      have hlater : (seq, act) ∈ m₁ → (seq, act) ∈ m' ∨
          ∃ entry ∈ (x, j) :: rest, isSelected coreAccount search entry.1 = true ∧
            sequenceOf actions entry.2 entry.1 = .ok seq := by
        intro h₂
        rcases ih h h₂ with hin | ⟨entry, hentry, hrest⟩
        · exact Or.inl hin
        · exact Or.inr ⟨entry, List.mem_cons_of_mem _ hentry, hrest⟩
      cases hfirst : isSelected coreAccount search x with
      | false =>
          rw [orderAction_of_not_selected hfirst] at h₁
          obtain rfl := Except.ok.inj h₁
          exact hlater hmem
      | true =>
          rw [orderAction_of_selected hfirst] at h₁
          obtain ⟨k, hk, rfl⟩ := map_ok h₁
          by_cases hkey : seq = k
          · exact Or.inr ⟨(x, j), List.mem_cons_self, hfirst, hkey ▸ hk⟩
          · exact hlater (OrderedMap.mem_assign_of_ne hkey hmem)

end Loop

end ShipReceiver

import EosEvmNode.ShipReceiver.ExecutionOrder

/-! # What a transaction trace contributes

    The ordered map holds the picked traces of a transaction in key order
    (`heldTraces`).  A trace of which nothing is picked is passed over; one whose
    picked traces all have a place adds what the map holds; any other throws.  Each
    of the three is an equation about `appendTrace`. -/

namespace ShipReceiver

open Channels Runs

/-! ## What the map holds -/

/-- A trace of which something is picked. -/
def Contributes (coreAccount : Name) (trace : TransactionTrace) : Prop :=
  trace.status = .executed ∧ selectedTraces coreAccount trace.actionTraces ≠ []

/-- What the ordered map holds of the picked traces, in key order. -/
def heldTraces (coreAccount : Name) (actions : List ActionTrace) : List ActionTrace :=
  (OrderedMap.assignAll (mapEntries coreAccount actions)).map (fun entry => entry.2)

/-- Every picked trace has the receipts its place is read from. -/
def AllPlaced (coreAccount : Name) (actions : List ActionTrace) : Prop :=
  ∀ entry ∈ actions.zipIdx,
    isSelected coreAccount (actionToSearch coreAccount actions) entry.1 = true →
    (sequenceOf actions entry.2 entry.1).isOk = true

instance (coreAccount : Name) (trace : TransactionTrace) :
    Decidable (Contributes coreAccount trace) :=
  inferInstanceAs (Decidable (_ ∧ _))

instance (coreAccount : Name) (actions : List ActionTrace) :
    Decidable (AllPlaced coreAccount actions) :=
  inferInstanceAs (Decidable (∀ entry ∈ actions.zipIdx, _ → _))

section Held

variable {coreAccount : Name} {actions : List ActionTrace} {trace : TransactionTrace}

/-- What is held has been picked. -/
theorem mem_heldTraces {a : ActionTrace} (h : a ∈ heldTraces coreAccount actions) :
    a ∈ selectedTraces coreAccount actions := by
  obtain ⟨entry, hentry, rfl⟩ := List.mem_map.mp h
  have hlast := (OrderedMap.assignAll_perm _).subset hentry
  obtain ⟨a, ha, rfl⟩ := List.mem_map.mp (List.pwFilter_subset _ hlast)
  exact ha

theorem name_of_mem_heldTraces {a : ActionTrace}
    (h : a ∈ heldTraces coreAccount actions) :
    a.act.name = actionToSearch coreAccount actions ∨ a.act.name = configchangeN :=
  (isSelected_iff.mp (List.mem_filter.mp (mem_heldTraces h)).2).1

/-- Something is held when something is picked. -/
theorem heldTraces_eq_nil :
    heldTraces coreAccount actions = [] ↔ selectedTraces coreAccount actions = [] := by
  constructor
  · intro h
    have hnil : OrderedMap.assignAll (mapEntries coreAccount actions) = [] :=
      List.map_eq_nil_iff.mp h
    cases hentries : mapEntries coreAccount actions with
    | nil => exact List.map_eq_nil_iff.mp hentries
    | cons entry rest =>
        -- the last of the entries is in the map
        have hne : mapEntries coreAccount actions ≠ [] := by
          rw [hentries]
          exact List.cons_ne_nil _ _
        rw [← List.dropLast_append_getLast hne, OrderedMap.assignAll_concat] at hnil
        have hmem := OrderedMap.mem_assign_self
          ((mapEntries coreAccount actions).getLast hne).1
          ((mapEntries coreAccount actions).getLast hne).2
          (OrderedMap.assignAll (mapEntries coreAccount actions).dropLast)
        rw [hnil] at hmem
        cases hmem
  · intro h
    rw [heldTraces, mapEntries, h]
    rfl

/-! ## When the places can be read -/

/-- The parent of a trace comes before it, so it is there. -/
theorem sequenceOf_ne_undefined {j : Nat} {act : ActionTrace}
    (hj : j < actions.length) : sequenceOf actions j act ≠ .error .undefined := by
  rw [sequenceOf]
  cases act.receipt with
  | none => rintro ⟨⟩
  | some receipt =>
      simp only
      split
      · split
        · rintro ⟨⟩
        · split
          · rintro ⟨⟩
          · next hlt =>
              have hparent : act.creatorActionOrdinal - 1 < actions.length := by omega
              rw [List.getElem?_eq_getElem hparent, Option.map_some]
              cases (actions[act.creatorActionOrdinal - 1]).receipt with
              | none => rintro ⟨⟩
              | some _ => rintro ⟨⟩
      · split
        · rintro ⟨⟩
        · rintro ⟨⟩

/-- The loop over entries that all have a place ends normally. -/
theorem exists_foldlM_orderAction {search : Name} :
    ∀ {entries : List (ActionTrace × Nat)} {m : List (Nat × ActionTrace)},
      (∀ entry ∈ entries, isSelected coreAccount search entry.1 = true →
        (sequenceOf actions entry.2 entry.1).isOk = true) →
      ∃ m', entries.foldlM (orderAction coreAccount search actions) m = .ok m' := by
  intro entries
  induction entries with
  | nil => intro m _; exact ⟨m, rfl⟩
  | cons first rest ih =>
      intro m h
      obtain ⟨act, j⟩ := first
      have hrest := fun entry hentry => h entry (List.mem_cons_of_mem _ hentry)
      rw [List.foldlM_cons]
      cases hfirst : isSelected coreAccount search act with
      | false =>
          rw [orderAction_of_not_selected hfirst]
          exact ih hrest
      | true =>
          have hplace := h (act, j) List.mem_cons_self hfirst
          rw [orderAction_of_selected hfirst]
          cases hseq : sequenceOf actions j act with
          | error err =>
              rw [hseq] at hplace
              cases hplace
          | ok k => exact ih hrest

/-- Otherwise it ends with an exception, and not by reading a parent that is not
    there. -/
theorem foldlM_orderAction_throws {search : Name} :
    ∀ {entries : List (ActionTrace × Nat)} {m : List (Nat × ActionTrace)},
      (∀ entry ∈ entries, entry.2 < actions.length) →
      (¬ ∀ entry ∈ entries, isSelected coreAccount search entry.1 = true →
        (sequenceOf actions entry.2 entry.1).isOk = true) →
      ∃ err, err ≠ .undefined ∧
        entries.foldlM (orderAction coreAccount search actions) m = .error err := by
  intro entries
  induction entries with
  | nil =>
      intro m _ h
      refine absurd ?_ h
      intro entry hentry
      cases hentry
  | cons first rest ih =>
      intro m hlt h
      obtain ⟨act, j⟩ := first
      have hj : j < actions.length := hlt (act, j) List.mem_cons_self
      have hrest := fun entry hentry => hlt entry (List.mem_cons_of_mem _ hentry)
      rw [List.foldlM_cons]
      -- unless the first entry has no place, one of the others has none
      have hlater : (isSelected coreAccount search act = true →
            (sequenceOf actions j act).isOk = true) →
          ¬ ∀ entry ∈ rest, isSelected coreAccount search entry.1 = true →
            (sequenceOf actions entry.2 entry.1).isOk = true := by
        intro hfirst hall
        refine h ?_
        intro entry hentry
        rcases List.mem_cons.mp hentry with rfl | hmem
        · exact hfirst
        · exact hall entry hmem
      cases hsel : isSelected coreAccount search act with
      | false =>
          rw [orderAction_of_not_selected hsel]
          refine ih hrest (hlater ?_)
          intro hsel'
          rw [hsel] at hsel'
          cases hsel'
      | true =>
          rw [orderAction_of_selected hsel]
          cases hseq : sequenceOf actions j act with
          | error err =>
              refine ⟨err, ?_, rfl⟩
              rintro rfl
              exact sequenceOf_ne_undefined hj hseq
          | ok k =>
              refine ih hrest (hlater ?_)
              intro _
              rw [hseq]
              rfl

/-- **The picked actions** of a transaction trace: what the map holds, where all
    places can be read. -/
theorem pickedActions_of_placed (h : AllPlaced coreAccount trace.actionTraces) :
    pickedActions coreAccount trace = .ok
      ((heldTraces coreAccount trace.actionTraces).map (fun a => a.toNativeAction)) := by
  obtain ⟨ordered, hordered⟩ :
      ∃ ordered, orderActions coreAccount trace.actionTraces = .ok ordered :=
    exists_foldlM_orderAction h
  rw [pickedActions, hordered, heldTraces, List.map_map, orderActions_ok hordered]
  rfl

theorem pickedActions_of_not_placed (h : ¬ AllPlaced coreAccount trace.actionTraces) :
    ∃ err, err ≠ .undefined ∧ pickedActions coreAccount trace = .error err := by
  obtain ⟨err, hne, herr⟩ := foldlM_orderAction_throws (m := [])
    (fun entry hentry => by
      have := List.snd_lt_of_mem_zipIdx hentry
      omega) h
  refine ⟨err, hne, ?_⟩
  rw [pickedActions, show orderActions coreAccount trace.actionTraces = _ from herr]
  rfl

end Held

/-! ## What a trace does to a block -/

section Appending

variable {coreAccount : Name} {block block' : NativeBlock} {trace : TransactionTrace}

/-- The picked actions of a trace, in the order in which they are added. -/
def heldActions (coreAccount : Name) (trace : TransactionTrace) : List NativeAction :=
  (heldTraces coreAccount trace.actionTraces).map (fun a => a.toNativeAction)

theorem heldActions_ne_nil (h : Contributes coreAccount trace) :
    heldActions coreAccount trace ≠ [] := by
  intro hnil
  exact h.2 (heldTraces_eq_nil.mp (List.map_eq_nil_iff.mp hnil))

theorem name_of_mem_heldActions {a : NativeAction} (h : a ∈ heldActions coreAccount trace) :
    a.name = actionToSearch coreAccount trace.actionTraces ∨ a.name = configchangeN := by
  obtain ⟨x, hx, rfl⟩ := List.mem_map.mp h
  exact name_of_mem_heldTraces hx

/-- A trace that contributes nothing is passed over. -/
theorem appendTrace_of_idle (h : ¬ Contributes coreAccount trace) :
    appendTrace coreAccount block trace = .ok block := by
  rw [appendTrace]
  by_cases hstatus : trace.status ≠ .executed
  · rw [if_pos hstatus]
  · rw [if_neg hstatus]
    have hnil : selectedTraces coreAccount trace.actionTraces = [] := by
      by_contra hne
      exact h ⟨not_not.mp hstatus, hne⟩
    -- nothing is picked, so no place is looked up either
    have hplaced : AllPlaced coreAccount trace.actionTraces := by
      intro entry hentry hsel
      have hmem : entry.1 ∈ selectedTraces coreAccount trace.actionTraces :=
        List.mem_filter.mpr ⟨List.fst_mem_of_mem_zipIdx hentry, hsel⟩
      rw [hnil] at hmem
      cases hmem
    obtain ⟨ordered, hordered, hmap⟩ := map_ok (pickedActions_of_placed hplaced)
    rw [heldTraces_eq_nil.mpr hnil] at hmap
    rw [appendToBlock, hordered, List.map_eq_nil_iff.mp hmap]
    rfl

/-- A trace that contributes adds its actions, if their places can be read. -/
theorem appendTrace_of_placed (h : Contributes coreAccount trace)
    (hplaced : AllPlaced coreAccount trace.actionTraces) :
    appendTrace coreAccount block trace
      = (heldActions coreAccount trace).foldlM addAction (block, newTrx trace)
          >>= fun added => addTrx added.1 added.2 := by
  obtain ⟨ordered, hordered, hmap⟩ := map_ok (pickedActions_of_placed hplaced)
  have hlen : ordered.length > 0 := by
    refine List.length_pos_iff.mpr ?_
    rintro rfl
    exact heldActions_ne_nil h hmap.symm
  rw [appendTrace, if_neg (by simp [h.1]), appendToBlock, hordered, heldActions, ← hmap]
  show (if ordered.length > 0 then _ else _) = _
  rw [if_pos hlen]
  rfl

theorem appendTrace_of_not_placed (block : NativeBlock)
    (h : Contributes coreAccount trace)
    (hplaced : ¬ AllPlaced coreAccount trace.actionTraces) :
    ∃ err, err ≠ .undefined ∧ appendTrace coreAccount block trace = .error err := by
  obtain ⟨err, hne, herr⟩ := pickedActions_of_not_placed hplaced
  refine ⟨err, hne, ?_⟩
  cases hordered : orderActions coreAccount trace.actionTraces with
  | ok ordered =>
      rw [pickedActions, hordered] at herr
      cases herr
  | error e =>
      rw [pickedActions, hordered] at herr
      rw [appendTrace, if_neg (by simp [h.1]), appendToBlock, hordered,
        ← Except.error.inj herr]
      rfl

/-- Adding an action reads no empty vector. -/
theorem addActions_ne_undefined (actions : List NativeAction)
    (added : NativeBlock × NativeTrx) :
    actions.foldlM addAction added ≠ .error .undefined := by
  refine foldlM_ne_error ?_ actions added
  rintro ⟨b, trx⟩ action
  rw [addAction]
  split
  · split
    · rintro ⟨⟩
    · split <;> rintro ⟨⟩
  · split
    · rintro ⟨⟩
    · split
      · rintro ⟨⟩
      · split <;> rintro ⟨⟩

/-- Only events are added: the actions of the transaction have the name that is
    searched for. -/
theorem name_of_mem_trxActions {a : NativeAction}
    (h : a ∈ trxActions (heldActions coreAccount trace)) :
    a.name = actionToSearch coreAccount trace.actionTraces := by
  obtain ⟨hmem, hne⟩ := List.mem_filter.mp h
  rcases name_of_mem_heldActions hmem with hname | hname
  · exact hname
  · simp [hname] at hne

/-- Beside a configuration there is no `pushtx`. -/
theorem not_pushtx_of_addActions :
    ∀ {actions : List NativeAction} {b b' : NativeBlock} {trx trx' : NativeTrx},
      actions.foldlM addAction (b, trx) = .ok (b', trx') → b'.newConfig.isSome = true →
      ∀ a ∈ trxActions actions, a.name ≠ pushtxN := by
  intro actions
  induction actions with
  | nil =>
      intro b b' trx trx' _ _ a ha
      cases ha
  | cons action actions ih =>
      intro b b' trx trx' h hsome a ha
      rw [List.foldlM_cons] at h
      obtain ⟨⟨b₁, trx₁⟩, h₁, h⟩ := bind_ok h
      by_cases hname : action.name = configchangeN
      · rw [trxActions, List.filter_cons_of_neg (by simpa using hname)] at ha
        exact ih h hsome a ha
      · rw [trxActions, List.filter_cons_of_pos (by simpa using hname)] at ha
        rcases List.mem_cons.mp ha with rfl | hmem
        · obtain ⟨rfl, rfl⟩ := addAction_ok_of_ne hname h₁
          -- after an event no configuration follows, so there is one already
          have hb : b'.newConfig = b₁.newConfig := by
            obtain ⟨-, ⟨rfl, -⟩ | ⟨-, -, hne, -⟩⟩ := addActions_ok h
            · rfl
            · simp at hne
          rw [hb] at hsome
          intro hpush
          rw [addAction, if_neg hname, if_pos ⟨hsome, hpush⟩] at h₁
          cases h₁
        · exact ih h hsome a hmem

/-- Events of one name, and of no `pushtx` beside a configuration, are added one
    after the other. -/
theorem addActions_of_evmtx {b : NativeBlock} :
    ∀ {actions : List NativeAction} {trx : NativeTrx},
      (∀ a ∈ actions, a.name = evmtxN) → (∀ a ∈ trx.actions, a.name = evmtxN) →
      actions.foldlM addAction (b, trx)
        = .ok (b, { trx with actions := trx.actions ++ actions }) := by
  intro actions
  induction actions with
  | nil =>
      intro trx _ _
      rw [List.append_nil]
      rfl
  | cons action actions ih =>
      intro trx hnames htrx
      have hname : action.name = evmtxN := hnames action List.mem_cons_self
      have hconfig : action.name ≠ configchangeN := hname ▸ configchangeN_ne_evmtxN.symm
      have hpush : ¬ (b.newConfig.isSome = true ∧ action.name = pushtxN) :=
        fun h => pushtxN_ne_evmtxN (h.2.symm.trans hname)
      have hstep : addAction (b, trx) action
          = .ok (b, { trx with actions := trx.actions ++ [action] }) := by
        rw [addAction, if_neg hconfig, if_neg hpush]
        cases hlast : trx.actions.getLast? with
        | none => rw [List.getLast?_eq_none_iff.mp hlast]; rfl
        | some back =>
            have hback := htrx back (List.mem_of_getLast? hlast)
            exact if_neg (not_not.mpr (hback.trans hname.symm))
      rw [List.foldlM_cons, hstep, ok_bind]
      refine (ih (fun a ha => hnames a (List.mem_cons_of_mem _ ha)) ?_).trans ?_
      · intro a ha
        rcases List.mem_append.mp ha with hmem | hmem
        · exact htrx a hmem
        · rw [List.mem_singleton.mp hmem]
          exact hname
      · rw [List.append_assoc]
        rfl

end Appending

end ShipReceiver

import EosEvmNode.ShipReceiver.Model
import EosEvmNode.Lib.Runs

/-! # Assembling the native block

    The picked actions of a transaction go into the block under construction: a
    configuration change into its own field, the others into a new transaction.
    What a transaction trace adds depends on the trace alone (`trxsOf`), and the
    picked actions can be read off the block they were put into
    (`addActions_inj`). -/

namespace ShipReceiver

open Channels Runs

/-- Only the first action can be a configuration change, and only in a block
    without transactions. -/
def ConfigFirst (block block' : NativeBlock) (nativeTrx : NativeTrx)
    (actions : List NativeAction) : Prop :=
  (block' = block ∧ ∀ a ∈ actions, a.name ≠ configchangeN) ∨
  (block.newConfig = none ∧ block.transactions = [] ∧ nativeTrx.actions = [] ∧
    ∃ config rest, actions = config :: rest ∧
      block' = { block with newConfig := some config } ∧
      config.name = configchangeN ∧ ∀ a ∈ rest, a.name ≠ configchangeN)

/-- The actions that go into a transaction. -/
def trxActions (actions : List NativeAction) : List NativeAction :=
  actions.filter (fun a => a.name ≠ configchangeN)

theorem trxActions_of_ne {actions : List NativeAction}
    (h : ∀ a ∈ actions, a.name ≠ configchangeN) : trxActions actions = actions :=
  List.filter_eq_self.mpr (fun a ha => by simpa using h a ha)

/-- One action that is no configuration change. -/
theorem addAction_ok_of_ne {block block' : NativeBlock}
    {nativeTrx nativeTrx' : NativeTrx} {action : NativeAction}
    (hne : action.name ≠ configchangeN)
    (h : addAction (block, nativeTrx) action = .ok (block', nativeTrx')) :
    block' = block ∧
      nativeTrx' = { nativeTrx with actions := nativeTrx.actions ++ [action] } := by
  rw [addAction, if_neg hne] at h
  split at h
  · cases h
  · cases hlast : nativeTrx.actions.getLast? with
    | none =>
        rw [hlast] at h
        obtain ⟨hb, ht⟩ := Prod.mk.inj (Except.ok.inj h)
        rw [List.getLast?_eq_none_iff.mp hlast]
        exact ⟨hb.symm, ht.symm⟩
    | some back =>
        simp only [hlast] at h
        split at h
        · cases h
        · obtain ⟨hb, ht⟩ := Prod.mk.inj (Except.ok.inj h)
          exact ⟨hb.symm, ht.symm⟩

/-- A configuration change. -/
theorem addAction_ok_of_eq {block block' : NativeBlock}
    {nativeTrx nativeTrx' : NativeTrx} {action : NativeAction}
    (heq : action.name = configchangeN)
    (h : addAction (block, nativeTrx) action = .ok (block', nativeTrx')) :
    block.newConfig = none ∧ block.transactions = [] ∧ nativeTrx.actions = [] ∧
      block' = { block with newConfig := some action } ∧ nativeTrx' = nativeTrx := by
  rw [addAction, if_pos heq] at h
  by_cases hsome : block.newConfig.isSome = true
  · rw [if_pos hsome] at h
    cases h
  · rw [if_neg hsome] at h
    by_cases hfirst : nativeTrx.actions.length > 0 ∨ block.transactions.length > 0
    · rw [if_pos hfirst] at h
      cases h
    · rw [if_neg hfirst] at h
      obtain ⟨hb, ht⟩ := Prod.mk.inj (Except.ok.inj h)
      obtain ⟨h₁, h₂⟩ := not_or.mp hfirst
      refine ⟨by simpa using hsome, ?_, ?_, hb.symm, ht.symm⟩
      · exact List.length_eq_zero_iff.mp (by omega)
      · exact List.length_eq_zero_iff.mp (by omega)

/-- **The loop over the picked actions.** -/
theorem addActions_ok :
    ∀ {actions : List NativeAction} {block block' : NativeBlock}
      {nativeTrx nativeTrx' : NativeTrx},
      actions.foldlM addAction (block, nativeTrx) = .ok (block', nativeTrx') →
      nativeTrx' = { nativeTrx with
        actions := nativeTrx.actions ++ trxActions actions } ∧
      ConfigFirst block block' nativeTrx actions := by
  intro actions
  induction actions with
  | nil =>
      intro block block' nativeTrx nativeTrx' h
      obtain ⟨rfl, rfl⟩ := Prod.mk.inj (Except.ok.inj h)
      refine ⟨by simp [trxActions], Or.inl ⟨rfl, ?_⟩⟩
      intro a ha
      cases ha
  | cons action actions ih =>
      intro block block' nativeTrx nativeTrx' h
      rw [List.foldlM_cons] at h
      obtain ⟨⟨block₁, nativeTrx₁⟩, h₁, h⟩ := bind_ok h
      obtain ⟨htrx, hconfig⟩ := ih h
      by_cases hname : action.name = configchangeN
      · -- a configuration change is not in the transaction; it is the first action
        obtain ⟨hnone, hempty, hfirst, rfl, rfl⟩ := addAction_ok_of_eq hname h₁
        refine ⟨?_, ?_⟩
        · rw [htrx, trxActions, trxActions,
            List.filter_cons_of_neg (by simpa using hname)]
        · rcases hconfig with ⟨rfl, hrest⟩ | ⟨hsome, -⟩
          · exact Or.inr ⟨hnone, hempty, hfirst, action, actions, rfl, rfl, hname,
              hrest⟩
          · cases hsome
      · obtain ⟨rfl, rfl⟩ := addAction_ok_of_ne hname h₁
        refine ⟨?_, ?_⟩
        · rw [htrx, trxActions, trxActions,
            List.filter_cons_of_pos (by simpa using hname), List.append_assoc,
            List.singleton_append]
        · -- after this action the transaction is not empty, so no configuration follows
          rcases hconfig with ⟨rfl, hrest⟩ | ⟨-, -, hne, -⟩
          · refine Or.inl ⟨rfl, ?_⟩
            intro a ha
            rcases List.mem_cons.mp ha with rfl | hmem
            · exact hname
            · exact hrest a hmem
          · simp at hne

/-- **The block tells which actions were added**: two lists that leave the same
    configuration and the same transaction are the same. -/
theorem addActions_inj {actions actions' : List NativeAction}
    {block block₁ block₂ : NativeBlock} {nativeTrx trx₁ trx₂ : NativeTrx}
    (h₁ : actions.foldlM addAction (block, nativeTrx) = .ok (block₁, trx₁))
    (h₂ : actions'.foldlM addAction (block, nativeTrx) = .ok (block₂, trx₂))
    (hconfig : block₁.newConfig = block₂.newConfig)
    (htrx : trxActions actions = trxActions actions') : actions = actions' := by
  obtain ⟨-, hc₁⟩ := addActions_ok h₁
  obtain ⟨-, hc₂⟩ := addActions_ok h₂
  rcases hc₁ with ⟨rfl, hne₁⟩ | ⟨hnone, -, -, config, rest, rfl, rfl, hname, hne₁⟩
  · rcases hc₂ with ⟨rfl, hne₂⟩ | ⟨hnone, -, -, config', rest', rfl, rfl, -, -⟩
    · rwa [trxActions_of_ne hne₁, trxActions_of_ne hne₂] at htrx
    · rw [hnone] at hconfig
      cases hconfig
  · rcases hc₂ with ⟨rfl, -⟩ | ⟨-, -, -, config', rest', rfl, rfl, hname', hne₂⟩
    · rw [hnone] at hconfig
      cases hconfig
    · have hsame : config = config' := Option.some.inj hconfig
      rw [trxActions, trxActions, List.filter_cons_of_neg (by simpa using hname),
        List.filter_cons_of_neg (by simpa using hname'), ← trxActions,
        ← trxActions, trxActions_of_ne hne₁, trxActions_of_ne hne₂] at htrx
      rw [hsame, htrx]

theorem addTrx_ok {block block' : NativeBlock} {nativeTrx : NativeTrx}
    (h : addTrx block nativeTrx = .ok block') :
    block' = { block with transactions := block.transactions ++ [nativeTrx] } := by
  rw [addTrx] at h
  cases hback : block.transactions.getLast? with
  | none =>
      rw [hback] at h
      exact (Except.ok.inj h).symm
  | some backTrx =>
      simp only [hback] at h
      split at h
      · split at h
        · cases h
        · exact (Except.ok.inj h).symm
      · cases h

/-! ## A transaction trace -/

/-- The actions picked from a transaction trace, in order. -/
def pickedActions (coreAccount : Name) (trace : TransactionTrace) :
    Except Failure (List NativeAction) :=
  (orderActions coreAccount trace.actionTraces).map
    (fun ordered => ordered.map (fun entry => entry.2.toNativeAction))

/-- The transaction a trace starts. -/
def newTrx (trace : TransactionTrace) : NativeTrx where
  id := trace.id
  cpuUsageUs := trace.cpuUsageUs
  elapsed := trace.elapsed
  actions := []

theorem appendToBlock_ok {coreAccount : Name} {block block' : NativeBlock}
    {trace : TransactionTrace} (h : appendToBlock coreAccount block trace = .ok block') :
    ∃ actions, pickedActions coreAccount trace = .ok actions ∧
      ((actions = [] ∧ block' = block) ∨
        (actions ≠ [] ∧ ∃ block₁ nativeTrx,
          actions.foldlM addAction (block, newTrx trace) = .ok (block₁, nativeTrx) ∧
          block' = { block₁ with
            transactions := block₁.transactions ++ [nativeTrx] })) := by
  obtain ⟨ordered, hordered, h⟩ := bind_ok h
  refine ⟨ordered.map (fun entry => entry.2.toNativeAction),
    by rw [pickedActions, hordered]; rfl, ?_⟩
  by_cases hlen : ordered.length > 0
  · simp only [if_pos hlen] at h
    obtain ⟨⟨block₁, nativeTrx⟩, hacts, h⟩ := bind_ok h
    refine Or.inr ⟨?_, block₁, nativeTrx, hacts, addTrx_ok h⟩
    intro hnil
    rw [List.map_eq_nil_iff.mp hnil] at hlen
    exact absurd hlen (Nat.lt_irrefl 0)
  · simp only [if_neg hlen] at h
    have hnil : ordered = [] := List.length_eq_zero_iff.mp (by omega)
    exact Or.inl ⟨by rw [hnil]; rfl, (Except.ok.inj h).symm⟩

/-- The transactions a trace adds: one, unless nothing is picked. -/
def trxsOf (coreAccount : Name) (trace : TransactionTrace) : List NativeTrx :=
  if trace.status ≠ .executed then []
  else
    match pickedActions coreAccount trace with
    | .ok (action :: actions) =>
        [{ newTrx trace with actions := trxActions (action :: actions) }]
    | _ => []

/-- **One trace** appends its transaction, and sets the configuration only while
    the block is empty. -/
theorem appendTrace_ok {coreAccount : Name} {block block' : NativeBlock}
    {trace : TransactionTrace} (h : appendTrace coreAccount block trace = .ok block') :
    block'.transactions = block.transactions ++ trxsOf coreAccount trace ∧
      (block.transactions ≠ [] → block'.newConfig = block.newConfig) := by
  rw [appendTrace] at h
  by_cases hstatus : trace.status ≠ .executed
  · rw [if_pos hstatus] at h
    obtain rfl := Except.ok.inj h
    rw [trxsOf, if_pos hstatus, List.append_nil]
    exact ⟨rfl, fun _ => rfl⟩
  · rw [if_neg hstatus] at h
    rw [trxsOf, if_neg hstatus]
    obtain ⟨actions, hpicked, ⟨rfl, rfl⟩ | ⟨hne, block₁, nativeTrx, hacts, rfl⟩⟩ :=
      appendToBlock_ok h
    · rw [hpicked]
      exact ⟨(List.append_nil _).symm, fun _ => rfl⟩
    · obtain ⟨htrx, hconfig⟩ := addActions_ok hacts
      obtain ⟨action, rest, rfl⟩ := List.exists_cons_of_ne_nil hne
      have hnative : nativeTrx
          = { newTrx trace with actions := trxActions (action :: rest) } := by
        rw [htrx]
        rfl
      rw [hpicked]
      rcases hconfig with ⟨rfl, -⟩ | ⟨-, hempty, -, config, rest', -, rfl, -, -⟩
      · exact ⟨by rw [hnative], fun _ => rfl⟩
      · exact ⟨by rw [hnative], fun hnonempty => absurd hempty hnonempty⟩

theorem appendTraces_ok {coreAccount : Name} :
    ∀ {traces : List TransactionTrace} {block block' : NativeBlock},
      traces.foldlM (appendTrace coreAccount) block = .ok block' →
      block'.transactions
          = block.transactions ++ traces.flatMap (trxsOf coreAccount) ∧
        (block.transactions ≠ [] → block'.newConfig = block.newConfig) := by
  intro traces
  induction traces with
  | nil =>
      intro block block' h
      obtain rfl := Except.ok.inj h
      exact ⟨(List.append_nil _).symm, fun _ => rfl⟩
  | cons trace traces ih =>
      intro block block' h
      rw [List.foldlM_cons] at h
      obtain ⟨block₁, h₁, h⟩ := bind_ok h
      obtain ⟨htrxs₁, hconfig₁⟩ := appendTrace_ok h₁
      obtain ⟨htrxs, hconfig⟩ := ih h
      refine ⟨?_, ?_⟩
      · rw [htrxs, htrxs₁, List.flatMap_cons, List.append_assoc]
      · intro hne
        have hne₁ : block₁.transactions ≠ [] := by
          rw [htrxs₁]
          exact List.append_ne_nil_of_left_ne_nil hne _
        rw [hconfig hne₁, hconfig₁ hne]

/-- The phases of an accepted block. -/
theorem toNative_ok {coreAccount : Name} {res : GetBlocksResult} {b : NativeBlock}
    (h : toNative coreAccount res = .ok (some b)) :
    ∃ thisBlock block final, res.thisBlock = some thisBlock ∧
      startNativeBlock thisBlock res = .ok block ∧
      (res.traces.getD []).foldlM (appendTrace coreAccount) block = .ok final ∧
      b = { final with lib := res.lastIrreversible.blockNum } := by
  rw [toNative] at h
  cases hthis : res.thisBlock with
  | none => rw [hthis] at h; cases Except.ok.inj h
  | some thisBlock =>
      rw [hthis] at h
      obtain ⟨block, hstart, h⟩ := bind_ok h
      obtain ⟨final, hloop, h⟩ := bind_ok h
      exact ⟨thisBlock, block, final, rfl, hstart, hloop,
        (Option.some.inj (Except.ok.inj h)).symm⟩

end ShipReceiver

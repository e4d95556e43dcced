import EosEvmNode.ShipReceiver.Selection
import EosEvmNode.ShipReceiver.Assembly

/-! # Foreign actions — what a notification can do

    The contract's account is notified of actions of other contracts: their
    receiver is the account, their `account` is not.  The receiver of the state
    history picks traces by receiver and name and never looks at `account`, so
    such a notification counts as an action of the contract whenever it is named
    like one.

    A trace has no influence, whoever sent it, where the extraction ends before its
    transaction (`Unreached`), and where it is `Ignored`: giving it an unrelated name
    changes nothing.  In a block that is accepted with the unrelated name no other
    trace is without influence. -/

namespace ShipReceiver

open Channels Runs

/-- The trace at index `j` under another name. -/
def TransactionTrace.renameAt (j : Nat) (n : Name) (trace : TransactionTrace) :
    TransactionTrace :=
  { trace with actionTraces := trace.actionTraces.modify j (ActionTrace.rename n) }

/-- The block with that trace of transaction `i` under another name. -/
def GetBlocksResult.renameAt (i j : Nat) (n : Name) (res : GetBlocksResult) :
    GetBlocksResult :=
  { res with
    traces := res.traces.map
      (fun traces => traces.modify i (TransactionTrace.renameAt j n)) }

/-- A later trace of the same name takes the place of the one at index `j`. -/
def Overwritten (coreAccount : Name) (actions : List ActionTrace) (j : Nat)
    (act : ActionTrace) : Prop :=
  ∃ k later seq, j < k ∧ actions[k]? = some later ∧
    later.receiver = coreAccount ∧ later.act.name = act.act.name ∧
    sequenceOf actions j act = .ok seq ∧ sequenceOf actions k later = .ok seq

/-- The trace is not picked, or its place is taken by a later one. -/
def Ignored (coreAccount : Name) (trace : TransactionTrace) (j : Nat)
    (act : ActionTrace) : Prop :=
  trace.status ≠ .executed ∨ act.receiver ≠ coreAccount ∨ Unrelated act.act.name ∨
  (act.act.name = pushtxN ∧ ∃ other ∈ trace.actionTraces,
    other.receiver = coreAccount ∧ other.act.name = evmtxN) ∨
  Overwritten coreAccount trace.actionTraces j act

/-- The extraction ends before transaction `i`: there is no block, or it cannot be
    started, or an earlier transaction makes it throw. -/
def Unreached (coreAccount : Name) (res : GetBlocksResult) (i : Nat) : Prop :=
  ∀ thisBlock ∈ res.thisBlock, ∀ block, startNativeBlock thisBlock res = .ok block →
    ∀ reached, ((res.traces.getD []).take i).foldlM (appendTrace coreAccount) block
      ≠ .ok reached

/-- The trace has no influence on the native block, nor on the exception. -/
def Inert (coreAccount : Name) (res : GetBlocksResult) (i j : Nat) : Prop :=
  ∀ n, Unrelated n →
    toNative coreAccount res = toNative coreAccount (res.renameAt i j n)

/-! ## What is ignored has no influence -/

section Ignored

variable {coreAccount : Name} {trace : TransactionTrace} {j : Nat}
  {act : ActionTrace} {n : Name} {before after : List ActionTrace}

theorem receipts_rename :
    (before ++ act :: after).map (fun a => a.receipt)
      = (before ++ act.rename n :: after).map (fun a => a.receipt) := by
  rw [List.map_append, List.map_append]
  rfl

/-- The choice between `pushtx` and `evmtx` stays unless the only `evmtx` trace
    is renamed. -/
theorem actionToSearch_rename (hn : Unrelated n)
    (h : act.receiver ≠ coreAccount ∨ act.act.name ≠ evmtxN ∨
      ∃ other ∈ before ++ after, other.receiver = coreAccount ∧
        other.act.name = evmtxN) :
    actionToSearch coreAccount (before ++ act.rename n :: after)
      = actionToSearch coreAccount (before ++ act :: after) := by
  have hiff : (∃ a ∈ before ++ act.rename n :: after,
        a.receiver = coreAccount ∧ a.act.name = evmtxN) ↔
      ∃ a ∈ before ++ act :: after,
        a.receiver = coreAccount ∧ a.act.name = evmtxN := by
    constructor
    · rintro ⟨a, ha, hr, hname⟩
      rcases List.mem_append.mp ha with hmem | hmem
      · exact ⟨a, List.mem_append_left _ hmem, hr, hname⟩
      · rcases List.mem_cons.mp hmem with rfl | hmem
        · exact absurd hname hn.2.1
        · exact ⟨a, List.mem_append_right _ (List.mem_cons_of_mem _ hmem), hr, hname⟩
    · rintro ⟨a, ha, hr, hname⟩
      rcases List.mem_append.mp ha with hmem | hmem
      · exact ⟨a, List.mem_append_left _ hmem, hr, hname⟩
      · rcases List.mem_cons.mp hmem with rfl | hmem
        · -- the renamed trace was no `evmtx` of the contract, or there is another
          rcases h with hne | hne | ⟨other, hother, hr', hname'⟩
          · exact absurd hr hne
          · exact absurd hname hne
          · refine ⟨other, ?_, hr', hname'⟩
            rcases List.mem_append.mp hother with hmem | hmem
            · exact List.mem_append_left _ hmem
            · exact List.mem_append_right _ (List.mem_cons_of_mem _ hmem)
        · exact ⟨a, List.mem_append_right _ (List.mem_cons_of_mem _ hmem), hr, hname⟩
  rw [← actionToSearch_eq_evmtx_iff, ← actionToSearch_eq_evmtx_iff] at hiff
  rcases actionToSearch_eq coreAccount (before ++ act :: after) with h₁ | h₁
  · rcases actionToSearch_eq coreAccount (before ++ act.rename n :: after)
      with h₂ | h₂
    · rw [h₁, h₂]
    · exact h₂.trans (hiff.mp h₂).symm
  · exact (hiff.mpr h₁).trans h₁.symm

/-- The loop in three parts: the traces before, the one in question, the traces
    after. -/
theorem orderActions_split (search : Name) (actions : List ActionTrace)
    (x : ActionTrace) :
    (before ++ x :: after).zipIdx.foldlM (orderAction coreAccount search actions) []
      = before.zipIdx.foldlM (orderAction coreAccount search actions) []
        >>= fun m => orderAction coreAccount search actions m (x, before.length)
        >>= fun m => (after.zipIdx (before.length + 1)).foldlM
          (orderAction coreAccount search actions) m := by
  rw [List.zipIdx_append, List.foldlM_append]
  simp only [Nat.zero_add, List.zipIdx_cons, List.foldlM_cons]

/-- **An ignored trace** can have any unrelated name. -/
theorem orderActions_rename (hn : Unrelated n)
    (h : act.receiver ≠ coreAccount ∨ Unrelated act.act.name ∨
      (act.act.name = pushtxN ∧ ∃ other ∈ before ++ act :: after,
        other.receiver = coreAccount ∧ other.act.name = evmtxN) ∨
      Overwritten coreAccount (before ++ act :: after) before.length act) :
    orderActions coreAccount (before ++ act.rename n :: after)
      = orderActions coreAccount (before ++ act :: after) := by
  have hsearch : actionToSearch coreAccount (before ++ act.rename n :: after)
      = actionToSearch coreAccount (before ++ act :: after) := by
    refine actionToSearch_rename hn ?_
    rcases h with hne | hname | ⟨hname, -⟩ | ⟨k, later, -, hk, hlater, hr, hname, -⟩
    · exact Or.inl hne
    · exact Or.inr (Or.inl hname.2.1)
    · exact Or.inr (Or.inl (hname ▸ pushtxN_ne_evmtxN))
    · by_cases hevm : act.act.name = evmtxN
      · refine Or.inr (Or.inr ⟨later, ?_, hr, hname.trans hevm⟩)
        rw [List.getElem?_append_right (by omega),
          show k - before.length = (k - before.length - 1) + 1 by omega,
          List.getElem?_cons_succ] at hlater
        exact List.mem_append_right _ (List.mem_of_getElem? hlater)
      · exact Or.inr (Or.inl hevm)
  have hreceipts : orderAction coreAccount
      (actionToSearch coreAccount (before ++ act :: after))
      (before ++ act.rename n :: after)
      = orderAction coreAccount
          (actionToSearch coreAccount (before ++ act :: after))
          (before ++ act :: after) := orderAction_congr receipts_rename.symm
  rw [orderActions, orderActions, hsearch, hreceipts,
    orderActions_split, orderActions_split]
  refine bind_congr ?_
  intro m
  rw [orderAction_of_not_selected (hsearch ▸ isSelected_rename hn act)]
  cases hsel : isSelected coreAccount
    (actionToSearch coreAccount (before ++ act :: after)) act with
  | false => rw [orderAction_of_not_selected hsel]
  | true =>
      obtain ⟨hnames, hreceiver⟩ := isSelected_iff.mp hsel
      rcases h with hne | hname | ⟨hname, hother⟩ |
        ⟨k, later, seq, hk, hlater, hr, hname, hseq, hkseq⟩
      · exact absurd hreceiver.symm hne
      · rw [← show act.rename act.act.name = act from rfl,
          isSelected_rename hname] at hsel
        cases hsel
      · -- `evmtx` is searched for, so `pushtx` is not picked
        rw [actionToSearch_eq_evmtx_iff.mpr hother, hname] at hnames
        rcases hnames with heq | heq
        · exact absurd heq pushtxN_ne_evmtxN
        · exact absurd heq.symm configchangeN_ne_pushtxN
      · -- the later trace overwrites the entry, so it does not matter
        rw [orderAction_of_selected hsel, hseq]
        have hsame : SameBut seq (OrderedMap.assign seq act m) m := by
          intro x
          exact OrderedMap.assign_assign_self seq x act m
        refine (foldlM_orderAction_sameBut hsame ⟨(later, k), ?_, ?_, hkseq⟩).symm
        · rw [List.mk_mem_zipIdx_iff_le_and_getElem?_sub]
          rw [List.getElem?_append_right (by omega),
            show k - before.length = (k - (before.length + 1)) + 1 by omega,
            List.getElem?_cons_succ] at hlater
          exact ⟨by omega, hlater⟩
        · rw [isSelected_iff, hname]
          exact ⟨hnames, hr.symm⟩

theorem appendTrace_rename (hn : Unrelated n)
    (hact : trace.actionTraces[j]? = some act)
    (h : Ignored coreAccount trace j act) (block : NativeBlock) :
    appendTrace coreAccount block (trace.renameAt j n)
      = appendTrace coreAccount block trace := by
  obtain ⟨before, after, hsplit, rfl, hmod⟩ := exists_split_of_getElem? hact
  rcases h with hstatus | h
  · rw [appendTrace, appendTrace, if_pos hstatus]
    exact if_pos hstatus
  · rw [hsplit] at h
    have hordered := orderActions_rename hn h
    rw [← hsplit, ← hmod] at hordered
    rw [appendTrace, appendTrace, appendToBlock, appendToBlock]
    show (if trace.status ≠ .executed then _ else
      orderActions coreAccount
        (trace.actionTraces.modify before.length (ActionTrace.rename n)) >>= _) = _
    rw [hordered]
    rfl

/-- What is not reached can be anything. -/
theorem Unreached.inert {res : GetBlocksResult} {i : Nat} (h : Unreached coreAccount res i)
    (j : Nat) : Inert coreAccount res i j := by
  intro n _
  have htake : ((res.renameAt i j n).traces.getD []).take i
      = (res.traces.getD []).take i := by
    rw [GetBlocksResult.renameAt]
    cases res.traces with
    | none => rfl
    | some traces =>
        show (traces.modify i _).take i = traces.take i
        rw [List.take_modify, List.modify_eq_self (List.length_take_le i traces)]
  -- what comes after the first `i` transactions does not matter
  have hloop : ∀ (later later' : List TransactionTrace) {thisBlock : BlockPosition}
      {block : NativeBlock}, thisBlock ∈ res.thisBlock →
      startNativeBlock thisBlock res = .ok block →
      ((res.traces.getD []).take i ++ later).foldlM (appendTrace coreAccount) block
        = ((res.traces.getD []).take i ++ later').foldlM (appendTrace coreAccount) block := by
    intro later later' thisBlock block hthis hstart
    rw [List.foldlM_append, List.foldlM_append]
    cases hreached : ((res.traces.getD []).take i).foldlM (appendTrace coreAccount) block with
    | error e => rfl
    | ok reached => exact absurd hreached (h thisBlock hthis block hstart reached)
  rw [toNative, toNative, show (res.renameAt i j n).thisBlock = res.thisBlock from rfl]
  cases hthis : res.thisBlock with
  | none => rfl
  | some thisBlock =>
      have hstart : startNativeBlock thisBlock (res.renameAt i j n)
          = startNativeBlock thisBlock res := rfl
      dsimp only
      rw [hstart]
      cases hstarted : startNativeBlock thisBlock res with
      | error e => rfl
      | ok block =>
          have hsame := hloop ((res.traces.getD []).drop i)
            (((res.renameAt i j n).traces.getD []).drop i) hthis hstarted
          rw [List.take_append_drop, ← htake, List.take_append_drop] at hsame
          rw [ok_bind, ok_bind, hsame]
          rfl

end Ignored

/-! ## What is not ignored has an influence -/

/-- The traces of a transaction are numbered from 1 on, and receipts too: the
    receiver relies on the first when it looks a parent up, and on the second
    when it puts a configuration change before everything else. -/
structure Numbered (trace : TransactionTrace) : Prop where
  ordinals : ∀ j act, trace.actionTraces[j]? = some act → act.actionOrdinal = j + 1
  sequences : ∀ act ∈ trace.actionTraces, ∀ receipt ∈ act.receipt,
    0 < receipt.globalSequence

section Influence

variable {coreAccount : Name} {trace : TransactionTrace} {j : Nat}
  {act : ActionTrace} {n : Name}

/-- The first place is for configuration changes alone. -/
theorem Numbered.sequence_pos (h : Numbered trace) {x : ActionTrace} {k seq : Nat}
    (hx : x ∈ trace.actionTraces)
    (hseq : sequenceOf trace.actionTraces k x = .ok seq) :
    seq = 0 ↔ x.act.name = configchangeN := by
  rcases sequenceOf_cases hseq with ⟨hevm, parent, receipt, hget, hreceipt, rfl⟩ |
    ⟨hconfig, rfl⟩ | ⟨-, hconfig, receipt, hreceipt, rfl⟩
  · have hne : x.act.name ≠ configchangeN := hevm ▸ configchangeN_ne_evmtxN.symm
    have hpos := h.sequences parent (List.mem_of_getElem? hget) receipt hreceipt
    exact ⟨fun hzero => by omega, fun hconfig => absurd hconfig hne⟩
  · exact ⟨fun _ => hconfig, fun _ => rfl⟩
  · have hpos := h.sequences x hx receipt hreceipt
    exact ⟨fun hzero => by omega, fun hc => absurd hc hconfig⟩

/-- Picked traces of the same place have the same name. -/
theorem Numbered.name_eq (h : Numbered trace) {search : Name} {x y : ActionTrace}
    {k l seq : Nat} (hx : x ∈ trace.actionTraces) (hy : y ∈ trace.actionTraces)
    (hxsel : isSelected coreAccount search x = true)
    (hysel : isSelected coreAccount search y = true)
    (hxseq : sequenceOf trace.actionTraces k x = .ok seq)
    (hyseq : sequenceOf trace.actionTraces l y = .ok seq) :
    y.act.name = x.act.name := by
  have hiff := (h.sequence_pos hy hyseq).symm.trans (h.sequence_pos hx hxseq)
  by_cases hconfig : x.act.name = configchangeN
  · rw [hconfig]
    exact hiff.mpr hconfig
  · rcases (isSelected_iff.mp hxsel).1 with hxname | hxname
    · rcases (isSelected_iff.mp hysel).1 with hyname | hyname
      · rw [hxname, hyname]
      · exact absurd (hiff.mp hyname) hconfig
    · exact absurd hxname hconfig

/-- The trace is picked unless one of the first four reasons applies. -/
theorem selected_of_not_ignored (hact : act ∈ trace.actionTraces)
    (hreceiver : act.receiver = coreAccount) (hname : ¬ Unrelated act.act.name)
    (hpushtx : ¬ (act.act.name = pushtxN ∧ ∃ other ∈ trace.actionTraces,
      other.receiver = coreAccount ∧ other.act.name = evmtxN)) :
    isSelected coreAccount (actionToSearch coreAccount trace.actionTraces) act
      = true := by
  refine isSelected_iff.mpr ⟨?_, hreceiver.symm⟩
  by_cases hconfig : act.act.name = configchangeN
  · exact Or.inr hconfig
  · refine Or.inl ?_
    by_cases hevm : act.act.name = evmtxN
    · rw [hevm, actionToSearch_eq_evmtx_iff.mpr ⟨act, hact, hreceiver, hevm⟩]
    · have hp : act.act.name = pushtxN := by
        by_contra hp
        exact hname ⟨hp, hevm, hconfig⟩
      rcases actionToSearch_eq coreAccount trace.actionTraces with h | h
      · rw [h, hp]
      · exact absurd ⟨hp, actionToSearch_eq_evmtx_iff.mp h⟩ hpushtx

/-- **If the renamed trace leaves the same picked actions**, the trace was
    ignored: otherwise its own action is among them. -/
theorem ignored_of_pickedActions (hnum : Numbered trace) (hn : Unrelated n)
    (hact : trace.actionTraces[j]? = some act) {actions : List NativeAction}
    (h : pickedActions coreAccount trace = .ok actions)
    (h' : pickedActions coreAccount (trace.renameAt j n) = .ok actions) :
    Ignored coreAccount trace j act := by
  by_contra hno
  obtain ⟨-, hno⟩ := not_or.mp hno
  obtain ⟨hreceiver, hno⟩ := not_or.mp hno
  obtain ⟨hname, hno⟩ := not_or.mp hno
  obtain ⟨hpushtx, hover⟩ := not_or.mp hno
  have hmem : act ∈ trace.actionTraces := List.mem_of_getElem? hact
  have hsel := selected_of_not_ignored hmem (not_not.mp hreceiver) hname hpushtx
  obtain ⟨before, after, hsplit, rfl, hmod⟩ := exists_split_of_getElem? hact
  obtain ⟨ordered, hordered, rfl⟩ := map_ok h
  obtain ⟨ordered', hordered', hsame⟩ := map_ok h'
  -- nothing takes the place of the trace's entry in the loop
  have hin : ∃ seq, (seq, act) ∈ ordered := by
    rw [orderActions, show trace.actionTraces.zipIdx
      = (before ++ act :: after).zipIdx by rw [hsplit], orderActions_split] at hordered
    obtain ⟨m, -, hordered⟩ := bind_ok hordered
    rw [orderAction_of_selected hsel] at hordered
    obtain ⟨m₁, hm₁, hordered⟩ := bind_ok hordered
    obtain ⟨seq, hseq, rfl⟩ := map_ok hm₁
    rcases mem_foldlM_orderAction hordered (OrderedMap.mem_assign_self seq act m)
      with hmem₁ | ⟨⟨later, k⟩, hlater, hlsel, hlseq⟩
    · exact ⟨seq, hmem₁⟩
    · obtain ⟨hk, hget⟩ := List.mk_mem_zipIdx_iff_le_and_getElem?_sub.mp hlater
      have hget' : trace.actionTraces[k]? = some later := by
        rw [hsplit, List.getElem?_append_right (by omega),
          show k - before.length = (k - (before.length + 1)) + 1 by omega,
          List.getElem?_cons_succ]
        exact hget
      exact absurd ⟨k, later, seq, by omega, hget', (isSelected_iff.mp hlsel).2.symm,
        hnum.name_eq hmem (List.mem_of_getElem? hget') hsel hlsel hseq hlseq,
        hseq, hlseq⟩ hover
  obtain ⟨seq, hseq⟩ := hin
  -- so the renamed loop has an entry with its ordinal, at another index
  have hnative : act.toNativeAction ∈ ordered.map (fun entry => entry.2.toNativeAction) :=
    List.mem_map_of_mem hseq
  rw [← hsame] at hnative
  obtain ⟨entry, hentry, heq⟩ := List.mem_map.mp hnative
  have hactions : (trace.renameAt before.length n).actionTraces
      = before ++ act.rename n :: after := hmod _
  rw [orderActions] at hordered'
  rcases mem_of_foldlM_orderAction hordered' entry hentry with hnil | ⟨k, hk, hksel⟩
  · cases hnil
  · have hkget := List.mk_mem_zipIdx_iff_getElem?.mp hk
    have hordinals : (before ++ act.rename n :: after).map (fun a => a.actionOrdinal)
        = trace.actionTraces.map (fun a => a.actionOrdinal) := by
      rw [hsplit, List.map_append, List.map_append]
      rfl
    have hordinal : entry.2.actionOrdinal = k + 1 := by
      have hget := congrArg (fun l => l[k]?) hordinals
      simp only [List.getElem?_map, ← hactions, hkget, Option.map_some] at hget
      obtain ⟨x, hx, hxo⟩ := Option.map_eq_some_iff.mp hget.symm
      rw [← hxo]
      exact hnum.ordinals k x hx
    have hsameOrdinal : entry.2.actionOrdinal = act.actionOrdinal :=
      congrArg (fun a : NativeAction => a.ordinal) heq
    have hj := hnum.ordinals before.length act hact
    have hkj : k = before.length := by omega
    rw [hactions, hkj, List.getElem?_append_right (Nat.le_refl _), Nat.sub_self,
      List.getElem?_cons_zero] at hkget
    rw [← Option.some.inj hkget, isSelected_rename hn] at hksel
    cases hksel

/-- Two blocks that end up the same had the same actions picked from the trace in
    which they may differ. -/
theorem pickedActions_of_appendTraces {trace' : TransactionTrace}
    (hnew : newTrx trace' = newTrx trace) (hstatus : trace.status = .executed)
    (hstatus' : trace'.status = .executed) {after : List TransactionTrace}
    {block block₁ block₂ final₁ final₂ : NativeBlock}
    (h₁ : appendTrace coreAccount block trace = .ok block₁)
    (h₂ : appendTrace coreAccount block trace' = .ok block₂)
    (hf₁ : after.foldlM (appendTrace coreAccount) block₁ = .ok final₁)
    (hf₂ : after.foldlM (appendTrace coreAccount) block₂ = .ok final₂)
    (htrxs : final₁.transactions = final₂.transactions)
    (hconfig : final₁.newConfig = final₂.newConfig) :
    ∃ actions, pickedActions coreAccount trace = .ok actions ∧
      pickedActions coreAccount trace' = .ok actions := by
  obtain ⟨ht₁, -⟩ := appendTrace_ok h₁
  obtain ⟨ht₂, -⟩ := appendTrace_ok h₂
  obtain ⟨hft₁, hfc₁⟩ := appendTraces_ok hf₁
  obtain ⟨hft₂, hfc₂⟩ := appendTraces_ok hf₂
  -- what the other traces appended cancels
  have hsame : trxsOf coreAccount trace = trxsOf coreAccount trace' := by
    rw [hft₁, hft₂, ht₁, ht₂] at htrxs
    exact List.append_cancel_left (List.append_cancel_right htrxs)
  rw [appendTrace, if_neg (not_not.mpr hstatus)] at h₁
  rw [appendTrace, if_neg (not_not.mpr hstatus')] at h₂
  obtain ⟨actions, hp₁, hcase₁⟩ := appendToBlock_ok h₁
  obtain ⟨actions', hp₂, hcase₂⟩ := appendToBlock_ok h₂
  rw [trxsOf, if_neg (not_not.mpr hstatus), trxsOf, if_neg (not_not.mpr hstatus'),
    hp₁, hp₂] at hsame
  refine ⟨actions, hp₁, ?_⟩
  rcases hcase₁ with ⟨rfl, -⟩ | ⟨hne₁, b₁, t₁, ha₁, rfl⟩
  · cases actions' with
    | nil => exact hp₂
    | cons a rest => cases hsame
  · rcases hcase₂ with ⟨rfl, -⟩ | ⟨hne₂, b₂, t₂, ha₂, rfl⟩
    · cases actions with
      | nil => exact absurd rfl hne₁
      | cons a rest => cases hsame
    · have hc : b₁.newConfig = b₂.newConfig := by
        rw [hfc₁ (by simp), hfc₂ (by simp)] at hconfig
        exact hconfig
      have htrx : trxActions actions = trxActions actions' := by
        obtain ⟨a, rest, rfl⟩ := List.exists_cons_of_ne_nil hne₁
        obtain ⟨a', rest', rfl⟩ := List.exists_cons_of_ne_nil hne₂
        exact congrArg (fun t : NativeTrx => t.actions) (List.cons.inj hsame).1
      rw [hnew] at ha₂
      rw [addActions_inj ha₁ ha₂ hc htrx]
      exact hp₂

end Influence

/-- **When a trace is without influence**, for the trace of any sender, and so
    for that of any foreign one: it is if it is not reached or ignored, and in a block
    that is accepted with the unrelated name it is only if it is ignored. -/
theorem inert_iff_ignored {coreAccount : Name} {res : GetBlocksResult} {i j : Nat}
    {traces : List TransactionTrace} {trace : TransactionTrace} {act : ActionTrace}
    (htraces : res.traces = some traces) (htrace : traces[i]? = some trace)
    (hact : trace.actionTraces[j]? = some act) :
    (Unreached coreAccount res i ∨ Ignored coreAccount trace j act →
      Inert coreAccount res i j) ∧
    ∀ n b, Unrelated n → Numbered trace →
      toNative coreAccount (res.renameAt i j n) = .ok (some b) →
      Inert coreAccount res i j → Ignored coreAccount trace j act := by
  obtain ⟨before, after, hsplit, rfl, hmod⟩ := exists_split_of_getElem? htrace
  have hrenamed : ∀ n, ((res.renameAt before.length j n).traces).getD []
      = before ++ trace.renameAt j n :: after := by
    intro n
    rw [GetBlocksResult.renameAt, htraces]
    exact hmod _
  have horiginal : res.traces.getD [] = before ++ trace :: after := by
    rw [htraces]
    exact hsplit
  refine ⟨?_, ?_⟩
  · rintro (hunreached | h) n hn
    · exact hunreached.inert j n hn
    have hloop : ∀ block, (before ++ trace.renameAt j n :: after).foldlM
          (appendTrace coreAccount) block
        = (before ++ trace :: after).foldlM (appendTrace coreAccount) block := by
      intro block
      rw [List.foldlM_append, List.foldlM_append]
      refine bind_congr fun m => ?_
      rw [List.foldlM_cons, List.foldlM_cons, appendTrace_rename hn hact h]
    rw [toNative, toNative, hrenamed n, horiginal]
    simp only [hloop]
    rfl
  · intro n b hn hnum hb hinert
    by_cases hstatus : trace.status ≠ .executed
    · exact Or.inl hstatus
    · have hstatus : trace.status = .executed := not_not.mp hstatus
      obtain ⟨thisBlock, block, final, hthis, hstart, hloop, hfinal⟩ :=
        toNative_ok ((hinert n hn).trans hb)
      obtain ⟨thisBlock', block', final', hthis', hstart', hloop', hfinal'⟩ :=
        toNative_ok hb
      -- both loops are in the same state when they reach the trace
      rw [horiginal, List.foldlM_append] at hloop
      rw [hrenamed n, List.foldlM_append] at hloop'
      obtain rfl : thisBlock = thisBlock' := Option.some.inj (hthis.symm.trans hthis')
      obtain rfl : block = block' := Except.ok.inj (hstart.symm.trans hstart')
      obtain ⟨middle, hmiddle, hloop⟩ := bind_ok hloop
      obtain ⟨middle', hmiddle', hloop'⟩ := bind_ok hloop'
      obtain rfl : middle = middle' := Except.ok.inj (hmiddle.symm.trans hmiddle')
      rw [List.foldlM_cons] at hloop hloop'
      obtain ⟨block₁, h₁, hafter₁⟩ := bind_ok hloop
      obtain ⟨block₂, h₂, hafter₂⟩ := bind_ok hloop'
      obtain ⟨-, -, -, -, -, hconfig, htrxs⟩ :=
        NativeBlock.mk.inj (hfinal.symm.trans hfinal')
      obtain ⟨actions, hpicked, hpicked'⟩ := pickedActions_of_appendTraces
        (show newTrx (trace.renameAt j n) = newTrx trace from rfl) hstatus hstatus
        h₁ h₂ hafter₁ hafter₂ htrxs hconfig
      exact ignored_of_pickedActions hnum hn hact hpicked hpicked'

/-! ## A forged transaction -/

/-- The account `evm` hosts the contract. -/
def plainCore : Name := Name.ofChars ['e', 'v', 'm']

def plainForger : Name := Name.ofChars ['f', 'o', 'r', 'g', 'e', 'r']

/-- The notification the account `evm` gets of the other contract's action. -/
def plainNotification (name : Name) : ActionTrace where
  actionOrdinal := 2
  creatorActionOrdinal := 1
  receipt := some ⟨101⟩
  receiver := plainCore
  act := ⟨plainForger, name, [1]⟩

/-- A transaction with the other contract's action and the notification. -/
def plainForgery (name : Name) : TransactionTrace where
  id := 1
  status := .executed
  cpuUsageUs := 0
  elapsed := 0
  actionTraces :=
    [{ plainNotification name with
        actionOrdinal := 1
        creatorActionOrdinal := 0
        receipt := some ⟨100⟩
        receiver := plainForger },
     plainNotification name]

/-- A block with one transaction that `evm` had no part in. -/
def plainForged (name : Name) : GetBlocksResult where
  lastIrreversible := ⟨6, 0⟩
  thisBlock := some ⟨7, 7⟩
  prevBlock := some ⟨6, 6⟩
  block := some ⟨0⟩
  traces := some [plainForgery name]

/-- The notification of an action under a name of its own is ignored; without
    influence one named `evmtx` would have to be ignored too. -/
theorem inert_plainForged :
    Inert plainCore (plainForged (Name.ofChars ['h', 'i'])) 0 1 ∧
    (Inert plainCore (plainForged evmtxN) 0 1 →
      Ignored plainCore (plainForgery evmtxN) 1 (plainNotification evmtxN)) := by
  have hnumbered : Numbered (plainForgery evmtxN) := by
    refine ⟨?_, by decide⟩
    intro j act hact
    rcases j with _ | _ | j
    · rw [← Option.some.inj hact]
    · rw [← Option.some.inj hact]
      rfl
    · cases hact
  refine ⟨(inert_iff_ignored rfl rfl rfl).1
    (Or.inr (Or.inr (Or.inr (Or.inl (by decide))))), ?_⟩
  exact (inert_iff_ignored rfl rfl rfl).2 (Name.ofChars ['h', 'i'])
    { id := 7, prev := 6, blockNum := 7, timestamp := timePointOfSlot 0, lib := 6
      newConfig := none, transactions := [] } (by decide) hnumbered (by decide +kernel)

/-- **An action of another contract named `evmtx`** becomes a transaction of the
    virtual chain. -/
theorem not_inert_plainForged :
    (plainForged evmtxN).traces = some [plainForgery evmtxN] ∧
    (plainForgery evmtxN).actionTraces[1]? = some (plainNotification evmtxN) ∧
    (plainNotification evmtxN).act.account ≠ plainCore ∧
    (toNative plainCore (plainForged evmtxN)).map
      (fun r => r.map (fun b => b.transactions.map
        (fun trx => trx.actions.map (fun a => (a.account, a.data)))))
      = .ok (some [[(plainForger, [1])]]) ∧
    ¬ Inert plainCore (plainForged evmtxN) 0 1 := by
  refine ⟨rfl, rfl, by decide, by decide +kernel, ?_⟩
  intro h
  have hsame := h (Name.ofChars ['h', 'i']) (by decide)
  revert hsame
  decide +kernel

end ShipReceiver

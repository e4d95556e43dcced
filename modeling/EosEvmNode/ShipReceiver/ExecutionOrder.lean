import EosEvmNode.ShipReceiver.Assembly
import EosEvmNode.ShipReceiver.Selection

/-! # Execution order — what the ordered map keeps

    `append_to_block` puts the picked traces of a transaction in a map from
    global sequences and reads them back in key order.  Two traces under one key
    leave one entry: nothing is lost exactly when no later trace takes the place
    of an `evmtx` or `pushtx` and no configuration change that of another. -/

namespace ShipReceiver

open Channels Runs

/-! ## What is to be kept -/

/-- The events of a transaction: the traces the core account received under the
    name that is searched for. -/
def matchingTraces (coreAccount : Name) (actions : List ActionTrace) :
    List ActionTrace :=
  actions.filter (fun a => a.receiver = coreAccount ∧
    a.act.name = actionToSearch coreAccount actions)

def configTraces (coreAccount : Name) (actions : List ActionTrace) :
    List ActionTrace :=
  actions.filter (fun a => a.receiver = coreAccount ∧ a.act.name = configchangeN)

/-- When an event was executed: at the global sequence of its creator for
    `evmtx`, of its own for `pushtx`.  Action ordinals count the traces from 1. -/
def executionSequence (actions : List ActionTrace) (act : ActionTrace) : Nat :=
  let executed :=
    if act.act.name = evmtxN then actions[act.creatorActionOrdinal - 1]?
    else some act
  ((executed.bind (fun a => a.receipt)).map (fun r => r.globalSequence)).getD 0

/-- All events go into the block, once each and in execution order, and two
    configuration changes are refused. -/
def EventsKept (coreAccount : Name) (block : NativeBlock)
    (trace : TransactionTrace) : Prop :=
  (∀ block', appendToBlock coreAccount block trace = .ok block' →
    ∃ picked : List ActionTrace,
      picked.Perm (matchingTraces coreAccount trace.actionTraces) ∧
      picked.Pairwise (fun x y => executionSequence trace.actionTraces x
        ≤ executionSequence trace.actionTraces y) ∧
      ((picked = [] ∧ block' = block) ∨
        block'.transactions = block.transactions ++
          [{ newTrx trace with
            actions := picked.map (fun a => a.toNativeAction) }])) ∧
  (2 ≤ (configTraces coreAccount trace.actionTraces).length →
    ∃ err, appendToBlock coreAccount block trace = .error err)

/-! ## The keys -/

/-- The key of a picked trace in the map. -/
def placeOf (actions : List ActionTrace) (act : ActionTrace) : Nat :=
  if act.act.name = configchangeN then 0 else executionSequence actions act

/-- The picked traces: events and configuration changes. -/
def selectedTraces (coreAccount : Name) (actions : List ActionTrace) :
    List ActionTrace :=
  actions.filter (isSelected coreAccount (actionToSearch coreAccount actions))

/-- Two picked traces share a place only where a configuration change gives way
    to a later event. -/
def NoCollision (coreAccount : Name) (actions : List ActionTrace) : Prop :=
  (selectedTraces coreAccount actions).Pairwise (fun x y =>
    placeOf actions x = placeOf actions y →
      x.act.name = configchangeN ∧ y.act.name ≠ configchangeN)

instance (coreAccount : Name) (actions : List ActionTrace) :
    Decidable (NoCollision coreAccount actions) :=
  inferInstanceAs (Decidable (List.Pairwise _ _))

/-- Is the entry an event? -/
def isEvent (entry : Nat × ActionTrace) : Bool :=
  entry.2.act.name ≠ configchangeN

section Keys

variable {coreAccount : Name} {actions : List ActionTrace}

theorem sequenceOf_ok {j k : Nat} {act : ActionTrace}
    (h : sequenceOf actions j act = .ok k) : k = placeOf actions act := by
  rw [placeOf, executionSequence]
  -- the three origins of a place, in the order `placeOf` tells them apart
  rcases sequenceOf_cases h with ⟨hevm, parent, receipt, hget, hreceipt, rfl⟩ |
    ⟨hconfig, rfl⟩ | ⟨hevm, hconfig, receipt, hreceipt, rfl⟩
  · have hne : act.act.name ≠ configchangeN := hevm ▸ configchangeN_ne_evmtxN.symm
    rw [if_neg hne, if_pos hevm, hget]
    simp [hreceipt]
  · rw [if_pos hconfig]
  · rw [if_neg hconfig, if_neg hevm]
    simp [hreceipt]

/-- The loop assigns the picked traces to their places, one after the other. -/
theorem foldlM_orderAction_ok {search : Name} :
    ∀ {entries : List (ActionTrace × Nat)} {m m' : List (Nat × ActionTrace)},
      entries.foldlM (orderAction coreAccount search actions) m = .ok m' →
      m' = (((entries.map (fun e => e.1)).filter (isSelected coreAccount search)).map
        (fun a => (placeOf actions a, a))).foldl
          (fun m entry => OrderedMap.assign entry.1 entry.2 m) m := by
  intro entries
  induction entries with
  | nil =>
      intro m m' h
      exact (Except.ok.inj h).symm
  | cons first rest ih =>
      intro m m' h
      obtain ⟨act, j⟩ := first
      rw [List.foldlM_cons] at h
      obtain ⟨m₁, h₁, h⟩ := bind_ok h
      rw [ih h, List.map_cons]
      cases hfirst : isSelected coreAccount search act with
      | false =>
          rw [orderAction_of_not_selected hfirst] at h₁
          rw [List.filter_cons_of_neg (by simp [hfirst]), Except.ok.inj h₁]
      | true =>
          rw [orderAction_of_selected hfirst] at h₁
          obtain ⟨k, hk, rfl⟩ := map_ok h₁
          rw [List.filter_cons_of_pos hfirst, List.map_cons, List.foldl_cons,
            sequenceOf_ok hk]

theorem orderActions_ok {ordered : List (Nat × ActionTrace)}
    (h : orderActions coreAccount actions = .ok ordered) :
    ordered = OrderedMap.assignAll
      ((selectedTraces coreAccount actions).map
        (fun a => (placeOf actions a, a))) := by
  rw [foldlM_orderAction_ok h]
  have hfst : actions.zipIdx.map (fun e => e.1) = actions :=
    List.zipIdx_map_fst 0 actions
  rw [hfst]
  rfl

/-- The events among the picked traces. -/
theorem filter_selectedTraces :
    (selectedTraces coreAccount actions).filter
        (fun a => a.act.name ≠ configchangeN)
      = matchingTraces coreAccount actions := by
  have hsearch : actionToSearch coreAccount actions ≠ configchangeN := by
    rcases actionToSearch_eq coreAccount actions with h | h
    · rw [h]
      exact configchangeN_ne_pushtxN.symm
    · rw [h]
      exact configchangeN_ne_evmtxN.symm
  rw [selectedTraces, matchingTraces, List.filter_filter]
  refine List.filter_congr ?_
  intro a _
  rw [isSelected]
  by_cases hname : a.act.name = actionToSearch coreAccount actions
  · simp [hname, hsearch, eq_comm]
  · by_cases hconfig : a.act.name = configchangeN
    · simp [hconfig, hsearch.symm]
    · simp [hname, hconfig]

/-- The entries put into the map, in the order of the traces. -/
def mapEntries (coreAccount : Name) (actions : List ActionTrace) :
    List (Nat × ActionTrace) :=
  (selectedTraces coreAccount actions).map (fun a => (placeOf actions a, a))

theorem filter_mapEntries :
    (mapEntries coreAccount actions).filter isEvent
      = (matchingTraces coreAccount actions).map
          (fun a => (placeOf actions a, a)) := by
  rw [mapEntries, List.filter_map, ← filter_selectedTraces]
  rfl

/-- Of a kind at most one is left when no two are. -/
theorem length_filter_le_one_iff {α : Type} {p : α → Bool} {l : List α} :
    (l.filter p).length ≤ 1 ↔ l.Pairwise (fun x y => ¬ (p x = true ∧ p y = true)) := by
  have hnone : ∀ l : List α,
      l.length ≤ 1 ↔ l.Pairwise (fun _ _ => False) := by
    intro l
    match l with
    | [] => simp
    | [_] => simp
    | x :: y :: rest =>
        refine iff_of_false (by simp) ?_
        intro h
        exact (List.pairwise_cons.mp h).1 y List.mem_cons_self
  rw [hnone, List.pairwise_filter]
  refine List.Pairwise.iff (fun {x y} => ?_)
  rw [not_and]

theorem noCollision_iff :
    NoCollision coreAccount actions ↔
      (mapEntries coreAccount actions).Pairwise
          (fun x y => isEvent x = true → x.1 ≠ y.1) ∧
        (configTraces coreAccount actions).length ≤ 1 := by
  have hconfigs : configTraces coreAccount actions
      = (selectedTraces coreAccount actions).filter
          (fun a => a.act.name = configchangeN) := by
    rw [configTraces, selectedTraces, List.filter_filter]
    refine List.filter_congr ?_
    intro a _
    rw [isSelected]
    by_cases hconfig : a.act.name = configchangeN
    · simp [hconfig, eq_comm]
    · simp [hconfig]
  rw [hconfigs, length_filter_le_one_iff, mapEntries, List.pairwise_map,
    ← List.pairwise_and_iff, NoCollision]
  refine List.Pairwise.iff (fun {x y} => ?_)
  simp only [isEvent, decide_eq_true_eq, ne_eq, decide_not, Bool.not_eq_true',
    decide_eq_false_iff_not]
  constructor
  · intro h
    refine ⟨fun hx heq => hx (h heq).1, ?_⟩
    rintro ⟨hx, hy⟩
    -- all configuration changes go to the first place
    have heq : placeOf actions x = placeOf actions y := by
      rw [placeOf, placeOf, if_pos hx, if_pos hy]
    exact (h heq).2 hy
  · rintro ⟨hevent, hconfig⟩ heq
    have hx : x.act.name = configchangeN := by
      by_contra hx
      exact hevent hx heq
    exact ⟨hx, fun hy => hconfig ⟨hx, hy⟩⟩

end Keys

/-! ## The appended transaction -/

section Appending

variable {coreAccount : Name} {block block' : NativeBlock} {trace : TransactionTrace}

/-- The events the map still holds, in key order. -/
def keptEvents (coreAccount : Name) (actions : List ActionTrace) :
    List (Nat × ActionTrace) :=
  (OrderedMap.assignAll (mapEntries coreAccount actions)).filter isEvent

/-- An accepted trace adds the events in the map as one transaction. -/
theorem appendToBlock_events (h : appendToBlock coreAccount block trace = .ok block') :
    (keptEvents coreAccount trace.actionTraces = [] ∧ block' = block) ∨
      block'.transactions = block.transactions ++
        [{ newTrx trace with
          actions := (keptEvents coreAccount trace.actionTraces).map
            (fun entry => entry.2.toNativeAction) }] := by
  obtain ⟨actions, hpicked, hblock⟩ := appendToBlock_ok h
  obtain ⟨ordered, hordered, hactions⟩ := map_ok hpicked
  have hmap : ordered = OrderedMap.assignAll
      (mapEntries coreAccount trace.actionTraces) := orderActions_ok hordered
  have htrx : trxActions actions
      = (keptEvents coreAccount trace.actionTraces).map
          (fun entry => entry.2.toNativeAction) := by
    rw [keptEvents, ← hmap, ← hactions, trxActions, List.filter_map]
    rfl
  rcases hblock with ⟨hnil, hsame⟩ | ⟨-, block₁, nativeTrx, hadd, hres⟩
  · refine Or.inl ⟨?_, hsame⟩
    rw [hnil] at htrx
    exact List.map_eq_nil_iff.mp htrx.symm
  · refine Or.inr ?_
    obtain ⟨hnative, hconfig⟩ := addActions_ok hadd
    have htrxs : block₁.transactions = block.transactions := by
      rcases hconfig with ⟨rfl, -⟩ | ⟨-, -, -, config, rest, -, rfl, -, -⟩ <;> rfl
    rw [hres, htrxs, hnative, ← htrx]
    rfl

theorem keptEvents_perm : (keptEvents coreAccount trace.actionTraces).Perm
    ((OrderedMap.lastOfKeys (mapEntries coreAccount trace.actionTraces)).filter
      isEvent) :=
  (OrderedMap.assignAll_perm _).filter _

/-- The events in the map are in execution order. -/
theorem keptEvents_ordered {actions : List ActionTrace} :
    ((keptEvents coreAccount actions).map (fun entry => entry.2)).Pairwise
      (fun x y => executionSequence actions x ≤ executionSequence actions y) := by
  have hkey : ∀ entry ∈ keptEvents coreAccount actions,
      entry.1 = executionSequence actions entry.2 := by
    intro entry hentry
    obtain ⟨hmem, hevent⟩ := List.mem_filter.mp hentry
    have hlast := (OrderedMap.assignAll_perm _).subset hmem
    obtain ⟨a, -, rfl⟩ := List.mem_map.mp (List.pwFilter_subset _ hlast)
    have hname : a.act.name ≠ configchangeN := by simpa [isEvent] using hevent
    show placeOf actions a = _
    rw [placeOf, if_neg hname]
  rw [List.pairwise_map]
  have hordered : (keptEvents coreAccount actions).Pairwise
      (fun x y => x.1 < y.1) :=
    List.Pairwise.sublist List.filter_sublist (OrderedMap.assignAll_ordered _)
  refine hordered.imp_of_mem ?_
  intro x y hx hy hlt
  rw [← hkey x hx, ← hkey y hy]
  exact Nat.le_of_lt hlt

/-- As many events as there are, only when none has been replaced. -/
theorem length_keptEvents_eq_iff {actions : List ActionTrace} :
    (keptEvents coreAccount actions).length
        = (matchingTraces coreAccount actions).length ↔
      (OrderedMap.lastOfKeys (mapEntries coreAccount actions)).filter isEvent
        = (mapEntries coreAccount actions).filter isEvent := by
  have hlen : (keptEvents coreAccount actions).length
      = ((OrderedMap.lastOfKeys (mapEntries coreAccount actions)).filter
          isEvent).length := ((OrderedMap.assignAll_perm _).filter _).length_eq
  have hsub : ((OrderedMap.lastOfKeys (mapEntries coreAccount actions)).filter
      isEvent).Sublist ((mapEntries coreAccount actions).filter isEvent) :=
    (List.pwFilter_sublist _).filter _
  have hall : ((mapEntries coreAccount actions).filter isEvent).length
      = (matchingTraces coreAccount actions).length := by
    rw [filter_mapEntries, List.length_map]
  constructor
  · intro h
    exact hsub.eq_of_length (by rw [← hlen, h, hall])
  · intro h
    rw [hlen, h, hall]

theorem eventsKept_of_noCollision (h : NoCollision coreAccount trace.actionTraces) :
    EventsKept coreAccount block trace := by
  obtain ⟨hevents, hconfigs⟩ := noCollision_iff.mp h
  refine ⟨?_, fun htwo => absurd htwo (by omega)⟩
  intro block' hok
  have hlast := OrderedMap.filter_lastOfKeys_eq_iff.mpr hevents
  have hperm : (keptEvents coreAccount trace.actionTraces).Perm
      ((mapEntries coreAccount trace.actionTraces).filter isEvent) :=
    hlast ▸ keptEvents_perm
  refine ⟨(keptEvents coreAccount trace.actionTraces).map (fun entry => entry.2),
    ?_, keptEvents_ordered, ?_⟩
  · rw [filter_mapEntries] at hperm
    have hmap := hperm.map (fun entry => entry.2)
    rw [List.map_map] at hmap
    exact hmap.trans (List.Perm.of_eq (List.map_id' _))
  · rcases appendToBlock_events hok with ⟨hnil, hsame⟩ | htrxs
    · exact Or.inl ⟨by rw [hnil]; rfl, hsame⟩
    · refine Or.inr ?_
      rw [htrxs, List.map_map]
      rfl

theorem noCollision_of_eventsKept
    (hok : appendToBlock coreAccount block trace = .ok block')
    (h : EventsKept coreAccount block trace) :
    NoCollision coreAccount trace.actionTraces := by
  obtain ⟨hkept, hconfigs⟩ := h
  refine noCollision_iff.mpr ⟨?_, ?_⟩
  · obtain ⟨picked, hperm, -, hblock⟩ := hkept block' hok
    rw [← OrderedMap.filter_lastOfKeys_eq_iff, ← length_keptEvents_eq_iff,
      ← hperm.length_eq]
    -- the appended transaction has as many actions as there are events
    rcases appendToBlock_events hok with ⟨hnil, hsame⟩ | htrxs
    · rcases hblock with ⟨rfl, -⟩ | htrxs
      · rw [hnil]
        rfl
      · rw [hsame] at htrxs
        exact absurd htrxs (by simp)
    · rcases hblock with ⟨-, hsame⟩ | htrxs'
      · rw [hsame] at htrxs
        exact absurd htrxs (by simp)
      · rw [htrxs] at htrxs'
        have hlast := List.singleton_inj.mp (List.append_cancel_left htrxs')
        have hactions := congrArg (fun trx => trx.actions.length) hlast
        simpa using hactions
  · by_contra hmany
    obtain ⟨err, herr⟩ := hconfigs (by omega)
    rw [hok] at herr
    cases herr

end Appending

/-- **No event is dropped** exactly when no two picked traces collide in the map:
    then every accepted trace adds all its events in execution order, and of the
    accepted traces no other does. -/
theorem events_kept_iff (coreAccount : Name) (block : NativeBlock)
    (trace : TransactionTrace) :
    (NoCollision coreAccount trace.actionTraces →
      EventsKept coreAccount block trace) ∧
    ∀ block', appendToBlock coreAccount block trace = .ok block' →
      (EventsKept coreAccount block trace ↔
        NoCollision coreAccount trace.actionTraces) :=
  ⟨eventsKept_of_noCollision, fun _ hok =>
    ⟨noCollision_of_eventsKept hok, eventsKept_of_noCollision⟩⟩

/-! ## Three transactions -/

/-- A trace of an action of the account `evm`, received by itself. -/
def plainTrace (name : Name) (ordinal creator sequence : Nat) (data : Bytes) :
    ActionTrace where
  actionOrdinal := ordinal
  creatorActionOrdinal := creator
  receipt := some ⟨sequence⟩
  receiver := Name.ofChars ['e', 'v', 'm']
  act := ⟨Name.ofChars ['e', 'v', 'm'], name, data⟩

def plainTransaction (actionTraces : List ActionTrace) : TransactionTrace where
  id := 1
  status := .executed
  cpuUsageUs := 0
  elapsed := 0
  actionTraces := actionTraces

/-- A native block before its transactions are added. -/
def plainStarted : NativeBlock where
  id := 7
  prev := 6
  blockNum := 7
  timestamp := timePointOfSlot 0
  lib := 0
  newConfig := none
  transactions := []

/-- Two actions in the order of their creation; the second is executed first. -/
def plainReordered : TransactionTrace :=
  plainTransaction [plainTrace pushtxN 1 0 102 [1], plainTrace pushtxN 2 0 101 [2]]

/-- Two events of one creator. -/
def plainSameCreator : TransactionTrace :=
  plainTransaction [plainTrace pushtxN 1 0 100 [1], plainTrace evmtxN 2 1 101 [2],
    plainTrace evmtxN 3 1 102 [3]]

def plainTwoConfigs : TransactionTrace :=
  plainTransaction [plainTrace configchangeN 1 0 100 [1],
    plainTrace configchangeN 2 0 101 [2]]

theorem events_kept_plainReordered :
    EventsKept (Name.ofChars ['e', 'v', 'm']) plainStarted plainReordered ∧
    ∃ block', appendToBlock (Name.ofChars ['e', 'v', 'm']) plainStarted
        plainReordered = .ok block' ∧
      block'.transactions.map (fun trx => trx.actions.map (fun a => a.data))
        = [[[2], [1]]] := by
  refine ⟨(events_kept_iff _ _ _).1 (by decide), ?_⟩
  have hrun : (appendToBlock (Name.ofChars ['e', 'v', 'm']) plainStarted
      plainReordered).map (fun block' => block'.transactions.map
        (fun trx => trx.actions.map (fun a => a.data))) = .ok [[[2], [1]]] := by
    decide +kernel
  exact map_ok hrun

/-- **An event is lost**: of two `evmtx` with the same creator only the second
    goes into the block; and of two configuration changes in one transaction the
    second is applied instead of both being refused. -/
theorem not_events_kept_plainSameCreator :
    (∃ block', appendToBlock (Name.ofChars ['e', 'v', 'm']) plainStarted
        plainSameCreator = .ok block' ∧
      block'.transactions.map (fun trx => trx.actions.map (fun a => a.data))
        = [[[3]]]) ∧
    ¬ EventsKept (Name.ofChars ['e', 'v', 'm']) plainStarted plainSameCreator ∧
    (∃ block', appendToBlock (Name.ofChars ['e', 'v', 'm']) plainStarted
        plainTwoConfigs = .ok block' ∧
      block'.newConfig.map (fun a => a.data) = some [2]) ∧
    ¬ EventsKept (Name.ofChars ['e', 'v', 'm']) plainStarted plainTwoConfigs := by
  have hevents : (appendToBlock (Name.ofChars ['e', 'v', 'm']) plainStarted
      plainSameCreator).map (fun block' => block'.transactions.map
        (fun trx => trx.actions.map (fun a => a.data))) = .ok [[[3]]] := by
    decide +kernel
  have hconfigs : (appendToBlock (Name.ofChars ['e', 'v', 'm']) plainStarted
      plainTwoConfigs).map (fun block' => block'.newConfig.map (fun a => a.data))
        = .ok (some [2]) := by
    decide +kernel
  obtain ⟨block₁, hok₁, hdata₁⟩ := map_ok hevents
  obtain ⟨block₂, hok₂, hdata₂⟩ := map_ok hconfigs
  refine ⟨⟨block₁, hok₁, hdata₁⟩, ?_, ⟨block₂, hok₂, hdata₂⟩, ?_⟩
  · intro h
    exact absurd (noCollision_of_eventsKept hok₁ h) (by decide)
  · intro h
    exact absurd (noCollision_of_eventsKept hok₂ h) (by decide)

end ShipReceiver

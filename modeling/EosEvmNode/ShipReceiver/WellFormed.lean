import EosEvmNode.ShipReceiver.BlockForm

/-! # Well-formed native blocks

    All actions of an accepted native block have one name.  A configuration change
    belongs to the first contribution, and the events of its block are `evmtx`.

    The second law rests on the key 0 the map has for configuration changes: an
    event of sequence 0 would take their place, and the change would be dropped
    without an exception.  `ConfigKept` says of a transaction that this does not
    happen; it does not while receipts are numbered from 1 (`PositiveSequences`). -/

namespace ShipReceiver

open Channels Runs

/-- An executed transaction in which the core account receives a configuration
    change. -/
def HasConfig (coreAccount : Name) (trace : TransactionTrace) : Prop :=
  trace.status = .executed ∧ configTraces coreAccount trace.actionTraces ≠ []

/-- One name for all actions; and where there is a configuration change, it is that
    of the first contribution, and the name is `evmtx`. -/
structure WellFormed (coreAccount : Name) (traces : List TransactionTrace)
    (block : NativeBlock) : Prop where
  one_name : ∃ n, (n = pushtxN ∨ n = evmtxN) ∧
    ∀ trx ∈ block.transactions, ∀ a ∈ trx.actions, a.name = n
  config : (∃ trace ∈ traces, HasConfig coreAccount trace) →
    block.newConfig.isSome = true ∧
    (∀ trx ∈ block.transactions, ∀ a ∈ trx.actions, a.name = evmtxN) ∧
    ∃ idle first later, traces = idle ++ first :: later ∧
      (∀ trace ∈ idle, ¬ Contributes coreAccount trace) ∧
      Contributes coreAccount first ∧
      ∀ trace ∈ idle ++ later, ¬ HasConfig coreAccount trace

/-- No event takes the place of a configuration change: if there is one, the last of
    the picked traces with key 0 is one. -/
def ConfigKept (coreAccount : Name) (actions : List ActionTrace) : Prop :=
  configTraces coreAccount actions ≠ [] →
    ∀ last ∈ ((selectedTraces coreAccount actions).filter
        (fun a => placeOf actions a = 0)).getLast?,
      last.act.name = configchangeN

instance (coreAccount : Name) (actions : List ActionTrace) :
    Decidable (ConfigKept coreAccount actions) :=
  inferInstanceAs (Decidable (_ → _))

/-- The sequences of all receipts are positive: nodeos numbers the actions of its
    chain from 1. -/
def PositiveSequences (trace : TransactionTrace) : Prop :=
  ∀ act ∈ trace.actionTraces, ∀ receipt ∈ act.receipt, 0 < receipt.globalSequence

instance (trace : TransactionTrace) : Decidable (PositiveSequences trace) :=
  inferInstanceAs (Decidable (∀ act ∈ trace.actionTraces,
    ∀ receipt ∈ act.receipt, 0 < receipt.globalSequence))

instance (coreAccount : Name) (trace : TransactionTrace) :
    Decidable (HasConfig coreAccount trace) :=
  inferInstanceAs (Decidable (_ ∧ _))

section Config

variable {coreAccount : Name} {actions : List ActionTrace} {trace : TransactionTrace}

/-- A configuration change of the core account is picked, under the key 0. -/
theorem mem_configTraces {a : ActionTrace} :
    a ∈ configTraces coreAccount actions ↔
      a ∈ selectedTraces coreAccount actions ∧ a.act.name = configchangeN := by
  rw [configTraces, selectedTraces, List.mem_filter, List.mem_filter, isSelected_iff]
  constructor
  · rintro ⟨ha, hdec⟩
    obtain ⟨hreceiver, hname⟩ := by simpa using hdec
    exact ⟨⟨ha, Or.inr hname, hreceiver.symm⟩, hname⟩
  · rintro ⟨⟨ha, -, hreceiver⟩, hname⟩
    exact ⟨ha, by simp [hreceiver, hname]⟩

theorem HasConfig.contributes (h : HasConfig coreAccount trace) :
    Contributes coreAccount trace := by
  obtain ⟨a, ha⟩ := List.exists_mem_of_ne_nil _ h.2
  refine ⟨h.1, ?_⟩
  intro hnil
  have hmem := (mem_configTraces.mp ha).1
  rw [hnil] at hmem
  cases hmem

/-- **What the map holds of the configuration changes**: one, unless the last trace of
    key 0 is an event. -/
theorem exists_config_heldTraces :
    (∃ a ∈ heldTraces coreAccount actions, a.act.name = configchangeN) ↔
      configTraces coreAccount actions ≠ [] ∧ ConfigKept coreAccount actions := by
  have hlast : (∃ a ∈ heldTraces coreAccount actions, a.act.name = configchangeN) ↔
      ∃ last ∈ ((selectedTraces coreAccount actions).filter
        (fun a => placeOf actions a = 0)).getLast?, last.act.name = configchangeN := by
    have hzero : (OrderedMap.lastOfKeys (mapEntries coreAccount actions)).filter
          (fun x => x.1 = 0)
        = (((selectedTraces coreAccount actions).filter
            (fun a => placeOf actions a = 0)).getLast?.map
              (fun a => (placeOf actions a, a))).toList := by
      rw [OrderedMap.filter_key_lastOfKeys, mapEntries, List.filter_map, List.getLast?_map]
      rfl
    constructor
    · rintro ⟨a, ha, hname⟩
      obtain ⟨entry, hentry, rfl⟩ := List.mem_map.mp ha
      have hmem := (OrderedMap.assignAll_perm _).subset hentry
      have hkey : entry.1 = 0 := by
        obtain ⟨x, -, rfl⟩ := List.mem_map.mp (List.pwFilter_subset _ hmem)
        show placeOf actions x = 0
        rw [placeOf, if_pos hname]
      have hin : entry ∈ (OrderedMap.lastOfKeys (mapEntries coreAccount actions)).filter
          (fun x => x.1 = 0) := List.mem_filter.mpr ⟨hmem, by simpa using hkey⟩
      rw [hzero, Option.mem_toList] at hin
      obtain ⟨last, hlast, rfl⟩ := Option.map_eq_some_iff.mp hin
      exact ⟨last, hlast, hname⟩
    · rintro ⟨last, hlast, hname⟩
      have hin : (placeOf actions last, last) ∈
          (OrderedMap.lastOfKeys (mapEntries coreAccount actions)).filter
            (fun x => x.1 = 0) := by
        rw [hzero, Option.mem_toList]
        exact Option.map_eq_some_iff.mpr ⟨last, hlast, rfl⟩
      have hmem := (OrderedMap.assignAll_perm _).symm.subset (List.mem_filter.mp hin).1
      exact ⟨last, List.mem_map.mpr ⟨_, hmem, rfl⟩, hname⟩
  rw [hlast]
  constructor
  · rintro ⟨last, hmem, hname⟩
    have hsel := (List.mem_filter.mp (List.mem_of_getLast? hmem)).1
    refine ⟨List.ne_nil_of_mem (mem_configTraces.mpr ⟨hsel, hname⟩), ?_⟩
    intro _ last' hlast'
    rwa [Option.mem_unique hlast' hmem]
  · rintro ⟨hne, hkept⟩
    obtain ⟨a, ha⟩ := List.exists_mem_of_ne_nil _ hne
    obtain ⟨hsel, hname⟩ := mem_configTraces.mp ha
    -- there is a trace of key 0, so there is a last one
    have hplace : placeOf actions a = 0 := by rw [placeOf, if_pos hname]
    have hmem : a ∈ (selectedTraces coreAccount actions).filter
        (fun a => placeOf actions a = 0) :=
      List.mem_filter.mpr ⟨hsel, by simpa using hplace⟩
    have hlast := List.getLast?_eq_getLast_of_ne_nil (List.ne_nil_of_mem hmem)
    exact ⟨_, hlast, hkept hne _ hlast⟩

theorem exists_config_heldActions :
    (∃ a ∈ heldActions coreAccount trace, a.name = configchangeN) ↔
      configTraces coreAccount trace.actionTraces ≠ [] ∧
        ConfigKept coreAccount trace.actionTraces := by
  rw [← exists_config_heldTraces]
  constructor
  · rintro ⟨a, ha, hname⟩
    obtain ⟨x, hx, rfl⟩ := List.mem_map.mp ha
    exact ⟨x, hx, hname⟩
  · rintro ⟨x, hx, hname⟩
    exact ⟨x.toNativeAction, List.mem_map_of_mem hx, hname⟩

/-- Events have positive keys when all sequences are positive. -/
theorem configKept_of_positive (hplaced : AllPlaced coreAccount trace.actionTraces)
    (hpos : PositiveSequences trace) : ConfigKept coreAccount trace.actionTraces := by
  intro _ last hlast
  obtain ⟨hsel, hplace⟩ := List.mem_filter.mp (List.mem_of_getLast? hlast)
  have hzero : placeOf trace.actionTraces last = 0 := by simpa using hplace
  obtain ⟨hmem, hselected⟩ := List.mem_filter.mp hsel
  obtain ⟨j, hj⟩ := List.mem_iff_getElem?.mp hmem
  have hentry : (last, j) ∈ trace.actionTraces.zipIdx :=
    List.mem_zipIdx_iff_getElem?.mpr hj
  have hok := hplaced _ hentry hselected
  cases hseq : sequenceOf trace.actionTraces j last with
  | error err =>
      rw [hseq] at hok
      cases hok
  | ok k =>
      have hk : k = 0 := (sequenceOf_ok hseq).trans hzero
      rcases sequenceOf_cases hseq with ⟨-, parent, receipt, hget, hreceipt, rfl⟩ |
        ⟨hconfig, -⟩ | ⟨-, -, receipt, hreceipt, rfl⟩
      · have := hpos parent (List.mem_of_getElem? hget) receipt hreceipt
        omega
      · exact hconfig
      · have := hpos last hmem receipt hreceipt
        omega

end Config

/-! ## The fold over the traces -/

section Fold

variable {coreAccount : Name} {n : Name}

/-- One trace of an accepted block: it contributes, or changes nothing. -/
theorem fold_cons_ok {first : TransactionTrace} {rest : List TransactionTrace}
    {block block' : NativeBlock}
    (h : (first :: rest).foldlM (appendTrace coreAccount) block = .ok block') :
    ∃ block₁, rest.foldlM (appendTrace coreAccount) block₁ = .ok block' ∧
      ((Contributes coreAccount first ∧
          appendTrace coreAccount block first = .ok block₁) ∨
        (¬ Contributes coreAccount first ∧ block₁ = block)) := by
  rw [List.foldlM_cons] at h
  obtain ⟨block₁, h₁, h⟩ := bind_ok h
  by_cases hc : Contributes coreAccount first
  · exact ⟨block₁, h, Or.inl ⟨hc, h₁⟩⟩
  · rw [appendTrace_of_idle hc] at h₁
    exact ⟨block₁, h, Or.inr ⟨hc, (Except.ok.inj h₁).symm⟩⟩

/-- What contributes to an accepted block has all its places. -/
theorem placed_of_fold :
    ∀ {traces : List TransactionTrace} {block block' : NativeBlock},
      traces.foldlM (appendTrace coreAccount) block = .ok block' →
      ∀ trace ∈ traces, Contributes coreAccount trace →
        AllPlaced coreAccount trace.actionTraces := by
  intro traces
  induction traces with
  | nil =>
      intro block block' _ trace htrace
      cases htrace
  | cons first rest ih =>
      intro block block' h trace htrace hc
      obtain ⟨block₁, h, hfirst⟩ := fold_cons_ok h
      rcases List.mem_cons.mp htrace with rfl | hmem
      · rcases hfirst with ⟨-, h₁⟩ | ⟨hidle, -⟩
        · exact (contribution_ok hc h₁).1
        · exact absurd hc hidle
      · exact ih h trace hmem hc

/-- The later contributions to a block hold no configuration change. -/
theorem Filled.fold_ok :
    ∀ {traces : List TransactionTrace} {block block' : NativeBlock}, Filled n block →
      traces.foldlM (appendTrace coreAccount) block = .ok block' →
      Filled n block' ∧ block'.newConfig = block.newConfig ∧
        ∀ trace ∈ traces, Contributes coreAccount trace →
          ∀ a ∈ heldActions coreAccount trace, a.name ≠ configchangeN := by
  intro traces
  induction traces with
  | nil =>
      intro block block' hb h
      obtain rfl := Except.ok.inj h
      exact ⟨hb, rfl, by rintro trace ⟨⟩⟩
  | cons first rest ih =>
      intro block block' hb h
      obtain ⟨block₁, hfold, ⟨hc, h₁⟩ | ⟨hc, rfl⟩⟩ := fold_cons_ok h
      · obtain ⟨hb₁, hconfig₁, hnames₁⟩ := hb.append hc h₁
        obtain ⟨hb', hconfig', hnames'⟩ := ih hb₁ hfold
        refine ⟨hb', hconfig'.trans hconfig₁, ?_⟩
        intro trace htrace
        rcases List.mem_cons.mp htrace with rfl | hmem
        · exact fun _ => hnames₁
        · exact hnames' trace hmem
      · obtain ⟨hb', hconfig', hnames'⟩ := ih hb hfold
        refine ⟨hb', hconfig', ?_⟩
        intro trace htrace
        rcases List.mem_cons.mp htrace with rfl | hmem
        · exact fun hc' => absurd hc' hc
        · exact hnames' trace hmem

/-- After a configuration change alone nothing more contributes. -/
theorem ConfigAlone.fold_ok :
    ∀ {traces : List TransactionTrace} {block block' : NativeBlock}, ConfigAlone block →
      traces.foldlM (appendTrace coreAccount) block = .ok block' →
      block' = block ∧ ∀ trace ∈ traces, ¬ Contributes coreAccount trace := by
  intro traces
  induction traces with
  | nil =>
      intro block block' _ h
      exact ⟨(Except.ok.inj h).symm, by rintro trace ⟨⟩⟩
  | cons first rest ih =>
      intro block block' hb h
      obtain ⟨block₁, hfold, ⟨hc, h₁⟩ | ⟨hc, rfl⟩⟩ := fold_cons_ok h
      · obtain ⟨err, herr, -⟩ := hb.append hc
        rw [h₁] at herr
        cases herr
      · obtain ⟨hsame, hrest⟩ := ih hb hfold
        refine ⟨hsame, ?_⟩
        intro trace htrace
        rcases List.mem_cons.mp htrace with rfl | hmem
        · exact hc
        · exact hrest trace hmem

/-- How a block was assembled from its first contribution on. -/
structure Assembled (coreAccount : Name) (traces : List TransactionTrace)
    (block : NativeBlock) (idle : List TransactionTrace) (first : TransactionTrace)
    (later : List TransactionTrace) : Prop where
  split : traces = idle ++ first :: later
  idle : ∀ trace ∈ idle, ¬ Contributes coreAccount trace
  contributes : Contributes coreAccount first
  config : block.newConfig.isSome = true ↔
    ∃ a ∈ heldActions coreAccount first, a.name = configchangeN
  later : ∀ trace ∈ later, Contributes coreAccount trace →
    ∀ a ∈ heldActions coreAccount trace, a.name ≠ configchangeN
  form : ConfigAlone block ∨ ∃ n, Filled n block

/-- **An accepted block** has no contributions, or was assembled from the first on. -/
theorem Untouched.fold_ok :
    ∀ {traces : List TransactionTrace} {block block' : NativeBlock}, Untouched block →
      traces.foldlM (appendTrace coreAccount) block = .ok block' →
      (Untouched block' ∧ ∀ trace ∈ traces, ¬ Contributes coreAccount trace) ∨
        ∃ idle first later, Assembled coreAccount traces block' idle first later := by
  intro traces
  induction traces with
  | nil =>
      intro block block' hb h
      obtain rfl := Except.ok.inj h
      exact Or.inl ⟨hb, by rintro trace ⟨⟩⟩
  | cons first rest ih =>
      intro block block' hb h
      obtain ⟨block₁, hfold, ⟨hc, h₁⟩ | ⟨hc, rfl⟩⟩ := fold_cons_ok h
      · refine Or.inr ⟨[], first, rest, ?_⟩
        have hidle : ∀ trace ∈ ([] : List TransactionTrace),
            ¬ Contributes coreAccount trace := by rintro trace ⟨⟩
        obtain ⟨-, hconfig, ⟨halone, -⟩ | hfilled⟩ := hb.append hc h₁
        · obtain ⟨rfl, hrest⟩ := halone.fold_ok hfold
          exact ⟨rfl, hidle, hc, hconfig, fun trace ht hct => absurd hct (hrest trace ht),
            Or.inl halone⟩
        · obtain ⟨hfilled', hsame, hrest⟩ := hfilled.fold_ok hfold
          exact ⟨rfl, hidle, hc, hsame ▸ hconfig, hrest, Or.inr ⟨_, hfilled'⟩⟩
      · rcases ih hb hfold with ⟨hb', hrest⟩ | ⟨idle, x, later, hassembled⟩
        · refine Or.inl ⟨hb', ?_⟩
          intro trace htrace
          rcases List.mem_cons.mp htrace with rfl | hmem
          · exact hc
          · exact hrest trace hmem
        · refine Or.inr ⟨first :: idle, x, later,
            { hassembled with split := by rw [hassembled.split]; rfl, idle := ?_ }⟩
          intro trace htrace
          rcases List.mem_cons.mp htrace with rfl | hmem
          · exact hc
          · exact hassembled.idle trace hmem

end Fold

/-- The laws of a block, read off its assembly. -/
theorem Assembled.wellFormed {coreAccount : Name} {traces idle later : List TransactionTrace}
    {block : NativeBlock} {first : TransactionTrace}
    (h : Assembled coreAccount traces block idle first later)
    (hkept : ∀ trace ∈ traces, trace.status = .executed →
      ConfigKept coreAccount trace.actionTraces) :
    WellFormed coreAccount traces block := by
  refine ⟨?_, ?_⟩
  · rcases h.form with halone | ⟨n, hfilled⟩
    · obtain ⟨trx, htrx, hempty⟩ := halone.transactions
      refine ⟨evmtxN, Or.inr rfl, ?_⟩
      intro x hx a ha
      rw [htrx] at hx
      rw [List.mem_singleton.mp hx, hempty] at ha
      cases ha
    · exact ⟨n, hfilled.event, hfilled.one_name⟩
  · rintro ⟨trace, htrace, hconfig⟩
    -- a configuration change that is kept is among the actions of its transaction
    have hheld : ∀ t ∈ traces, HasConfig coreAccount t →
        ∃ a ∈ heldActions coreAccount t, a.name = configchangeN :=
      fun t ht hc => exists_config_heldActions.mpr ⟨hc.2, hkept t ht hc.1⟩
    have hothers : ∀ t ∈ idle ++ later, ¬ HasConfig coreAccount t := by
      intro t ht hc
      rcases List.mem_append.mp ht with hmem | hmem
      · exact h.idle t hmem hc.contributes
      · have htraces : t ∈ traces := by
          rw [h.split]
          exact List.mem_append_right _ (List.mem_cons_of_mem _ hmem)
        obtain ⟨a, ha, hname⟩ := hheld t htraces hc
        exact h.later t hmem hc.contributes a ha hname
    have hfirst : trace = first := by
      rw [h.split] at htrace
      rcases List.mem_append.mp htrace with hmem | hmem
      · exact absurd hconfig (hothers trace (List.mem_append_left _ hmem))
      · rcases List.mem_cons.mp hmem with rfl | hmem
        · rfl
        · exact absurd hconfig (hothers trace (List.mem_append_right _ hmem))
    have hsome : block.newConfig.isSome = true :=
      h.config.mpr (hfirst ▸ hheld trace htrace hconfig)
    refine ⟨hsome, ?_, idle, first, later, h.split, h.idle, h.contributes, hothers⟩
    rcases h.form with halone | ⟨n, hfilled⟩
    · obtain ⟨trx, htrx, hempty⟩ := halone.transactions
      intro x hx a ha
      rw [htrx] at hx
      rw [List.mem_singleton.mp hx, hempty] at ha
      cases ha
    · rw [← hfilled.config hsome]
      exact hfilled.one_name

/-- A configuration change that is displaced breaks the law. -/
theorem Assembled.configKept {coreAccount : Name}
    {traces idle later : List TransactionTrace} {block : NativeBlock}
    {first : TransactionTrace} (h : Assembled coreAccount traces block idle first later)
    (hwf : WellFormed coreAccount traces block) {trace : TransactionTrace}
    (htrace : trace ∈ traces) (hstatus : trace.status = .executed) :
    ConfigKept coreAccount trace.actionTraces := by
  intro hne
  have hconfig : HasConfig coreAccount trace := ⟨hstatus, hne⟩
  obtain ⟨hsome, -, idle', first', later', hsplit, -, -, hothers⟩ :=
    hwf.config ⟨trace, htrace, hconfig⟩
  -- the first contribution holds one, so it is the trace that may have one
  have hheld := h.config.mp hsome
  obtain ⟨hne', hkept⟩ := exists_config_heldActions.mp hheld
  have hunique : ∀ t ∈ traces, HasConfig coreAccount t → t = first' := by
    intro t ht hc
    rw [hsplit] at ht
    rcases List.mem_append.mp ht with hmem | hmem
    · exact absurd hc (hothers t (List.mem_append_left _ hmem))
    · rcases List.mem_cons.mp hmem with rfl | hmem
      · rfl
      · exact absurd hc (hothers t (List.mem_append_right _ hmem))
  have hfirst : first ∈ traces := by
    rw [h.split]
    exact List.mem_append_right _ List.mem_cons_self
  have hsame : trace = first :=
    (hunique trace htrace hconfig).trans
      (hunique first hfirst ⟨h.contributes.1, hne'⟩).symm
  rw [hsame] at hne ⊢
  exact hkept hne

/-- **An accepted block is well formed** when the sequences of all receipts are
    positive; with any sequences, exactly when no event takes the place of a
    configuration change in the ordered map of its transaction. -/
theorem well_formed_iff {coreAccount : Name} {res : GetBlocksResult} {block : NativeBlock}
    (h : toNative coreAccount res = .ok (some block)) :
    (WellFormed coreAccount (res.traces.getD []) block ↔
      ∀ trace ∈ res.traces.getD [], trace.status = .executed →
        ConfigKept coreAccount trace.actionTraces) ∧
    ((∀ trace ∈ res.traces.getD [], PositiveSequences trace) →
      WellFormed coreAccount (res.traces.getD []) block) := by
  obtain ⟨thisBlock, start, final, -, hblock, hfold, rfl⟩ := toNative_ok h
  have hstart := untouched_of_start hblock
  have hplaced := placed_of_fold hfold
  have hkept : ∀ trace ∈ res.traces.getD [], trace.status = .executed →
      PositiveSequences trace → ConfigKept coreAccount trace.actionTraces := by
    intro trace htrace hstatus hpos hne
    have hc : HasConfig coreAccount trace := ⟨hstatus, hne⟩
    exact configKept_of_positive (hplaced trace htrace hc.contributes) hpos hne
  -- the laws do not look at the LIB
  have hsame : WellFormed coreAccount (res.traces.getD [])
        { final with lib := res.lastIrreversible.blockNum } ↔
      WellFormed coreAccount (res.traces.getD []) final :=
    ⟨fun ⟨hname, hlaw⟩ => ⟨hname, hlaw⟩, fun ⟨hname, hlaw⟩ => ⟨hname, hlaw⟩⟩
  have hiff : WellFormed coreAccount (res.traces.getD []) final ↔
      ∀ trace ∈ res.traces.getD [], trace.status = .executed →
        ConfigKept coreAccount trace.actionTraces := by
    rcases hstart.fold_ok hfold with ⟨hfinal, hidle⟩ | ⟨idle, first, later, hassembled⟩
    · refine iff_of_true ⟨⟨evmtxN, Or.inr rfl, ?_⟩, ?_⟩ ?_
      · intro trx htrx
        rw [hfinal.transactions] at htrx
        cases htrx
      · rintro ⟨trace, htrace, hc⟩
        exact absurd hc.contributes (hidle trace htrace)
      · intro trace htrace hstatus hne
        exact absurd (HasConfig.contributes ⟨hstatus, hne⟩) (hidle trace htrace)
    · exact ⟨fun hwf trace htrace hstatus => hassembled.configKept hwf htrace hstatus,
        hassembled.wellFormed⟩
  refine ⟨hsame.trans hiff, ?_⟩
  intro hpos
  exact (hsame.trans hiff).mpr fun trace htrace hstatus =>
    hkept trace htrace hstatus (hpos trace htrace)

theorem well_formed_plainConfigEvent :
    ∃ block, toNative (Name.ofChars ['e', 'v', 'm'])
        (plainResult [plainConfigEvent, plainEvent]) = .ok (some block) ∧
      block.newConfig.isSome = true ∧
      WellFormed (Name.ofChars ['e', 'v', 'm']) [plainConfigEvent, plainEvent] block := by
  have hrun : (toNative (Name.ofChars ['e', 'v', 'm'])
      (plainResult [plainConfigEvent, plainEvent])).map Option.isSome = .ok true := by
    decide +kernel
  obtain ⟨r, hr, hsome⟩ := map_ok hrun
  obtain ⟨block, rfl⟩ := Option.isSome_iff_exists.mp hsome
  have hpos : ∀ trace ∈ [plainConfigEvent, plainEvent], PositiveSequences trace := by
    decide
  have hwf : WellFormed (Name.ofChars ['e', 'v', 'm']) [plainConfigEvent, plainEvent]
      block := (well_formed_iff hr).2 hpos
  have hconfig : HasConfig (Name.ofChars ['e', 'v', 'm']) plainConfigEvent := by decide
  exact ⟨block, hr, (hwf.config ⟨_, List.mem_cons_self, hconfig⟩).1, hwf⟩

/-- A configuration change, and a `pushtx` whose receipt carries the sequence 0, which
    nodeos does not give. -/
def plainDisplaced : TransactionTrace :=
  plainTransaction [plainTrace configchangeN 1 0 100 [1], plainTrace pushtxN 2 0 0 [2]]

/-- **A configuration change is dropped**: the block is accepted with the `pushtx` and
    without the change, instead of being refused. -/
theorem not_well_formed_plainDisplaced :
    ∃ block, toNative (Name.ofChars ['e', 'v', 'm']) (plainResult [plainDisplaced])
        = .ok (some block) ∧
      block.newConfig = none ∧
      ¬ WellFormed (Name.ofChars ['e', 'v', 'm']) [plainDisplaced] block := by
  have hrun : (toNative (Name.ofChars ['e', 'v', 'm']) (plainResult [plainDisplaced])).map
      (fun r => r.map (fun block => block.newConfig)) = .ok (some none) := by
    decide +kernel
  obtain ⟨r, hr, hconfig⟩ := map_ok hrun
  obtain ⟨block, rfl, hnone⟩ := Option.map_eq_some_iff.mp hconfig
  refine ⟨block, hr, hnone, ?_⟩
  intro hwf
  have hhas : HasConfig (Name.ofChars ['e', 'v', 'm']) plainDisplaced := by decide
  obtain ⟨hsome, -⟩ := hwf.config ⟨plainDisplaced, List.mem_singleton_self _, hhas⟩
  rw [hnone] at hsome
  cases hsome

end ShipReceiver

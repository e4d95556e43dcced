import EosEvmNode.ShipReceiver.Contribution

/-! # The form of a native block

    `append_to_block` only compares an action with the one before it and a
    transaction with the one before it.  Over a whole block this leaves three
    forms: a block nothing has been added to, a block whose single transaction is
    empty because it held a configuration change alone, and a block whose
    transactions all have actions, of one name.

    The second form is the one in which the check against the transaction before
    reads the last action of an empty vector. -/

namespace ShipReceiver

open Channels Runs

/-! ## The forms of a block -/

/-- Nothing has been added yet. -/
structure Untouched (block : NativeBlock) : Prop where
  config : block.newConfig = none
  transactions : block.transactions = []

/-- The only transaction is that of a configuration change, and empty. -/
structure ConfigAlone (block : NativeBlock) : Prop where
  config : block.newConfig.isSome = true
  transactions : ∃ trx, block.transactions = [trx] ∧ trx.actions = []

/-- Every transaction has actions, all of the name `n`. -/
structure Filled (n : Name) (block : NativeBlock) : Prop where
  event : n = pushtxN ∨ n = evmtxN
  config : block.newConfig.isSome = true → n = evmtxN
  nonempty : block.transactions ≠ []
  actions_ne : ∀ trx ∈ block.transactions, trx.actions ≠ []
  one_name : ∀ trx ∈ block.transactions, ∀ a ∈ trx.actions, a.name = n

section Forms

variable {coreAccount : Name} {block block' : NativeBlock} {trace : TransactionTrace}
  {n : Name}

/-- Without a configuration change among them, all actions of a trace go into its
    transaction. -/
theorem trxActions_ne_nil (h : Contributes coreAccount trace)
    (hne : ∀ a ∈ heldActions coreAccount trace, a.name ≠ configchangeN) :
    trxActions (heldActions coreAccount trace) ≠ [] := by
  rw [trxActions_of_ne hne]
  exact heldActions_ne_nil h

/-- A contribution that is accepted has readable keys, and its transaction passes the
    check against the one before. -/
theorem contribution_ok (h : Contributes coreAccount trace)
    (hok : appendTrace coreAccount block trace = .ok block') :
    AllPlaced coreAccount trace.actionTraces ∧ ∃ block₁ trx,
      (heldActions coreAccount trace).foldlM addAction (block, newTrx trace)
        = .ok (block₁, trx) ∧ addTrx block₁ trx = .ok block' := by
  have hplaced : AllPlaced coreAccount trace.actionTraces := by
    by_contra hnot
    obtain ⟨err, -, herr⟩ := appendTrace_of_not_placed block h hnot
    rw [hok] at herr
    cases herr
  rw [appendTrace_of_placed h hplaced] at hok
  obtain ⟨⟨block₁, trx⟩, hadd, hcheck⟩ := bind_ok hok
  exact ⟨hplaced, block₁, trx, hadd, hcheck⟩

/-- A block with one transaction that has actions. -/
theorem filled_single {trx : NativeTrx} (htrxs : block.transactions = [trx])
    (hne : trx.actions ≠ []) (hevent : n = pushtxN ∨ n = evmtxN)
    (hnames : ∀ a ∈ trx.actions, a.name = n)
    (hpush : block.newConfig.isSome = true → ∀ a ∈ trx.actions, a.name ≠ pushtxN) :
    Filled n block where
  event := hevent
  config := by
    intro hsome
    obtain ⟨a, ha⟩ := List.exists_mem_of_ne_nil _ hne
    rcases hevent with hname | hname
    · exact absurd ((hnames a ha).trans hname) (hpush hsome a ha)
    · exact hname
  nonempty := by
    rw [htrxs]
    exact List.cons_ne_nil _ _
  actions_ne := by
    intro x hx
    rw [htrxs] at hx
    rwa [List.mem_singleton.mp hx]
  one_name := by
    intro x hx
    rw [htrxs] at hx
    rwa [List.mem_singleton.mp hx]

/-- **The first contribution** to a block. -/
theorem Untouched.append (hb : Untouched block) (h : Contributes coreAccount trace)
    (hok : appendTrace coreAccount block trace = .ok block') :
    AllPlaced coreAccount trace.actionTraces ∧
      (block'.newConfig.isSome = true ↔
        ∃ a ∈ heldActions coreAccount trace, a.name = configchangeN) ∧
      ((ConfigAlone block' ∧ ∃ config, heldActions coreAccount trace = [config] ∧
          config.name = configchangeN) ∨
        Filled (actionToSearch coreAccount trace.actionTraces) block') := by
  obtain ⟨hplaced, block₁, trx, hadd, hok⟩ := contribution_ok h hok
  obtain ⟨htrx, hconfig⟩ := addActions_ok hadd
  have htrx : trx.actions = trxActions (heldActions coreAccount trace) := by
    rw [htrx]
    rfl
  have hpush := not_pushtx_of_addActions hadd
  have htrxs : block'.transactions = [trx] ∧ block'.newConfig = block₁.newConfig := by
    rw [addTrx_ok hok]
    refine ⟨?_, rfl⟩
    show block₁.transactions ++ [trx] = [trx]
    rcases hconfig with ⟨rfl, -⟩ | ⟨-, -, -, config, rest, -, rfl, -, -⟩
    · rw [hb.transactions, List.nil_append]
    · show block.transactions ++ [trx] = [trx]
      rw [hb.transactions, List.nil_append]
  have hfilled : trx.actions ≠ [] →
      Filled (actionToSearch coreAccount trace.actionTraces) block' := by
    intro hne
    refine filled_single htrxs.1 hne (actionToSearch_eq _ _) ?_ ?_
    · intro a ha
      rw [htrx] at ha
      exact name_of_mem_trxActions ha
    · intro hsome a ha
      rw [htrxs.2] at hsome
      exact hpush hsome a (htrx ▸ ha)
  refine ⟨hplaced, ?_⟩
  rcases hconfig with ⟨rfl, hne⟩ | ⟨-, -, -, config, rest, hacts, rfl, hname, hrest⟩
  · refine ⟨?_, Or.inr (hfilled ?_)⟩
    · rw [htrxs.2, hb.config]
      refine iff_of_false (by simp) ?_
      rintro ⟨a, ha, hname⟩
      exact hne a ha hname
    · rw [htrx]
      exact trxActions_ne_nil h hne
  · have hsome : block'.newConfig.isSome = true := by rw [htrxs.2]; rfl
    have htrx : trx.actions = rest := by
      rw [htrx, hacts, trxActions, List.filter_cons_of_neg (by simpa using hname)]
      exact trxActions_of_ne hrest
    refine ⟨iff_of_true hsome ⟨config, ?_, hname⟩, ?_⟩
    · rw [hacts]
      exact List.mem_cons_self
    · cases rest with
      | nil =>
          exact Or.inl ⟨⟨hsome, trx, htrxs.1, htrx⟩, config, hacts, hname⟩
      | cons a rest =>
          refine Or.inr (hfilled ?_)
          rw [htrx]
          exact List.cons_ne_nil _ _

/-- Once a block has transactions, a trace adds events and no configuration. -/
theorem addActions_of_transactions (hne : block.transactions ≠ [])
    {block₁ : NativeBlock} {trx : NativeTrx}
    (h : (heldActions coreAccount trace).foldlM addAction (block, newTrx trace)
      = .ok (block₁, trx)) :
    block₁ = block ∧ trx.actions = heldActions coreAccount trace ∧
      ∀ a ∈ heldActions coreAccount trace, a.name ≠ configchangeN := by
  obtain ⟨htrx, ⟨rfl, hnames⟩ | ⟨-, hnil, -⟩⟩ := addActions_ok h
  · refine ⟨rfl, ?_, hnames⟩
    rw [htrx, trxActions_of_ne hnames]
    rfl
  · exact absurd hnil hne

/-- The last action of the transaction before has the name of the block, and so has
    the last action of one that passes the check. -/
theorem Filled.last_name (hb : Filled n block) {trx : NativeTrx}
    (hcheck : addTrx block trx = .ok block') :
    ∀ a ∈ trx.actions.getLast?, a.name = n := by
  intro a ha
  have ha : trx.actions.getLast? = some a := ha
  have hback := List.getLast?_eq_getLast_of_ne_nil hb.nonempty
  have hmem := List.getLast_mem hb.nonempty
  obtain ⟨x, hx⟩ : ∃ x, (block.transactions.getLast hb.nonempty).actions.getLast?
      = some x := ⟨_, List.getLast?_eq_getLast_of_ne_nil (hb.actions_ne _ hmem)⟩
  rw [addTrx, hback] at hcheck
  simp only [hx, ha] at hcheck
  by_cases hnames : x.name ≠ a.name
  · rw [if_pos hnames] at hcheck
    cases hcheck
  · rw [← not_not.mp hnames]
    exact hb.one_name _ hmem x (List.mem_of_getLast? hx)

/-- One more transaction with actions of the same name. -/
theorem Filled.add (hb : Filled n block) {trx : NativeTrx} (hne : trx.actions ≠ [])
    (hnames : ∀ a ∈ trx.actions, a.name = n) :
    Filled n { block with transactions := block.transactions ++ [trx] } where
  event := hb.event
  config := hb.config
  nonempty := List.append_ne_nil_of_left_ne_nil hb.nonempty _
  actions_ne := by
    intro x hx
    rcases List.mem_append.mp hx with hmem | hmem
    · exact hb.actions_ne x hmem
    · rw [List.mem_singleton.mp hmem]
      exact hne
  one_name := by
    intro x hx
    rcases List.mem_append.mp hx with hmem | hmem
    · exact hb.one_name x hmem
    · rw [List.mem_singleton.mp hmem]
      exact hnames

/-- **A later contribution** to a block whose transactions have actions. -/
theorem Filled.append (hb : Filled n block) (h : Contributes coreAccount trace)
    (hok : appendTrace coreAccount block trace = .ok block') :
    Filled n block' ∧ block'.newConfig = block.newConfig ∧
      ∀ a ∈ heldActions coreAccount trace, a.name ≠ configchangeN := by
  obtain ⟨-, block₁, trx, hadd, hcheck⟩ := contribution_ok h hok
  obtain ⟨rfl, htrx, hnames⟩ := addActions_of_transactions hb.nonempty hadd
  have hne : trx.actions ≠ [] := by
    rw [htrx]
    exact heldActions_ne_nil h
  have hall : ∀ a ∈ trx.actions,
      a.name = actionToSearch coreAccount trace.actionTraces := by
    intro a ha
    rw [htrx] at ha
    rcases name_of_mem_heldActions ha with hname | hname
    · exact hname
    · exact absurd hname (hnames a ha)
  -- the name is that of the last action, which has been checked
  have hlast := hb.last_name hcheck _ (List.getLast?_eq_getLast_of_ne_nil hne)
  have hname : ∀ a ∈ trx.actions, a.name = n := by
    intro a ha
    rw [hall a ha, ← hlast, hall _ (List.getLast_mem hne)]
  rw [addTrx_ok hcheck]
  exact ⟨hb.add hne hname, rfl, hnames⟩

theorem Filled.append_ne_undefined (hb : Filled n block) :
    appendTrace coreAccount block trace ≠ .error .undefined := by
  by_cases h : Contributes coreAccount trace
  · by_cases hplaced : AllPlaced coreAccount trace.actionTraces
    · rw [appendTrace_of_placed h hplaced]
      refine bind_ne_error (addActions_ne_undefined _ _) ?_
      rintro ⟨block₁, trx⟩ hadd
      obtain ⟨rfl, htrx, -⟩ := addActions_of_transactions hb.nonempty hadd
      have hback := List.getLast?_eq_getLast_of_ne_nil hb.nonempty
      have hmem := List.getLast_mem hb.nonempty
      have hx := List.getLast?_eq_getLast_of_ne_nil (hb.actions_ne _ hmem)
      have hne : trx.actions ≠ [] := by
        rw [htrx]
        exact heldActions_ne_nil h
      have ha := List.getLast?_eq_getLast_of_ne_nil hne
      show addTrx block₁ trx ≠ _
      rw [addTrx, hback]
      simp only [hx, ha]
      split <;> rintro ⟨⟩
    · obtain ⟨err, hne, herr⟩ := appendTrace_of_not_placed block h hplaced
      rw [herr]
      rintro ⟨⟩
      exact hne rfl
  · rw [appendTrace_of_idle h]
    rintro ⟨⟩

/-- **After a configuration change alone** every further contribution fails, and one
    of `evmtx` events by reading an empty vector. -/
theorem ConfigAlone.append (hb : ConfigAlone block) (h : Contributes coreAccount trace) :
    ∃ err, appendTrace coreAccount block trace = .error err ∧
      (err = .undefined ↔ AllPlaced coreAccount trace.actionTraces ∧
        ∀ a ∈ heldActions coreAccount trace, a.name = evmtxN) := by
  obtain ⟨back, hback, hempty⟩ := hb.transactions
  have hne : block.transactions ≠ [] := by
    rw [hback]
    exact List.cons_ne_nil _ _
  by_cases hplaced : AllPlaced coreAccount trace.actionTraces
  · rw [appendTrace_of_placed h hplaced]
    cases hadd : (heldActions coreAccount trace).foldlM addAction (block, newTrx trace) with
    | error err =>
        refine ⟨err, rfl, ?_⟩
        refine iff_of_false ?_ ?_
        · rintro rfl
          exact addActions_ne_undefined _ _ hadd
        · rintro ⟨-, hnames⟩
          rw [addActions_of_evmtx hnames (by rintro a ⟨⟩)] at hadd
          cases hadd
    | ok added =>
        obtain ⟨block₁, trx⟩ := added
        obtain ⟨rfl, htrx, hnames⟩ := addActions_of_transactions hne hadd
        refine ⟨.undefined, ?_, iff_of_true rfl ⟨hplaced, ?_⟩⟩
        · rw [ok_bind, addTrx, hback, List.getLast?_singleton]
          simp only [hempty, List.getLast?_nil]
        · intro a ha
          have hpush := not_pushtx_of_addActions hadd hb.config a
            (by rwa [trxActions_of_ne hnames])
          rcases name_of_mem_heldActions ha with hname | hname
          · rcases actionToSearch_eq coreAccount trace.actionTraces with hs | hs
            · exact absurd (hname.trans hs) hpush
            · exact hname.trans hs
          · exact absurd hname (hnames a ha)
  · obtain ⟨err, hnot, herr⟩ := appendTrace_of_not_placed block h hplaced
    exact ⟨err, herr, iff_of_false hnot (fun hboth => hplaced hboth.1)⟩

end Forms

/-! ## The last action of an empty vector -/

/-- The transaction contributes a configuration change and nothing else. -/
structure OnlyConfig (coreAccount : Name) (trace : TransactionTrace) : Prop where
  contributes : Contributes coreAccount trace
  placed : AllPlaced coreAccount trace.actionTraces
  held : ∃ config, heldTraces coreAccount trace.actionTraces = [config] ∧
    config.act.name = configchangeN

/-- The transaction contributes `evmtx` events and nothing else. -/
structure OnlyEvmtx (coreAccount : Name) (trace : TransactionTrace) : Prop where
  contributes : Contributes coreAccount trace
  placed : AllPlaced coreAccount trace.actionTraces
  held : ∀ a ∈ heldTraces coreAccount trace.actionTraces, a.act.name = evmtxN

/-- The next contribution is one of `evmtx` events. -/
def NextIsEvmtx (coreAccount : Name) (traces : List TransactionTrace) : Prop :=
  ∃ idle events after, traces = idle ++ events :: after ∧
    (∀ trace ∈ idle, ¬ Contributes coreAccount trace) ∧ OnlyEvmtx coreAccount events

/-- The first contribution is a configuration change alone, and the second one of
    `evmtx` events. -/
def ConfigThenEvmtx (coreAccount : Name) (traces : List TransactionTrace) : Prop :=
  ∃ idle config after, traces = idle ++ config :: after ∧
    (∀ trace ∈ idle, ¬ Contributes coreAccount trace) ∧ OnlyConfig coreAccount config ∧
    NextIsEvmtx coreAccount after

section EmptyVector

variable {coreAccount : Name} {block block' : NativeBlock} {trace : TransactionTrace}
  {traces : List TransactionTrace} {n : Name}

theorem onlyEvmtx_iff (h : Contributes coreAccount trace) :
    OnlyEvmtx coreAccount trace ↔ AllPlaced coreAccount trace.actionTraces ∧
      ∀ a ∈ heldActions coreAccount trace, a.name = evmtxN := by
  constructor
  · intro hevmtx
    refine ⟨hevmtx.placed, ?_⟩
    intro a ha
    obtain ⟨x, hx, rfl⟩ := List.mem_map.mp ha
    exact hevmtx.held x hx
  · rintro ⟨hplaced, hnames⟩
    exact ⟨h, hplaced, fun a ha => hnames _ (List.mem_map_of_mem ha)⟩

/-- Before the first contribution of a list there is only what is passed over. -/
theorem nextIsEvmtx_cons_of_idle (h : ¬ Contributes coreAccount trace) :
    NextIsEvmtx coreAccount (trace :: traces) ↔ NextIsEvmtx coreAccount traces := by
  constructor
  · rintro ⟨idle, events, after, hsplit, hidle, hevmtx⟩
    cases idle with
    | nil =>
        obtain ⟨rfl, -⟩ := List.cons.inj hsplit
        exact absurd hevmtx.contributes h
    | cons x idle =>
        obtain ⟨rfl, rfl⟩ := List.cons.inj hsplit
        exact ⟨idle, events, after, rfl,
          fun t ht => hidle t (List.mem_cons_of_mem _ ht), hevmtx⟩
  · rintro ⟨idle, events, after, rfl, hidle, hevmtx⟩
    refine ⟨trace :: idle, events, after, rfl, ?_, hevmtx⟩
    intro t ht
    rcases List.mem_cons.mp ht with rfl | hmem
    · exact h
    · exact hidle t hmem

theorem nextIsEvmtx_cons (h : Contributes coreAccount trace) :
    NextIsEvmtx coreAccount (trace :: traces) ↔ OnlyEvmtx coreAccount trace := by
  constructor
  · rintro ⟨idle, events, after, hsplit, hidle, hevmtx⟩
    cases idle with
    | nil =>
        obtain ⟨rfl, -⟩ := List.cons.inj hsplit
        exact hevmtx
    | cons x idle =>
        obtain ⟨rfl, -⟩ := List.cons.inj hsplit
        exact absurd h (hidle trace List.mem_cons_self)
  · intro hevmtx
    exact ⟨[], trace, traces, rfl, (by rintro t ⟨⟩), hevmtx⟩

theorem configThenEvmtx_cons_of_idle (h : ¬ Contributes coreAccount trace) :
    ConfigThenEvmtx coreAccount (trace :: traces) ↔
      ConfigThenEvmtx coreAccount traces := by
  constructor
  · rintro ⟨idle, config, after, hsplit, hidle, hconfig, hnext⟩
    cases idle with
    | nil =>
        obtain ⟨rfl, -⟩ := List.cons.inj hsplit
        exact absurd hconfig.contributes h
    | cons x idle =>
        obtain ⟨rfl, rfl⟩ := List.cons.inj hsplit
        exact ⟨idle, config, after, rfl,
          fun t ht => hidle t (List.mem_cons_of_mem _ ht), hconfig, hnext⟩
  · rintro ⟨idle, config, after, rfl, hidle, hconfig, hnext⟩
    refine ⟨trace :: idle, config, after, rfl, ?_, hconfig, hnext⟩
    intro t ht
    rcases List.mem_cons.mp ht with rfl | hmem
    · exact h
    · exact hidle t hmem

theorem configThenEvmtx_cons (h : Contributes coreAccount trace) :
    ConfigThenEvmtx coreAccount (trace :: traces) ↔
      OnlyConfig coreAccount trace ∧ NextIsEvmtx coreAccount traces := by
  constructor
  · rintro ⟨idle, config, after, hsplit, hidle, hconfig, hnext⟩
    cases idle with
    | nil =>
        obtain ⟨rfl, rfl⟩ := List.cons.inj hsplit
        exact ⟨hconfig, hnext⟩
    | cons x idle =>
        obtain ⟨rfl, -⟩ := List.cons.inj hsplit
        exact absurd h (hidle trace List.mem_cons_self)
  · rintro ⟨hconfig, hnext⟩
    exact ⟨[], trace, traces, rfl, (by rintro t ⟨⟩), hconfig, hnext⟩

/-- A block whose transactions have actions keeps that form. -/
theorem Filled.fold_ne_undefined :
    ∀ {traces : List TransactionTrace} {block : NativeBlock}, Filled n block →
      traces.foldlM (appendTrace coreAccount) block ≠ .error .undefined := by
  intro traces
  induction traces with
  | nil => rintro block - ⟨⟩
  | cons trace traces ih =>
      intro block hb
      rw [List.foldlM_cons]
      refine bind_ne_error hb.append_ne_undefined ?_
      intro block' hok
      by_cases h : Contributes coreAccount trace
      · exact ih (hb.append h hok).1
      · rw [appendTrace_of_idle h] at hok
        obtain rfl := Except.ok.inj hok
        exact ih hb

/-- After a configuration change alone the next contribution decides. -/
theorem ConfigAlone.fold_undefined_iff (hb : ConfigAlone block) :
    ∀ traces : List TransactionTrace,
      traces.foldlM (appendTrace coreAccount) block = .error .undefined ↔
        NextIsEvmtx coreAccount traces := by
  intro traces
  induction traces with
  | nil =>
      refine iff_of_false (by rintro ⟨⟩) ?_
      rintro ⟨idle, events, after, hsplit, -⟩
      simp at hsplit
  | cons trace traces ih =>
      rw [List.foldlM_cons]
      by_cases h : Contributes coreAccount trace
      · obtain ⟨err, herr, hiff⟩ := hb.append h
        rw [herr, nextIsEvmtx_cons h, onlyEvmtx_iff h, ← hiff]
        constructor
        · intro hundef
          exact Except.error.inj hundef
        · rintro rfl
          rfl
      · rw [appendTrace_of_idle h, ok_bind, ih, nextIsEvmtx_cons_of_idle h]

/-- A configuration change alone is accepted as the first contribution. -/
theorem Untouched.append_config (hb : Untouched block)
    (h : OnlyConfig coreAccount trace) :
    ∃ block', appendTrace coreAccount block trace = .ok block' ∧ ConfigAlone block' := by
  obtain ⟨config, hheld, hname⟩ := h.held
  have hacts : heldActions coreAccount trace = [config.toNativeAction] := by
    rw [heldActions, hheld]
    rfl
  have hadd : addAction (block, newTrx trace) config.toNativeAction
      = .ok ({ block with newConfig := some config.toNativeAction }, newTrx trace) := by
    rw [addAction, if_pos (show config.toNativeAction.name = configchangeN from hname),
      hb.config, if_neg (by simp), if_neg (by simp [hb.transactions, newTrx])]
  refine ⟨{ block with
    newConfig := some config.toNativeAction
    transactions := [newTrx trace] }, ?_, rfl, newTrx trace, rfl, rfl⟩
  rw [appendTrace_of_placed h.contributes h.placed, hacts, List.foldlM_cons, hadd,
    ok_bind, List.foldlM_nil]
  show addTrx { block with newConfig := some config.toNativeAction } (newTrx trace) = _
  rw [addTrx]
  simp [hb.transactions]

/-- **From a new block** the fold reads an empty vector exactly when a configuration
    change alone is followed by events. -/
theorem Untouched.fold_undefined_iff (hb : Untouched block) :
    ∀ traces : List TransactionTrace,
      traces.foldlM (appendTrace coreAccount) block = .error .undefined ↔
        ConfigThenEvmtx coreAccount traces := by
  intro traces
  induction traces with
  | nil =>
      refine iff_of_false (by rintro ⟨⟩) ?_
      rintro ⟨idle, config, after, hsplit, -⟩
      simp at hsplit
  | cons trace traces ih =>
      rw [List.foldlM_cons]
      by_cases h : Contributes coreAccount trace
      · rw [configThenEvmtx_cons h]
        by_cases hconfig : OnlyConfig coreAccount trace
        · obtain ⟨block', hok, hb'⟩ := hb.append_config hconfig
          rw [hok, ok_bind, hb'.fold_undefined_iff]
          exact (and_iff_right hconfig).symm
        · refine iff_of_false ?_ (fun hboth => hconfig hboth.1)
          refine bind_ne_error ?_ ?_
          · -- with no transaction before it, a trace is compared with none
            by_cases hplaced : AllPlaced coreAccount trace.actionTraces
            · rw [appendTrace_of_placed h hplaced]
              refine bind_ne_error (addActions_ne_undefined _ _) ?_
              rintro ⟨block₁, trx⟩ hadd
              have hnil : block₁.transactions = [] := by
                obtain ⟨-, ⟨rfl, -⟩ | ⟨-, hnil, -, config, rest, -, rfl, -, -⟩⟩ :=
                  addActions_ok hadd
                · exact hb.transactions
                · exact hnil
              show addTrx block₁ trx ≠ _
              rw [addTrx, hnil]
              rintro ⟨⟩
            · obtain ⟨err, hne, herr⟩ :=
                appendTrace_of_not_placed block h hplaced
              rw [herr]
              rintro ⟨⟩
              exact hne rfl
          · intro block' hok
            obtain ⟨hplaced, -, ⟨-, config, hacts, hname⟩ | hfilled⟩ := hb.append h hok
            · obtain ⟨x, hheld, rfl⟩ := List.map_eq_singleton_iff.mp hacts
              exact absurd ⟨h, hplaced, x, hheld, hname⟩ hconfig
            · exact hfilled.fold_ne_undefined
      · rw [appendTrace_of_idle h, ok_bind, ih, configThenEvmtx_cons_of_idle h]

end EmptyVector

theorem untouched_of_start {thisBlock : BlockPosition} {res : GetBlocksResult}
    {block : NativeBlock} (h : startNativeBlock thisBlock res = .ok block) :
    Untouched block := by
  rw [startNativeBlock] at h
  split at h
  · obtain rfl := Except.ok.inj h
    exact ⟨rfl, rfl⟩
  · cases h

/-- **Every `back()` is called on a non-empty vector** while the transaction traces are
    folded into a native block, exactly when the first contribution is not a
    configuration change alone followed by one of `evmtx` events. -/
theorem back_nonempty_iff {coreAccount : Name} {thisBlock : BlockPosition}
    {res : GetBlocksResult} {block : NativeBlock}
    (h : startNativeBlock thisBlock res = .ok block) (traces : List TransactionTrace) :
    traces.foldlM (appendTrace coreAccount) block ≠ .error .undefined ↔
      ¬ ConfigThenEvmtx coreAccount traces :=
  not_congr ((untouched_of_start h).fold_undefined_iff traces)

/-! ## A configuration change, and events after it -/

/-- What the endpoint sends for block 7, with these transaction traces. -/
def plainResult (traces : List TransactionTrace) : GetBlocksResult where
  lastIrreversible := ⟨5, 5⟩
  thisBlock := some ⟨7, 7⟩
  prevBlock := some ⟨6, 6⟩
  block := some ⟨0⟩
  traces := some traces

/-- A configuration change of the core account and nothing else. -/
def plainConfig : TransactionTrace :=
  plainTransaction [plainTrace configchangeN 1 0 100 [1]]

/-- One event, created by another action of the core account. -/
def plainEvent : TransactionTrace :=
  plainTransaction [plainTrace pushtxN 1 0 101 [2], plainTrace evmtxN 2 1 102 [3]]

/-- A configuration change together with an event. -/
def plainConfigEvent : TransactionTrace :=
  plainTransaction [plainTrace pushtxN 1 0 101 [2], plainTrace configchangeN 2 1 102 [1],
    plainTrace evmtxN 3 1 103 [3]]

theorem back_nonempty_plainConfigEvent :
    [plainConfigEvent, plainEvent].foldlM (appendTrace (Name.ofChars ['e', 'v', 'm']))
      plainStarted ≠ .error .undefined := by
  have hstart : startNativeBlock ⟨7, 7⟩ (plainResult [plainConfigEvent, plainEvent])
      = .ok plainStarted := rfl
  refine (back_nonempty_iff hstart _).mpr ?_
  rw [configThenEvmtx_cons (by decide)]
  rintro ⟨⟨-, -, config, hheld, -⟩, -⟩
  have hlen : (heldTraces (Name.ofChars ['e', 'v', 'm'])
      plainConfigEvent.actionTraces).length = 2 := by decide
  rw [hheld] at hlen
  cases hlen

/-- **The last action of an empty transaction is read** where a transaction with a
    configuration change alone is followed by one with an event. -/
theorem not_back_nonempty_plainConfig :
    startNativeBlock ⟨7, 7⟩ (plainResult [plainConfig, plainEvent]) = .ok plainStarted ∧
    [plainConfig, plainEvent].foldlM (appendTrace (Name.ofChars ['e', 'v', 'm']))
      plainStarted = .error .undefined :=
  ⟨rfl, by decide +kernel⟩

end ShipReceiver

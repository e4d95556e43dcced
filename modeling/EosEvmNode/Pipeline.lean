import EosEvmNode.BlockConversion.Genesis
import EosEvmNode.BlockConversion.Replica
import EosEvmNode.ShipReceiver.ExecutionOrder

/-! # From transaction traces to EVM blocks

    The receiver makes a native block of every result of the endpoint, and the
    converter puts its actions into EVM blocks.  Composed, they translate the results of
    the native branch: a closed EVM block has the transactions of the events that its
    second's traces hold, in order of execution within a transaction, and nothing
    else. -/

namespace Pipeline

open Channels Silkworm Engine Runs BlockConversion ShipReceiver NumberedLog

variable {Tx : Type}

/-! ## The events of a result -/

/-- The events of a transaction trace, in the order of the map. -/
def traceEvents (coreAccount : Name) (trace : TransactionTrace) : List NativeAction :=
  if trace.status ≠ .executed then []
  else (keptEvents coreAccount trace.actionTraces).map (fun entry => entry.2.toNativeAction)

def resultEvents (coreAccount : Name) (res : GetBlocksResult) : List NativeAction :=
  (res.traces.getD []).flatMap (traceEvents coreAccount)

/-- The EVM block a result belongs to. -/
def resultNumber (E : Env Tx) (res : GetBlocksResult) : Option Nat :=
  res.block.map (fun sb => E.timestampToEvmBlockNum (timePointOfSlot sb.timestamp))

section Events

variable {coreAccount : Name} {block block' b : NativeBlock} {res : GetBlocksResult}

theorem appendTrace_actions {trace : TransactionTrace}
    (h : appendTrace coreAccount block trace = .ok block') :
    block'.actions = block.actions ++ traceEvents coreAccount trace := by
  rw [appendTrace] at h
  by_cases hstatus : trace.status ≠ .executed
  · rw [if_pos hstatus] at h
    obtain rfl := Except.ok.inj h
    rw [traceEvents, if_pos hstatus, List.append_nil]
  · rw [if_neg hstatus] at h
    rw [traceEvents, if_neg hstatus]
    rcases appendToBlock_events h with ⟨hnil, rfl⟩ | htrxs
    · rw [hnil, List.map_nil, List.append_nil]
    · rw [NativeBlock.actions, htrxs, List.flatMap_append, List.flatMap_singleton]
      rfl

theorem appendTraces_actions : ∀ {traces : List TransactionTrace} {block : NativeBlock},
    traces.foldlM (appendTrace coreAccount) block = .ok block' →
    block'.actions = block.actions ++ traces.flatMap (traceEvents coreAccount) := by
  intro traces
  induction traces with
  | nil =>
      intro block h
      obtain rfl := Except.ok.inj h
      rw [List.flatMap_nil, List.append_nil]
  | cons trace traces ih =>
      intro block h
      rw [List.foldlM_cons] at h
      obtain ⟨t, ht, h⟩ := bind_ok h
      rw [ih h, appendTrace_actions ht, List.flatMap_cons, List.append_assoc]

/-- A trace adds transactions and a configuration, nothing else. -/
theorem appendTrace_frame {trace : TransactionTrace}
    (h : appendTrace coreAccount block trace = .ok block') :
    block' = { block with
      newConfig := block'.newConfig
      transactions := block'.transactions } := by
  rw [appendTrace] at h
  by_cases hstatus : trace.status ≠ .executed
  · rw [if_pos hstatus] at h
    obtain rfl := Except.ok.inj h
    rfl
  · rw [if_neg hstatus] at h
    obtain ⟨actions, -, ⟨-, rfl⟩ | ⟨-, block₁, nativeTrx, hadd, rfl⟩⟩ := appendToBlock_ok h
    · rfl
    · rcases (addActions_ok hadd).2 with ⟨rfl, -⟩ | ⟨-, -, -, config, rest, -, rfl, -⟩
      · rfl
      · rfl

theorem appendTraces_frame : ∀ {traces : List TransactionTrace} {block : NativeBlock},
    traces.foldlM (appendTrace coreAccount) block = .ok block' →
    block' = { block with
      newConfig := block'.newConfig
      transactions := block'.transactions } := by
  intro traces
  induction traces with
  | nil =>
      intro block h
      obtain rfl := Except.ok.inj h
      rfl
  | cons trace traces ih =>
      intro block h
      rw [List.foldlM_cons] at h
      obtain ⟨t, ht, h⟩ := bind_ok h
      have hrest := ih h
      rw [appendTrace_frame ht] at hrest
      exact hrest

/-- **What a native block says of its result**: the events, and the second. -/
theorem toNative_spec (h : toNative coreAccount res = .ok (some b)) :
    b.actions = resultEvents coreAccount res ∧
      ∃ sb, res.block = some sb ∧ b.timestamp = timePointOfSlot sb.timestamp := by
  obtain ⟨thisBlock, block, final, -, hstart, hfold, rfl⟩ := toNative_ok h
  have hactions := appendTraces_actions hfold
  have hframe := appendTraces_frame hfold
  rw [startNativeBlock] at hstart
  split at hstart
  case h_1 sb prevBlock hsb hprev =>
    obtain rfl := Except.ok.inj hstart
    exact ⟨hactions, sb, hsb, by rw [hframe]⟩
  case h_2 => cases hstart

/-- Where no two picked traces collide, the events are all there are, in the order in
    which they have been executed. -/
theorem traceEvents_of_noCollision {trace : TransactionTrace}
    (hstatus : trace.status = .executed) (h : NoCollision coreAccount trace.actionTraces) :
    ∃ picked : List ActionTrace,
      picked.Perm (matchingTraces coreAccount trace.actionTraces) ∧
      picked.Pairwise (fun x y => executionSequence trace.actionTraces x
        ≤ executionSequence trace.actionTraces y) ∧
      traceEvents coreAccount trace = picked.map (fun a => a.toNativeAction) := by
  have hlast := OrderedMap.filter_lastOfKeys_eq_iff.mpr (noCollision_iff.mp h).1
  have hperm : (keptEvents coreAccount trace.actionTraces).Perm
      ((mapEntries coreAccount trace.actionTraces).filter isEvent) :=
    hlast ▸ keptEvents_perm
  refine ⟨(keptEvents coreAccount trace.actionTraces).map (fun entry => entry.2), ?_,
    keptEvents_ordered, ?_⟩
  · rw [filter_mapEntries] at hperm
    have hmap := hperm.map (fun entry => entry.2)
    rw [List.map_map] at hmap
    exact hmap.trans (List.Perm.of_eq (List.map_id' _))
  · rw [traceEvents, if_neg (not_not_intro hstatus), List.map_map]
    rfl

end Events

/-! ## The two plugins -/

/-- The converter, with the results the receiver has read. -/
structure Plugins (Tx : Type) where
  converter : State Tx
  chain : NativeChain
  results : List GetBlocksResult

def Plugins.start (startBlock : Block Tx) (s₀ : State Tx) : Plugins Tx where
  converter := s₀
  chain := NativeChain.start startBlock
  results := []

/-- A result is read; if it is that of a block, this block is published and handled. -/
def Plugins.step (coreAccount : Name) (E : Env Tx) (p : Plugins Tx)
    (res : GetBlocksResult) : Except Failure (Plugins Tx) := do
  match ← toNative coreAccount res with
  | none => .ok { p with results := res :: p.results }
  | some b => do
      let s ← nativeBlocksHandler E p.converter b
      .ok { converter := s, chain := p.chain.deliver b, results := res :: p.results }

/-- The endpoint sends the next block of the native chain, or one that is held. -/
def Supplies (coreAccount : Name) (E : Env Tx) (p : Plugins Tx)
    (res : GetBlocksResult) : Prop :=
  match toNative coreAccount res with
  | .ok (some b) => Delivery E (p.converter, p.chain) b
  | _ => True

instance (coreAccount : Name) (E : Env Tx) (p : Plugins Tx) (res : GetBlocksResult) :
    Decidable (Supplies coreAccount E p res) := by
  unfold Supplies
  split <;> infer_instance

/-- The native branch comes from results that have been read. -/
def Sourced (coreAccount : Name) (startBlock : Block Tx) (p : Plugins Tx) : Prop :=
  ∀ nb ∈ p.chain.branch, nb = restoredNativeBlock startBlock ∨
    ∃ res ∈ p.results, toNative coreAccount res = .ok (some nb)

section Steps

variable {coreAccount : Name} {E : Env Tx} {startBlock : Block Tx} {p q : Plugins Tx}
  {res : GetBlocksResult}

/-- What a step does: the result is no block, or its block is handled. -/
theorem step_cases (hs : Supplies coreAccount E p res)
    (hstep : Plugins.step coreAccount E p res = .ok q) :
    q = { p with results := res :: p.results } ∨
    ∃ b s, toNative coreAccount res = .ok (some b) ∧
      Delivery E (p.converter, p.chain) b ∧
      nativeBlocksHandler E p.converter b = .ok s ∧
      q = { converter := s, chain := p.chain.deliver b, results := res :: p.results } := by
  obtain ⟨read, hread, hstep⟩ := bind_ok hstep
  cases read with
  | none => exact Or.inl (Except.ok.inj hstep).symm
  | some b =>
      obtain ⟨s, hhandled, hstep⟩ := bind_ok hstep
      rw [Supplies, hread] at hs
      exact Or.inr ⟨b, s, hread, hs, hhandled, (Except.ok.inj hstep).symm⟩

/-- Blocks of the branch after a delivery were there, or have been delivered. -/
theorem mem_of_mem_deliver {c : NativeChain} {b nb : NativeBlock}
    (h : nb ∈ (c.deliver b).branch) : nb ∈ c.branch ∨ nb = b := by
  rw [NativeChain.deliver] at h
  split at h
  · exact Or.inl h
  · rcases List.mem_cons.mp h with rfl | h
    · exact Or.inr rfl
    · exact Or.inl ((List.dropWhile_suffix _).subset h)

/-- **One result.** -/
theorem sourced_step (hE : Started E startBlock)
    (h : Replicated E startBlock p.converter p.chain ∧ Sourced coreAccount startBlock p)
    (hs : Supplies coreAccount E p res)
    (hstep : Plugins.step coreAccount E p res = .ok q) :
    Replicated E startBlock q.converter q.chain ∧ Sourced coreAccount startBlock q := by
  obtain ⟨hreplicated, hsourced⟩ := h
  have hold : ∀ nb ∈ p.chain.branch, nb = restoredNativeBlock startBlock ∨
      ∃ r ∈ res :: p.results, toNative coreAccount r = .ok (some nb) := by
    intro nb hnb
    rcases hsourced nb hnb with heq | ⟨r, hr, hread⟩
    · exact Or.inl heq
    · exact Or.inr ⟨r, List.mem_cons_of_mem _ hr, hread⟩
  rcases step_cases hs hstep with rfl | ⟨b, s, hread, hb, hhandled, rfl⟩
  · exact ⟨hreplicated, hold⟩
  · constructor
    · exact hreplicated.step (p := (p.converter, p.chain)) hE hb
        (trackedHandler_eq _ hhandled)
    · intro nb hnb
      rcases mem_of_mem_deliver hnb with hmem | rfl
      · exact hold nb hmem
      · exact Or.inr ⟨res, List.mem_cons_self, hread⟩

end Steps

/-! ## The translation -/

section Translation

variable {coreAccount : Name} {E : Env Tx} {startBlock : Block Tx}

/-- What is true of a source of each block holds of a list of sources. -/
theorem exists_sources {α β : Type} {R : α → β → Prop} :
    ∀ {l : List α}, (∀ x ∈ l, ∃ y, R x y) → ∃ ys, List.Forall₂ R l ys := by
  intro l
  induction l with
  | nil => exact fun _ => ⟨[], .nil⟩
  | cons x l ih =>
      intro h
      obtain ⟨y, hy⟩ := h x List.mem_cons_self
      obtain ⟨ys, hys⟩ := ih fun z hz => h z (List.mem_cons_of_mem _ hz)
      exact ⟨y :: ys, .cons hy hys⟩

/-- The actions of a second are the events of its results. -/
theorem nativesOf_sources {k : Nat} {natives : List NativeBlock}
    {sources : List GetBlocksResult}
    (h : List.Forall₂ (fun nb res => toNative coreAccount res = .ok (some nb)) natives
      sources) :
    (nativesOf E k natives).flatMap (fun nb => nb.actions)
      = (sources.reverse.filter (fun res => resultNumber E res = some k)).flatMap
          (resultEvents coreAccount) := by
  induction h with
  | nil => rfl
  | @cons nb res natives sources hread hrest ih =>
      obtain ⟨hactions, sb, hsb, htime⟩ := toNative_spec hread
      have hnum : resultNumber E res = some (E.evmNum nb) := by
        rw [resultNumber, hsb, Env.evmNum, htime]
        rfl
      rw [List.reverse_cons, List.filter_append, List.flatMap_append, ← ih]
      by_cases hk : E.evmNum nb = k
      · rw [nativesOf_cons_of_eq natives hk, List.flatMap_append, List.filter_cons_of_pos
          (by simpa [hnum] using hk)]
        show _ ++ (nb.actions ++ []) = _ ++ (resultEvents coreAccount res ++ [])
        rw [hactions]
      · rw [nativesOf_cons_of_ne natives hk, List.filter_cons_of_neg
          (by simpa [hnum] using hk)]
        exact (List.append_nil _).symm

/-- A branch ends with the restored native block, which comes from no result. -/
theorem Sourced.sources {p : Plugins Tx} (hc : p.chain.Wf startBlock)
    (h : Sourced coreAccount startBlock p) :
    ∃ older sources, p.chain.branch = older ++ [restoredNativeBlock startBlock] ∧
      List.Forall₂ (fun nb res =>
        res ∈ p.results ∧ toNative coreAccount res = .ok (some nb)) older sources := by
  obtain ⟨older, hbranch⟩ := List.getLast?_eq_some_iff.mp hc.bottom
  have hids := hc.ids
  rw [hbranch, List.pairwise_append] at hids
  obtain ⟨sources, hsources⟩ := exists_sources (l := older)
    (R := fun nb res => res ∈ p.results ∧ toNative coreAccount res = .ok (some nb)) (by
      intro nb hnb
      rcases h nb (by rw [hbranch]; exact List.mem_append_left _ hnb) with rfl | hsource
      · exact absurd rfl (hids.2.2 _ hnb _ List.mem_cons_self)
      · exact hsource)
  exact ⟨older, sources, hbranch, hsources⟩

end Translation

/-- **Closed EVM blocks are translations of the results**: the native branch comes from
    results that have been read, and every closed EVM block a reader of the published
    log holds has the transactions of the events of its second's results.  Of a
    transaction without a collision these are all events, in execution order. -/
theorem evm_blocks_from_traces {X : Externals Tx} {db : ChainData Tx}
    {height : Option Nat} {startBlock : Block Tx} {E : Env Tx} {s₀ : State Tx}
    (hload : Loaded X db height startBlock E s₀) {coreAccount : Name}
    {results : List GetBlocksResult} {p : Plugins Tx}
    (hrun : Reach (Plugins.step coreAccount E) (Supplies coreAccount E)
      (Plugins.start startBlock s₀) results p) {last : Block Tx}
    (hlast : p.converter.evmBlocks.head? = some last) :
    ∃ natives sources,
      p.chain.branch = natives ++ [restoredNativeBlock startBlock] ∧
      List.Forall₂ (fun nb res =>
        res ∈ p.results ∧ toNative coreAccount res = .ok (some nb)) natives sources ∧
      (∀ res ∈ sources, ∀ trace ∈ res.traces.getD [], trace.status = .executed →
        NoCollision coreAccount trace.actionTraces →
        ∃ picked : List ActionTrace,
          picked.Perm (matchingTraces coreAccount trace.actionTraces) ∧
          picked.Pairwise (fun x y => executionSequence trace.actionTraces x
            ≤ executionSequence trace.actionTraces y) ∧
          traceEvents coreAccount trace = picked.map (fun a => a.toNativeAction)) ∧
      ∀ k, startBlock.header.number < k → k < last.header.number →
        ∃ x ∈ view blockNumber p.converter.published, x.header.number = k ∧
          x.transactions.map some
            = ((sources.reverse.filter (fun res => resultNumber E res = some k)).flatMap
                (resultEvents coreAccount)).map (decodedTx E) := by
  have hE := hload.started
  obtain ⟨evmLib₀, rfl⟩ := hload.initial
  obtain ⟨hreplicated, hsourced⟩ := hrun.invariant
    (P := fun p => Replicated E startBlock p.converter p.chain ∧
      Sourced coreAccount startBlock p)
    ⟨replicated_start hE evmLib₀, fun nb hnb => Or.inl (List.mem_singleton.mp hnb)⟩
    (fun _ _ _ hp hs hstep => sourced_step hE hp hs hstep)
  obtain ⟨natives, sources, hbranch, hsources⟩ :=
    hsourced.sources hreplicated.window.chain
  refine ⟨natives, sources, hbranch, hsources,
    fun _ _ _ _ hstatus hnone => traceEvents_of_noCollision hstatus hnone, ?_⟩
  intro k hpos hlt
  obtain ⟨hcomplete, hreflects⟩ := hreplicated.view_reflects hlast
  obtain ⟨x, hx, rfl⟩ := hcomplete k (by omega) hlt
  refine ⟨x, hx, rfl, ?_⟩
  have hrestored : (nativesOf E x.header.number
      [restoredNativeBlock startBlock]).flatMap (fun nb => nb.actions) = [] := by
    rw [List.flatMap_eq_nil_iff]
    intro nb hnb
    rw [List.mem_singleton.mp (mem_nativesOf.mp hnb).1]
    rfl
  rw [(hreflects x hx hpos hlt).contents, ← List.map_flatMap, hbranch, nativesOf_append,
    List.flatMap_append, hrestored, List.nil_append,
    nativesOf_sources (hsources.imp fun _ _ h => h.2)]

/-! ## Two events of one transaction -/

/-- A `pushtx` payload with a short `rlpx`. -/
def plainPush (rlpx : Bytes) : Bytes :=
  littleEndian 0 ++ UInt8.ofNat rlpx.length :: rlpx

/-- What the endpoint sends for a block on top of the one before, in this slot. -/
def plainSlot (blockNum : Nat) (slot : UInt32) (traces : List TransactionTrace) :
    GetBlocksResult where
  lastIrreversible := ⟨1, nativeId 1 0⟩
  thisBlock := some ⟨blockNum, nativeId blockNum 0⟩
  prevBlock := some ⟨blockNum - 1, nativeId (blockNum - 1) 0⟩
  block := some ⟨slot⟩
  traces := some traces

/-- Native block 2 has two events, the second of which is executed first; native
    block 3 closes their EVM block. -/
def plainResults : List GetBlocksResult :=
  [plainSlot 2 21 [plainTransaction [plainTrace pushtxN 1 0 102 (plainPush [1]),
      plainTrace pushtxN 2 0 101 (plainPush [2, 2])]],
   plainSlot 3 22 []]

theorem slotEnv_loaded (evmLib₀ : Nat) :
    Loaded plainExternals (storedData [slotGenesis]) none slotGenesis slotEnv
      (initialState slotGenesis evmLib₀) := by
  refine loaded_of_storedData plainExternals_lawful ?_ rfl rfl ⟨by decide, by decide⟩
    evmLib₀
  intro b hb
  rw [List.mem_singleton.mp hb]
  rfl

theorem evm_blocks_from_traces_plainResults :
    ∃ p, Reach (Plugins.step (Name.ofChars ['e', 'v', 'm']) slotEnv)
        (Supplies (Name.ofChars ['e', 'v', 'm']) slotEnv)
        (Plugins.start slotGenesis (initialState slotGenesis 0)) plainResults p ∧
      (view blockNumber p.converter.published).map
        (fun x => (blockNumber x, x.transactions)) = [(1, [[2, 2], [1]]), (0, [])] ∧
      ∃ natives sources,
        p.chain.branch = natives ++ [restoredNativeBlock slotGenesis] ∧
        List.Forall₂ (fun nb res => res ∈ p.results ∧
          toNative (Name.ofChars ['e', 'v', 'm']) res = .ok (some nb)) natives sources := by
  have hcheck : checkRun (Plugins.step (Name.ofChars ['e', 'v', 'm']) slotEnv)
      (Supplies (Name.ofChars ['e', 'v', 'm']) slotEnv)
      (Plugins.start slotGenesis (initialState slotGenesis 0)) plainResults = true := by
    decide +kernel
  obtain ⟨p, hp⟩ := exists_reach hcheck
  have hview : (view blockNumber p.converter.published).map
      (fun x => (blockNumber x, x.transactions)) = [(1, [[2, 2], [1]]), (0, [])] :=
    hp.eval (f := fun p => (view blockNumber p.converter.published).map
      (fun x => (blockNumber x, x.transactions))) (by decide +kernel)
  have hnumber : p.converter.evmBlocks.head?.map blockNumber = some 2 :=
    hp.eval (f := fun p => p.converter.evmBlocks.head?.map blockNumber) (by decide +kernel)
  obtain ⟨last, hlast, -⟩ := Option.map_eq_some_iff.mp hnumber
  obtain ⟨natives, sources, hbranch, hsources, -⟩ :=
    evm_blocks_from_traces (slotEnv_loaded 0) hp hlast
  exact ⟨p, hp, hview, natives, sources, hbranch, hsources⟩

end Pipeline

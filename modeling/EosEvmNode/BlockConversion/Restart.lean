import EosEvmNode.BlockConversion.Forward

/-! # Restarting from a published block

    A restart rebuilds the native cursor from one stored EVM block: its
    `prev_randao` is the id of its last native block.  Over the rest of a
    canonical native chain the restarted plugin follows the uninterrupted one:
    after the first native block both end in the same last EVM block, and from
    there a step depends on nothing else (`Resumed`). -/

namespace BlockConversion

open Channels Silkworm Engine Runs

variable {Tx : Type}

/-- The next block of a canonical native chain. -/
structure NextOfChain (E : Env Tx) (s : State Tx) (b : NativeBlock) : Prop where
  dated : Dated E s b
  onTop : OnTop s b
  number : ∀ back ∈ s.nativeBlocks.head?, b.blockNum = back.blockNum + 1
  /-- Antelope block ids start with the block number. -/
  idNumber : toBlockNum b.id = b.blockNum

instance (E : Env Tx) (s : State Tx) (b : NativeBlock) :
    Decidable (NextOfChain E s b) :=
  decidable_of_iff (Dated E s b ∧
      (∀ back ∈ s.nativeBlocks.head?, back.id = b.prev) ∧
      (∀ back ∈ s.nativeBlocks.head?, b.blockNum = back.blockNum + 1) ∧
      toBlockNum b.id = b.blockNum)
    ⟨fun ⟨h₁, h₂, h₃, h₄⟩ => ⟨h₁, h₂, h₃, h₄⟩,
      fun ⟨h₁, h₂, h₃, h₄⟩ => ⟨h₁, h₂, h₃, h₄⟩⟩

/-- What is left of the native chain after an EVM block: the native blocks from
    `to_block_num(prev_randao) + 1` on. -/
def restOfChain (e : Block Tx) (bs : List NativeBlock) : List NativeBlock :=
  bs.filter (fun b => toBlockNum e.header.prevRandao < b.blockNum)

/-- The published blocks above a number. -/
def publishedAbove (n : Nat) (s : State Tx) : List (Block Tx) :=
  s.published.filter (fun e => n < e.header.number)

/-- The uninterrupted run over a canonical chain. -/
structure Straight (E : Env Tx) (startBlock : Block Tx) (bs : List NativeBlock)
    (s : State Tx) : Prop where
  coherent : Coherent E startBlock s
  /-- The upper bound of the last EVM block is the last native block. -/
  bound : ∀ e ∈ s.evmBlocks.head?, ∀ nb ∈ s.nativeBlocks.head?,
    e.header.prevRandao = nb.id
  idNumber : ∀ nb ∈ s.nativeBlocks.head?, toBlockNum nb.id = nb.blockNum
  delivered : ∀ b ∈ bs, ∀ nb ∈ s.nativeBlocks.head?, b.blockNum ≤ nb.blockNum
  published : ∀ p ∈ s.published, ∀ e ∈ s.evmBlocks.head?,
    p.header.number < e.header.number
  publishedIds : ∀ p ∈ s.published, ∀ nb ∈ s.nativeBlocks.head?,
    toBlockNum p.header.prevRandao ≤ nb.blockNum

theorem toBlockNum_zero : toBlockNum 0 = 0 := by decide

section Straight

variable {E : Env Tx} {startBlock : Block Tx} {bs : List NativeBlock}
  {s s' : State Tx} {b : NativeBlock}

theorem straight_init (hE : Started E startBlock) (evmLib₀ : Nat) :
    Straight E startBlock [] (initialState startBlock evmLib₀) where
  coherent := coherent_init hE evmLib₀
  bound := by
    intro e he nb hnb
    obtain rfl := Option.some.inj he
    obtain rfl := Option.some.inj hnb
    rfl
  idNumber := by
    intro nb hnb
    obtain rfl := Option.some.inj hnb
    rfl
  delivered := fun b hb => by cases hb
  published := fun p hp => by cases hp
  publishedIds := fun p hp => by cases hp

/-- The last blocks of a coherent state. -/
theorem Coherent.last_blocks (h : Coherent E startBlock s) :
    ∃ f back, s.evmBlocks.head? = some f ∧ s.nativeBlocks.head? = some back := by
  obtain ⟨f, fs, hf⟩ := List.exists_cons_of_ne_nil h.evms_ne
  obtain ⟨back, older, hback⟩ := List.exists_cons_of_ne_nil h.natives_ne
  exact ⟨f, back, by rw [hf]; rfl, by rw [hback]; rfl⟩

theorem Straight.step (hE : Started E startBlock)
    (h : Straight E startBlock bs s) (hb : NextOfChain E s b)
    (hstep : nativeBlocksHandler E s b = .ok s') :
    Straight E startBlock (bs ++ [b]) s' := by
  obtain ⟨f, back, hf, hback⟩ := h.coherent.last_blocks
  obtain ⟨curr, written, hadd, hadv⟩ :=
    forward_ok hE hb.dated hb.onTop hf hstep
  obtain ⟨txs, -, hcurr, -⟩ := addNativeBlock_ok hE.lawful hadd
  have hnum := hb.number back hback
  have hcurrnum : curr.header.number
      = f.header.number + (E.evmNum b - f.header.number) := by
    rw [hcurr]
    exact advance_number hE _ f
  refine ⟨h.coherent.step hE hb.dated hstep, ?_, ?_, ?_, ?_, ?_⟩
  · intro e he nb hnb
    rw [hadv.last] at he
    rw [hadv.newest] at hnb
    obtain rfl := Option.some.inj he
    obtain rfl := Option.some.inj hnb
    rw [hcurr]
    rfl
  · intro nb hnb
    rw [hadv.newest] at hnb
    obtain rfl := Option.some.inj hnb
    exact hb.idNumber
  · intro x hx nb hnb
    rw [hadv.newest] at hnb
    obtain rfl := Option.some.inj hnb
    rcases List.mem_append.mp hx with hold | hnew
    · have := h.delivered x hold back hback
      omega
    · rw [List.mem_singleton.mp hnew]
  · intro p hp e he
    rw [hadv.last] at he
    obtain rfl := Option.some.inj he
    rw [hadv.published] at hp
    rcases List.mem_append.mp hp with hnew | hold
    · have := grow_tail_number hE _ f p hnew
      omega
    · have := h.published p hold f hf
      omega
  · -- of the blocks published now only the first carries a native id
    intro p hp nb hnb
    rw [hadv.newest] at hnb
    obtain rfl := Option.some.inj hnb
    rw [hadv.published] at hp
    rcases List.mem_append.mp hp with hnew | hold
    · rcases grow_tail_prevRandao hE _ f p hnew with rfl | hzero
      · rw [show (setTransactionsRoot E f).header.prevRandao
          = f.header.prevRandao from rfl, h.bound f hf back hback,
          h.idNumber back hback]
        omega
      · rw [hzero, toBlockNum_zero]
        exact Nat.zero_le _
    · have := h.publishedIds p hold back hback
      omega

end Straight

/-! ## The restarted run -/

/-- The restarted run has caught up with the uninterrupted one. -/
structure Resumed (E : Env Tx) (start : Block Tx) (s r : State Tx) : Prop where
  coherent : Coherent E start r
  newest : r.nativeBlocks.head? = s.nativeBlocks.head?
  last : r.evmBlocks.head? = s.evmBlocks.head?
  published : publishedAbove start.header.number r
    = publishedAbove start.header.number s

section Resumed

variable {E : Env Tx} {startBlock : Block Tx} {bs : List NativeBlock}
  {s s' : State Tx} {b : NativeBlock}

/-- The block as the database returns it: the flag `irreversible` is not
    stored. -/
def stored (irreversible : Bool) (e : Block Tx) : Block Tx :=
  { e with irreversible := irreversible }

/-- The first native block after the restart takes both runs to the same last
    EVM block. -/
theorem resumed_first (hE : Started E startBlock) {f : Block Tx} {v : Bool}
    (hE' : Started E (stored v (setTransactionsRoot E f))) (evmLib₀ : Nat)
    (h : Straight E startBlock bs s) (hb : NextOfChain E s b)
    (hf : s.evmBlocks.head? = some f) (hlt : f.header.number < E.evmNum b)
    (hstep : nativeBlocksHandler E s b = .ok s') :
    ∃ r, nativeBlocksHandler E
        (initialState (stored v (setTransactionsRoot E f)) evmLib₀) b = .ok r ∧
      Resumed E (stored v (setTransactionsRoot E f)) s' r := by
  obtain ⟨-, back, -, hback⟩ := h.coherent.last_blocks
  obtain ⟨curr, written, hadd, hadv⟩ :=
    forward_ok hE hb.dated hb.onTop hf hstep
  obtain ⟨m, hm⟩ : ∃ m, E.evmNum b - f.header.number = m + 1 :=
    ⟨E.evmNum b - f.header.number - 1, by omega⟩
  rw [hm] at hadd
  have hinit := coherent_init hE' evmLib₀
  -- the received block is dated after the second of the restored one
  have hdated : Dated E (initialState (stored v (setTransactionsRoot E f)) evmLib₀)
      b := by
    refine ⟨hb.dated.after_genesis, hb.dated.positive, ?_⟩
    intro nb hnb _
    rw [List.mem_singleton.mp hnb]
    have hgenesis : E.bm.genesisTimestamp ≤ b.timestamp / 1000000 := by
      have := hb.dated.after_genesis
      omega
    rw [evmNum_eq hE hgenesis] at hlt
    have hts := hE'.timestamp
    show (stored v (setTransactionsRoot E f)).header.timestamp * 1000000
      ≤ b.timestamp
    have hnum : (stored v (setTransactionsRoot E f)).header.number
      = f.header.number := rfl
    omega
  have htop : OnTop (initialState (stored v (setTransactionsRoot E f)) evmLib₀)
      b := by
    intro nb hnb
    obtain rfl := Option.some.inj hnb
    show f.header.prevRandao = b.prev
    rw [h.bound f hf back hback]
    exact hb.onTop back hback
  have hadd' : addNativeBlock E
      (advance E (E.evmNum b
          - (stored v (setTransactionsRoot E f)).header.number)
        (stored v (setTransactionsRoot E f))) b = .ok (curr, written) := by
    show addNativeBlock E (advance E (E.evmNum b - f.header.number) _) b = _
    rw [hm]
    exact hadd
  obtain ⟨r, hr, hadv'⟩ := hinit.forward hE' hdated htop rfl hadd'
  refine ⟨r, hr, hinit.step hE' hdated hr, hadv'.newest.trans hadv.newest.symm,
    hadv'.last.trans hadv.last.symm, ?_⟩
  -- the log of either run: the new blocks, and blocks up to the restart
  have hnew : (grow E (E.evmNum b - f.header.number)
        (stored v (setTransactionsRoot E f))).tail
      = (grow E m (generateNewEvmBlock E (setTransactionsRoot E f))).tail
        ++ [stored v (setTransactionsRoot E f)] := by
    rw [hm, grow_succ_tail]
    rfl
  have hold : publishedAbove f.header.number s = [] := by
    rw [publishedAbove, List.filter_eq_nil_iff]
    intro p hp
    have := h.published p hp f hf
    simp only [decide_eq_true_eq]
    omega
  have hlog : r.published = (grow E (E.evmNum b - f.header.number)
      (stored v (setTransactionsRoot E f))).tail ++ [] := hadv'.published
  show r.published.filter (fun e => f.header.number < e.header.number)
    = s'.published.filter (fun e => f.header.number < e.header.number)
  rw [publishedAbove] at hold
  rw [hlog, hnew, hadv.published, hm, grow_succ_tail, List.filter_append,
    List.filter_append, List.filter_append, List.filter_append, hold]
  have hself : ∀ x : Block Tx, x.header.number = f.header.number →
      [x].filter (fun e => f.header.number < e.header.number) = [] := by
    intro x hx
    rw [List.filter_singleton, hx]
    simp
  rw [hself (stored v (setTransactionsRoot E f)) rfl,
    hself (setTransactionsRoot E f) rfl]
  rfl

/-- From then on the two runs take the same steps. -/
theorem Resumed.step (hE : Started E startBlock) {start : Block Tx}
    (hE' : Started E start) {r : State Tx} (h : Straight E startBlock bs s)
    (hr : Resumed E start s r) (hb : NextOfChain E s b)
    (hstep : nativeBlocksHandler E s b = .ok s') :
    ∃ r', nativeBlocksHandler E r b = .ok r' ∧ Resumed E start s' r' := by
  obtain ⟨f, back, hf, hback⟩ := h.coherent.last_blocks
  obtain ⟨curr, written, hadd, hadv⟩ :=
    forward_ok hE hb.dated hb.onTop hf hstep
  have htop : OnTop r b := by
    intro nb hnb
    rw [hr.newest] at hnb
    exact hb.onTop nb hnb
  have hdated : Dated E r b := by
    refine ⟨hb.dated.after_genesis, hb.dated.positive, ?_⟩
    have hbackle : ∀ nb ∈ r.nativeBlocks.head?, nb.timestamp ≤ b.timestamp := by
      intro nb hnb
      rw [hr.newest] at hnb
      exact hb.dated.increasing nb (List.mem_of_head? hnb) (hb.onTop nb hnb)
    intro nb hnb _
    exact (hr.coherent.dated_after hbackle).1 nb hnb
  obtain ⟨r', hr', hadv'⟩ := hr.coherent.forward hE' hdated htop
    (hr.last.trans hf) hadd
  -- both logs grow by the same blocks
  refine ⟨r', hr', hr.coherent.step hE' hdated hr',
    hadv'.newest.trans hadv.newest.symm, hadv'.last.trans hadv.last.symm, ?_⟩
  rw [publishedAbove, publishedAbove, hadv'.published, hadv.published,
    List.filter_append, List.filter_append]
  exact congrArg _ hr.published

/-- **The simulation over a run**, by induction over the uninterrupted one: the
    restart happens at the step that publishes the block, or earlier. -/
theorem restart_reach (hE : Started E startBlock) {evmLib₀ evmLib₁ : Nat}
    (hrun : Reach (nativeBlocksHandler E) (NextOfChain E)
      (initialState startBlock evmLib₀) bs s) :
    Straight E startBlock bs s ∧
    ∀ e ∈ s.published, e.header.prevRandao ≠ 0 → ∀ v,
      Started E (stored v e) →
      ∃ r, feed (nativeBlocksHandler E) (initialState (stored v e) evmLib₁)
          (restOfChain e bs) = .ok r ∧ Resumed E (stored v e) s r := by
  induction hrun with
  | start => exact ⟨straight_init hE evmLib₀, fun e he => by cases he⟩
  | @step as t t' b _ hb hstep ih =>
      obtain ⟨h, ih⟩ := ih
      obtain ⟨f, back, hf, hback⟩ := h.coherent.last_blocks
      refine ⟨h.step hE hb hstep, ?_⟩
      intro e he hrandao v hE'
      obtain ⟨curr, written, -, hadv⟩ :=
        forward_ok hE hb.dated hb.onTop hf hstep
      have hnum := hb.number back hback
      rw [hadv.published] at he
      rcases List.mem_append.mp he with hnew | hold
      · -- published by this step: the block before the gap
        obtain rfl : e = setTransactionsRoot E f := by
          rcases grow_tail_prevRandao hE _ f e hnew with heq | hzero
          · exact heq
          · exact absurd hzero hrandao
        have hlt : f.header.number < E.evmNum b := by
          have := grow_tail_number hE _ f _ hnew
          omega
        have hid : toBlockNum (setTransactionsRoot E f).header.prevRandao
            = back.blockNum := by
          show toBlockNum f.header.prevRandao = back.blockNum
          rw [h.bound f hf back hback, h.idNumber back hback]
        have hrest : restOfChain (setTransactionsRoot E f) (as ++ [b]) = [b] := by
          rw [restOfChain, hid, List.filter_append, List.filter_eq_nil_iff.mpr]
          · rw [List.nil_append, List.filter_singleton, hnum]
            simp
          · intro x hx
            have := h.delivered x hx back hback
            simp only [decide_eq_true_eq]
            omega
        obtain ⟨r, hr, hres⟩ := resumed_first hE hE' evmLib₁ h hb hf hlt hstep
        refine ⟨r, ?_, hres⟩
        rw [hrest, feed_cons, hr]
        rfl
      · -- published before: the restarted run takes this step as well
        obtain ⟨r, hr, hres⟩ := ih e hold hrandao v hE'
        obtain ⟨r', hr', hres'⟩ := hres.step hE hE' h hb hstep
        have hlt : toBlockNum e.header.prevRandao < b.blockNum := by
          have := h.publishedIds e hold back hback
          omega
        have hrest : restOfChain e (as ++ [b]) = restOfChain e as ++ [b] := by
          rw [restOfChain, restOfChain, List.filter_append, List.filter_singleton]
          simp [hlt]
        refine ⟨r', ?_, hres'⟩
        rw [hrest]
        exact feed_concat_ok.mpr ⟨r, hr, hr'⟩

end Resumed

/-- **Restart equivalence**: from any database that returns a published block
    with a native id as its start block, `load_head` succeeds, the rest of the
    native chain is accepted, and the blocks published above the start block are
    those of the uninterrupted run. -/
theorem restart_equivalence {X : Externals Tx} {db db' : ChainData Tx}
    {height height' : Option Nat} {startBlock : Block Tx} {E : Env Tx}
    {s₀ s : State Tx} (hload : Loaded X db height startBlock E s₀)
    {bs : List NativeBlock}
    (hrun : Reach (nativeBlocksHandler E) (NextOfChain E) s₀ bs s)
    {e : Block Tx} (he : e ∈ s.published) (hrandao : e.header.prevRandao ≠ 0)
    (hsound : db'.Sound) (hgenesis : getGenesisHeader db' = getGenesisHeader db)
    (hconfig : db'.chainConfig = db.chainConfig) {v : Bool}
    (hstart : getCanonicalBlockAtHeight db' height' = some (stored v e))
    (evmLib₀ : Nat) :
    ∃ r₀ r, loadHead X db' height' evmLib₀ = .ok (E, r₀) ∧
      feed (nativeBlocksHandler E) r₀ (restOfChain e bs) = .ok r ∧
      publishedAbove e.header.number r = publishedAbove e.header.number s := by
  obtain ⟨genesisHeader, hgen, hname, hE⟩ := hload.components
  have hE' : E = loadedEnv X db' genesisHeader := by
    rw [hE, loadedEnv, loadedEnv, hconfig]
  have hloaded : loadHead X db' height' evmLib₀
      = .ok (E, initialState (stored v e) evmLib₀) :=
    loadHead_ok_iff.mpr
      ⟨_, genesisHeader, hstart, hgenesis.trans hgen, hname, hE', rfl⟩
  have hload' : Loaded X db' height' (stored v e) E
      (initialState (stored v e) evmLib₀) :=
    ⟨hload.lawful, hsound, hstart, evmLib₀, hloaded⟩
  obtain ⟨evmLib₁, rfl⟩ := hload.initial
  obtain ⟨r, hr, hres⟩ := (restart_reach hload.started hrun).2 e he hrandao v
    hload'.started
  exact ⟨_, r, hloaded, hr, hres.published⟩

/-- A chain with a gap: native block 3 falls into EVM block 3. -/
def plainGap : List NativeBlock :=
  [plainNative 2 0 0 21 1 [plainPayload 0 0 [1, 2]],
   plainNative 3 0 0 24 2 [plainPayload 1 7 [3]]]

/-- Restarting inside the gap, from EVM block 1. -/
theorem restart_equivalence_plainGap :
    ∃ s e r₀ r, Reach (nativeBlocksHandler plainEnv) (NextOfChain plainEnv)
        (initialState plainGenesis 0) plainGap s ∧ e ∈ s.published ∧
      e.header.number = 1 ∧
      loadHead plainExternals (storedData [stored false e, plainGenesis]) (some 2) 5
        = .ok (plainEnv, r₀) ∧
      feed (nativeBlocksHandler plainEnv) r₀ (restOfChain e plainGap) = .ok r ∧
      publishedAbove 1 r = publishedAbove 1 s := by
  have hcheck : checkRun (nativeBlocksHandler plainEnv) (NextOfChain plainEnv)
      (initialState plainGenesis 0) plainGap = true := by decide +kernel
  obtain ⟨s, hs⟩ := exists_reach hcheck
  have hlog : s.published.map
      (fun e => (e.header.number, e.header.timestamp, e.header.prevRandao))
      = [(2, 12, 0), (1, 11, nativeId 2 0), (0, 10, nativeId 1 0)] :=
    hs.eval (f := fun s => s.published.map
      (fun e => (e.header.number, e.header.timestamp, e.header.prevRandao)))
      (by decide +kernel)
  obtain ⟨e, he, hfacts⟩ : ∃ e ∈ s.published,
      (e.header.number, e.header.timestamp, e.header.prevRandao)
        = (1, 11, nativeId 2 0) := by
    refine List.mem_map.mp ?_
    rw [hlog]
    exact List.mem_cons_of_mem _ List.mem_cons_self
  obtain ⟨hnum, hrest⟩ := Prod.mk.inj hfacts
  obtain ⟨hts, hid⟩ := Prod.mk.inj hrest
  have hrandao : e.header.prevRandao ≠ 0 := by
    rw [hid]
    decide
  have hdated : ∀ b ∈ [stored false e, plainGenesis],
      b.header.timestamp = 10 + b.header.number := by
    intro b hb
    rcases List.mem_cons.mp hb with rfl | hb
    · show e.header.timestamp = 10 + e.header.number
      rw [hts, hnum]
    · rw [List.mem_singleton.mp hb]
      rfl
  have hread : ∀ k, (storedData [stored false e, plainGenesis]).readBlockByNumber k
      = if 1 = k then some (stored false e)
        else if 0 = k then some plainGenesis else none := by
    intro k
    show List.find? _ _ = _
    rw [List.find?_cons, show (stored false e).header.number = 1 from hnum]
    by_cases h1 : 1 = k
    · simp [h1]
    · by_cases h0 : 0 = k
      · simp [h1, h0, plainGenesis]
      · simp [h1, h0, plainGenesis]
  have hheader : ∀ k,
      (storedData [stored false e, plainGenesis]).readCanonicalHeader k
        = ((storedData [stored false e, plainGenesis]).readBlockByNumber k).map
            (fun b => b.header) := fun _ => rfl
  have hfirst : (storedData [stored false e, plainGenesis]).readCanonicalHeader 1
      = some e.header := by
    rw [hheader, hread]
    rfl
  have hstart : getCanonicalBlockAtHeight
      (storedData [stored false e, plainGenesis]) (some (1 + 1))
      = some (stored false e) := by
    refine getCanonicalBlockAtHeight_of_gap hfirst hnum hrandao ?_
      (by rw [hread]; rfl)
    intro m hlt hle x hx
    rw [hheader, hread, if_neg (by omega), if_neg (by omega)] at hx
    cases hx
  have hgenesis : getGenesisHeader (storedData [stored false e, plainGenesis])
      = getGenesisHeader (storedData [plainGenesis]) := by
    show (storedData [stored false e, plainGenesis]).readCanonicalHeader 0 = _
    rw [hheader, hread]
    rfl
  obtain ⟨r₀, r, hr₀, hr, hpub⟩ := restart_equivalence (plainEnv_loaded 0) hs he
    hrandao (storedData_sound hdated) hgenesis rfl hstart 5
  rw [hnum] at hpub
  exact ⟨s, e, r₀, r, hs, he, hnum, hr₀, hr, hpub⟩

end BlockConversion

import EosEvmNode.BlockConversion.Restart

/-! # The native and the EVM cursor

    The last native block should be the upper bound of the last EVM block: it is
    dated within that block, and its id is the block's `prev_randao`.

    `load_head` fabricates a native block from the start block's own header
    timestamp, which is the end of the seconds that belong to the start block: the
    fabricated block is dated in the next EVM block.  From the first accepted native
    block on the cursors are aligned, as long as no block is dated before its
    parent. -/

namespace BlockConversion

open Channels Silkworm Engine Runs

variable {Tx : Type}

/-- The last native block and the last EVM block belong together. -/
def Aligned (E : Env Tx) (s : State Tx) : Prop :=
  ∃ back ∈ s.nativeBlocks.head?, ∃ last ∈ s.evmBlocks.head?,
    E.evmNum back = last.header.number ∧ last.header.prevRandao = back.id

/-- Whether the cursors are aligned after a call, read off the state before it. -/
structure KeepsAligned (E : Env Tx) (s : State Tx) (b : NativeBlock) : Prop where
  /-- Kept as the last block before genesis. -/
  kept : b.timestamp ≤ E.bm.genesisTimestamp → ∃ last ∈ s.evmBlocks.head?,
    E.evmNum b = last.header.number ∧ last.header.prevRandao = b.id
  /-- On top of the last native block. -/
  onTop : E.bm.genesisTimestamp < b.timestamp → OnTop s b →
    ∃ last ∈ s.evmBlocks.head?, last.header.number ≤ E.evmNum b
  /-- A duplicate. -/
  duplicate : E.bm.genesisTimestamp < b.timestamp → ¬ OnTop s b →
    isCached s b.id = true → Aligned E s
  /-- On top of an earlier native block. -/
  forked : E.bm.genesisTimestamp < b.timestamp → ¬ OnTop s b →
    ¬ isCached s b.id = true →
    ∀ parent ∈ s.nativeBlocks.find? (fun nb => nb.id = b.prev),
      E.evmNum parent ≤ E.evmNum b

section Cursors

variable {E : Env Tx} {startBlock : Block Tx} {s t s' : State Tx} {b : NativeBlock}

/-- The loop stops at the number it is given, or at the block it starts from. -/
theorem extendEvmChain_number (hE : Started E startBlock) {n fuel : Nat}
    {v u : State Tx} {e curr : Block Tx} {es older : List (Block Tx)}
    (hevm : v.evmBlocks = e :: es) (h : extendEvmChain E n fuel v = .ok u)
    (hu : u.evmBlocks = curr :: older) :
    curr.header.number = max e.header.number n := by
  obtain ⟨hrange, last, rest, hlast, hge⟩ := extendEvmChain_invariant
    (P := fun u => ∀ x ∈ u.evmBlocks.head?,
      e.header.number ≤ x.header.number ∧
        x.header.number ≤ max e.header.number n)
    (by
      intro u last older hu hlt hP x hx
      obtain rfl := Option.some.inj hx
      have hnew : (generateNewEvmBlock E (setTransactionsRoot E last)).header.number
          = last.header.number + 1 := generateNewEvmBlock_number hE _
      have hold := hP last (by rw [hu]; rfl)
      omega)
    fuel v u
    (by
      intro x hx
      rw [hevm] at hx
      obtain rfl := Option.some.inj hx
      omega) h
  rw [hu] at hlast
  obtain ⟨rfl, -⟩ := List.cons.inj hlast
  have hcurr := hrange curr (by rw [hu]; rfl)
  omega

/-- Removing irreversible blocks leaves the last blocks alone. -/
theorem removeIrreversible_heads {v : State Tx} {lib : Nat}
    (h : removeIrreversible E v lib = .ok s') :
    s'.nativeBlocks.head? = v.nativeBlocks.head? ∧
      s'.evmBlocks.head? = v.evmBlocks.head? := by
  rcases removeIrreversible_ok h with ⟨-, rfl⟩ | ⟨it, oldNatives, oldEvms, -, hp⟩
  · exact ⟨rfl, rfl⟩
  · rw [hp.natives, hp.evms, List.head?_append_of_ne_nil _ hp.natives_ne,
      List.head?_append_of_ne_nil _ hp.evms_ne]
    exact ⟨rfl, rfl⟩

/-- **An appended block** is aligned with its EVM block exactly when the chain had
    not passed it. -/
theorem aligned_append_iff (hE : Started E startBlock)
    (h : appendNativeBlock E t b = .ok s') :
    Aligned E s' ↔ ∃ last ∈ t.evmBlocks.head?, last.header.number ≤ E.evmNum b := by
  obtain ⟨u, curr, older, curr', written, ha⟩ := appendNativeBlock_ok h
  obtain ⟨hnat, hevm⟩ := removeIrreversible_heads ha.pruned
  have hnatives : s'.nativeBlocks.head? = some b := by
    rw [hnat]
    show u.nativeBlocks.head? = some b
    rw [(extendEvmChain_frame ha.extended).1]
    rfl
  obtain ⟨txs, -, hcurr, -⟩ := addNativeBlock_ok hE.lawful ha.added
  cases htevm : t.evmBlocks with
  | nil =>
      -- there is no block to extend the chain from
      have hext := ha.extended
      rw [extendEvmChain.eq_def] at hext
      simp only [htevm] at hext
      cases hext
  | cons e es =>
      have hnum := extendEvmChain_number hE
        (v := { t with nativeBlocks := b :: t.nativeBlocks }) htevm ha.extended ha.evms
      have hnum' : curr'.header.number = max e.header.number (E.evmNum b) := by
        rw [hcurr]
        exact hnum
      have hid : curr'.header.prevRandao = b.id := by
        rw [hcurr]
        rfl
      constructor
      · rintro ⟨back, hback, last, hlast, halign, -⟩
        rw [hnatives] at hback
        rw [hevm] at hlast
        obtain rfl := Option.some.inj hback
        obtain rfl := Option.some.inj hlast
        refine ⟨e, rfl, ?_⟩
        omega
      · rintro ⟨last, hlast, hle⟩
        obtain rfl := Option.some.inj hlast
        refine ⟨b, hnatives, curr', hevm, ?_, hid⟩
        omega

/-- A fork leaves the block of the parent as the last one. -/
theorem rollback_last {f : NativeBlock} (hf : f.id = b.prev)
    (h : rollback E s f = .ok t) :
    ∃ parent last, s.nativeBlocks.find? (fun nb => nb.id = b.prev) = some parent ∧
      t.evmBlocks.head? = some last ∧ E.evmNum parent = last.header.number := by
  obtain ⟨back, older, e, es, txs, hr⟩ := rollback_ok h
  have hfind : s.nativeBlocks.find? (fun nb => nb.id = b.prev) = some back := by
    have hdrop := hr.natives
    rw [hf] at hdrop
    rw [List.find?_eq_head?_dropWhile_not,
      show s.nativeBlocks.dropWhile (fun nb => !decide (nb.id = b.prev))
        = back :: older from by simpa only [decide_not, ne_eq] using hdrop]
    rfl
  refine ⟨back, setUpperBound { e with transactions := txs } back, hfind, ?_, hr.number⟩
  rw [hr.result]
  rfl

/-- A block that is not on top of the last native block meets one with another id. -/
theorem link_of_cached (htop : ¬ OnTop s b) (hcached : isCached s b.id = true) :
    linkNativeBlock E s b = .ok none := by
  obtain ⟨back, hback⟩ := not_forall.mp htop
  obtain ⟨hhead, hne⟩ := Classical.not_imp.mp hback
  exact linkNativeBlock_duplicate hhead hne hcached

/-- **After any call that returns**, in any state, the cursors are aligned exactly
    when `KeepsAligned` says so of the state before it. -/
theorem aligned_step_iff (hE : Started E startBlock)
    (h : nativeBlocksHandler E s b = .ok s') :
    Aligned E s' ↔ KeepsAligned E s b := by
  rw [nativeBlocksHandler] at h
  by_cases hgen : b.timestamp ≤ E.bm.genesisTimestamp
  · rw [if_pos hgen] at h
    obtain rfl := Except.ok.inj h
    constructor
    · rintro ⟨back, hback, last, hlast, halign⟩
      obtain rfl := Option.some.inj hback
      exact ⟨fun _ => ⟨last, hlast, halign⟩, fun hlt => by omega,
        fun hlt => by omega, fun hlt => by omega⟩
    · intro hkeeps
      obtain ⟨last, hlast, halign⟩ := hkeeps.kept hgen
      exact ⟨b, rfl, last, hlast, halign⟩
  · rw [if_neg hgen] at h
    have hlt : E.bm.genesisTimestamp < b.timestamp := by omega
    by_cases htop : OnTop s b
    · rw [link_of_onTop htop, ok_bind] at h
      rw [aligned_append_iff hE h]
      constructor
      · intro hle
        exact ⟨fun hge => absurd hge hgen, fun _ _ => hle,
          fun _ hnot => absurd htop hnot, fun _ hnot => absurd htop hnot⟩
      · intro hkeeps
        exact hkeeps.onTop hlt htop
    · by_cases hcached : isCached s b.id = true
      · rw [link_of_cached htop hcached, ok_bind] at h
        obtain rfl := Except.ok.inj h
        constructor
        · intro haligned
          exact ⟨fun hge => absurd hge hgen, fun _ hon => absurd hon htop,
            fun _ _ _ => haligned, fun _ _ hfresh => absurd hcached hfresh⟩
        · intro hkeeps
          exact hkeeps.duplicate hlt htop hcached
      · obtain ⟨r, hlink, h⟩ := bind_ok h
        rcases linkNativeBlock_ok hlink with
          ⟨-, hdup⟩ | ⟨-, hback⟩ | ⟨f, t, hf, hroll, rfl⟩
        · exact absurd hdup hcached
        · exact absurd hback htop
        · obtain ⟨parent, last, hparent, hlast, hnum⟩ :=
            rollback_last (findForkBlock_some hf).2 hroll
          rw [aligned_append_iff hE h, hlast]
          constructor
          · rintro ⟨x, hx, hle⟩
            obtain rfl := Option.some.inj hx
            refine ⟨fun hge => absurd hge hgen, fun _ hon => absurd hon htop,
              fun _ _ hdup => absurd hdup hcached, ?_⟩
            intro _ _ _ p hp
            rw [hparent] at hp
            obtain rfl := Option.some.inj hp
            omega
          · intro hkeeps
            have := hkeeps.forked hlt htop hcached parent hparent
            exact ⟨last, rfl, by omega⟩

/-! ## Runs -/

/-- The fabricated native block is dated one EVM block too late. -/
theorem not_aligned_init (hE : Started E startBlock) (evmLib₀ : Nat) :
    ¬ Aligned E (initialState startBlock evmLib₀) := by
  rintro ⟨back, hback, last, hlast, hnum, -⟩
  obtain rfl := Option.some.inj hback
  obtain rfl := Option.some.inj hlast
  rw [evmNum_restored hE] at hnum
  omega

/-- A block that continues the chain aligns the cursors. -/
theorem Coherent.keepsAligned_onTop (hE : Started E startBlock)
    (hs : Coherent E startBlock s) (hdated : Dated E s b) (htop : OnTop s b) :
    KeepsAligned E s b := by
  obtain ⟨e, back, he, hback⟩ := hs.last_blocks
  have hle : e.header.number ≤ E.evmNum b := by
    refine hs.head_le_evmNum hE ?_ e he
    intro nb hnb
    exact hdated.increasing nb (List.mem_of_head? hnb) (htop nb hnb)
  exact ⟨fun hge => absurd hge hdated.not_before, fun _ _ => ⟨e, he, hle⟩,
    fun _ hnot => absurd htop hnot, fun _ hnot => absurd htop hnot⟩

/-- **Once aligned, always aligned**, whatever dated block arrives. -/
theorem Coherent.keepsAligned (hE : Started E startBlock)
    (hs : Coherent E startBlock s) (hdated : Dated E s b) (h : Aligned E s) :
    KeepsAligned E s b := by
  by_cases htop : OnTop s b
  · exact hs.keepsAligned_onTop hE hdated htop
  · refine ⟨fun hge => absurd hge hdated.not_before, fun _ hon => absurd hon htop,
      fun _ _ _ => h, ?_⟩
    intro _ _ _ parent hparent
    have hmem := List.mem_of_find?_eq_some hparent
    have hid : parent.id = b.prev := by simpa using List.find?_some hparent
    exact evmNum_mono hE (hs.filled.dated parent hmem)
      (hdated.increasing parent hmem hid)

/-- Before its first child arrives, the start state only accepts repetitions of the
    restored block. -/
theorem handler_init_of_not_child {evmLib₀ : Nat}
    (hgen : ¬ b.timestamp ≤ E.bm.genesisTimestamp)
    (hprev : b.prev ≠ startBlock.header.prevRandao)
    (h : nativeBlocksHandler E (initialState startBlock evmLib₀) b = .ok s') :
    s' = initialState startBlock evmLib₀ := by
  rcases nativeBlocksHandler_ok h with
    ⟨hge, -⟩ | ⟨-, rfl⟩ | ⟨t, -, ⟨-, hback⟩ | ⟨f, hf, -⟩, -⟩
  · exact absurd hge hgen
  · rfl
  · exact absurd (hback _ rfl).symm hprev
  · obtain ⟨hmem, hid⟩ := findForkBlock_some hf
    rw [List.mem_singleton.mp hmem] at hid
    exact absurd hid.symm hprev

/-- **The run lemma**: the start state until a child of the restored block arrives,
    aligned states from then on. -/
theorem aligned_reach_iff (hE : Started E startBlock) {evmLib₀ : Nat}
    {bs : List NativeBlock} (hrun : Reach (nativeBlocksHandler E) (Dated E)
      (initialState startBlock evmLib₀) bs s) :
    (s = initialState startBlock evmLib₀ ∧
        ∀ b ∈ bs, b.prev ≠ startBlock.header.prevRandao) ∨
      (Aligned E s ∧ ∃ b ∈ bs, b.prev = startBlock.header.prevRandao) := by
  induction hrun with
  | start => exact Or.inl ⟨rfl, by rintro b ⟨⟩⟩
  | @step as t t' b hreach hdated hstep ih =>
      have ht := coherent_reach hE hreach
      rcases ih with ⟨rfl, hnone⟩ | ⟨haligned, x, hx, hprev⟩
      · by_cases hprev : b.prev = startBlock.header.prevRandao
        · refine Or.inr ⟨?_, b, List.mem_append_right _ List.mem_cons_self, hprev⟩
          refine (aligned_step_iff hE hstep).mpr (ht.keepsAligned_onTop hE hdated ?_)
          intro back hback
          obtain rfl := Option.some.inj hback
          exact hprev.symm
        · refine Or.inl ⟨handler_init_of_not_child hdated.not_before hprev hstep, ?_⟩
          intro y hy
          rcases List.mem_append.mp hy with hold | hnew
          · exact hnone y hold
          · rw [List.mem_singleton.mp hnew]
            exact hprev
      · exact Or.inr ⟨(aligned_step_iff hE hstep).mpr (ht.keepsAligned hE hdated haligned),
          x, List.mem_append_left _ hx, hprev⟩

end Cursors

/-- **The cursors are never aligned in the state `load_head` leaves.**  After a call
    they are exactly when `KeepsAligned` says so of the state before it; over the
    blocks that the native chain promises, exactly from the first child of the
    restored block on. -/
theorem cursors_aligned_iff {X : Externals Tx} {db : ChainData Tx} {height : Option Nat}
    {startBlock : Block Tx} {E : Env Tx} {s₀ : State Tx}
    (h : Loaded X db height startBlock E s₀) :
    ¬ Aligned E s₀ ∧
    (∀ s s' b, nativeBlocksHandler E s b = .ok s' →
      (Aligned E s' ↔ KeepsAligned E s b)) ∧
    ∀ bs s, Reach (nativeBlocksHandler E) (Dated E) s₀ bs s →
      (Aligned E s ↔ ∃ b ∈ bs, b.prev = startBlock.header.prevRandao) := by
  have hE := h.started
  obtain ⟨evmLib₀, rfl⟩ := h.initial
  refine ⟨not_aligned_init hE evmLib₀, fun s s' b hstep => aligned_step_iff hE hstep, ?_⟩
  intro bs s hrun
  rcases aligned_reach_iff hE hrun with ⟨rfl, hnone⟩ | ⟨haligned, hchild⟩
  · refine iff_of_false (not_aligned_init hE evmLib₀) ?_
    rintro ⟨b, hb, hprev⟩
    exact hnone b hb hprev
  · exact iff_of_true haligned hchild

/-! ## A fork on the restored block -/

/-- Block 2 on top of the restored block 1, two seconds later, and another block 2
    there. -/
def twoChildren : List NativeBlock :=
  [plainNative 2 0 0 24 0 [], plainNative 2 1 0 24 0 []]

/-- The first of them aligns the cursors, and the fork on the restored block keeps them
    aligned. -/
theorem cursors_aligned_twoChildren :
    ∃ s s', Reach (nativeBlocksHandler plainEnv) (Dated plainEnv)
        (initialState plainGenesis 0) (twoChildren.take 1) s ∧ Aligned plainEnv s ∧
      Reach (nativeBlocksHandler plainEnv) (Dated plainEnv)
        (initialState plainGenesis 0) twoChildren s' ∧
      s'.nativeBlocks.map (fun nb => nb.id) = [nativeId 2 1, nativeId 1 0] ∧
      Aligned plainEnv s' := by
  have hfirst : checkRun (nativeBlocksHandler plainEnv) (Dated plainEnv)
      (initialState plainGenesis 0) (twoChildren.take 1) = true := by decide +kernel
  have hfork : checkRun (nativeBlocksHandler plainEnv) (Dated plainEnv)
      (initialState plainGenesis 0) twoChildren = true := by decide +kernel
  have haligned : ∀ {bs : List NativeBlock} {t : State Bytes},
      plainNative 2 0 0 24 0 [] ∈ bs → Reach (nativeBlocksHandler plainEnv) (Dated plainEnv)
        (initialState plainGenesis 0) bs t → Aligned plainEnv t := fun hmem hrun =>
    ((cursors_aligned_iff (plainEnv_loaded 0)).2.2 _ _ hrun).mpr ⟨_, hmem, rfl⟩
  obtain ⟨s, hs⟩ := exists_reach hfirst
  obtain ⟨s', hs'⟩ := exists_reach hfork
  exact ⟨s, s', hs, haligned List.mem_cons_self hs, hs',
    hs'.eval (f := fun t => t.nativeBlocks.map fun nb => nb.id) (by decide +kernel),
    haligned List.mem_cons_self hs'⟩

/-- **The fabricated native block belongs to EVM block 1**, not to the start block 0.
    A fork that lands on it makes it the upper bound of both. -/
theorem not_aligned_plainGenesis :
    ¬ Aligned plainEnv (initialState plainGenesis 0) ∧
    plainEnv.evmNum (restoredNativeBlock plainGenesis) = 1 ∧
    (feed (nativeBlocksHandler plainEnv) (initialState plainGenesis 0) twoChildren).map
        (fun s => s.evmBlocks.map (fun e => (e.header.number, e.header.prevRandao)))
      = .ok [(3, nativeId 2 1), (2, 0), (1, nativeId 1 0), (0, nativeId 1 0)] := by
  refine ⟨?_, by decide, by decide +kernel⟩
  rintro ⟨back, hback, last, hlast, hnum, -⟩
  obtain rfl := Option.some.inj hback
  obtain rfl := Option.some.inj hlast
  revert hnum
  decide

end BlockConversion

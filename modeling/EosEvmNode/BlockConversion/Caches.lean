import EosEvmNode.BlockConversion.Finality

/-! # The caches are a function of the chain

    `native_blocks`, `evm_blocks` and `evm_lib` come about block by block: blocks are
    pushed, popped at the back by forks and at the front by the LIB.  While the LIB
    fields do not decrease, nothing of that history is left in them.  The delivered
    chain, which is a branch and a LIB, determines what is cached: the part that may
    still change, and the EVM block below it. -/

namespace BlockConversion

open Channels Silkworm Engine Runs

variable {Tx : Type}

/-! ## What the chain says -/

/-- The newest native block at or below the LIB. -/
def NativeChain.libBlock (c : NativeChain) : Option NativeBlock :=
  c.lib.bind fun lib => c.branch.find? fun nb => nb.blockNum ≤ lib

/-- The EVM block before the one it belongs to. -/
def NativeChain.evmLib (E : Env Tx) (c : NativeChain) : Option Nat :=
  c.libBlock.map fun it => E.evmNum it - 1

/-- The EVM number from which native blocks are kept. -/
def NativeChain.lowest (E : Env Tx) (c : NativeChain) : Nat := (c.evmLib E).getD 0

/-- The EVM block under construction: before anything is delivered, the start
    block. -/
def NativeChain.evmHead (E : Env Tx) (start : Nat) (c : NativeChain) : Nat :=
  match c.lib, c.branch with
  | some _, nb :: _ => E.evmNum nb
  | _, _ => start

/-- The caches, and what the chain says of them.  `evmLib₀` is what `evm_lib` holds
    before a LIB block has been found. -/
structure CachesOf (E : Env Tx) (startBlock : Block Tx) (evmLib₀ : Nat)
    (p : State Tx × NativeChain) : Prop where
  current : Current E startBlock p
  natives : ∃ old, p.1.nativeBlocks ++ old = p.2.branch ∧
    (∀ nb ∈ p.1.nativeBlocks, p.2.lowest E ≤ E.evmNum nb) ∧
    ∀ nb ∈ old, E.evmNum nb < p.2.lowest E
  front : frontNumber p.1.evmBlocks = some (max startBlock.header.number (p.2.lowest E))
  unset : p.2.libBlock = none → p.1.evmLib = evmLib₀
  untouched : p.2.lib = none →
    p.1.evmBlocks.map blockNumber = [startBlock.header.number]

section Caches

variable {E : Env Tx} {startBlock : Block Tx} {evmLib₀ : Nat}
  {p q : State Tx × NativeChain} {s s' : State Tx} {c : NativeChain}
  {b it : NativeBlock} {lib : Nat}

theorem NativeChain.lowest_of_none (h : c.libBlock = none) : c.lowest E = 0 := by
  rw [NativeChain.lowest, NativeChain.evmLib, h]
  rfl

/-- The entry of the cache is the one of the branch. -/
theorem Window.libEntry_branch (h : Window E startBlock s c) (hlib : lib ∈ c.lib) :
    libEntry s.nativeBlocks lib = c.branch.find? (fun nb => nb.blockNum ≤ lib) := by
  obtain ⟨old, hold⟩ := h.cached
  rw [h.libEntry_eq, ← hold, List.find?_append]
  cases hfind : s.nativeBlocks.find? (fun nb => nb.blockNum ≤ lib) with
  | some it => rfl
  | none =>
      rw [List.find?_eq_none] at hfind
      rw [Option.none_or]
      rcases h.window with ⟨hall, -⟩ | ⟨x, hx, ⟨l, hl, hle⟩, -⟩
      · have hnil : old = [] := List.append_right_eq_self.mp (hold.trans hall.symm)
        rw [hnil]
        rfl
      · obtain rfl := Option.some.inj (hlib.symm.trans hl)
        exact absurd (by simpa using hle) (hfind x hx)

theorem Window.libBlock_eq (h : Window E startBlock s c) (hlib : lib ∈ c.lib) :
    c.libBlock = libEntry s.nativeBlocks lib := by
  rw [h.libEntry_branch hlib, NativeChain.libBlock, show c.lib = some lib from hlib]
  rfl

/-- A LIB block settles `evm_lib`. -/
theorem Current.lowest_eq (h : Current E startBlock p)
    (hit : p.2.libBlock = some it) : p.2.lowest E = p.1.evmLib := by
  obtain ⟨lib, hlib, -⟩ := Option.bind_eq_some_iff.mp hit
  have hentry := (h.window.libBlock_eq hlib).symm.trans hit
  have hnum := h.evmLib lib hlib it hentry
  rw [NativeChain.lowest, NativeChain.evmLib, hit, Option.map_some, Option.getD_some]
  omega

/-- There is still one after a step, and `evm_lib` has not gone back. -/
theorem Current.libBlock_step (hE : Started E startBlock) (h : Current E startBlock p)
    (hb : LibDelivery E p b) (hstep : trackedHandler E p b = .ok q)
    (hit : p.2.libBlock = some it) :
    (∃ it', q.2.libBlock = some it') ∧ p.1.evmLib ≤ q.1.evmLib := by
  obtain ⟨lib, hlib, -⟩ := Option.bind_eq_some_iff.mp hit
  have hentry := (h.window.libBlock_eq hlib).symm.trans hit
  have hrun : Reach (trackedHandler E) (LibDelivery E) p [b] q := .step .start hb hstep
  have hburied := buried_reach hE h hlib hentry hrun
  obtain ⟨l, hl, hle⟩ := hburied.reported
  have hq := (h.step hE hb hstep).window
  obtain ⟨it', hit'⟩ := hq.entry_exists hl hburied.mem hle
  exact ⟨⟨it', (hq.libBlock_eq hl).trans hit'⟩, (h.evmLib_mono hE hlib hentry hrun).1⟩

/-- The lowest number never goes back. -/
theorem Current.lowest_le (hE : Started E startBlock) (h : Current E startBlock p)
    (hb : LibDelivery E p b) (hstep : trackedHandler E p b = .ok q) :
    p.2.lowest E ≤ q.2.lowest E := by
  cases hit : p.2.libBlock with
  | none =>
      rw [NativeChain.lowest_of_none hit]
      exact Nat.zero_le _
  | some it =>
      obtain ⟨⟨it', hit'⟩, hle⟩ := h.libBlock_step hE hb hstep hit
      rw [h.lowest_eq hit, (h.step hE hb hstep).lowest_eq hit']
      exact hle

/-- While it grows, the LIB is the one of the last block. -/
theorem NativeChain.lib_of_growing {parent : NativeBlock} (hb : Follows c b parent)
    (hgrows : ∀ lib ∈ c.lib, lib ≤ b.lib) : (c.deliver b).lib = some b.lib := by
  rw [NativeChain.deliver_of_follows hb]
  cases hlib : c.lib with
  | none => exact congrArg some (Nat.zero_max _)
  | some lib => exact congrArg some (Nat.max_eq_right (hgrows lib hlib))

/-! ## One step -/

theorem cachesOf_start (hE : Started E startBlock) (evmLib₀ : Nat) :
    CachesOf E startBlock evmLib₀
      (initialState startBlock evmLib₀, NativeChain.start startBlock) where
  current := current_start hE evmLib₀
  natives := ⟨[], rfl, fun _ _ => Nat.zero_le _, fun _ h => absurd h List.not_mem_nil⟩
  front := by
    show some startBlock.header.number = some (max startBlock.header.number 0)
    rw [Nat.max_zero]
  unset := fun _ => rfl
  untouched := fun _ => rfl

/-- The link check shortens the cache and the branch alike. -/
theorem CachesOf.link (h : CachesOf E startBlock evmLib₀ p) {t : State Tx}
    (hlink : LinkedTo E p.1 b t) :
    ∃ old, t.nativeBlocks ++ old = p.2.branch.dropWhile (fun nb => nb.id ≠ b.prev) ∧
      ∀ nb ∈ old, E.evmNum nb < p.2.lowest E := by
  obtain ⟨hnat, f, hf, hid⟩ := hlink.natives_eq h.current.window.coherent.natives_ne
  obtain ⟨old, hsplit, -, hdropped⟩ := h.natives
  have hne : p.1.nativeBlocks.dropWhile (fun nb => nb.id ≠ b.prev) ≠ [] := by
    intro hnil
    rw [List.dropWhile_eq_nil_iff] at hnil
    have := hnil f hf
    simp [hid] at this
  refine ⟨old, ?_, hdropped⟩
  rw [hnat, ← hsplit, List.dropWhile_append, if_neg (by simpa using hne)]

/-- The state in which irreversible blocks are about to be removed: the received
    block is in, and the fronts are where they were. -/
structure Received (E : Env Tx) (startBlock : Block Tx) (p q : State Tx × NativeChain)
    (b : NativeBlock) (v : State Tx) : Prop where
  natives : ∃ old, v.nativeBlocks ++ old = q.2.branch ∧
    ∀ nb ∈ old, E.evmNum nb < p.2.lowest E
  filled : Filled E startBlock v.nativeBlocks v.evmBlocks
  front : frontNumber v.evmBlocks = some (max startBlock.header.number (p.2.lowest E))
  evmLib : v.evmLib = p.1.evmLib
  lib : q.2.lib = some b.lib
  removed : removeIrreversible E v b.lib = .ok q.1

/-- Every block that is not held yet gets there. -/
theorem CachesOf.received (hE : Started E startBlock)
    (h : CachesOf E startBlock evmLib₀ p) {parent : NativeBlock}
    (hb : Follows p.2 b parent) (hgrows : ∀ lib ∈ p.2.lib, lib ≤ b.lib)
    (hs : nativeBlocksHandler E p.1 b = .ok q.1) (hc : q.2 = p.2.deliver b) :
    ∃ v, Received E startBlock p q b v := by
  have hw := h.current.window
  have hdated := hb.dated hE hw.chain hw.cached
  rcases nativeBlocksHandler_ok hs with ⟨hgen, -⟩ | ⟨hcached, -⟩ | ⟨t, -, hlink, happ⟩
  · exact absurd hgen hdated.not_before
  · obtain ⟨nb, hnb, hid⟩ := List.any_eq_true.mp hcached
    exact absurd (by simpa using hid) (hb.fresh nb (hw.cached.subset hnb))
  · obtain ⟨old, hsplit, hdropped⟩ := h.link hlink
    obtain ⟨ht, hsuf, hback⟩ := hw.coherent.link hE hlink
    have hdate : ∀ back ∈ t.nativeBlocks.head?, back.timestamp ≤ b.timestamp :=
      fun back hmem => hdated.increasing back
        (hsuf.subset (List.mem_of_head? hmem)) (hback back hmem)
    obtain ⟨u, curr, older, curr', written, ha⟩ := appendNativeBlock_ok happ
    obtain ⟨hnatu, -, hfilled⟩ := ht.added hE hdate ha.extended ha.evms ha.added
    refine ⟨_, ⟨⟨old, ?_, hdropped⟩, ?_, ?_, ?_, ?_, ha.pruned⟩⟩
    · show u.nativeBlocks ++ old = q.2.branch
      rw [hnatu, hc, NativeChain.deliver_of_follows hb, List.cons_append, hsplit]
    · show Filled E startBlock u.nativeBlocks (curr' :: older)
      rw [hnatu]
      exact hfilled
    · exact ((ha.frontNumber_eq hE).trans hlink.frontNumber_eq).trans h.front
    · exact (extendEvmChain_frame ha.extended).2.1.trans hlink.evmLib_eq
    · rw [hc]
      exact NativeChain.lib_of_growing hb hgrows

/-- The removal of irreversible blocks cuts both caches at the new lowest number. -/
theorem Pruned.cut {v : State Tx} {oldNatives : List NativeBlock}
    {oldEvms : List (Block Tx)} (hp : Pruned E v s' it oldNatives oldEvms)
    (hcons : Consecutive v.evmBlocks) {start low : Nat} (hle : low ≤ evmLibOf E it)
    (hfront : frontNumber v.evmBlocks = some (max start low)) :
    frontNumber s'.evmBlocks = some (max start (evmLibOf E it)) := by
  obtain ⟨front, hlast⟩ : ∃ front, s'.evmBlocks.getLast? = some front :=
    ⟨_, List.getLast?_eq_getLast_of_ne_nil hp.evms_ne⟩
  have hnum := frontNumber_eq_some hlast
  have habove := hp.evms_front front hlast
  have hold : max start low ≤ front.header.number := by
    refine hcons.le_of_frontNumber hfront front ?_
    rw [hp.evms]
    exact List.mem_append_left _ (List.mem_of_getLast? hlast)
  rw [hnum]
  rcases hp.frontNumber_le hcons with hsame | hbelow
  · rw [hfront, hnum] at hsame
    have hsame := Option.some.inj hsame
    exact congrArg some (by omega)
  · have hbelow := hbelow _ hnum
    exact congrArg some (by omega)

/-- Nothing is removed: there is no LIB block yet. -/
theorem CachesOf.unpruned (h : CachesOf E startBlock evmLib₀ p)
    (hq : Current E startBlock q) (hlow : p.2.lowest E ≤ q.2.lowest E)
    (hlib : ∀ it, p.2.libBlock = some it → ∃ it', q.2.libBlock = some it')
    {v : State Tx} (hv : Received E startBlock p q b v)
    (hnone : libEntry v.nativeBlocks b.lib = none) (hsame : q.1 = v) :
    CachesOf E startBlock evmLib₀ q := by
  have hlibBlock : q.2.libBlock = none := by
    rw [hq.window.libBlock_eq hv.lib, hsame]
    exact hnone
  have hzero := NativeChain.lowest_of_none (E := E) hlibBlock
  obtain ⟨old, hsplit, hdropped⟩ := hv.natives
  refine ⟨hq, ⟨old, hsame ▸ hsplit, ?_, ?_⟩, ?_, ?_, ?_⟩
  · intro nb _
    rw [hzero]
    exact Nat.zero_le _
  · exact fun nb hnb => Nat.lt_of_lt_of_le (hdropped nb hnb) hlow
  · rw [hsame, hv.front, Nat.le_antisymm hlow (hzero ▸ Nat.zero_le _)]
  · intro _
    cases hit : p.2.libBlock with
    | none => rw [hsame, hv.evmLib, h.unset hit]
    | some it =>
        obtain ⟨it', hit'⟩ := hlib it hit
        rw [hlibBlock] at hit'
        cases hit'
  · intro hnolib
    rw [hv.lib] at hnolib
    cases hnolib

/-- The LIB block fixes where both caches begin. -/
theorem CachesOf.pruned (hE : Started E startBlock) (hq : Current E startBlock q)
    (hlow : p.2.lowest E ≤ q.2.lowest E) {v : State Tx}
    (hv : Received E startBlock p q b v) {oldNatives : List NativeBlock}
    {oldEvms : List (Block Tx)} (hentry : libEntry v.nativeBlocks b.lib = some it)
    (hp : Pruned E v q.1 it oldNatives oldEvms) : CachesOf E startBlock evmLib₀ q := by
  obtain ⟨old, hsplit, hdropped⟩ := hv.natives
  -- the entry is in the branch, so the branch has a LIB block
  have hitq : it ∈ q.2.branch := by
    rw [← hsplit]
    exact List.mem_append_left _ (libEntry_mem hentry)
  have hle : it.blockNum ≤ b.lib := by
    have hsorted : v.nativeBlocks.Pairwise (fun x y => y.blockNum ≤ x.blockNum) := by
      refine List.Pairwise.imp ?_ (List.Pairwise.sublist
        (hsplit ▸ List.sublist_append_left _ old) hq.window.chain.pairwise)
      intro x y hxy
      omega
    rw [libEntry_eq_find? b.lib hsorted] at hentry
    simpa using List.find?_some hentry
  obtain ⟨it', hit'⟩ := hq.window.entry_exists hv.lib hitq hle
  have hlibBlock := (hq.window.libBlock_eq hv.lib).trans hit'
  have hlowest : q.2.lowest E = evmLibOf E it :=
    (hq.lowest_eq hlibBlock).trans hp.evmLib
  rw [hlowest] at hlow
  refine ⟨hq, ⟨oldNatives ++ old, ?_, ?_, ?_⟩, ?_, ?_, ?_⟩
  · rw [← List.append_assoc, ← hp.natives, hsplit]
  · rw [hlowest]
    exact le_of_front (hq.window.coherent.filled.evmNum_sorted hE) hp.natives_front
  · intro nb hnb
    rw [hlowest]
    rcases List.mem_append.mp hnb with hmem | hmem
    · exact hp.natives_below nb hmem
    · exact Nat.lt_of_lt_of_le (hdropped nb hmem) hlow
  · rw [hlowest]
    exact hp.cut hv.filled.consecutive hlow hv.front
  · intro hnone
    rw [hlibBlock] at hnone
    cases hnone
  · intro hnolib
    rw [hv.lib] at hnolib
    cases hnolib

theorem CachesOf.step (hE : Started E startBlock) (h : CachesOf E startBlock evmLib₀ p)
    (hb : LibDelivery E p b) (hstep : trackedHandler E p b = .ok q) :
    CachesOf E startBlock evmLib₀ q := by
  have hq := h.current.step hE hb hstep
  have hlow := h.current.lowest_le hE hb hstep
  have hlib : ∀ it, p.2.libBlock = some it → ∃ it', q.2.libBlock = some it' :=
    fun _ hit => (h.current.libBlock_step hE hb hstep hit).1
  obtain ⟨hs, hc⟩ := trackedHandler_ok hstep
  rcases hb with hdup | ⟨⟨parent, hb⟩, hgrows⟩
  · -- a block that is held already changes nothing
    rw [hdup.handler_eq] at hs
    have hsame : q = p := Prod.ext (Except.ok.inj hs).symm
      (hc.trans (h.current.window.deliver_of_redelivered hdup))
    rw [hsame]
    exact h
  · obtain ⟨v, hv⟩ := h.received hE hb hgrows hs hc
    rcases removeIrreversible_ok hv.removed with
      ⟨hnone, hsame⟩ | ⟨it, oldNatives, oldEvms, hentry, hp⟩
    · exact h.unpruned hq hlow hlib hv hnone hsame
    · exact CachesOf.pruned hE hq hlow hv hentry hp

/-! ## What is cached -/

/-- Consecutive numbers from the front to the back. -/
theorem Consecutive.map_number {evms : List (Block Tx)} (h : Consecutive evms) :
    ∀ {low : Nat} {e : Block Tx}, frontNumber evms = some low → evms.head? = some e →
      evms.map blockNumber
        = (List.range' low (e.header.number + 1 - low)).reverse := by
  induction evms with
  | nil =>
      intro low e _ he
      cases he
  | cons x rest ih =>
      intro low e hlow he
      obtain rfl := Option.some.inj he
      cases rest with
      | nil =>
          have hlow : x.header.number = low := Option.some.inj hlow
          rw [← hlow, Nat.add_sub_cancel_left]
          rfl
      | cons y older =>
          rw [frontNumber_cons] at hlow
          have hchain := List.isChain_cons_cons.mp h
          have hnum : x.header.number = y.header.number + 1 := hchain.1
          have hle : low ≤ y.header.number :=
            Consecutive.le_of_frontNumber hchain.2 hlow y List.mem_cons_self
          rw [List.map_cons, ih hchain.2 hlow rfl, hnum,
            show y.header.number + 1 + 1 - low = (y.header.number + 1 - low) + 1 by omega,
            List.range'_1_concat, List.reverse_append, List.reverse_singleton,
            List.singleton_append]
          congr 1
          show x.header.number = _
          omega

/-- The native blocks are those from the lowest number on. -/
theorem CachesOf.natives_eq (h : CachesOf E startBlock evmLib₀ p) :
    p.1.nativeBlocks = p.2.branch.filter (fun nb => p.2.lowest E ≤ E.evmNum nb) := by
  obtain ⟨old, hsplit, hkept, hdropped⟩ := h.natives
  rw [← hsplit, List.filter_append, List.filter_eq_self.mpr (by simpa using hkept),
    List.filter_eq_nil_iff.mpr, List.append_nil]
  intro nb hnb
  have := hdropped nb hnb
  simp only [decide_eq_true_eq]
  omega

/-- The last EVM block is the one the chain has come to. -/
theorem CachesOf.head_number (h : CachesOf E startBlock evmLib₀ p) :
    ∃ e, p.1.evmBlocks.head? = some e ∧
      e.header.number = p.2.evmHead E startBlock.header.number := by
  have hw := h.current.window
  obtain ⟨e, es, hevms⟩ := List.exists_cons_of_ne_nil hw.coherent.evms_ne
  refine ⟨e, by rw [hevms]; rfl, ?_⟩
  cases hlib : p.2.lib with
  | none =>
      have huntouched := h.untouched hlib
      rw [hevms, List.map_cons] at huntouched
      rw [NativeChain.evmHead, hlib]
      exact (List.cons.inj huntouched).1
  | some lib =>
      obtain ⟨back, older, hnat⟩ := List.exists_cons_of_ne_nil hw.coherent.natives_ne
      obtain ⟨old, hsplit, -, -⟩ := h.natives
      rw [NativeChain.evmHead, hlib, ← hsplit, hnat]
      rcases hw.head_eq with ⟨hnone, -⟩ | heq
      · rw [hlib] at hnone
        cases hnone
      · exact heq e (by rw [hevms]; rfl) back (by rw [hnat]; rfl)

/-- What an EVM block holds is what the whole branch has for it. -/
theorem CachesOf.contents_eq (h : CachesOf E startBlock evmLib₀ p) {e : Block Tx}
    (he : e ∈ p.1.evmBlocks) (hlt : startBlock.header.number < e.header.number) :
    e.transactions.map some = contents E e.header.number p.2.branch := by
  have hfilled := h.current.window.coherent.filled
  obtain ⟨old, hsplit, -, hdropped⟩ := h.natives
  have hge : p.2.lowest E ≤ e.header.number := by
    have hfront := hfilled.consecutive.le_of_frontNumber h.front e he
    omega
  have hnil : contents E e.header.number old = [] := by
    refine contents_eq_nil ?_
    intro nb hnb hnum
    have := hdropped nb hnb
    omega
  rw [hfilled.contents e he hlt, ← hsplit, contents_append, hnil, List.nil_append]

end Caches

/-- **The caches are a function of the chain.** In every run over a native chain whose
    LIB does not decrease, whatever forks there have been: `evm_lib` is the EVM block
    before the LIB block's (untouched while there is none), the native blocks are the
    ones of the branch from that number on, and the EVM blocks are numbered from there,
    or from the start block, to the newest native block's, each with what the branch
    has for it. -/
theorem caches_exact {X : Externals Tx} {db : ChainData Tx} {height : Option Nat}
    {startBlock : Block Tx} {E : Env Tx} {s₀ : State Tx}
    (hload : Loaded X db height startBlock E s₀) {bs : List NativeBlock}
    {p : State Tx × NativeChain}
    (hrun : Reach (trackedHandler E) (LibDelivery E)
      (s₀, NativeChain.start startBlock) bs p) :
    p.1.evmLib = (p.2.evmLib E).getD s₀.evmLib ∧
    p.1.nativeBlocks = p.2.branch.filter (fun nb => p.2.lowest E ≤ E.evmNum nb) ∧
    (p.1.evmBlocks.map blockNumber =
      (List.range' (max startBlock.header.number (p.2.lowest E))
        (p.2.evmHead E startBlock.header.number + 1
          - max startBlock.header.number (p.2.lowest E))).reverse) ∧
    ∀ e ∈ p.1.evmBlocks, startBlock.header.number < e.header.number →
      e.transactions.map some = contents E e.header.number p.2.branch := by
  have hE := hload.started
  obtain ⟨evmLib₀, rfl⟩ := hload.initial
  have h : CachesOf E startBlock evmLib₀ p :=
    hrun.invariant (cachesOf_start hE evmLib₀)
      (fun _ _ _ hp hb hstep => hp.step hE hb hstep)
  refine ⟨?_, h.natives_eq, ?_, fun e he hlt => h.contents_eq he hlt⟩
  · show p.1.evmLib = (p.2.evmLib E).getD evmLib₀
    cases hit : p.2.libBlock with
    | none => rw [NativeChain.evmLib, hit, h.unset hit]; rfl
    | some it =>
        rw [← h.current.lowest_eq hit, NativeChain.lowest, NativeChain.evmLib, hit]
        rfl
  · obtain ⟨e, he, hnum⟩ := h.head_number
    rw [h.current.window.coherent.filled.consecutive.map_number h.front he, hnum]

/-- Blocks 2 to 6, the first block 5 forked out; LIB 4 drops native block 2 and EVM
    blocks 0 and 1. -/
def plainPrunedFork : List NativeBlock :=
  [plainNative 2 0 0 21 0 [plainPayload 0 0 [1]],
   plainNative 3 0 0 23 0 [plainPayload 0 0 [2]],
   plainNative 4 0 0 25 0 [plainPayload 0 0 [3]],
   plainNative 5 0 0 27 3 [plainPayload 0 0 [4]],
   plainNative 5 1 0 26 3 [plainPayload 0 0 [5]],
   plainNative 6 0 1 28 4 []]

theorem caches_exact_plainPrunedFork :
    ∃ p, Reach (trackedHandler plainEnv) (LibDelivery plainEnv)
        (initialState plainGenesis 77, NativeChain.start plainGenesis)
        plainPrunedFork p ∧
      p.2.lowest plainEnv = 2 ∧ p.1.nativeBlocks.map (fun nb => nb.blockNum) = [6, 5, 4, 3] ∧
      p.1.nativeBlocks =
        p.2.branch.filter (fun nb => p.2.lowest plainEnv ≤ plainEnv.evmNum nb) := by
  have hcheck : checkRun (trackedHandler plainEnv) (LibDelivery plainEnv)
      (initialState plainGenesis 77, NativeChain.start plainGenesis)
      plainPrunedFork = true := by decide +kernel
  obtain ⟨p, hp⟩ := exists_reach hcheck
  have hlowest : p.2.lowest plainEnv = 2 :=
    hp.eval (f := fun p => p.2.lowest plainEnv) (by decide +kernel)
  have hnatives : p.1.nativeBlocks.map (fun nb => nb.blockNum) = [6, 5, 4, 3] :=
    hp.eval (f := fun p => p.1.nativeBlocks.map (fun nb => nb.blockNum)) (by decide +kernel)
  exact ⟨p, hp, hlowest, hnatives, (caches_exact (plainEnv_loaded 77) hp).2.1⟩

end BlockConversion

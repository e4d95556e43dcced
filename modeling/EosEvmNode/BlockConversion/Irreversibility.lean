import EosEvmNode.BlockConversion.LibWindow

/-! # The last irreversible EVM block

    While the LIB fields of the native blocks do not decrease, `evm_lib` follows
    the LIB entry: it is the EVM block before the entry's.  That block is
    closed, none of its native blocks is above the LIB, and whatever the native
    chain delivers later lies above it. -/

namespace BlockConversion

open Channels Silkworm Engine Runs

variable {Tx : Type}

/-- The deliveries of a native chain whose reported LIB does not decrease. -/
def LibDelivery (E : Env Tx) (p : State Tx × NativeChain) (b : NativeBlock) :
    Prop :=
  Redelivered E p.1 b ∨
    ((∃ parent, Follows p.2 b parent) ∧ ∀ lib ∈ p.2.lib, lib ≤ b.lib)

instance (E : Env Tx) (p : State Tx × NativeChain) (b : NativeBlock) :
    Decidable (LibDelivery E p b) :=
  inferInstanceAs (Decidable (_ ∨ _ ∧ ∀ lib ∈ p.2.lib, lib ≤ b.lib))

theorem LibDelivery.delivery {E : Env Tx} {p : State Tx × NativeChain}
    {b : NativeBlock} (h : LibDelivery E p b) : Delivery E p b := by
  rcases h with hdup | ⟨hb, -⟩
  · exact Or.inl hdup
  · exact Or.inr hb

/-- The window, with `evm_lib` at the EVM block before the LIB entry's. -/
structure Current (E : Env Tx) (startBlock : Block Tx)
    (p : State Tx × NativeChain) : Prop where
  window : Window E startBlock p.1 p.2
  evmLib : ∀ lib ∈ p.2.lib, ∀ it, libEntry p.1.nativeBlocks lib = some it →
    p.1.evmLib + 1 = E.evmNum it

section Current

variable {E : Env Tx} {startBlock : Block Tx} {p q : State Tx × NativeChain}
  {lib : Nat} {it : NativeBlock}

theorem current_start (hE : Started E startBlock) (evmLib₀ : Nat) :
    Current E startBlock
      (initialState startBlock evmLib₀, NativeChain.start startBlock) where
  window := window_start hE evmLib₀
  evmLib := fun _ hlib => by cases hlib

theorem Current.step (hE : Started E startBlock) (h : Current E startBlock p)
    {b : NativeBlock} (hb : LibDelivery E p b)
    (hstep : trackedHandler E p b = .ok q) : Current E startBlock q := by
  obtain ⟨hs, hc⟩ := trackedHandler_ok hstep
  refine ⟨h.window.step hE hb.delivery hs hc, ?_⟩
  rcases hb with hdup | ⟨⟨parent, hb⟩, hgrows⟩
  · rw [hdup.handler_eq] at hs
    rw [hc, h.window.deliver_of_redelivered hdup, ← Except.ok.inj hs]
    exact h.evmLib
  · -- the largest LIB is now the one of the received block
    have hlib : q.2.lib = some b.lib := by
      rw [hc, NativeChain.deliver_of_follows hb]
      cases hl : p.2.lib with
      | none => simp
      | some l =>
          have := hgrows l hl
          simp only [Option.getD_some, Option.some.injEq]
          omega
    intro lib hmem it hit
    rw [hlib] at hmem
    obtain rfl := Option.some.inj hmem
    rcases (h.window.accept hE hb hs).evmLib with
      ⟨hnone, -⟩ | ⟨it', hentry, -, -, heq⟩
    · rw [hnone] at hit
      cases hit
    · rw [hentry] at hit
      obtain rfl := Option.some.inj hit
      exact heq

theorem current_reach (hE : Started E startBlock) {bs : List NativeBlock}
    (h : Current E startBlock p)
    (hrun : Reach (trackedHandler E) (LibDelivery E) p bs q) :
    Current E startBlock q :=
  hrun.invariant h (fun _ _ _ hs hb hstep => hs.step hE hb hstep)

/-! ## The LIB entry -/

/-- The entry is cached, at or below the LIB, and the newest such block. -/
theorem Window.entry_spec (h : Window E startBlock p.1 p.2)
    (hit : libEntry p.1.nativeBlocks lib = some it) :
    it ∈ p.1.nativeBlocks ∧ it.blockNum ≤ lib ∧
      ∀ nb ∈ p.2.branch, nb.blockNum ≤ lib → nb.blockNum ≤ it.blockNum := by
  have hmem := libEntry_mem hit
  rw [h.libEntry_eq] at hit
  have hle : it.blockNum ≤ lib := by simpa using List.find?_some hit
  refine ⟨hmem, hle, ?_⟩
  intro nb hnb hnble
  by_contra hlt
  have hlt : it.blockNum < nb.blockNum := by omega
  -- a newer block at or below the LIB would have been found first
  have hcached := h.chain.mem_of_prefix h.cached hmem hnb (Nat.le_of_lt hlt)
  obtain ⟨-, newer, older, hsplit, hnewer⟩ := List.find?_eq_some_iff_append.mp hit
  have hpair := List.Pairwise.sublist h.cached.sublist h.chain.pairwise
  rw [hsplit, List.pairwise_append] at hpair
  rw [hsplit] at hcached
  rcases List.mem_append.mp hcached with hin | hin
  · have := hnewer nb hin
    simp only [Bool.not_eq_true', decide_eq_false_iff_not] at this
    omega
  · rcases List.mem_cons.mp hin with rfl | hin
    · omega
    · have := (List.pairwise_cons.mp hpair.2.1).1 nb hin
      omega

/-- Once a block at or below the LIB is in the branch there is an entry. -/
theorem Window.entry_exists (h : Window E startBlock p.1 p.2)
    (hlib : lib ∈ p.2.lib) {x : NativeBlock} (hx : x ∈ p.2.branch)
    (hxle : x.blockNum ≤ lib) : ∃ it, libEntry p.1.nativeBlocks lib = some it := by
  rw [h.libEntry_eq]
  cases hfind : p.1.nativeBlocks.find? (fun nb => nb.blockNum ≤ lib) with
  | some it => exact ⟨it, rfl⟩
  | none =>
      rw [List.find?_eq_none] at hfind
      rcases h.window with ⟨hall, -⟩ | ⟨y, hy, ⟨l, hl, hle⟩, -⟩
      · have := hfind x (hall ▸ hx)
        simp only [decide_eq_true_eq] at this
        omega
      · have hleq : lib = l := Option.some.inj (hlib.symm.trans hl)
        have := hfind y hy
        simp only [decide_eq_true_eq] at this
        omega

/-- What holds of a state in which a LIB entry has been found. -/
structure LibSettled (E : Env Tx) (p : State Tx × NativeChain) (lib : Nat)
    (it : NativeBlock) : Prop where
  /-- The entry is the newest block of the branch at or below the LIB. -/
  newest : it ∈ p.2.branch ∧ it.blockNum ≤ lib ∧
    ∀ nb ∈ p.2.branch, nb.blockNum ≤ lib → nb.blockNum ≤ it.blockNum
  /-- It is cached, and so are all later blocks of the branch. -/
  cached : ∀ nb ∈ p.2.branch, it.blockNum ≤ nb.blockNum → nb ∈ p.1.nativeBlocks
  /-- The EVM blocks from `evm_lib` up are cached. -/
  evms : ∀ k, p.1.evmLib ≤ k → (∃ e ∈ p.1.evmBlocks.head?, k ≤ e.header.number) →
    ∃ e ∈ p.1.evmBlocks, e.header.number = k
  /-- `evm_lib` is the number of an EVM block that has been closed. -/
  closed : ∃ e ∈ p.1.evmBlocks.tail, e.header.number = p.1.evmLib
  irreversible : ∀ nb ∈ p.2.branch, E.evmNum nb = p.1.evmLib → nb.blockNum ≤ lib

theorem Current.settled (hE : Started E startBlock) (h : Current E startBlock p)
    (hlib : lib ∈ p.2.lib) (hit : libEntry p.1.nativeBlocks lib = some it) :
    LibSettled E p lib it := by
  have hw := h.window
  have hevmLib := h.evmLib lib hlib it hit
  obtain ⟨hmem, hle, hnewest⟩ := hw.entry_spec hit
  have hbranch := hw.cached.subset hmem
  have hpos := lt_evmNum hE (hw.chain.restored_le hbranch)
  obtain ⟨e, es, hevms⟩ := List.exists_cons_of_ne_nil hw.coherent.evms_ne
  -- the last EVM block is at the newest native block, or later than the entry's
  have hhead : E.evmNum it ≤ e.header.number := by
    obtain ⟨back, older, hnat⟩ := List.exists_cons_of_ne_nil hw.coherent.natives_ne
    rcases hw.head_eq with ⟨hnone, -⟩ | heq
    · rw [hnone] at hlib
      cases hlib
    · rw [heq e (by rw [hevms]; rfl) back (by rw [hnat]; rfl)]
      have hfilled := hw.coherent.filled
      rw [hnat] at hfilled hmem
      exact hfilled.evmNum_le_head hE it hmem
  have hfront : ∀ k ∈ frontNumber p.1.evmBlocks, k ≤ p.1.evmLib := by
    intro k hk
    rcases hw.window with ⟨-, hM⟩ | ⟨x, hx, ⟨l, hl, hxl⟩, hlt⟩
    · rw [hM] at hk
      obtain rfl := Option.some.inj hk
      omega
    · have hleq : lib = l := Option.some.inj (hlib.symm.trans hl)
      subst hleq
      have hxc := hw.cached.subset hx
      have hmono := evmNum_mono hE (hw.chain.restored_le hxc)
        (hw.chain.timestamp_le hxc hbranch (hnewest x hxc hxl))
      have := hlt k hk
      omega
  have hexists : ∀ k, p.1.evmLib ≤ k → k ≤ e.header.number →
      ∃ x ∈ p.1.evmBlocks, x.header.number = k := by
    intro k hk hke
    refine hw.coherent.filled.consecutive.exists_number ?_ ?_
    · intro front hlast
      exact Nat.le_trans (hfront _ (frontNumber_eq_some hlast)) hk
    · exact ⟨e, by rw [hevms]; rfl, hke⟩
  refine ⟨⟨hbranch, hle, hnewest⟩, ?_, ?_, ?_, ?_⟩
  · intro nb hnb hge
    exact hw.chain.mem_of_prefix hw.cached hmem hnb hge
  · rintro k hk ⟨x, hx, hkx⟩
    rw [hevms] at hx
    obtain rfl := Option.some.inj hx
    exact hexists k hk hkx
  · obtain ⟨x, hx, hnum⟩ := hexists p.1.evmLib (Nat.le_refl _) (by omega)
    refine ⟨x, ?_, hnum⟩
    rw [hevms] at hx ⊢
    rcases List.mem_cons.mp hx with rfl | hold
    · omega
    · exact hold
  · intro nb hnb hnum
    by_contra hgt
    -- a block above the LIB is newer than the entry, and lies no earlier
    have hmono := evmNum_mono hE (hw.chain.restored_le hbranch)
      (hw.chain.timestamp_le hbranch hnb (by omega))
    omega

/-! ## What is delivered later -/

/-- A block at or below a reported LIB stays in the branch, and what is added
    to the branch lies in its EVM block or later. -/
structure Buried (E : Env Tx) (c : NativeChain) (it : NativeBlock)
    (d : NativeChain) : Prop where
  mem : it ∈ d.branch
  reported : ∃ lib ∈ d.lib, it.blockNum ≤ lib
  later : ∀ nb ∈ d.branch, nb ∉ c.branch → E.evmNum it ≤ E.evmNum nb

theorem Buried.step (hE : Started E startBlock) {c : NativeChain}
    (hp : Current E startBlock p) (h : Buried E c it p.2) {b : NativeBlock}
    (hb : LibDelivery E p b) (hstep : trackedHandler E p b = .ok q) :
    Buried E c it q.2 := by
  obtain ⟨hs, hc⟩ := trackedHandler_ok hstep
  rcases hb with hdup | ⟨⟨parent, hb⟩, -⟩
  · rw [hc, hp.window.deliver_of_redelivered hdup]
    exact h
  · obtain ⟨hle, hmem⟩ := hp.window.chain.mem_deliver hb h.mem h.reported
    obtain ⟨lib, hlib, -, hgrows⟩ := NativeChain.lib_deliver hb
    obtain ⟨l, hl, hxl⟩ := h.reported
    rw [hc]
    refine ⟨hmem, ⟨lib, hlib, Nat.le_trans hxl (hgrows l hl)⟩, ?_⟩
    intro nb hnb hnew
    rw [NativeChain.deliver_of_follows hb] at hnb
    have hchain := hp.window.chain
    rcases List.mem_cons.mp hnb with rfl | hold
    · have hts := hchain.timestamp_le h.mem hb.mem hle
      have hlater := hb.later
      exact evmNum_mono hE (hchain.restored_le h.mem) (by omega)
    · have hsuf : p.2.branch.dropWhile (fun x => x.id ≠ b.prev) <:+ p.2.branch :=
        List.dropWhile_suffix _
      exact h.later nb (hsuf.subset hold) hnew

theorem buried_reach (hE : Started E startBlock) {bs : List NativeBlock}
    (hp : Current E startBlock p) (hlib : lib ∈ p.2.lib)
    (hit : libEntry p.1.nativeBlocks lib = some it)
    (hrun : Reach (trackedHandler E) (LibDelivery E) p bs q) :
    Buried E p.2 it q.2 := by
  obtain ⟨hmem, hle, -⟩ := hp.window.entry_spec hit
  have h0 : Current E startBlock p ∧ Buried E p.2 it p.2 :=
    ⟨hp, hp.window.cached.subset hmem, ⟨lib, hlib, hle⟩,
      fun nb hnb hnew => absurd hnb hnew⟩
  exact (hrun.invariant (P := fun r => Current E startBlock r ∧ Buried E p.2 it r.2)
    h0 (fun _ _ _ hr hb hstep =>
      ⟨hr.1.step hE hb hstep, hr.2.step hE hr.1 hb hstep⟩)).2

/-- **The EVM LIB does not decrease**, and no block delivered later belongs to
    it. -/
theorem Current.evmLib_mono (hE : Started E startBlock)
    (hp : Current E startBlock p) (hlib : lib ∈ p.2.lib)
    (hit : libEntry p.1.nativeBlocks lib = some it) {bs : List NativeBlock}
    (hrun : Reach (trackedHandler E) (LibDelivery E) p bs q) :
    p.1.evmLib ≤ q.1.evmLib ∧
      ∀ nb ∈ q.2.branch, nb ∉ p.2.branch → p.1.evmLib < E.evmNum nb := by
  have hevmLib := hp.evmLib lib hlib it hit
  have hq := current_reach hE hp hrun
  have hburied := buried_reach hE hp hlib hit hrun
  refine ⟨?_, ?_⟩
  · obtain ⟨l, hl, hle⟩ := hburied.reported
    obtain ⟨it', hit'⟩ := hq.window.entry_exists hl hburied.mem hle
    obtain ⟨hmem', -, hnewest⟩ := hq.window.entry_spec hit'
    have hmono := evmNum_mono hE (hq.window.chain.restored_le hburied.mem)
      (hq.window.chain.timestamp_le hburied.mem (hq.window.cached.subset hmem')
        (hnewest it hburied.mem hle))
    have := hq.evmLib l hl it' hit'
    omega
  · intro nb hnb hnew
    have := hburied.later nb hnb hnew
    omega

end Current

/-- **LIB window and fork resolvability**, for every run over a native chain
    whose reported LIB does not decrease: no list is emptied; where the cache
    has an entry for the LIB, `evm_lib` is a closed and irreversible EVM block
    that later deliveries leave alone, it never decreases from there, and
    everything from the entry on is cached; and a fork on a block of the branch
    at or above the LIB does not throw, when the payloads of the blocks it abandons
    encode back to themselves. -/
theorem lib_window {X : Externals Tx} {db : ChainData Tx}
    {height : Option Nat} {startBlock : Block Tx} {E : Env Tx} {s₀ : State Tx}
    (hload : Loaded X db height startBlock E s₀) {bs : List NativeBlock}
    {p : State Tx × NativeChain}
    (hrun : Reach (trackedHandler E) (LibDelivery E)
      (s₀, NativeChain.start startBlock) bs p) :
    (p.1.nativeBlocks ≠ [] ∧ p.1.evmBlocks ≠ [] ∧
      ∀ b, LibDelivery E p b → nativeBlocksHandler E p.1 b ≠ .error .undefined) ∧
    (∀ lib ∈ p.2.lib, ∀ it, libEntry p.1.nativeBlocks lib = some it →
      LibSettled E p lib it ∧
      ∀ cs q, Reach (trackedHandler E) (LibDelivery E) p cs q →
        p.1.evmLib ≤ q.1.evmLib ∧
        ∀ nb ∈ q.2.branch, nb ∉ p.2.branch → p.1.evmLib < E.evmNum nb) ∧
    (∀ b parent, parent ∈ p.2.branch → parent.id = b.prev →
      (∀ lib ∈ p.2.lib, lib ≤ parent.blockNum) →
      (∀ nb ∈ p.2.abandoned b, RoundTrips E nb) →
      ∃ r, linkNativeBlock E p.1 b = .ok r) := by
  have hE := hload.started
  obtain ⟨evmLib₀, rfl⟩ := hload.initial
  have h := current_reach hE (current_start hE evmLib₀) hrun
  have hw := h.window
  refine ⟨⟨hw.coherent.natives_ne, hw.coherent.evms_ne, ?_⟩, ?_, ?_⟩
  · rintro b (hdup | ⟨⟨parent, hb⟩, -⟩)
    · rw [hdup.handler_eq]
      rintro ⟨⟩
    · exact hw.coherent.handler_ne_undefined hE (hb.dated hE hw.chain hw.cached)
  · intro lib hlib it hit
    exact ⟨h.settled hE hlib hit,
      fun cs q hcont => h.evmLib_mono hE hlib hit hcont⟩
  · intro b parent hmem hlink habove hround
    exact hw.link_total hE hmem hlink (Or.inr habove)
      (fun nb hnb => (hround nb hnb).removable parent)

/-- The fork of `plainFork`, on a chain that has reported LIB 2 before it; native
    block 2 lies in the slot the restored one is dated at. -/
theorem lib_window_plainFork :
    ∃ p, Reach (trackedHandler plainEnv) (LibDelivery plainEnv)
        (initialState plainGenesis 77, NativeChain.start plainGenesis)
        [plainNative 2 0 0 20 1 [plainPayload 0 0 [1, 2]],
         plainNative 3 0 0 22 2 [plainPayload 0 0 [3]],
         plainNative 3 1 0 23 2 []] p ∧
      p.1.evmLib = 0 ∧ p.2.lib = some 2 ∧
      ∀ b parent, parent ∈ p.2.branch → parent.id = b.prev →
        (∀ lib ∈ p.2.lib, lib ≤ parent.blockNum) →
        (∀ nb ∈ p.2.abandoned b, RoundTrips plainEnv nb) →
        ∃ r, linkNativeBlock plainEnv p.1 b = .ok r := by
  have hcheck : checkRun (trackedHandler plainEnv) (LibDelivery plainEnv)
      (initialState plainGenesis 77, NativeChain.start plainGenesis)
      [plainNative 2 0 0 20 1 [plainPayload 0 0 [1, 2]],
       plainNative 3 0 0 22 2 [plainPayload 0 0 [3]],
       plainNative 3 1 0 23 2 []] = true := by decide +kernel
  obtain ⟨p, hp⟩ := exists_reach hcheck
  have hlib : p.1.evmLib = 0 := hp.eval (f := fun p => p.1.evmLib) (by decide +kernel)
  have hc : p.2.lib = some 2 := hp.eval (f := fun p => p.2.lib) (by decide +kernel)
  exact ⟨p, hp, hlib, hc, (lib_window (plainEnv_loaded 77) hp).2.2⟩

end BlockConversion

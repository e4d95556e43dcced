import EosEvmNode.BlockConversion.Forward
import EosEvmNode.BlockConversion.Irreversibility
import EosEvmNode.Lib.NumberedLog

/-! # Finality of the published EVM blocks

    A fork reopens EVM blocks that have been published already, and they are
    published again with other contents.  How far back this goes is decided by the
    parent of the received block: the last EVM block after the link check is the
    parent's, and publishing goes on from there.

    The parent is never older than the LIB entry, so what has been published up to
    `evm_lib` is not published again: for whoever reads the log it is final. -/

namespace BlockConversion

open Channels Silkworm Engine Runs NumberedLog

variable {Tx : Type}

/-- The number of an EVM block. -/
def blockNumber (e : Block Tx) : Nat := e.header.number

section Placed

variable {E : Env Tx} {startBlock : Block Tx} {s s' t : State Tx} {c : NativeChain}
variable {b parent : NativeBlock}

theorem LinkedTo.published_eq (h : LinkedTo E s b t) : t.published = s.published := by
  rcases h with ⟨rfl, -⟩ | ⟨f, -, hroll⟩
  · rfl
  · obtain ⟨back, older, e, es, txs, hr⟩ := rollback_ok hroll
    rw [hr.result]

/-- After the link check the lists end at the parent of the received block and at
    its EVM block; on a first start, at the start block. -/
structure Placed (E : Env Tx) (startBlock : Block Tx) (c : NativeChain)
    (parent : NativeBlock) (t : State Tx) (e : Block Tx) (es : List (Block Tx)) :
    Prop where
  evms : t.evmBlocks = e :: es
  newest : t.nativeBlocks.head? = some parent
  place : e.header.number = E.evmNum parent ∨
    (e.header.number = startBlock.header.number ∧ c.lib = none ∧
      c.branch = [restoredNativeBlock startBlock])

/-- Before the first native block the last EVM block is the start block or the one
    after it. -/
theorem Window.number_of_restored (hE : Started E startBlock)
    (h : Window E startBlock s c)
    (hnat : s.nativeBlocks = [restoredNativeBlock startBlock]) (hlib : c.lib = none)
    {e : Block Tx} (he : s.evmBlocks.head? = some e) :
    c.branch = [restoredNativeBlock startBlock] ∧
      (e.header.number = startBlock.header.number ∨
        e.header.number = E.evmNum (restoredNativeBlock startBlock)) := by
  rcases h.window with ⟨hall, hfront⟩ | ⟨it, -, ⟨lib, hl, -⟩, -⟩
  · refine ⟨hall.symm.trans hnat, ?_⟩
    have hle := h.coherent.head_le e he (restoredNativeBlock startBlock)
      (by rw [hnat]; rfl)
    rw [evmNum_restored hE] at hle ⊢
    obtain ⟨front, hlast⟩ : ∃ front, s.evmBlocks.getLast? = some front := by
      cases hfr : s.evmBlocks.getLast? with
      | none => exact absurd (List.getLast?_eq_none_iff.mp hfr) h.coherent.evms_ne
      | some front => exact ⟨front, rfl⟩
    have hge := h.coherent.filled.consecutive.front_le front hlast e
      (List.mem_of_head? he)
    rw [frontNumber_eq_some hlast] at hfront
    have := Option.some.inj hfront
    omega
  · rw [hlib] at hl
    cases hl

theorem Window.placed (hE : Started E startBlock) (h : Window E startBlock s c)
    (hb : Follows c b parent) (hlink : LinkedTo E s b t) :
    ∃ e es, Placed E startBlock c parent t e es := by
  obtain ⟨ht, -, hback⟩ := h.coherent.link hE hlink
  obtain ⟨hcut, -⟩ := h.after_link hE hb hlink
  obtain ⟨-, older, -, hdrop⟩ := h.chain.dropWhile_eq hb.mem hb.link
  rw [hdrop] at hcut
  obtain ⟨nb, nbs, hnat⟩ := List.exists_cons_of_ne_nil ht.natives_ne
  have hnb : nb = parent := by
    rw [hnat] at hcut
    exact (List.cons_prefix_cons.mp hcut).1
  subst hnb
  obtain ⟨e, es, hevms⟩ := List.exists_cons_of_ne_nil ht.evms_ne
  refine ⟨e, es, hevms, by rw [hnat]; rfl, ?_⟩
  rcases hlink with ⟨rfl, -⟩ | ⟨f, hfork, hroll⟩
  · -- on top of the last native block
    rcases h.head_eq with ⟨hlib, hstart⟩ | heq
    · have hnbs : nb = restoredNativeBlock startBlock := by
        rw [hnat] at hstart
        exact (List.cons.inj hstart).1
      obtain ⟨hbranch, hnum⟩ :=
        h.number_of_restored hE hstart hlib (e := e) (by rw [hevms]; rfl)
      rcases hnum with hnum | hnum
      · exact Or.inr ⟨hnum, hlib, hbranch⟩
      · exact Or.inl (hnbs ▸ hnum)
    · exact Or.inl (heq e (by rw [hevms]; rfl) nb (by rw [hnat]; rfl))
  · -- after a rollback the last EVM block is the one of the last native block
    obtain ⟨back, rest, x, xs, txs, hr⟩ := rollback_ok hroll
    rw [hr.result] at hnat hevms
    obtain ⟨rfl, -⟩ := List.cons.inj hnat
    obtain ⟨rfl, -⟩ := List.cons.inj hevms
    exact Or.inl hr.number.symm

/-- What an accepted block adds to the log: the blocks from the parent's on. -/
theorem Window.republished (hE : Started E startBlock) (h : Window E startBlock s c)
    (hb : Follows c b parent) (hs : nativeBlocksHandler E s b = .ok s') :
    ∃ t e es, LinkedTo E s b t ∧ appendNativeBlock E t b = .ok s' ∧
      Placed E startBlock c parent t e es ∧
      s'.published = (grow E (E.evmNum b - e.header.number) e).tail ++ s.published := by
  have hdated := hb.dated hE h.chain h.cached
  rcases nativeBlocksHandler_ok hs with ⟨hgen, -⟩ | ⟨hdup, -⟩ | ⟨t, -, hlink, happ⟩
  · exact absurd hgen hdated.not_before
  · obtain ⟨nb, hnb, hid⟩ := List.any_eq_true.mp hdup
    exact absurd (by simpa using hid) (hb.fresh nb (h.cached.subset hnb))
  · obtain ⟨e, es, hplaced⟩ := h.placed hE hb hlink
    obtain ⟨u, curr, older, curr', written, ha⟩ := appendNativeBlock_ok happ
    obtain ⟨-, -, hpub⟩ := ha.advanced hE hplaced.evms
    rw [hlink.published_eq] at hpub
    exact ⟨t, e, es, hlink, happ, hplaced, hpub⟩

end Placed

/-! ## Above the LIB entry -/

section Final

variable {E : Env Tx} {startBlock : Block Tx} {p q : State Tx × NativeChain}
variable {lib : Nat} {it : NativeBlock}

/-- The parent of a received block is not older than a block at or below the LIB,
    and so is what is published for it. -/
theorem Window.republished_above (hE : Started E startBlock) {s s' : State Tx}
    {c : NativeChain} (h : Window E startBlock s c) (hit : it ∈ c.branch)
    (hlib : ∃ lib ∈ c.lib, it.blockNum ≤ lib) {b parent : NativeBlock}
    (hb : Follows c b parent) (hs : nativeBlocksHandler E s b = .ok s') :
    ∃ newer, s'.published = newer ++ s.published ∧
      ∀ x ∈ newer, E.evmNum it ≤ blockNumber x := by
  obtain ⟨t, e, es, -, -, hplaced, hpub⟩ := h.republished hE hb hs
  refine ⟨_, hpub, ?_⟩
  intro x hx
  have hchain := h.chain
  obtain ⟨hle, -⟩ := hchain.mem_deliver hb hit hlib
  have hmono := evmNum_mono hE (hchain.restored_le hit)
    (hchain.timestamp_le hit hb.mem hle)
  have hnum := (grow_tail_number hE _ e x hx).1
  rcases hplaced.place with hplace | ⟨-, hnone, -⟩
  · show E.evmNum it ≤ x.header.number
    omega
  · obtain ⟨l, hl, -⟩ := hlib
    rw [hnone] at hl
    cases hl

theorem Buried.republished (hE : Started E startBlock) {c : NativeChain}
    (hp : Current E startBlock p) (h : Buried E c it p.2) {b : NativeBlock}
    (hb : LibDelivery E p b) (hstep : trackedHandler E p b = .ok q) :
    ∃ newer, q.1.published = newer ++ p.1.published ∧
      ∀ x ∈ newer, E.evmNum it ≤ blockNumber x := by
  obtain ⟨hs, -⟩ := trackedHandler_ok hstep
  rcases hb with hdup | ⟨⟨parent, hb⟩, -⟩
  · rw [hdup.handler_eq] at hs
    rw [← Except.ok.inj hs]
    exact ⟨[], rfl, fun x hx => (by cases hx)⟩
  · exact hp.window.republished_above hE h.mem h.reported hb hs

/-- **The run lemma**: nothing below the LIB entry's EVM block is published again. -/
theorem Current.published_above (hE : Started E startBlock)
    (hp : Current E startBlock p) (hlib : lib ∈ p.2.lib)
    (hit : libEntry p.1.nativeBlocks lib = some it) {bs : List NativeBlock}
    (hrun : Reach (trackedHandler E) (LibDelivery E) p bs q) :
    ∃ newer, q.1.published = newer ++ p.1.published ∧
      ∀ x ∈ newer, p.1.evmLib < blockNumber x := by
  have hevmLib := hp.evmLib lib hlib it hit
  obtain ⟨hmem, hle, -⟩ := hp.window.entry_spec hit
  have h0 : Current E startBlock p ∧ Buried E p.2 it p.2 ∧
      ∃ newer, p.1.published = newer ++ p.1.published ∧
        ∀ x ∈ newer, E.evmNum it ≤ blockNumber x :=
    ⟨hp, ⟨hp.window.cached.subset hmem, ⟨lib, hlib, hle⟩,
      fun nb hnb hnew => absurd hnb hnew⟩, [], rfl, fun x hx => (by cases hx)⟩
  have hq := hrun.invariant (P := fun r => Current E startBlock r ∧
      Buried E p.2 it r.2 ∧ ∃ newer, r.1.published = newer ++ p.1.published ∧
        ∀ x ∈ newer, E.evmNum it ≤ blockNumber x) h0 ?_
  · obtain ⟨-, -, newer, hpub, hnewer⟩ := hq
    refine ⟨newer, hpub, ?_⟩
    intro x hx
    have := hnewer x hx
    omega
  · rintro r b r' ⟨hr, hburied, newer, hpub, hnewer⟩ hb hstep
    obtain ⟨more, hmore, habove⟩ := hburied.republished hE hr hb hstep
    refine ⟨hr.step hE hb hstep, hburied.step hE hr hb hstep, more ++ newer, ?_, ?_⟩
    · rw [hmore, hpub, List.append_assoc]
    · intro x hx
      rcases List.mem_append.mp hx with hx | hx
      · exact habove x hx
      · exact hnewer x hx

end Final

/-- **Finality**: once the cache has an entry for the LIB, every EVM block up to
    `evm_lib` stays as it was published last, whatever forks are delivered after it.
    Every later publication lies above it, and a reader of the log holds the same
    blocks up to it for ever. -/
theorem published_final {X : Externals Tx} {db : ChainData Tx} {height : Option Nat}
    {startBlock : Block Tx} {E : Env Tx} {s₀ : State Tx}
    (hload : Loaded X db height startBlock E s₀) {bs : List NativeBlock}
    {p : State Tx × NativeChain}
    (hrun : Reach (trackedHandler E) (LibDelivery E)
      (s₀, NativeChain.start startBlock) bs p)
    {lib : Nat} (hlib : lib ∈ p.2.lib) {it : NativeBlock}
    (hit : libEntry p.1.nativeBlocks lib = some it)
    {cs : List NativeBlock} {q : State Tx × NativeChain}
    (hcont : Reach (trackedHandler E) (LibDelivery E) p cs q) :
    (∃ newer, q.1.published = newer ++ p.1.published ∧
      ∀ e ∈ newer, p.1.evmLib < e.header.number) ∧
    (∀ k ≤ p.1.evmLib, lastPublished q.1.published k = lastPublished p.1.published k) ∧
    ∀ e, e.header.number ≤ p.1.evmLib →
      (e ∈ view blockNumber q.1.published ↔ e ∈ view blockNumber p.1.published) := by
  have hE := hload.started
  obtain ⟨evmLib₀, rfl⟩ := hload.initial
  have hp := current_reach hE (current_start hE evmLib₀) hrun
  obtain ⟨newer, hpub, hnewer⟩ := hp.published_above hE hlib hit hcont
  refine ⟨⟨newer, hpub, hnewer⟩, ?_, ?_⟩
  · intro k hk
    have hnone : newer.find? (fun x => x.header.number = k) = none := by
      rw [List.find?_eq_none]
      intro x hx
      have : p.1.evmLib < x.header.number := hnewer x hx
      simp only [decide_eq_true_eq]
      omega
    rw [lastPublished, lastPublished, hpub, List.find?_append, hnone, Option.none_or]
  · intro e he
    rw [hpub]
    refine mem_view_append ?_
    intro x hx
    have : p.1.evmLib < x.header.number := hnewer x hx
    show e.header.number < x.header.number
    omega

/-- Native block 3 has closed EVM block 1 and reported LIB 2. -/
def plainClosed : List NativeBlock :=
  [plainNative 2 0 0 21 1 [plainPayload 0 0 [1, 2]],
   plainNative 3 0 0 22 2 [plainPayload 0 0 [3]]]

/-- Another block 3: EVM block 1 is published again, EVM block 0 is not. -/
theorem published_final_plainFork :
    ∃ p q, Reach (trackedHandler plainEnv) (LibDelivery plainEnv)
        (initialState plainGenesis 77, NativeChain.start plainGenesis) plainClosed p ∧
      Reach (trackedHandler plainEnv) (LibDelivery plainEnv) p
        [plainNative 3 1 0 23 2 []] q ∧
      p.1.evmLib = 0 ∧ p.1.published.map blockNumber = [1, 0] ∧
      q.1.published.map blockNumber = [1, 1, 0] ∧
      ∀ k ≤ p.1.evmLib,
        lastPublished q.1.published k = lastPublished p.1.published k := by
  have hcheck : checkRun (trackedHandler plainEnv) (LibDelivery plainEnv)
      (initialState plainGenesis 77, NativeChain.start plainGenesis)
      (plainClosed ++ [plainNative 3 1 0 23 2 []]) = true := by decide +kernel
  obtain ⟨p, q, hp, hq⟩ := exists_reach_append hcheck
  have hlib : p.2.lib = some 2 := hp.eval (f := fun p => p.2.lib) (by decide +kernel)
  have hit : libEntry p.1.nativeBlocks 2
      = some (plainNative 2 0 0 21 1 [plainPayload 0 0 [1, 2]]) :=
    hp.eval (f := fun p => libEntry p.1.nativeBlocks 2) (by decide +kernel)
  have hevmLib : p.1.evmLib = 0 :=
    hp.eval (f := fun p => p.1.evmLib) (by decide +kernel)
  have hbefore : p.1.published.map blockNumber = [1, 0] :=
    hp.eval (f := fun p => p.1.published.map blockNumber) (by decide +kernel)
  have hafter : q.1.published.map blockNumber = [1, 1, 0] :=
    (hp.trans hq).eval (f := fun q => q.1.published.map blockNumber) (by decide +kernel)
  exact ⟨p, q, hp, hq, hevmLib, hbefore, hafter,
    (published_final (plainEnv_loaded 77) hp hlib hit hq).2.1⟩

end BlockConversion

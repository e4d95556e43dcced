import EosEvmNode.BlockConversion.Safety

/-! # Moving forward — a block on top of the last one

    A native block that links to the last cached one takes the short way through
    the handler.  What it publishes, and the EVM block it ends up in, depend on
    the last EVM block and on the native block alone: not on what else the two
    lists still hold. -/

namespace BlockConversion

open Channels Silkworm Engine Runs

variable {Tx : Type}

/-- The last EVM block after `n` iterations of the publishing loop. -/
def advance (E : Env Tx) : Nat → Block Tx → Block Tx
  | 0, e => e
  | n + 1, e => advance E n (generateNewEvmBlock E (setTransactionsRoot E e))

theorem grow_eq_advance (E : Env Tx) :
    ∀ (n : Nat) (e : Block Tx), grow E n e = advance E n e :: (grow E n e).tail := by
  intro n
  induction n with
  | zero => intro e; rfl
  | succ n ih =>
      intro e
      rw [grow, advance, ih (generateNewEvmBlock E (setTransactionsRoot E e))]
      rfl

/-- What the first iteration publishes, and what the others do. -/
theorem grow_succ_tail (E : Env Tx) (n : Nat) (e : Block Tx) :
    (grow E (n + 1) e).tail
      = (grow E n (generateNewEvmBlock E (setTransactionsRoot E e))).tail
        ++ [setTransactionsRoot E e] := by
  rw [grow, List.tail_append_of_ne_nil (grow_ne_nil E n _)]

theorem mem_grow_tail {E : Env Tx} {n : Nat} {e x : Block Tx}
    (hx : x ∈ (grow E (n + 1) e).tail) :
    x ∈ (grow E n (generateNewEvmBlock E (setTransactionsRoot E e))).tail ∨
      x = setTransactionsRoot E e := by
  rw [grow_succ_tail] at hx
  exact (List.mem_append.mp hx).imp_right List.mem_singleton.mp

section Numbers

variable {E : Env Tx} {startBlock : Block Tx} (hE : Started E startBlock)
include hE

theorem advance_number :
    ∀ (n : Nat) (e : Block Tx),
      (advance E n e).header.number = e.header.number + n := by
  intro n
  induction n with
  | zero => intro e; rfl
  | succ n ih =>
      intro e
      rw [advance, ih, generateNewEvmBlock_number hE, setTransactionsRoot_number]
      omega

/-- Published blocks are numbered from the last block on. -/
theorem grow_tail_number :
    ∀ (n : Nat) (e : Block Tx), ∀ x ∈ (grow E n e).tail,
      e.header.number ≤ x.header.number ∧
        x.header.number < e.header.number + n := by
  intro n
  induction n with
  | zero => intro e x hx; cases hx
  | succ n ih =>
      intro e x hx
      rcases mem_grow_tail hx with hnew | rfl
      · have := ih _ x hnew
        rw [generateNewEvmBlock_number hE, setTransactionsRoot_number] at this
        omega
      · rw [setTransactionsRoot_number]
        omega

/-- Only the last block carries a native block id; those that fill a gap do
    not. -/
theorem grow_tail_prevRandao :
    ∀ (n : Nat) (e : Block Tx), ∀ x ∈ (grow E n e).tail,
      x = setTransactionsRoot E e ∨ x.header.prevRandao = 0 := by
  intro n
  induction n with
  | zero => intro e x hx; cases hx
  | succ n ih =>
      intro e x hx
      rcases mem_grow_tail hx with hnew | hlast
      · rcases ih _ x hnew with rfl | hzero
        · exact Or.inr (hE.lawful.prepared_prevRandao _ _ _ _ _)
        · exact Or.inr hzero
      · exact Or.inl hlast

end Numbers

/-! ## The short way through the handler -/

section Forward

variable {E : Env Tx} {startBlock : Block Tx} {s s' : State Tx} {b : NativeBlock}

/-- The received block links to the last native block. -/
def OnTop (s : State Tx) (b : NativeBlock) : Prop :=
  ∀ back ∈ s.nativeBlocks.head?, back.id = b.prev

theorem link_of_onTop (htop : OnTop s b) :
    linkNativeBlock E s b = .ok (some s) := by
  rw [linkNativeBlock]
  cases hnat : s.nativeBlocks with
  | nil => rfl
  | cons back older =>
      have hid : back.id = b.prev := htop back (by rw [hnat]; rfl)
      simp only [if_pos hid]

theorem handler_of_onTop (hdated : Dated E s b) (htop : OnTop s b) :
    nativeBlocksHandler E s b = appendNativeBlock E s b := by
  rw [nativeBlocksHandler, if_neg hdated.not_before, link_of_onTop htop]
  rfl

/-- What a step forward leaves at the back of the two lists and in the log. -/
structure Advanced (E : Env Tx) (s : State Tx) (b : NativeBlock) (e : Block Tx)
    (s' : State Tx) (curr : Block Tx) : Prop where
  newest : s'.nativeBlocks.head? = some b
  last : s'.evmBlocks.head? = some curr
  published : s'.published
    = (grow E (E.evmNum b - e.header.number) e).tail ++ s.published
  /-- Nothing but the front may have been dropped. -/
  evms : ∀ es, s.evmBlocks = e :: es → s'.evmBlocks
    <+: curr :: ((grow E (E.evmNum b - e.header.number) e).tail ++ es)

/-- What the publishing loop of an accepted block has done. -/
theorem Appended.advanced (hE : Started E startBlock) {t u : State Tx}
    {e curr curr' : Block Tx} {es older : List (Block Tx)}
    {written : List (Bytes32 × ConsensusParameters)}
    (ha : Appended E t b s' u curr older curr' written)
    (hevm : t.evmBlocks = e :: es) :
    curr = advance E (E.evmNum b - e.header.number) e ∧
      older = (grow E (E.evmNum b - e.header.number) e).tail ++ es ∧
      s'.published
        = (grow E (E.evmNum b - e.header.number) e).tail ++ t.published := by
  have hext := extendEvmChain_eq hE (E.evmNum b - e.header.number) (E.evmNum b)
    { t with nativeBlocks := b :: t.nativeBlocks } e es hevm rfl (by omega)
  rw [ha.extended] at hext
  have hu := Except.ok.inj hext
  have hevms : curr :: older
      = advance E (E.evmNum b - e.header.number) e
        :: ((grow E (E.evmNum b - e.header.number) e).tail ++ es) := by
    rw [← ha.evms, hu]
    show grow E (E.evmNum b - e.header.number) e ++ es = _
    conv_lhs => rw [grow_eq_advance]
    rfl
  obtain ⟨hcurr, holder⟩ := List.cons.inj hevms
  have hpub : u.published
      = (grow E (E.evmNum b - e.header.number) e).tail ++ t.published := by
    rw [hu]
  refine ⟨hcurr, holder, ?_⟩
  -- the removal of irreversible blocks publishes nothing
  rcases removeIrreversible_ok ha.pruned with
    ⟨-, rfl⟩ | ⟨it, oldNatives, oldEvms, -, hp⟩
  · exact hpub
  · exact hp.published.trans hpub

/-- Removing irreversible blocks keeps a front part of the EVM blocks. -/
theorem removeIrreversible_prefix {v : State Tx} {lib : Nat}
    (h : removeIrreversible E v lib = .ok s') : s'.evmBlocks <+: v.evmBlocks := by
  rcases removeIrreversible_ok h with ⟨-, rfl⟩ | ⟨it, oldNatives, oldEvms, -, hp⟩
  · exact List.prefix_refl _
  · rw [hp.evms]
    exact List.prefix_append _ _

/-- What an accepted block leaves. -/
theorem advanced_of_append (hE : Started E startBlock) {e : Block Tx}
    (he : s.evmBlocks.head? = some e)
    (happ : appendNativeBlock E s b = .ok s') :
    ∃ curr written,
      addNativeBlock E (advance E (E.evmNum b - e.header.number) e) b
        = .ok (curr, written) ∧ Advanced E s b e s' curr := by
  obtain ⟨es, hevm⟩ := List.head?_eq_some_iff.mp he
  obtain ⟨u, curr, older, curr', written, ha⟩ := appendNativeBlock_ok happ
  obtain ⟨hnewest, hlast⟩ := ha.heads
  obtain ⟨hcurr, holder, hpub⟩ := ha.advanced hE hevm
  refine ⟨curr', written, ?_, hnewest, hlast, hpub, ?_⟩
  · rw [← hcurr]
    exact ha.added
  · intro es' hes'
    rw [hevm] at hes'
    obtain ⟨-, rfl⟩ := List.cons.inj hes'
    rw [← holder]
    exact removeIrreversible_prefix ha.pruned

/-- Such a block is accepted exactly when it can be added to the EVM block the
    publishing loop ends at. -/
theorem Coherent.append_total (hE : Started E startBlock)
    (h : Coherent E startBlock s)
    (hdate : ∀ back ∈ s.nativeBlocks.head?, back.timestamp ≤ b.timestamp)
    {e : Block Tx} (he : s.evmBlocks.head? = some e) {curr : Block Tx}
    {written : List (Bytes32 × ConsensusParameters)}
    (hadd : addNativeBlock E (advance E (E.evmNum b - e.header.number) e) b
      = .ok (curr, written)) : ∃ s', appendNativeBlock E s b = .ok s' := by
  obtain ⟨es, hevm⟩ := List.head?_eq_some_iff.mp he
  have hext := extendEvmChain_eq hE (E.evmNum b - e.header.number) (E.evmNum b)
    { s with nativeBlocks := b :: s.nativeBlocks } e es hevm rfl (by omega)
  have hgrow := grow_eq_advance E (E.evmNum b - e.header.number) e
  rw [appendNativeBlock]
  obtain ⟨-, hnum, hfilled⟩ := h.added hE hdate hext
    (show grow E (E.evmNum b - e.header.number) e ++ es
      = advance E (E.evmNum b - e.header.number) e
        :: ((grow E (E.evmNum b - e.header.number) e).tail ++ es) by
      conv_lhs => rw [hgrow]
      rfl) hadd
  -- the three parts of the call succeed one after the other
  obtain ⟨s', hs'⟩ := Coherent.prune_total hE
    (v := { s with
      nativeBlocks := b :: s.nativeBlocks
      evmBlocks := curr
        :: ((grow E (E.evmNum b - e.header.number) e).tail ++ es)
      published := (grow E (E.evmNum b - e.header.number) e).tail ++ s.published
      consensusParameters := written ++ s.consensusParameters })
    b.lib rfl rfl hnum hfilled
  refine ⟨s', ?_⟩
  simp only [hext, ok_bind]
  rw [hgrow]
  simp only [List.cons_append, hadd]
  exact hs'

/-- The received block is dated no earlier than the last native block. -/
theorem Dated.of_onTop (hdated : Dated E s b) (htop : OnTop s b) :
    ∀ back ∈ s.nativeBlocks.head?, back.timestamp ≤ b.timestamp :=
  fun back hback =>
    hdated.increasing back (List.mem_of_head? hback) (htop back hback)

/-- **A step forward** succeeds when the received block can be added to the EVM
    block the publishing loop ends at. -/
theorem Coherent.forward (hE : Started E startBlock)
    (h : Coherent E startBlock s) (hdated : Dated E s b) (htop : OnTop s b)
    {e : Block Tx} (he : s.evmBlocks.head? = some e) {curr : Block Tx}
    {written : List (Bytes32 × ConsensusParameters)}
    (hadd : addNativeBlock E (advance E (E.evmNum b - e.header.number) e) b
      = .ok (curr, written)) :
    ∃ s', nativeBlocksHandler E s b = .ok s' ∧ Advanced E s b e s' curr := by
  obtain ⟨s', hs'⟩ := h.append_total hE (hdated.of_onTop htop) he hadd
  obtain ⟨curr', written', hadd', hadv⟩ := advanced_of_append hE he hs'
  rw [hadd] at hadd'
  obtain ⟨rfl, -⟩ := Prod.mk.inj (Except.ok.inj hadd')
  exact ⟨s', (handler_of_onTop hdated htop).trans hs', hadv⟩

theorem forward_ok (hE : Started E startBlock) (hdated : Dated E s b)
    (htop : OnTop s b) {e : Block Tx} (he : s.evmBlocks.head? = some e)
    (hstep : nativeBlocksHandler E s b = .ok s') :
    ∃ curr written,
      addNativeBlock E (advance E (E.evmNum b - e.header.number) e) b
        = .ok (curr, written) ∧ Advanced E s b e s' curr := by
  rw [handler_of_onTop hdated htop] at hstep
  exact advanced_of_append hE he hstep

end Forward

end BlockConversion

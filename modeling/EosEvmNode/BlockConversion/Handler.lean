import EosEvmNode.BlockConversion.Pruning

/-! # The handler — its paths and its invariants

    `nativeBlocksHandler_ok` says once which paths a call that returns can take.
    `EvmInvariant` collects what has to be checked for a property of the EVM
    blocks and of the published log to hold in every reachable state, whatever
    native blocks arrive: one obligation for each phase that changes them. -/

namespace BlockConversion

open Channels Silkworm Engine Runs

variable {Tx : Type}

/-- The phases of an accepted native block, after the link check. -/
structure Appended (E : Env Tx) (s : State Tx) (b : NativeBlock) (s' : State Tx)
    (u : State Tx) (curr : Block Tx) (older : List (Block Tx))
    (curr' : Block Tx) (written : List (Bytes32 × ConsensusParameters)) :
    Prop where
  extended : extendEvmChain E (E.evmNum b) (E.evmNum b)
    { s with nativeBlocks := b :: s.nativeBlocks } = .ok u
  evms : u.evmBlocks = curr :: older
  added : addNativeBlock E curr b = .ok (curr', written)
  pruned : removeIrreversible E { u with
    evmBlocks := curr' :: older
    consensusParameters := written ++ u.consensusParameters } b.lib = .ok s'

theorem appendNativeBlock_ok {E : Env Tx} {s s' : State Tx} {b : NativeBlock}
    (h : appendNativeBlock E s b = .ok s') :
    ∃ u curr older curr' written,
      Appended E s b s' u curr older curr' written := by
  obtain ⟨u, hext, h⟩ := bind_ok h
  cases hevm : u.evmBlocks with
  | nil => simp only [hevm] at h; cases h
  | cons curr older =>
      simp only [hevm] at h
      obtain ⟨⟨curr', written⟩, hadd, hprune⟩ := bind_ok h
      exact ⟨u, curr, older, curr', written, hext, hevm, hadd, hprune⟩

/-- Only the configuration of the block is written. -/
theorem Appended.parameters {E : Env Tx} {s s' u : State Tx} {b : NativeBlock}
    {curr curr' : Block Tx} {older : List (Block Tx)}
    {written : List (Bytes32 × ConsensusParameters)}
    (h : Appended E s b s' u curr older curr' written) :
    s'.consensusParameters = written ++ s.consensusParameters := by
  have hu : u.consensusParameters = s.consensusParameters :=
    (extendEvmChain_frame h.extended).2.2
  rw [← hu]
  rcases removeIrreversible_ok h.pruned with ⟨-, rfl⟩ | ⟨it, oldNatives, oldEvms, -, hp⟩
  · rfl
  · exact hp.parameters

/-- How the received block was linked: onto the last native block, or onto an
    earlier one after a rollback. -/
def LinkedTo (E : Env Tx) (s : State Tx) (b : NativeBlock) (t : State Tx) :
    Prop :=
  (t = s ∧ ∀ back ∈ s.nativeBlocks.head?, back.id = b.prev) ∨
  ∃ f, findForkBlock s b = some f ∧ rollback E s f = .ok t

theorem LinkedTo.of_link {E : Env Tx} {s t : State Tx} {b : NativeBlock}
    (h : linkNativeBlock E s b = .ok (some t)) : LinkedTo E s b t := by
  rcases linkNativeBlock_ok h with ⟨hnone, -⟩ | ⟨hs, hback⟩ | ⟨f, t', hf, hroll, ht⟩
  · cases hnone
  · obtain rfl := Option.some.inj hs
    exact Or.inl ⟨rfl, hback⟩
  · obtain rfl := Option.some.inj ht
    exact Or.inr ⟨f, hf, hroll⟩

/-- A rollback writes no parameters. -/
theorem LinkedTo.parameters {E : Env Tx} {s t : State Tx} {b : NativeBlock}
    (h : LinkedTo E s b t) : t.consensusParameters = s.consensusParameters := by
  rcases h with ⟨rfl, -⟩ | ⟨f, -, hroll⟩
  · rfl
  · obtain ⟨back, older, e, es, txs, hr⟩ := rollback_ok hroll
    rw [hr.result]

/-- **The paths of the handler**: a block dated before genesis replaces the
    native cache, a duplicate changes nothing, any other accepted block is
    linked and appended. -/
theorem nativeBlocksHandler_ok {E : Env Tx} {s s' : State Tx} {b : NativeBlock}
    (h : nativeBlocksHandler E s b = .ok s') :
    (b.timestamp ≤ E.bm.genesisTimestamp ∧ s' = { s with nativeBlocks := [b] }) ∨
    (isCached s b.id = true ∧ s' = s) ∨
    ∃ t, E.bm.genesisTimestamp < b.timestamp ∧ LinkedTo E s b t ∧
      appendNativeBlock E t b = .ok s' := by
  rw [nativeBlocksHandler] at h
  by_cases hgen : b.timestamp ≤ E.bm.genesisTimestamp
  · rw [if_pos hgen] at h
    exact Or.inl ⟨hgen, (Except.ok.inj h).symm⟩
  · rw [if_neg hgen] at h
    obtain ⟨r, hlink, h⟩ := bind_ok h
    rcases linkNativeBlock_ok hlink with
      ⟨rfl, hdup⟩ | ⟨rfl, hback⟩ | ⟨f, t, hf, hroll, rfl⟩
    · exact Or.inr (Or.inl ⟨hdup, (Except.ok.inj h).symm⟩)
    · exact Or.inr (Or.inr ⟨s, by omega, Or.inl ⟨rfl, hback⟩, h⟩)
    · exact Or.inr (Or.inr ⟨t, by omega, Or.inr ⟨f, hf, hroll⟩, h⟩)

/-! ## Invariants of the EVM side -/

/-- What each phase must preserve for `P` to hold of the EVM blocks and the
    published log of every reachable state, when every native block received is
    one of the `delivered` ones. -/
structure EvmInvariant (E : Env Tx) (delivered : NativeBlock → Prop)
    (P : List (Block Tx) → List (Block Tx) → Prop) : Prop where
  rollback : ∀ evms published e es txs nb, e :: es <:+ evms →
    txs <+: e.transactions → P evms published →
    P (setUpperBound { e with transactions := txs } nb :: es) published
  extend : ∀ last older published, P (last :: older) published →
    P (generateNewEvmBlock E (setTransactionsRoot E last)
        :: setTransactionsRoot E last :: older)
      (setTransactionsRoot E last :: published)
  add : ∀ curr older published b curr' written, delivered b →
    addNativeBlock E curr b = .ok (curr', written) →
    P (curr :: older) published → P (curr' :: older) published
  prune : ∀ kept old published, kept ≠ [] → P (kept ++ old) published →
    P kept published

/-- The rollback only touches the head of what is left of the EVM blocks. -/
theorem EvmInvariant.rollback_ok {E : Env Tx} {delivered : NativeBlock → Prop}
    {P : List (Block Tx) → List (Block Tx) → Prop} (hP : EvmInvariant E delivered P)
    {s t : State Tx} {f : NativeBlock} (h : BlockConversion.rollback E s f = .ok t)
    (hs : P s.evmBlocks s.published) : P t.evmBlocks t.published := by
  obtain ⟨back, older, e, es, txs, hr⟩ := BlockConversion.rollback_ok h
  rw [hr.result]
  exact hP.rollback s.evmBlocks s.published e es txs back
    (removeForkedEvmBlocks_suffix hr.evms) hr.shorter hs

theorem EvmInvariant.append_ok {E : Env Tx} {delivered : NativeBlock → Prop}
    {P : List (Block Tx) → List (Block Tx) → Prop} (hP : EvmInvariant E delivered P)
    {s s' : State Tx} {b : NativeBlock} (hb : delivered b)
    (h : appendNativeBlock E s b = .ok s') (hs : P s.evmBlocks s.published) :
    P s'.evmBlocks s'.published := by
  obtain ⟨u, curr, older, curr', written, ha⟩ := appendNativeBlock_ok h
  have hu : P u.evmBlocks u.published :=
    (extendEvmChain_invariant (P := fun t => P t.evmBlocks t.published)
      (fun t last older hevm _ ht => by
        show P _ _
        rw [hevm] at ht
        exact hP.extend last older t.published ht)
      _ { s with nativeBlocks := b :: s.nativeBlocks } u hs ha.extended).1
  rw [ha.evms] at hu
  have hadd := hP.add curr older u.published b curr' written hb ha.added hu
  rcases removeIrreversible_ok ha.pruned with
    ⟨-, rfl⟩ | ⟨it, oldNatives, oldEvms, -, hp⟩
  · exact hadd
  · rw [hp.published]
    refine hP.prune s'.evmBlocks oldEvms u.published hp.evms_ne ?_
    rw [← hp.evms]
    exact hadd

/-- **The invariant rule for the EVM side**, over one call of the handler. -/
theorem EvmInvariant.step {E : Env Tx} {delivered : NativeBlock → Prop}
    {P : List (Block Tx) → List (Block Tx) → Prop} (hP : EvmInvariant E delivered P)
    {s s' : State Tx} {b : NativeBlock} (hb : delivered b)
    (h : nativeBlocksHandler E s b = .ok s') (hs : P s.evmBlocks s.published) :
    P s'.evmBlocks s'.published := by
  rcases nativeBlocksHandler_ok h with
    ⟨-, rfl⟩ | ⟨-, rfl⟩ | ⟨t, -, ⟨rfl, -⟩ | ⟨f, -, hroll⟩, happ⟩
  · exact hs
  · exact hs
  · exact hP.append_ok hb happ hs
  · exact hP.append_ok hb happ (hP.rollback_ok hroll hs)

/-- **The invariant rule for the EVM side**, over a whole run. -/
theorem EvmInvariant.reach {E : Env Tx} {bs : List NativeBlock}
    {P : List (Block Tx) → List (Block Tx) → Prop} (hP : EvmInvariant E (· ∈ bs) P)
    {adm : State Tx → NativeBlock → Prop} {s₀ s : State Tx}
    (h0 : P s₀.evmBlocks s₀.published)
    (hrun : Reach (nativeBlocksHandler E) adm s₀ bs s) :
    P s.evmBlocks s.published :=
  hrun.delivered.invariant (P := fun t => P t.evmBlocks t.published) h0
    (fun _ _ _ hs hb hstep => hP.step hb hstep hs)

end BlockConversion

import EosEvmNode.BlockConversion.Safety

/-! # Uniform execution parameters

    All actions of an EVM block are executed under its version, base fee and gas
    prices.  The checks of the handler compare an action with header fields that
    earlier actions, the parent block or an abandoned branch have left there;
    `Sourced` shows that the comparison is enough in every reachable state,
    without any promise about the native blocks. -/

namespace BlockConversion

open Channels Silkworm Engine Runs

variable {Tx : Type}

/-- The transactions of the block come, in order, from delivered actions that
    agree with its parameters. -/
def SourcedBy (E : Env Tx) (delivered : NativeBlock → Prop) (e : Block Tx)
    (acts : List NativeAction) : Prop :=
  acts.map (decodedTx E) = e.transactions.map some ∧
    ∀ act ∈ acts, (∃ nb, delivered nb ∧ act ∈ nb.actions) ∧
      UniformAction E (Params.of e) act

/-- Versions do not decrease along the EVM blocks above `start`; the list is
    newest first. -/
def VersionsOrdered (E : Env Tx) (start : Nat) (evms : List (Block Tx)) : Prop :=
  evms.IsChain (fun x y => start < y.header.number →
    (Params.of y).version E ≤ (Params.of x).version E)

structure Sourced (E : Env Tx) (delivered : NativeBlock → Prop) (start : Nat)
    (evms : List (Block Tx)) : Prop where
  sources : ∀ e ∈ evms, start < e.header.number →
    ∃ acts, SourcedBy E delivered e acts
  versions : VersionsOrdered E start evms

section Phases

variable {E : Env Tx} {startBlock : Block Tx} {delivered : NativeBlock → Prop}
  {start : Nat}

/-- A block inherits the version of a predecessor other than genesis. -/
theorem generateNewEvmBlock_version (hE : Started E startBlock)
    {last : Block Tx} (h : last.header.number ≠ 0) :
    (Params.of (generateNewEvmBlock E last)).version E
      = (Params.of last).version E := by
  show E.libs.nonceToVersion (generateNewEvmBlock E last).header.nonce
    = E.libs.nonceToVersion last.header.nonce
  unfold generateNewEvmBlock
  simp only [if_neg h, hE.lawful.prepared_nonce, hE.lawful.nonce_version]

/-- A block that loses its last transactions keeps the sources of the others. -/
theorem SourcedBy.shorten {e e' : Block Tx} {acts : List NativeAction}
    (h : SourcedBy E delivered e acts) (hpar : Params.of e' = Params.of e)
    (htx : e'.transactions <+: e.transactions) :
    ∃ acts', SourcedBy E delivered e' acts' := by
  obtain ⟨hdecoded, hacts⟩ := h
  refine ⟨acts.take e'.transactions.length, ?_, ?_⟩
  · rw [List.map_take, hdecoded, ← List.map_take,
      ← List.prefix_iff_eq_take.mp htx]
  · intro act hact
    rw [hpar]
    exact hacts act (List.mem_of_mem_take hact)

theorem sourced_init (E : Env Tx) (delivered : NativeBlock → Prop)
    (startBlock : Block Tx) :
    Sourced E delivered startBlock.header.number [startBlock] where
  sources := by
    intro e he hlt
    rw [List.mem_singleton.mp he] at hlt
    omega
  versions := List.isChain_singleton _

theorem Sourced.rollback {evms es : List (Block Tx)} {e : Block Tx}
    {txs : List Tx} (nb : NativeBlock) (h : Sourced E delivered start evms)
    (hsuf : e :: es <:+ evms) (htx : txs <+: e.transactions) :
    Sourced E delivered start
      (setUpperBound { e with transactions := txs } nb :: es) where
  sources := by
    intro x hx hlt
    rcases List.mem_cons.mp hx with rfl | hmem
    · obtain ⟨acts, hacts⟩ :=
        h.sources e (hsuf.subset List.mem_cons_self) hlt
      exact hacts.shorten rfl htx
    · exact h.sources x (hsuf.subset (List.mem_cons_of_mem _ hmem)) hlt
  versions := by
    have hsub := List.IsChain.suffix h.versions hsuf
    rw [List.isChain_cons] at hsub
    exact List.isChain_cons.mpr hsub

theorem Sourced.extend (hE : Started E startBlock) {last : Block Tx}
    {older : List (Block Tx)} (h : Sourced E delivered start (last :: older)) :
    Sourced E delivered start (generateNewEvmBlock E (setTransactionsRoot E last)
      :: setTransactionsRoot E last :: older) where
  sources := by
    intro x hx hlt
    rcases List.mem_cons.mp hx with rfl | hx
    · exact ⟨[], rfl, fun act hact => by cases hact⟩
    · rcases List.mem_cons.mp hx with rfl | hmem
      · exact h.sources last List.mem_cons_self hlt
      · exact h.sources x (List.mem_cons_of_mem _ hmem) hlt
  versions := by
    have hlast : VersionsOrdered E start (setTransactionsRoot E last :: older) :=
      List.isChain_cons.mpr (List.isChain_cons.mp h.versions)
    refine List.isChain_cons_cons.mpr ⟨?_, hlast⟩
    intro hlt
    have hne : (setTransactionsRoot E last).header.number ≠ 0 := by omega
    rw [generateNewEvmBlock_version hE hne]
    exact UInt64.le_refl _

theorem Sourced.add (hE : Started E startBlock) {curr curr' : Block Tx}
    {older : List (Block Tx)} {b : NativeBlock}
    {written : List (Bytes32 × ConsensusParameters)} (hb : delivered b)
    (hadd : addNativeBlock E curr b = .ok (curr', written))
    (h : Sourced E delivered start (curr :: older)) :
    Sourced E delivered start (curr' :: older) := by
  obtain ⟨txs, hall, hcurr', -⟩ := addNativeBlock_ok hE.lawful hadd
  subst hcurr'
  refine ⟨?_, ?_⟩
  · intro x hx hlt
    rcases List.mem_cons.mp hx with rfl | hmem
    · obtain ⟨acts, hdecoded, hacts⟩ := h.sources curr List.mem_cons_self hlt
      refine ⟨acts ++ b.actions, ?_, ?_⟩
      · rw [List.map_append, hdecoded, hall.decoded, ← List.map_append]
        rfl
      · intro act hact
        rcases List.mem_append.mp hact with hold | hnew
        · obtain ⟨hfrom, huni⟩ := hacts act hold
          refine ⟨hfrom, hall.keeps ?_ act huni⟩
          -- an older action has put its transaction into the block
          intro hnil
          rw [hnil, List.map_nil, List.map_eq_nil_iff] at hdecoded
          rw [hdecoded] at hold
          cases hold
        · exact ⟨⟨b, hb, hnew⟩, hall.uniform act hnew⟩
    · exact h.sources x (List.mem_cons_of_mem _ hmem) hlt
  · have hold := List.isChain_cons.mp h.versions
    refine List.isChain_cons.mpr ⟨?_, hold.2⟩
    intro y hy hlt
    exact UInt64.le_trans (hold.1 y hy hlt) hall.version_le

/-- `Sourced` is an invariant of the EVM side. -/
theorem sourced_invariant (hE : Started E startBlock)
    (delivered : NativeBlock → Prop) :
    EvmInvariant E delivered (fun evms _ => Sourced E delivered start evms) where
  rollback := fun _ _ _ _ _ nb hsuf htx h => h.rollback nb hsuf htx
  extend := fun _ _ _ h => h.extend hE
  add := fun _ _ _ _ _ _ hb hadd h => h.add hE hb hadd
  prune := by
    intro kept old published _ h
    exact ⟨fun e he => h.sources e (List.mem_append_left _ he),
      List.IsChain.left_of_append h.versions⟩

end Phases

/-! ## Configuration changes -/

/-- Consensus parameters are written for a configuration change only, and it
    goes into an empty block. -/
theorem addNativeBlock_written {E : Env Tx} (hX : E.libs.Lawful)
    {curr curr' : Block Tx} {b : NativeBlock}
    {written : List (Bytes32 × ConsensusParameters)}
    (h : addNativeBlock E curr b = .ok (curr', written)) (hne : written ≠ []) :
    curr'.transactions.map some = b.actions.map (decodedTx E) := by
  obtain ⟨txs, hall, hcurr', hempty⟩ := addNativeBlock_ok hX h
  have hsome : b.newConfig.isSome := by
    obtain ⟨⟨c, w⟩, hcfg, h⟩ := bind_ok h
    obtain ⟨⟨c', v'⟩, -, h⟩ := bind_ok h
    obtain ⟨-, hw⟩ := Prod.mk.inj (Except.ok.inj h)
    cases hnc : b.newConfig with
    | some na => rfl
    | none =>
        rw [applyNewConfig, hnc] at hcfg
        obtain ⟨-, hnil⟩ := Prod.mk.inj (Except.ok.inj hcfg)
        exact absurd (hnil.trans hw).symm hne
  rw [hcurr', hall.decoded]
  show (curr.transactions ++ txs).map some = txs.map some
  rw [hempty hsome, List.nil_append]

/-- A call that writes consensus parameters leaves the EVM block they apply to
    with the transactions of the received native block alone. -/
theorem config_into_empty_block {E : Env Tx} (hX : E.libs.Lawful)
    {s s' : State Tx} {b : NativeBlock}
    (h : nativeBlocksHandler E s b = .ok s')
    (hne : s'.consensusParameters ≠ s.consensusParameters) :
    ∃ e es, s'.evmBlocks = e :: es ∧
      e.transactions.map some = b.actions.map (decodedTx E) := by
  rcases nativeBlocksHandler_ok h with
    ⟨-, rfl⟩ | ⟨-, rfl⟩ | ⟨t, -, hlink, happ⟩
  · exact absurd rfl hne
  · exact absurd rfl hne
  · obtain ⟨u, curr, older, curr', written, ha⟩ := appendNativeBlock_ok happ
    have hwritten : written ≠ [] := by
      rintro rfl
      exact hne (ha.parameters.trans hlink.parameters)
    rcases removeIrreversible_ok ha.pruned with
      ⟨-, rfl⟩ | ⟨it, oldNatives, oldEvms, -, hp⟩
    · exact ⟨curr', older, rfl,
        addNativeBlock_written hX ha.added hwritten⟩
    · obtain ⟨e, es, hevm⟩ := List.exists_cons_of_ne_nil hp.evms_ne
      have hevms := hp.evms
      rw [hevm, List.cons_append] at hevms
      obtain ⟨rfl, -⟩ := List.cons.inj hevms
      exact ⟨curr', es, hevm,
        addNativeBlock_written hX ha.added hwritten⟩

/-- **Uniform execution parameters**, in every reachable state: the transactions
    of an EVM block above the start block come from delivered actions that agree
    with its version, base fee and gas prices, and these are the actions of the
    cached native blocks of its second when native blocks are dated as the
    native chain promises; versions do not decrease; a configuration change goes
    into an empty block. -/
theorem uniform_execution_parameters {X : Externals Tx} {db : ChainData Tx}
    {height : Option Nat} {startBlock : Block Tx} {E : Env Tx} {s₀ : State Tx}
    (hload : Loaded X db height startBlock E s₀)
    {adm : State Tx → NativeBlock → Prop} {bs : List NativeBlock} {s : State Tx}
    (hrun : Reach (nativeBlocksHandler E) adm s₀ bs s) :
    (∀ e ∈ s.evmBlocks, startBlock.header.number < e.header.number →
      ∃ acts, SourcedBy E (· ∈ bs) e acts) ∧
    ((∀ t b, adm t b → Dated E t b) →
      ∀ e ∈ s.evmBlocks, startBlock.header.number < e.header.number →
        ∀ nb ∈ s.nativeBlocks, E.evmNum nb = e.header.number →
          ∀ act ∈ nb.actions, UniformAction E (Params.of e) act) ∧
    VersionsOrdered E startBlock.header.number s.evmBlocks ∧
    ∀ b s', nativeBlocksHandler E s b = .ok s' →
      s'.consensusParameters ≠ s.consensusParameters →
      ∃ e es, s'.evmBlocks = e :: es ∧
        e.transactions.map some = b.actions.map (decodedTx E) := by
  obtain ⟨evmLib₀, rfl⟩ := hload.initial
  have h := (sourced_invariant hload.started (· ∈ bs)).reach
    (sourced_init E _ startBlock) hrun
  refine ⟨h.sources, ?_, h.versions, ?_⟩
  · intro hdated
    exact (coherent_reach hload.started (hrun.mono hdated)).filled.uniform
  · intro b s' hstep hne
    exact config_into_empty_block hload.started.lawful hstep hne

theorem uniform_execution_parameters_plainFork :
    ∃ s, Reach (nativeBlocksHandler plainEnv) (Dated plainEnv)
        (initialState plainGenesis 0) plainFork s ∧
      (∀ e ∈ s.evmBlocks, plainGenesis.header.number < e.header.number →
        ∀ nb ∈ s.nativeBlocks, plainEnv.evmNum nb = e.header.number →
          ∀ act ∈ nb.actions, UniformAction plainEnv (Params.of e) act) ∧
      VersionsOrdered plainEnv plainGenesis.header.number s.evmBlocks := by
  have hcheck : checkRun (nativeBlocksHandler plainEnv) (Dated plainEnv)
      (initialState plainGenesis 0) plainFork = true := by decide +kernel
  obtain ⟨s, hs⟩ := exists_reach hcheck
  have h := uniform_execution_parameters (plainEnv_loaded 0) hs
  exact ⟨s, hs, h.2.1 (fun _ _ hb => hb), h.2.2.1⟩

end BlockConversion

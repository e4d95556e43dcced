import EosEvmNode.BlockConversion.Uniformity
import EosEvmNode.Blockchain.EngineCalls

/-! # What the engine executes a block under

    A block that is inserted into the engine brings its execution parameters along: the
    version in its nonce, the base fee and gas prices, and the index under which the
    consensus parameters are in the database.  The engine takes them as they are.

    Here they are followed through every interleaving of the two plugins, with any native
    blocks, forks and failures: the transactions of an inserted block come from actions
    that agree with its parameters, its index is not dangling, and its version is not
    below that of the block it is put on. -/

namespace BlockConversion

open Channels Silkworm Engine Runs

variable {Tx : Type}

/-! ## The version of the parent -/

/-- The version is at least the one of what is published last under the number
    before. -/
def VersionKept (E : Env Tx) (published : List (Block Tx)) (e : Block Tx) : Prop :=
  ∃ q, lastPublished published (e.header.number - 1) = some q ∧
    e.header.parentHash = E.libs.hash q.header ∧
    (Params.of q).version E ≤ (Params.of e).version E

/-- The EVM blocks and the published log, as far as versions go.  The block above the
    start block is left out: genesis has another nonce. -/
structure Versioned (E : Env Tx) (start : Nat) (evms published : List (Block Tx)) :
    Prop where
  linked : Linked E start evms published
  cached : ∀ e ∈ evms, start + 1 < e.header.number → VersionKept E published e
  log : ∀ p older, p :: older <:+ published → start + 1 < p.header.number →
    VersionKept E older p

section Versions

variable {E : Env Tx} {startBlock : Block Tx} {start : Nat}
  {evms published : List (Block Tx)} {e e' : Block Tx} {es : List (Block Tx)}

theorem versioned_init (E : Env Tx) (startBlock : Block Tx) :
    Versioned E startBlock.header.number [startBlock] [] where
  linked := linked_init E startBlock
  cached := by
    intro e he hlt
    rw [List.mem_singleton.mp he] at hlt
    omega
  log := by
    intro p older hsuf
    cases List.suffix_nil.mp hsuf

/-- A change of the last block that does not lower its version. -/
theorem Versioned.replace_head (h : Versioned E start (e :: es) published)
    (hnum : e'.header.number = e.header.number)
    (hpar : e'.header.parentHash = e.header.parentHash)
    (hversion : (Params.of e).version E ≤ (Params.of e').version E) :
    Versioned E start (e' :: es) published where
  linked := h.linked.replace_head hnum hpar
  cached := by
    intro x hx hlt
    rcases List.mem_cons.mp hx with rfl | hx
    · rw [hnum] at hlt
      obtain ⟨q, hq, hparent, hle⟩ := h.cached e List.mem_cons_self hlt
      refine ⟨q, ?_, hpar.trans hparent, UInt64.le_trans hle hversion⟩
      rw [hnum]
      exact hq
    · exact h.cached x (List.mem_cons_of_mem _ hx) hlt
  log := h.log

/-- Looking below what is published now. -/
theorem VersionKept.publish {p : Block Tx} (h : VersionKept E published e)
    (hlt : e.header.number - 1 < p.header.number) : VersionKept E (p :: published) e := by
  obtain ⟨q, hq, hparent, hle⟩ := h
  refine ⟨q, ?_, hparent, hle⟩
  rw [lastPublished_cons_ne published (by omega)]
  exact hq

/-- The block that is published, and the one that takes its version over. -/
theorem Versioned.extend (hE : Started E startBlock) {last : Block Tx}
    (h : Versioned E start (last :: es) published) :
    Versioned E start
      (generateNewEvmBlock E (setTransactionsRoot E last) :: setTransactionsRoot E last :: es)
      (setTransactionsRoot E last :: published) where
  linked := h.linked.extend hE
  cached := by
    intro x hx hlt
    have hnew := generateNewEvmBlock_number hE (setTransactionsRoot E last)
    rw [setTransactionsRoot_number] at hnew
    rcases List.mem_cons.mp hx with rfl | hx
    · refine ⟨setTransactionsRoot E last, ?_, rfl, ?_⟩
      · refine lastPublished_cons_eq published ?_
        rw [hnew, setTransactionsRoot_number, Nat.add_sub_cancel]
      · have hne : (setTransactionsRoot E last).header.number ≠ 0 := by
          rw [setTransactionsRoot_number]
          omega
        rw [generateNewEvmBlock_version hE hne]
        exact UInt64.le_refl _
    · have hbelow : x.header.number - 1 < last.header.number := by
        rcases List.mem_cons.mp hx with rfl | hmem
        · rw [setTransactionsRoot_number] at hlt ⊢
          omega
        · have := h.linked.consecutive.tail_lt x hmem
          omega
      rcases List.mem_cons.mp hx with rfl | hmem
      · exact VersionKept.publish (h.cached last List.mem_cons_self hlt) hbelow
      · exact VersionKept.publish (h.cached x (List.mem_cons_of_mem _ hmem) hlt) hbelow
  log := by
    intro p older hsuf hlt
    rcases List.suffix_cons_iff.mp hsuf with heq | hsuf
    · obtain ⟨rfl, rfl⟩ := List.cons.inj heq
      exact h.cached last List.mem_cons_self hlt
    · exact h.log p older hsuf hlt

theorem versioned_invariant (hE : Started E startBlock) (delivered : NativeBlock → Prop) :
    EvmInvariant E delivered (Versioned E startBlock.header.number) where
  rollback := by
    intro evms published e es txs nb hsuf _ h
    have hsub : Versioned E startBlock.header.number (e :: es) published :=
      ⟨h.linked.of_suffix hsuf, fun x hx => h.cached x (hsuf.subset hx), h.log⟩
    exact hsub.replace_head rfl rfl (UInt64.le_refl _)
  extend := fun _ _ _ h => h.extend hE
  add := by
    intro curr older published b curr' written _ hadd h
    obtain ⟨txs, hall, hcurr', -⟩ := addNativeBlock_ok hE.lawful hadd
    subst hcurr'
    exact h.replace_head rfl rfl hall.version_le
  prune := fun _ _ _ hne h =>
    ⟨h.linked.of_prefix hne, fun x hx => h.cached x (List.mem_append_left _ hx), h.log⟩

end Versions

/-! ## The sources of published blocks -/

/-- As `Sourced`, and the published blocks too. -/
structure LogSourced (E : Env Tx) (delivered : NativeBlock → Prop) (start : Nat)
    (evms published : List (Block Tx)) : Prop where
  sourced : Sourced E delivered start evms
  log : ∀ e ∈ published, start < e.header.number → ∃ acts, SourcedBy E delivered e acts

theorem logSourced_invariant {E : Env Tx} {startBlock : Block Tx}
    (hE : Started E startBlock) (delivered : NativeBlock → Prop) (start : Nat) :
    EvmInvariant E delivered (LogSourced E delivered start) where
  rollback := fun _ _ _ _ _ nb hsuf htx h => ⟨h.sourced.rollback nb hsuf htx, h.log⟩
  extend := by
    intro last older published h
    refine ⟨h.sourced.extend hE, fun e he hlt => ?_⟩
    rcases List.mem_cons.mp he with rfl | hmem
    · exact h.sourced.sources last List.mem_cons_self hlt
    · exact h.log e hmem hlt
  add := fun _ _ _ _ _ _ hb hadd h => ⟨h.sourced.add hE hb hadd, h.log⟩
  prune := fun kept old published hne h =>
    ⟨(sourced_invariant hE delivered).prune kept old published hne h.sourced, h.log⟩

/-! ## The index of the consensus parameters -/

/-- The index is the start block's, or the hash of parameters that are in the
    database. -/
def Indexed (E : Env Tx) (startBlock : Block Tx)
    (stored : List (Bytes32 × ConsensusParameters)) (e : Block Tx) : Prop :=
  ∀ index ∈ e.consensusParameterIndex, index ∈ startBlock.consensusParameterIndex ∨
    ∃ params, (index, params) ∈ stored ∧ E.libs.consensusHash params = index

structure AllIndexed (E : Env Tx) (startBlock : Block Tx) (s : State Tx) : Prop where
  cached : ∀ e ∈ s.evmBlocks, Indexed E startBlock s.consensusParameters e
  log : ∀ e ∈ s.published, Indexed E startBlock s.consensusParameters e

section Index

variable {E : Env Tx} {startBlock : Block Tx} {s s' t : State Tx} {b : NativeBlock}

/-- Fees and versions leave the index alone. -/
theorem afterTx_index (p : Params) (dtx : EvmTx) :
    (p.afterTx E dtx).consensusParameterIndex = p.consensusParameterIndex := by
  have hraise : (p.raise E dtx).consensusParameterIndex = p.consensusParameterIndex := by
    unfold Params.raise
    by_cases hlt : p.version E < dtx.eosEvmVersion
    · rw [if_pos hlt]
    · rw [if_neg hlt]
  rw [Params.afterTx, ← hraise]
  cases dtx with
  | v1 version rlpx txBaseFee =>
      unfold Params.charge
      by_cases hcharge : 1 ≤ version ∧ version < 3
      · simp only [if_pos hcharge]
      · simp only [if_neg hcharge]
  | v3 version rlpx overheadPrice storagePrice =>
      unfold Params.charge
      by_cases hcharge : 3 ≤ version
      · simp only [if_pos hcharge]
      · simp only [if_neg hcharge]

theorem afterActions_index (acts : List NativeAction) :
    ∀ p : Params, (p.afterActions E acts).consensusParameterIndex =
      p.consensusParameterIndex := by
  induction acts with
  | nil => exact fun _ => rfl
  | cons act acts ih =>
      intro p
      show (Params.afterActions E _ acts).consensusParameterIndex = _
      rw [ih]
      cases hdtx : deserializeTx E act with
      | error err => simp only [hdtx]
      | ok dtx => simp only [hdtx, afterTx_index]

/-- **What is added** keeps the index, or sets it to parameters that it writes. -/
theorem addNativeBlock_index (hX : E.libs.Lawful) {curr curr' : Block Tx}
    {written : List (Bytes32 × ConsensusParameters)}
    (h : addNativeBlock E curr b = .ok (curr', written)) :
    curr'.consensusParameterIndex = curr.consensusParameterIndex ∨
      ∃ params, curr'.consensusParameterIndex = some (E.libs.consensusHash params) ∧
        (E.libs.consensusHash params, params) ∈ written := by
  obtain ⟨txs, -, hcurr', -⟩ := addNativeBlock_ok hX h
  have hindex : curr'.consensusParameterIndex =
      ((Params.of curr).afterConfig E b).consensusParameterIndex := by
    rw [hcurr']
    exact afterActions_index b.actions _
  obtain ⟨⟨c, w⟩, hcfg, h⟩ := bind_ok h
  obtain ⟨⟨c', v'⟩, -, h⟩ := bind_ok h
  obtain ⟨-, hw⟩ := Prod.mk.inj (Except.ok.inj h)
  have hw : w = written := hw
  unfold applyNewConfig at hcfg
  unfold Params.afterConfig at hindex
  cases hnew : b.newConfig with
  | none =>
      simp only [hnew] at hindex
      exact Or.inl hindex
  | some na =>
      simp only [hnew] at hcfg hindex
      by_cases hempty : (!curr.transactions.isEmpty) = true
      · rw [if_pos hempty] at hcfg
        cases hcfg
      · rw [if_neg hempty] at hcfg
        obtain ⟨config, hconfig, hcfg⟩ := bind_ok hcfg
        simp only [hconfig] at hindex
        obtain ⟨-, hwritten⟩ := Prod.mk.inj (Except.ok.inj hcfg)
        refine Or.inr ⟨consensusParametersOf config, hindex, ?_⟩
        rw [← hw, ← hwritten]
        exact List.mem_singleton_self _

theorem Indexed.mono {stored stored' : List (Bytes32 × ConsensusParameters)}
    {e : Block Tx} (h : Indexed E startBlock stored e) (hsub : stored ⊆ stored') :
    Indexed E startBlock stored' e := by
  intro index hindex
  rcases h index hindex with hstart | ⟨params, hmem, hhash⟩
  · exact Or.inl hstart
  · exact Or.inr ⟨params, hsub hmem, hhash⟩

theorem allIndexed_init (E : Env Tx) (startBlock : Block Tx) (evmLib₀ : Nat) :
    AllIndexed E startBlock (initialState startBlock evmLib₀) where
  cached := by
    intro e he index hindex
    rw [List.mem_singleton.mp he] at hindex
    exact Or.inl hindex
  log := fun e he => absurd he List.not_mem_nil

theorem AllIndexed.link (h : AllIndexed E startBlock s) (hlink : LinkedTo E s b t) :
    AllIndexed E startBlock t := by
  rcases hlink with ⟨rfl, -⟩ | ⟨f, -, hroll⟩
  · exact h
  · obtain ⟨back, older, e, es, txs, hr⟩ := rollback_ok hroll
    have hsuf := removeForkedEvmBlocks_suffix hr.evms
    rw [hr.result]
    refine ⟨fun x hx => ?_, h.log⟩
    rcases List.mem_cons.mp hx with rfl | hx
    · exact h.cached e (hsuf.subset List.mem_cons_self)
    · exact h.cached x (hsuf.subset (List.mem_cons_of_mem _ hx))

/-- A new block has the index of the one it is put on. -/
theorem AllIndexed.extendOnce {last : Block Tx} {older : List (Block Tx)}
    (h : AllIndexed E startBlock s) (hevms : s.evmBlocks = last :: older) :
    AllIndexed E startBlock (BlockConversion.extendOnce E s last older) := by
  have hlast : Indexed E startBlock s.consensusParameters (setTransactionsRoot E last) :=
    h.cached last (by rw [hevms]; exact List.mem_cons_self)
  constructor
  · intro x hx
    rcases List.mem_cons.mp hx with rfl | hx
    · exact hlast
    rcases List.mem_cons.mp hx with rfl | hx
    · exact hlast
    · exact h.cached x (by rw [hevms]; exact List.mem_cons_of_mem _ hx)
  · intro x hx
    rcases List.mem_cons.mp hx with rfl | hx
    · exact hlast
    · exact h.log x hx

theorem AllIndexed.append (hX : E.libs.Lawful) (h : AllIndexed E startBlock t)
    (happ : appendNativeBlock E t b = .ok s') : AllIndexed E startBlock s' := by
  obtain ⟨u, curr, older, curr', written, ha⟩ := appendNativeBlock_ok happ
  have hu : AllIndexed E startBlock u :=
    (extendEvmChain_invariant (P := AllIndexed E startBlock)
      (fun v last older hevms _ hv => hv.extendOnce hevms) _ _ _
      (show AllIndexed E startBlock { t with nativeBlocks := b :: t.nativeBlocks } from
        ⟨h.cached, h.log⟩) ha.extended).1
  have hsub : u.consensusParameters ⊆ written ++ u.consensusParameters :=
    List.subset_append_right _ _
  have hcurr : Indexed E startBlock (written ++ u.consensusParameters) curr' := by
    intro index hindex
    rcases addNativeBlock_index hX ha.added with hsame | ⟨params, hset, hmem⟩
    · rw [hsame] at hindex
      exact (hu.cached curr (by rw [ha.evms]; exact List.mem_cons_self)).mono hsub
        index hindex
    · rw [hset] at hindex
      obtain rfl := Option.some.inj hindex
      exact Or.inr ⟨params, List.mem_append_left _ hmem, rfl⟩
  have hadded : AllIndexed E startBlock { u with
      evmBlocks := curr' :: older
      consensusParameters := written ++ u.consensusParameters } := by
    constructor
    · intro x hx
      rcases List.mem_cons.mp hx with rfl | hx
      · exact hcurr
      · exact (hu.cached x (by rw [ha.evms]; exact List.mem_cons_of_mem _ hx)).mono hsub
    · exact fun x hx => (hu.log x hx).mono hsub
  rcases removeIrreversible_ok ha.pruned with ⟨-, rfl⟩ | ⟨it, oldNatives, oldEvms, -, hp⟩
  · exact hadded
  · refine ⟨fun x hx => ?_, fun x hx => ?_⟩
    · rw [hp.parameters]
      refine hadded.cached x ?_
      rw [hp.evms]
      exact List.mem_append_left _ hx
    · rw [hp.parameters]
      refine hadded.log x ?_
      rw [hp.published] at hx
      exact hx

/-- **No index is ever dangling.** -/
theorem AllIndexed.step (hX : E.libs.Lawful) (h : AllIndexed E startBlock s)
    (hs : nativeBlocksHandler E s b = .ok s') : AllIndexed E startBlock s' := by
  rcases nativeBlocksHandler_ok hs with ⟨-, rfl⟩ | ⟨-, rfl⟩ | ⟨t, -, hlink, happ⟩
  · exact ⟨h.cached, h.log⟩
  · exact h
  · exact (h.link hlink).append hX happ

end Index

end BlockConversion

namespace Blockchain.EngineCalls

open Channels Silkworm Engine Runs BlockConversion NumberedLog

variable {Tx : Type}

/-- What the converter holds and has published is governed, and only received blocks are
    handled. -/
structure Governed (E : Env Tx) (startBlock : Block Tx) (received : NativeBlock → Prop)
    (p : Process Tx) : Prop where
  fifo : Fifo p
  versioned : Versioned E startBlock.header.number p.converter.evmBlocks
    p.converter.published
  sourced : LogSourced E received startBlock.header.number p.converter.evmBlocks
    p.converter.published
  indexed : AllIndexed E startBlock p.converter
  queued : ∀ b, .native b ∈ p.queue → received b

section Governed

variable {E : Env Tx} {startBlock : Block Tx} {received : NativeBlock → Prop}
  {p q : Process Tx} {event : Event}

theorem governed_start (E : Env Tx) (startBlock : Block Tx) (received : NativeBlock → Prop)
    (evmLib₀ : Nat) :
    Governed E startBlock received
      (Process.start startBlock (initialState startBlock evmLib₀)) where
  fifo := fifo_start startBlock rfl
  versioned := versioned_init E startBlock
  sourced := ⟨sourced_init E received startBlock, fun _ he => absurd he List.not_mem_nil⟩
  indexed := allIndexed_init E startBlock evmLib₀
  queued := fun _ hb => absurd hb List.not_mem_nil

/-- The converter has handled a received block. -/
theorem Governed.native (hE : Started E startBlock) {b : NativeBlock} {s : State Tx}
    (h : Governed E startBlock received p) (hb : received b)
    (hs : nativeBlocksHandler E p.converter b = .ok s) :
    Versioned E startBlock.header.number s.evmBlocks s.published ∧
      LogSourced E received startBlock.header.number s.evmBlocks s.published ∧
      AllIndexed E startBlock s :=
  ⟨(versioned_invariant hE received).step hb hs h.versioned,
    (logSourced_invariant hE received _).step hb hs h.sourced,
    h.indexed.step hE.lawful hs⟩

/-- **One step**, whatever it is. -/
theorem Governed.step (hE : Started E startBlock) (h : Governed E startBlock received p)
    (hevent : ∀ b, event = .receive b → received b)
    (hstep : Process.step E p event = .ok q) : Governed E startBlock received q := by
  have hfifo := h.fifo.step hstep
  cases changes_of_step hstep with
  | idle => exact h
  | receive b hrunning =>
      refine ⟨hfifo, h.versioned, h.sourced, h.indexed, fun x hx => ?_⟩
      rcases List.mem_append.mp hx with hold | hnew
      · exact h.queued x hold
      · have heq := Message.native.inj (List.mem_singleton.mp hnew)
        exact hevent x (by rw [heq])
  | @native _ b rest s hrunning hqueue hs =>
      have hb : received b := h.queued b (by rw [hqueue]; exact List.mem_cons_self)
      obtain ⟨hversioned, hsourced, hindexed⟩ := h.native hE hb hs
      refine ⟨hfifo, hversioned, hsourced, hindexed, fun x hx => ?_⟩
      rcases List.mem_append.mp hx with hrest | hnew
      · exact h.queued x (by rw [hqueue]; exact List.mem_cons_of_mem _ hrest)
      · obtain ⟨e, -, he⟩ := List.mem_map.mp hnew
        cases he
  | @thrown _ b rest hrunning hqueue =>
      refine ⟨hfifo, h.versioned, h.sourced, h.indexed, fun x hx => ?_⟩
      exact h.queued x (by rw [hqueue]; exact List.mem_cons_of_mem _ hx)
  | @evm ending newBlock rest hrunning hqueue =>
      refine ⟨hfifo, h.versioned, h.sourced, h.indexed, fun x hx => ?_⟩
      exact h.queued x (by rw [hqueue]; exact List.mem_cons_of_mem _ hx)

theorem governed_reach (hE : Started E startBlock) {evmLib₀ : Nat} {events : List Event}
    (hrun : Reach (Process.step E) (fun _ _ => True)
      (Process.start startBlock (initialState startBlock evmLib₀)) events p) :
    Governed E startBlock (fun b => .receive b ∈ events) p :=
  hrun.delivered.invariant (P := Governed E startBlock (fun b => .receive b ∈ events))
    (governed_start E startBlock _ evmLib₀)
    (fun _ _ _ hp hmem hstep => hp.step hE (fun _ heq => heq ▸ hmem) hstep)

end Governed

/-- **What the engine executes a block under**, in every run: for every block that has
    been inserted, its transactions come in order from received actions that agree with
    its version, base fee and gas prices; its consensus parameters are in the database,
    under their hash, or are those of the start block; and the block it is put on was
    inserted before it, with no higher version. -/
theorem engine_parameters {X : Externals Tx} {db : ChainData Tx} {height : Option Nat}
    {startBlock : Block Tx} {E : Env Tx} {s₀ : State Tx}
    (hload : Loaded X db height startBlock E s₀) {events : List Event} {p : Process Tx}
    (hrun : Reach (Process.step E) (fun _ _ => True) (Process.start startBlock s₀)
      events p) :
    (∀ e ∈ inserted p.calls, startBlock.header.number < e.header.number →
      ∃ acts, SourcedBy E (fun b => .receive b ∈ events) e acts) ∧
    (∀ e ∈ inserted p.calls, Indexed E startBlock p.converter.consensusParameters e) ∧
    ∀ e older, e :: older <:+ inserted p.calls →
      startBlock.header.number + 1 < e.header.number → VersionKept E older e := by
  have hE := hload.started
  obtain ⟨evmLib₀, rfl⟩ := hload.initial
  have h := governed_reach hE hrun
  have hsub := h.fifo.suffix
  exact ⟨fun e he => h.sourced.log e (hsub.subset he),
    fun e he => h.indexed.log e (hsub.subset he),
    fun e older hsuf => h.versioned.log e older (hsuf.trans hsub)⟩

/-- A configuration change between two blocks with transactions. -/
def configEvents : List Event :=
  [.receive (plainNative 2 0 0 21 0 [plainPayload 0 0 [1, 2]]),
   .receive { plainNative 3 0 0 23 0 [plainPayload 0 0 [3]] with
     newConfig := some {
       ordinal := 1
       receiver := Name.ofChars ['e', 'v', 'm']
       account := Name.ofChars ['e', 'v', 'm']
       name := configchangeN
       data := 0 :: (List.replicate 5 (littleEndian 7)).flatten } },
   .run .returns, .run .returns, .receive (plainNative 4 0 0 25 0 [plainPayload 0 0 [4]]),
   .run .returns, .run .returns, .run .returns, .run .returns]

theorem engine_parameters_configEvents :
    ∃ p, Reach (Process.step plainEnv) (fun _ _ => True)
        (Process.start plainGenesis (initialState plainGenesis 0)) configEvents p ∧
      (inserted p.calls).map (fun e => (blockNumber e, e.consensusParameterIndex.isSome)) =
        [(2, true), (1, false), (0, false)] ∧
      ∀ e ∈ inserted p.calls, Indexed plainEnv plainGenesis p.converter.consensusParameters e := by
  have hcheck : checkRun (Process.step plainEnv) (fun _ _ => True)
      (Process.start plainGenesis (initialState plainGenesis 0)) configEvents = true := by
    decide +kernel
  obtain ⟨p, hp⟩ := exists_reach hcheck
  have hinserted : (inserted p.calls).map
      (fun e => (blockNumber e, e.consensusParameterIndex.isSome)) =
        [(2, true), (1, false), (0, false)] :=
    hp.eval (f := fun p => (inserted p.calls).map
      (fun e => (blockNumber e, e.consensusParameterIndex.isSome))) (by decide +kernel)
  exact ⟨p, hp, hinserted, (engine_parameters (plainEnv_loaded 0) hp).2.1⟩

end Blockchain.EngineCalls

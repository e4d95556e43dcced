import EosEvmNode.BlockConversion.Steps

/-! # Extending the EVM chain — the publishing loop

    The loop runs until the last EVM block reaches a given number.  Two facts
    are used about it: what one iteration preserves the whole loop preserves
    (`extendEvmChain_invariant`), and, because every new block is numbered one
    higher, the loop ends and its result is a function of the last block alone
    (`extendEvmChain_eq`). -/

namespace BlockConversion

open Channels Silkworm Engine Runs

variable {Tx : Type}

/-! ## The environment that `load_head` sets up -/

/-- The libraries are lawful, blocks are mapped from genesis at one-second
    intervals, and the start block is dated where its number puts it. -/
structure Started (E : Env Tx) (startBlock : Block Tx) : Prop where
  lawful : E.libs.Lawful
  mapping : E.bm = E.libs.blockMapping E.bm.genesisTimestamp 1
  timestamp : startBlock.header.timestamp
    = E.bm.genesisTimestamp + startBlock.header.number

/-- The members `load_head` derives from the genesis header. -/
def loadedEnv (X : Externals Tx) (db : ChainData Tx) (genesisHeader : BlockHeader) :
    Env Tx where
  libs := X
  bm := X.blockMapping genesisHeader.timestamp 1
  evmContractName := UInt64.ofBitVec genesisHeader.nonce
  chainConfig := db.chainConfig

/-- The genesis nonce names a contract account. -/
def NamedContract (genesisHeader : BlockHeader) : Prop :=
  UInt64.ofBitVec genesisHeader.nonce ≠ 0 ∧
    UInt64.ofBitVec genesisHeader.nonce ≠ 1000

/-- When `load_head` returns, and what it has set up. -/
theorem loadHead_ok_iff {X : Externals Tx} {db : ChainData Tx}
    {height : Option Nat} {evmLib₀ : Nat} {E : Env Tx} {s₀ : State Tx} :
    loadHead X db height evmLib₀ = .ok (E, s₀) ↔
      ∃ startBlock genesisHeader,
        getCanonicalBlockAtHeight db height = some startBlock ∧
        getGenesisHeader db = some genesisHeader ∧ NamedContract genesisHeader ∧
        E = loadedEnv X db genesisHeader ∧
        s₀ = initialState startBlock evmLib₀ := by
  rw [loadHead]
  constructor
  · intro h
    cases hstart : getCanonicalBlockAtHeight db height with
    | none => rw [hstart] at h; cases h
    | some startBlock =>
        rw [hstart] at h
        cases hgen : getGenesisHeader db with
        | none => rw [hgen] at h; cases h
        | some genesisHeader =>
            rw [hgen] at h
            simp only at h
            by_cases hname : UInt64.ofBitVec genesisHeader.nonce = 0
                ∨ UInt64.ofBitVec genesisHeader.nonce = 1000
            · rw [if_pos hname] at h
              cases h
            · rw [if_neg hname] at h
              obtain ⟨hE, hs⟩ := Prod.mk.inj (Except.ok.inj h)
              exact ⟨startBlock, genesisHeader, rfl, rfl, not_or.mp hname,
                hE.symm, hs.symm⟩
  · rintro ⟨startBlock, genesisHeader, hstart, hgen, hname, rfl, rfl⟩
    rw [hstart, hgen]
    simp only
    rw [if_neg (not_or.mpr hname)]
    rfl

/-- `load_head` has returned: the plugin starts from `startBlock`, with the
    members `E` and the state `s₀`. -/
structure Loaded (X : Externals Tx) (db : ChainData Tx) (height : Option Nat)
    (startBlock : Block Tx) (E : Env Tx) (s₀ : State Tx) : Prop where
  lawful : X.Lawful
  sound : db.Sound
  start : getCanonicalBlockAtHeight db height = some startBlock
  loaded : ∃ evmLib₀, loadHead X db height evmLib₀ = .ok (E, s₀)

section Loading

variable {X : Externals Tx} {db : ChainData Tx} {height : Option Nat}
  {startBlock : Block Tx} {E : Env Tx} {s₀ : State Tx}

/-- The start block, and what `load_head` has made of the genesis header. -/
theorem Loaded.components (h : Loaded X db height startBlock E s₀) :
    ∃ genesisHeader, getGenesisHeader db = some genesisHeader ∧
      NamedContract genesisHeader ∧ E = loadedEnv X db genesisHeader := by
  obtain ⟨evmLib₀, hload⟩ := h.loaded
  obtain ⟨-, genesisHeader, -, hgen, hname, hE, -⟩ := loadHead_ok_iff.mp hload
  exact ⟨genesisHeader, hgen, hname, hE⟩

theorem Loaded.initial (h : Loaded X db height startBlock E s₀) :
    ∃ evmLib₀, s₀ = initialState startBlock evmLib₀ := by
  obtain ⟨evmLib₀, hload⟩ := h.loaded
  obtain ⟨sb, -, hsb, -, -, -, hs₀⟩ := loadHead_ok_iff.mp hload
  rw [h.start] at hsb
  exact ⟨evmLib₀, Option.some.inj hsb ▸ hs₀⟩

/-- `load_head` starts from a start block in a lawful environment. -/
theorem Loaded.started (h : Loaded X db height startBlock E s₀) :
    Started E startBlock := by
  obtain ⟨genesisHeader, hgen, -, rfl⟩ := h.components
  refine ⟨h.lawful, ?_, ?_⟩
  · show X.blockMapping genesisHeader.timestamp 1 = X.blockMapping
      (X.blockMapping genesisHeader.timestamp 1).genesisTimestamp 1
    rw [h.lawful.mapping_genesis]
  · show startBlock.header.timestamp
      = (X.blockMapping genesisHeader.timestamp 1).genesisTimestamp
        + startBlock.header.number
    obtain ⟨n, hn⟩ := readBlock_of_getCanonicalBlockAtHeight h.start
    rw [h.lawful.mapping_genesis, h.sound.block_number n _ hn]
    exact h.sound.block_timestamp n _ _ hn hgen

/-- A start from stored blocks loads whenever one of them is the genesis block
    of a named contract. -/
theorem loaded_of_storedData {blocks : List (Block Tx)} {start genesis : Block Tx}
    (hX : X.Lawful)
    (hdated : ∀ b ∈ blocks,
      b.header.timestamp = genesis.header.timestamp + b.header.number)
    (hstart : getCanonicalBlockAtHeight (storedData blocks) height = some start)
    (hgenesis : blocks.find? (fun b => b.header.number = 0) = some genesis)
    (hname : NamedContract genesis.header) (evmLib₀ : Nat) :
    Loaded X (storedData blocks) height start
      (loadedEnv X (storedData blocks) genesis.header)
      (initialState start evmLib₀) := by
  have hheader : getGenesisHeader (storedData blocks) = some genesis.header := by
    show (blocks.find? _).map _ = _
    rw [hgenesis]
    rfl
  exact ⟨hX, storedData_sound hdated, hstart, evmLib₀, loadHead_ok_iff.mpr
    ⟨start, genesis.header, hstart, hheader, hname, rfl, rfl⟩⟩

end Loading

/-! ## A first start

    The smallest start there is: the genesis block alone, in the plain instance
    of the libraries. -/

/-- The id of a native block that starts with its number. -/
def nativeId (blockNum tag : Nat) : Bytes32 :=
  BitVec.ofNat 256 (blockNum * 2 ^ 224 + tag)

/-- A genesis block ten seconds into 1970, on the contract account `evm`, whose
    native upper bound is block 1. -/
def plainGenesis : Block Bytes where
  header :=
    { parentHash := 0
      beneficiary := []
      transactionsRoot := 0
      difficulty := 1
      number := 0
      gasLimit := 0x7ffffffffff
      timestamp := 10
      prevRandao := nativeId 1 0
      nonce := (Name.ofChars ['e', 'v', 'm']).value.toBitVec
      baseFeePerGas := none }
  transactions := []
  consensusParameterIndex := none
  gasPrices := none
  irreversible := false

def plainEnv : Env Bytes where
  libs := plainExternals
  bm := plainExternals.blockMapping plainGenesis.header.timestamp 1
  evmContractName := (Name.ofChars ['e', 'v', 'm']).value
  chainConfig := none

theorem plainEnv_loaded (evmLib₀ : Nat) :
    Loaded plainExternals (storedData [plainGenesis]) none plainGenesis plainEnv
      (initialState plainGenesis evmLib₀) :=
  loaded_of_storedData plainExternals_lawful
    (by intro b hb; rw [List.mem_singleton.mp hb]; rfl) rfl rfl
    ⟨by decide, by decide⟩ evmLib₀

/-- The same genesis block with native block 5 as its upper bound. -/
def aheadGenesis : Block Bytes :=
  { plainGenesis with
    header := { plainGenesis.header with prevRandao := nativeId 5 0 } }

theorem aheadGenesis_loaded (evmLib₀ : Nat) :
    Loaded plainExternals (storedData [aheadGenesis]) none aheadGenesis plainEnv
      (initialState aheadGenesis evmLib₀) := by
  show Loaded plainExternals (storedData [aheadGenesis]) none aheadGenesis
    (loadedEnv plainExternals (storedData [aheadGenesis]) aheadGenesis.header)
    (initialState aheadGenesis evmLib₀)
  refine loaded_of_storedData plainExternals_lawful ?_ rfl rfl
    ⟨by decide, by decide⟩ evmLib₀
  intro b hb
  rw [List.mem_singleton.mp hb]
  rfl

def littleEndian (v : UInt64) : Bytes :=
  (List.range 8).map (fun i => UInt8.ofNat (v.toNat / 256 ^ i))

/-- An `evmtx` payload of the `evmtx_v1` alternative, with a short `rlpx`. -/
def plainPayload (version fee : UInt64) (rlpx : Bytes) : Bytes :=
  0 :: littleEndian version ++ UInt8.ofNat rlpx.length :: rlpx ++ littleEndian fee

/-- A native block dated in half-seconds, one transaction with one `evmtx`
    action for each payload. -/
def plainNative (blockNum tag prevTag halfSeconds lib : Nat)
    (payloads : List Bytes) : NativeBlock where
  id := nativeId blockNum tag
  prev := nativeId (blockNum - 1) prevTag
  blockNum := blockNum
  timestamp := halfSeconds * 500000
  lib := lib
  newConfig := none
  transactions := payloads.map fun data =>
    { id := 0
      cpuUsageUs := 0
      elapsed := 0
      actions := [{
        ordinal := 1
        receiver := Name.ofChars ['e', 'v', 'm']
        account := Name.ofChars ['e', 'v', 'm']
        name := evmtxN
        data := data }] }

section Mapping

variable {E : Env Tx} {startBlock : Block Tx} (hE : Started E startBlock)
include hE

/-- The restored native block is dated after genesis. -/
theorem Started.genesis_le : E.bm.genesisTimestamp * 1000000
    ≤ (restoredNativeBlock startBlock).timestamp := by
  show _ ≤ startBlock.header.timestamp * 1000000
  rw [hE.timestamp]
  exact Nat.mul_le_mul_right _ (Nat.le_add_right _ _)

/-- The restored native block is dated one second after genesis for each EVM
    block. -/
theorem Started.restored_second : (restoredNativeBlock startBlock).timestamp / 1000000
    = E.bm.genesisTimestamp + startBlock.header.number := by
  show startBlock.header.timestamp * 1000000 / 1000000 = _
  rw [Nat.mul_div_cancel _ (by decide), hE.timestamp]

/-- Second `s` after genesis lies in EVM block `s - genesis + 1`. -/
theorem evmNum_eq {nb : NativeBlock}
    (h : E.bm.genesisTimestamp ≤ nb.timestamp / 1000000) :
    E.evmNum nb = nb.timestamp / 1000000 - E.bm.genesisTimestamp + 1 := by
  have hnum := hE.lawful.mapping_num _ _ h
  rw [← hE.mapping] at hnum
  exact hnum

/-- The restored native block falls into the EVM block after the start block. -/
theorem evmNum_restored :
    E.evmNum (restoredNativeBlock startBlock) = startBlock.header.number + 1 := by
  have hts := hE.restored_second
  rw [evmNum_eq hE (by omega), hts]
  omega

/-- From the restored native block on, later native blocks lie in the same or a
    later EVM block. -/
theorem evmNum_mono {nb nb' : NativeBlock}
    (h : (restoredNativeBlock startBlock).timestamp ≤ nb.timestamp)
    (hle : nb.timestamp ≤ nb'.timestamp) : E.evmNum nb ≤ E.evmNum nb' := by
  have hts := hE.restored_second
  have hdiv := Nat.div_le_div_right (c := 1000000) h
  have hdiv' := Nat.div_le_div_right (c := 1000000) hle
  rw [evmNum_eq hE (by omega), evmNum_eq hE (by omega)]
  omega

/-- A block dated no earlier than the restored native block maps above the start
    block. -/
theorem lt_evmNum {nb : NativeBlock}
    (h : (restoredNativeBlock startBlock).timestamp ≤ nb.timestamp) :
    startBlock.header.number < E.evmNum nb := by
  have hmono := evmNum_mono hE (Nat.le_refl _) h
  rw [evmNum_restored hE] at hmono
  exact hmono

/-- Timestamps below 2^32 seconds keep the numbers in 32 bits, one short of
    their end. -/
theorem evmNum_le_of_range {nb : NativeBlock}
    (h : (restoredNativeBlock startBlock).timestamp ≤ nb.timestamp)
    (hrange : nb.timestamp < 2 ^ 32 * 1000000) : E.evmNum nb ≤ 2 ^ 32 := by
  have hts := hE.restored_second
  have hdiv := Nat.div_le_div_right (c := 1000000) h
  rw [evmNum_eq hE (by omega)]
  omega

@[simp] theorem generateNewEvmBlock_number (last : Block Tx) :
    (generateNewEvmBlock E last).header.number = last.header.number + 1 :=
  hE.lawful.prepared_number _ _ _ _ _

end Mapping

@[simp] theorem generateNewEvmBlock_parentHash (E : Env Tx) (last : Block Tx) :
    (generateNewEvmBlock E last).header.parentHash = E.libs.hash last.header :=
  rfl

@[simp] theorem generateNewEvmBlock_transactions (E : Env Tx) (last : Block Tx) :
    (generateNewEvmBlock E last).transactions = [] := rfl

@[simp] theorem setTransactionsRoot_number (E : Env Tx) (e : Block Tx) :
    (setTransactionsRoot E e).header.number = e.header.number := rfl

@[simp] theorem setTransactionsRoot_parentHash (E : Env Tx) (e : Block Tx) :
    (setTransactionsRoot E e).header.parentHash = e.header.parentHash := rfl

@[simp] theorem setTransactionsRoot_transactions (E : Env Tx) (e : Block Tx) :
    (setTransactionsRoot E e).transactions = e.transactions := rfl

@[simp] theorem setUpperBound_number (e : Block Tx) (nb : NativeBlock) :
    (setUpperBound e nb).header.number = e.header.number := rfl

@[simp] theorem setUpperBound_parentHash (e : Block Tx) (nb : NativeBlock) :
    (setUpperBound e nb).header.parentHash = e.header.parentHash := rfl

@[simp] theorem setUpperBound_transactions (e : Block Tx) (nb : NativeBlock) :
    (setUpperBound e nb).transactions = e.transactions := rfl

/-! ## The loop -/

/-- The loop stops at a block that has reached the number. -/
theorem extendEvmChain_done {E : Env Tx} {evmNum : Nat} (fuel : Nat)
    {s : State Tx} {last : Block Tx} {older : List (Block Tx)}
    (hevm : s.evmBlocks = last :: older) (h : ¬ last.header.number < evmNum) :
    extendEvmChain E evmNum fuel s = .ok s := by
  cases fuel <;> rw [extendEvmChain, hevm] <;> simp only [if_neg h]

/-- Below the number it makes one iteration and continues. -/
theorem extendEvmChain_more {E : Env Tx} {evmNum : Nat} (fuel : Nat)
    {s : State Tx} {last : Block Tx} {older : List (Block Tx)}
    (hevm : s.evmBlocks = last :: older) (h : last.header.number < evmNum) :
    extendEvmChain E evmNum (fuel + 1) s
      = extendEvmChain E evmNum fuel (extendOnce E s last older) := by
  rw [extendEvmChain, hevm]
  simp only [if_pos h]

/-- **The loop rule**: what every iteration preserves holds after the loop, and
    the loop stops at a block that has reached the number. -/
theorem extendEvmChain_invariant {E : Env Tx} {evmNum : Nat}
    {P : State Tx → Prop}
    (hstep : ∀ s last older, s.evmBlocks = last :: older →
      last.header.number < evmNum → P s → P (extendOnce E s last older)) :
    ∀ (fuel : Nat) (s s' : State Tx), P s →
      extendEvmChain E evmNum fuel s = .ok s' →
      P s' ∧ ∃ last older, s'.evmBlocks = last :: older ∧
        evmNum ≤ last.header.number := by
  intro fuel
  induction fuel with
  -- without fuel the loop only returns when it has nothing to do
  | zero =>
      intro s s' hP h
      rw [extendEvmChain] at h
      cases hevm : s.evmBlocks with
      | nil => rw [hevm] at h; cases h
      | cons last older =>
          rw [hevm] at h
          by_cases hlt : last.header.number < evmNum
          · simp only [if_pos hlt] at h
            cases h
          · simp only [if_neg hlt] at h
            have hs : s = s' := Except.ok.inj h
            exact ⟨hs ▸ hP, last, older, hs ▸ hevm, Nat.le_of_not_lt hlt⟩
  | succ fuel ih =>
      intro s s' hP h
      cases hevm : s.evmBlocks with
      | nil =>
          rw [extendEvmChain, hevm] at h
          cases h
      | cons last older =>
          by_cases hlt : last.header.number < evmNum
          · rw [extendEvmChain_more fuel hevm hlt] at h
            exact ih _ _ (hstep s last older hevm hlt hP) h
          · rw [extendEvmChain_done _ hevm hlt] at h
            have hs : s = s' := Except.ok.inj h
            exact ⟨hs ▸ hP, last, older, hs ▸ hevm, Nat.le_of_not_lt hlt⟩

/-- The loop leaves the native side of the state alone. -/
theorem extendEvmChain_frame {E : Env Tx} {evmNum fuel : Nat} {s s' : State Tx}
    (h : extendEvmChain E evmNum fuel s = .ok s') :
    s'.nativeBlocks = s.nativeBlocks ∧ s'.evmLib = s.evmLib ∧
      s'.consensusParameters = s.consensusParameters :=
  (extendEvmChain_invariant
    (P := fun t => t.nativeBlocks = s.nativeBlocks ∧ t.evmLib = s.evmLib ∧
      t.consensusParameters = s.consensusParameters)
    (fun _ _ _ _ _ hP => hP) fuel s s' ⟨rfl, rfl, rfl⟩ h).1

/-- The EVM blocks that `n` iterations put in the place of the last one, newest
    first. -/
def grow (E : Env Tx) : Nat → Block Tx → List (Block Tx)
  | 0, e => [e]
  | n + 1, e =>
      let e' := setTransactionsRoot E e
      grow E n (generateNewEvmBlock E e') ++ [e']

/-- `grow` always leaves a last block. -/
theorem grow_ne_nil (E : Env Tx) (n : Nat) (e : Block Tx) : grow E n e ≠ [] := by
  cases n with
  | zero => exact List.cons_ne_nil _ _
  | succ n => exact List.append_ne_nil_of_right_ne_nil _ (List.cons_ne_nil _ _)

/-- **The loop terminates**, and its result is a function of the last EVM block:
    its place is taken by `grow`, all blocks of which but the last have been
    published. -/
theorem extendEvmChain_eq {E : Env Tx} {startBlock : Block Tx}
    (hE : Started E startBlock) {evmNum : Nat} :
    ∀ (n fuel : Nat) (s : State Tx) (e : Block Tx) (older : List (Block Tx)),
      s.evmBlocks = e :: older → evmNum - e.header.number = n → n ≤ fuel →
      extendEvmChain E evmNum fuel s = .ok { s with
        evmBlocks := grow E n e ++ older
        published := (grow E n e).tail ++ s.published } := by
  intro n
  induction n with
  -- `n` counts the blocks that are missing below the number
  | zero =>
      intro fuel s e older hevm hn _
      have hge : ¬ e.header.number < evmNum := by omega
      rw [extendEvmChain_done fuel hevm hge, grow, List.singleton_append,
        List.tail_cons, List.nil_append, ← hevm]
  | succ n ih =>
      intro fuel s e older hevm hn hfuel
      cases fuel with
      | zero => omega
      | succ fuel =>
          have hlt : e.header.number < evmNum := by omega
          rw [extendEvmChain_more fuel hevm hlt]
          have hnew := generateNewEvmBlock_number hE (setTransactionsRoot E e)
          rw [setTransactionsRoot_number] at hnew
          rw [ih fuel (extendOnce E s e older)
            (generateNewEvmBlock E (setTransactionsRoot E e))
            (setTransactionsRoot E e :: older) rfl (by omega) (by omega)]
          have hne := grow_ne_nil E n
            (generateNewEvmBlock E (setTransactionsRoot E e))
          rw [grow, List.append_assoc, List.singleton_append]
          show Except.ok _ = Except.ok _
          rw [List.tail_append_of_ne_nil hne, List.append_assoc,
            List.singleton_append]
          rfl

end BlockConversion

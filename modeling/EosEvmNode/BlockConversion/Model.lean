import EosEvmNode.Engine
import EosEvmNode.Lib.Runs
import EosEvmNode.Lib.UpperBound
import Mathlib.Data.List.DropRight

/-! # The block conversion plugin

    `block_conversion_plugin` turns native blocks into EVM blocks.  Its state is
    two double-ended lists, one of native blocks and one of EVM blocks.  Both are
    kept NEWEST FIRST here: `back()` is the head of the list, `push_back` is
    `cons`, `pop_back` drops the head, and `front()` is the last element.

    The handler `nativeBlocksHandler` is assembled from one definition for each
    of its phases, in the order of the source: rolling back a fork, extending
    the EVM chain, applying a configuration change, adding the transactions,
    setting the upper bound and dropping what has become irreversible. -/

namespace BlockConversion

open Channels Silkworm Engine

variable {Tx : Type}

/-- The members of the plugin that `load_head` sets once and for all. -/
structure Env (Tx : Type) where
  libs : Externals Tx
  bm : BlockMapping
  evmContractName : UInt64
  /-- `engine_plugin::get_chain_config`, down to its `_version`. -/
  chainConfig : Option (Option UInt64)

/-- The members the handler changes, with what it has handed to other
    components: the blocks published on the `evm_blocks` channel and the
    consensus parameters written to the database, both newest first. -/
structure State (Tx : Type) where
  nativeBlocks : List NativeBlock
  evmBlocks : List (Block Tx)
  evmLib : Nat
  published : List (Block Tx)
  consensusParameters : List (Bytes32 × ConsensusParameters)
  deriving DecidableEq, Repr

def Env.timestampToEvmBlockNum (E : Env Tx) (timestampUs : Nat) : Nat :=
  E.bm.timestampToEvmBlockNum timestampUs

/-- The EVM block a native block belongs to. -/
def Env.evmNum (E : Env Tx) (nb : NativeBlock) : Nat :=
  E.timestampToEvmBlockNum nb.timestamp

/-! ## Loading the start block -/

/-- The native block `load_head` fabricates from the start block. -/
def restoredNativeBlock (startBlock : Block Tx) : NativeBlock where
  id := startBlock.header.prevRandao
  prev := 0
  blockNum := toBlockNum startBlock.header.prevRandao
  timestamp := startBlock.header.timestamp * 1000000
  lib := 0
  newConfig := none
  transactions := []

/-- `evmLib₀` is what the uninitialized member `evm_lib_` happens to hold. -/
def initialState (startBlock : Block Tx) (evmLib₀ : Nat) : State Tx where
  nativeBlocks := [restoredNativeBlock startBlock]
  evmBlocks := [startBlock]
  evmLib := evmLib₀
  published := []
  consensusParameters := []

def loadHead (X : Externals Tx) (db : ChainData Tx) (height : Option Nat)
    (evmLib₀ : Nat) : Except Failure (Env Tx × State Tx) :=
  match getCanonicalBlockAtHeight db height with
  | none => .error (.sysError "Unable to read head block")
  | some startBlock =>
      match getGenesisHeader db with
      | none => .error (.sysError "Unable to read genesis header")
      | some genesisHeader =>
          let evmContractName := UInt64.ofBitVec genesisHeader.nonce
          if evmContractName = 0 ∨ evmContractName = 1000 then
            .error (.sysError "Invalid genesis nonce")
          else
            .ok ({ libs := X
                   bm := X.blockMapping genesisHeader.timestamp 1
                   evmContractName := evmContractName
                   chainConfig := db.chainConfig },
              initialState startBlock evmLib₀)

/-! ## Small helpers of the handler -/

def computeTransactionRoot (E : Env Tx) (txs : List Tx) : Bytes32 :=
  E.libs.rootHash (txs.map E.libs.encode)

def generateNewEvmBlock (E : Env Tx) (lastEvmBlock : Block Tx) : Block Tx :=
  let eosEvmVersion : UInt64 :=
    if lastEvmBlock.header.number = 0 then
      match E.chainConfig with
      | some (some version) => version
      | _ => 0
    else E.libs.nonceToVersion lastEvmBlock.header.nonce
  let baseFeePerGas := lastEvmBlock.header.baseFeePerGas.map UInt64.ofNat
  let header := E.libs.prepareBlockHeader E.bm E.evmContractName
    (lastEvmBlock.header.number + 1) eosEvmVersion baseFeePerGas
  { header := { header with
      parentHash := E.libs.hash lastEvmBlock.header
      transactionsRoot := E.libs.kEmptyRoot }
    transactions := []
    consensusParameterIndex := lastEvmBlock.consensusParameterIndex
    gasPrices := lastEvmBlock.gasPrices
    irreversible := false }

def setUpperBound (evmBlock : Block Tx) (nativeBlock : NativeBlock) : Block Tx :=
  { evmBlock with
    header := { evmBlock.header with prevRandao := nativeBlock.id }
    irreversible := decide (nativeBlock.blockNum ≤ nativeBlock.lib) }

def deserializeTx (E : Env Tx) (na : NativeAction) : Except Failure EvmTx :=
  if na.name = pushtxN then
    match E.libs.pushtxFromBin na.data with
    | some tx => .ok (.v1 0 tx.rlpx 0)
    | none => .error .badPayload
  else
    match E.libs.evmtxFromBin na.data with
    | some evmtx => .ok evmtx
    | none => .error .badPayload

def deserializeConfig (E : Env Tx) (na : NativeAction) :
    Except Failure ConsensusParameterData :=
  match E.libs.consensusFromBin na.data with
  | some config => .ok config
  | none => .error .badPayload

/-! ## Rolling back a fork -/

/-- Pop one transaction for each action of a forked native block, last action
    first, checking that it is the action's transaction. -/
def removeTransactions (E : Env Tx) :
    List NativeAction → List Tx → Except Failure (List Tx)
  | [], txs => .ok txs
  | act :: acts, txs => do
      let dtx ← deserializeTx E act
      match txs.getLast? with
      | none => .error .undefined
      | some back =>
          if E.libs.keccak256 dtx.rlpx ≠ E.libs.keccak256 (E.libs.encode back) then
            .error (.runtimeError "Unable to remove transaction")
          else removeTransactions E acts txs.dropLast

/-- Pop the native blocks after the fork point.  The transactions of those that
    belong to the EVM block of the fork point are taken out of that block.
    Without EVM blocks the message of the error reads `back()` all the same. -/
def removeForkedNativeBlocks (E : Env Tx) (forkBlock : NativeBlock) :
    List NativeBlock → List (Block Tx) →
      Except Failure (List NativeBlock × List (Block Tx))
  | [], evmBlocks => .ok ([], evmBlocks)
  | nb :: older, evmBlocks =>
      if nb.id ≠ forkBlock.id then do
        if nb.transactions.length > 0 ∧ E.evmNum nb = E.evmNum forkBlock then
          match evmBlocks with
          | [] => .error .undefined
          | e :: es =>
              if E.evmNum nb ≠ e.header.number then
                .error (.runtimeError "Unable to remove transactions")
              else do
                let txs ← removeTransactions E nb.reverseActions e.transactions
                removeForkedNativeBlocks E forkBlock older
                  ({ e with transactions := txs } :: es)
        else removeForkedNativeBlocks E forkBlock older evmBlocks
      else .ok (nb :: older, evmBlocks)

/-- Pop the EVM blocks after the fork point. -/
def removeForkedEvmBlocks (E : Env Tx) (forkBlock : NativeBlock)
    (evmBlocks : List (Block Tx)) : List (Block Tx) :=
  evmBlocks.dropWhile (fun e => E.evmNum forkBlock < e.header.number)

def rollback (E : Env Tx) (s : State Tx) (forkBlock : NativeBlock) :
    Except Failure (State Tx) := do
  let (natives, evms) ← removeForkedNativeBlocks E forkBlock s.nativeBlocks
    (removeForkedEvmBlocks E forkBlock s.evmBlocks)
  -- here too the message reads the back of either list, empty or not
  match evms, natives with
  | [], _ => .error .undefined
  | _ :: _, [] => .error .undefined
  | e :: es, back :: older =>
      if E.evmNum back ≠ e.header.number then
        .error (.runtimeError "Unable to set upper bound")
      else
        .ok { s with
          nativeBlocks := back :: older
          evmBlocks := setUpperBound e back :: es }

/-- Is the block in the cache already? -/
def isCached (s : State Tx) (id : Bytes32) : Bool :=
  s.nativeBlocks.any (fun nb => nb.id = id)

/-- `std::find_if` for the parent, from the oldest native block on. -/
def findForkBlock (s : State Tx) (b : NativeBlock) : Option NativeBlock :=
  s.nativeBlocks.reverse.find? (fun nb => nb.id = b.prev)

/-- Make the last native block the parent of the received one; `none` when the
    received block is a duplicate. -/
def linkNativeBlock (E : Env Tx) (s : State Tx) (b : NativeBlock) :
    Except Failure (Option (State Tx)) :=
  match s.nativeBlocks with
  | [] => .ok (some s)
  | back :: _ =>
      if back.id = b.prev then .ok (some s)
      else if isCached s b.id then .ok none
      else
        match findForkBlock s b with
        | none => .error (.runtimeError "Unable to find fork block")
        | some forkBlock => do
            let s' ← rollback E s forkBlock
            .ok (some s')

/-! ## Extending the EVM chain -/

def setTransactionsRoot (E : Env Tx) (e : Block Tx) : Block Tx :=
  { e with header := { e.header with
    transactionsRoot := computeTransactionRoot E e.transactions } }

/-- Publish the last EVM block and start the next one. -/
def extendOnce (E : Env Tx) (s : State Tx) (last : Block Tx)
    (older : List (Block Tx)) : State Tx :=
  let last' := setTransactionsRoot E last
  { s with
    evmBlocks := generateNewEvmBlock E last' :: last' :: older
    published := last' :: s.published }

/-- Extend the EVM chain until the block number `evmNum` is reached.  `fuel`
    bounds the number of iterations. -/
def extendEvmChain (E : Env Tx) (evmNum : Nat) :
    Nat → State Tx → Except Failure (State Tx)
  | fuel, s =>
      match s.evmBlocks with
      | [] => .error .undefined
      | last :: older =>
          if last.header.number < evmNum then
            match fuel with
            | 0 => .error .diverged
            | fuel + 1 => extendEvmChain E evmNum fuel (extendOnce E s last older)
          else .ok s

/-! ## Adding the received block -/

/-- Apply the configuration change of the block, if it has one, to the EVM
    block; also returns what is written to the database. -/
def applyNewConfig (E : Env Tx) (curr : Block Tx) (b : NativeBlock) :
    Except Failure (Block Tx × List (Bytes32 × ConsensusParameters)) :=
  match b.newConfig with
  | none => .ok (curr, [])
  | some na =>
      if !curr.transactions.isEmpty then
        .error (.runtimeError "new config comes in the middle of an evm block")
      else do
        let newConfig ← deserializeConfig E na
        let consensusParam : ConsensusParameters :=
          { gasFeeParameters := {
              gasTxnewaccount := newConfig.gasTxnewaccount
              gasNewaccount := newConfig.gasNewaccount
              gasTxcreate := newConfig.gasTxcreate
              gasCodedeposit := newConfig.gasCodedeposit
              gasSset := newConfig.gasSset } }
        let index := E.libs.consensusHash consensusParam
        .ok ({ curr with consensusParameterIndex := some index },
          [(index, consensusParam)])

/-- An action must carry the version of its EVM block; the first one may raise
    it. -/
def applyVersion (E : Env Tx) (curr : Block Tx) (blockVersion : UInt64)
    (dtx : EvmTx) : Except Failure (Block Tx × UInt64) :=
  let txVersion := dtx.eosEvmVersion
  if txVersion < blockVersion then
    .error (.runtimeError "tx_version < block_version")
  else if blockVersion < txVersion then
    if curr.transactions.isEmpty then
      .ok ({ curr with header := { curr.header with
        nonce := E.libs.versionToNonce txVersion } }, txVersion)
    else .error (.runtimeError "tx_version > block_version")
  else .ok (curr, blockVersion)

/-- From version 3 on: gas prices, and the base fee computed from them. -/
def applyGasPrices (E : Env Tx) (curr : Block Tx) (blockVersion : UInt64)
    (dtx : EvmTx) : Except Failure (Block Tx) :=
  if 3 ≤ blockVersion then
    match dtx with
    | .v1 .. => .error .assertion
    | .v3 _ _ overheadPrice storagePrice =>
        let txGasPrices : GasPrices := ⟨overheadPrice, storagePrice⟩
        let fee := E.libs.calculateBaseFeePerGas overheadPrice storagePrice
        let withBaseFee (e : Block Tx) : Block Tx := { e with
          header := { e.header with baseFeePerGas := some fee.toNat } }
        match curr.gasPrices with
        | none => .ok (withBaseFee { curr with gasPrices := some txGasPrices })
        | some currBlockPrices =>
            if currBlockPrices ≠ txGasPrices then
              if curr.transactions.isEmpty then
                .ok (withBaseFee { curr with gasPrices := some txGasPrices })
              else .error (.runtimeError "curr_block_prices != tx_gas_prices")
            else .ok (withBaseFee curr)
  else .ok curr

/-- In versions 1 and 2: the base fee of the action. -/
def applyBaseFee (curr : Block Tx) (blockVersion : UInt64) (dtx : EvmTx) :
    Except Failure (Block Tx) :=
  if 1 ≤ blockVersion ∧ blockVersion < 3 then
    match dtx with
    | .v3 .. => .error .badVariantAccess
    | .v1 _ _ txBaseFee =>
        let withBaseFee : Block Tx := { curr with
          header := { curr.header with baseFeePerGas := some txBaseFee.toNat } }
        match curr.header.baseFeePerGas with
        | none => .ok withBaseFee
        | some baseFee =>
            if baseFee ≠ txBaseFee.toNat then
              if curr.transactions.isEmpty then .ok withBaseFee
              else .error (.runtimeError "curr.base_fee_per_gas != tx_base_fee")
            else .ok curr
  else .ok curr

/-- The body of the `for_each_action` loop, over the current EVM block and its
    version. -/
def addTransaction (E : Env Tx) :
    Block Tx × UInt64 → NativeAction → Except Failure (Block Tx × UInt64)
  | (curr, blockVersion), act => do
      let dtx ← deserializeTx E act
      let (curr, blockVersion) ← applyVersion E curr blockVersion dtx
      let curr ← applyGasPrices E curr blockVersion dtx
      match E.libs.decodeTransaction dtx.rlpx with
      | none => .error (.runtimeError "Failed to decode transaction")
      | some evmTx => do
          let curr ← applyBaseFee curr blockVersion dtx
          .ok ({ curr with transactions := curr.transactions ++ [evmTx] },
            blockVersion)

/-- Configuration, transactions and upper bound of the received block, on the
    EVM block it belongs to. -/
def addNativeBlock (E : Env Tx) (curr : Block Tx) (b : NativeBlock) :
    Except Failure (Block Tx × List (Bytes32 × ConsensusParameters)) := do
  let blockVersion := E.libs.nonceToVersion curr.header.nonce
  let (curr, written) ← applyNewConfig E curr b
  let (curr, _) ← b.actions.foldlM (addTransaction E) (curr, blockVersion)
  .ok (setUpperBound curr b, written)

/-! ## Dropping irreversible blocks -/

/-- The last native block at or below the LIB: the element before
    `std::upper_bound`. -/
def libEntry (nativeBlocks : List NativeBlock) (lib : Nat) :
    Option NativeBlock :=
  UpperBound.lastBelow (fun nb => decide (lib < nb.blockNum))
    nativeBlocks.reverse

/-- `evm_lib` is a `uint32_t`: the subtraction wraps below zero. -/
def evmLibOf (E : Env Tx) (it : NativeBlock) : Nat :=
  (E.evmNum it + (2 ^ 32 - 1)) % 2 ^ 32

/-- Record the last irreversible EVM block and pop what lies below it.  The
    loops test `front()` without asking whether the lists have become empty. -/
def removeIrreversible (E : Env Tx) (s : State Tx) (lib : Nat) :
    Except Failure (State Tx) :=
  match libEntry s.nativeBlocks lib with
  | none => .ok s
  | some it =>
      let evmLib := evmLibOf E it
      match s.nativeBlocks.rdropWhile (fun nb => E.evmNum nb < evmLib),
        s.evmBlocks.rdropWhile (fun e => e.header.number < evmLib) with
      | nb :: nbs, e :: es =>
          .ok { s with
            nativeBlocks := nb :: nbs
            evmBlocks := e :: es
            evmLib := evmLib }
      | _, _ => .error .undefined

/-! ## The handler -/

/-- The part of the handler after the link check. -/
def appendNativeBlock (E : Env Tx) (s : State Tx) (b : NativeBlock) :
    Except Failure (State Tx) := do
  let s := { s with nativeBlocks := b :: s.nativeBlocks }
  let s ← extendEvmChain E (E.evmNum b) (E.evmNum b) s
  match s.evmBlocks with
  | [] => .error .undefined
  | curr :: older => do
      let (curr, written) ← addNativeBlock E curr b
      removeIrreversible E { s with
        evmBlocks := curr :: older
        consensusParameters := written ++ s.consensusParameters } b.lib

/-- The subscriber of the `native_blocks` channel. -/
def nativeBlocksHandler (E : Env Tx) (s : State Tx) (b : NativeBlock) :
    Except Failure (State Tx) :=
  if b.timestamp ≤ E.bm.genesisTimestamp then
    .ok { s with nativeBlocks := [b] }
  else do
    match ← linkNativeBlock E s b with
    | none => .ok s
    | some s => appendNativeBlock E s b

end BlockConversion

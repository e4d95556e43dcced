import EosEvmNode.Channels
import EosEvmNode.Lib.OrderedMap
import Mathlib.Data.Nat.Basic

/-! # The state history receiver

    `ship_receiver_plugin` reads blocks from a state history (SHiP) endpoint and
    turns each into a native block: it picks the action traces that concern the
    EVM contract out of the block's transaction traces and puts them in order.

    Messages are modelled after they have been read from the wire.  Of the fields
    of a trace only those the plugin looks at are kept; the alternatives of its
    variants (`action_trace_v0` and `_v1`) have them in common. -/

namespace ShipReceiver

open Channels

/-! ## Messages -/

/-- `eosio::ship_protocol::action`. -/
structure Action where
  account : Name
  name : Name
  data : Bytes
  deriving DecidableEq, Repr

/-- `action_receipt_v0`. -/
structure ActionReceipt where
  globalSequence : Nat
  deriving DecidableEq, Repr

/-- `action_trace`: one notification of an action. -/
structure ActionTrace where
  actionOrdinal : Nat
  creatorActionOrdinal : Nat
  receipt : Option ActionReceipt
  receiver : Name
  act : Action
  deriving DecidableEq, Repr

inductive TransactionStatus where
  | executed | softFail | hardFail | delayed | expired
  deriving DecidableEq, Repr

/-- `transaction_trace_v0`. -/
structure TransactionTrace where
  id : Bytes32
  status : TransactionStatus
  cpuUsageUs : Nat
  elapsed : Int
  actionTraces : List ActionTrace
  deriving DecidableEq, Repr

structure BlockPosition where
  blockNum : Nat
  blockId : Bytes32
  deriving DecidableEq, Repr

/-- `signed_block`, down to its timestamp. -/
structure SignedBlock where
  timestamp : UInt32
  deriving DecidableEq, Repr

/-- `get_blocks_result_v0`. -/
structure GetBlocksResult where
  lastIrreversible : BlockPosition
  thisBlock : Option BlockPosition
  prevBlock : Option BlockPosition
  block : Option SignedBlock
  traces : Option (List TransactionTrace)
  deriving DecidableEq, Repr

/-! ## Picking the actions of a transaction -/

/-- `evmtx` if the contract's account has received one, else `pushtx`. -/
def actionToSearch (coreAccount : Name) (actions : List ActionTrace) : Name :=
  if actions.any (fun a => a.receiver = coreAccount ∧ a.act.name = evmtxN) then
    evmtxN
  else pushtxN

/-- Is the trace one to pick? -/
def isSelected (coreAccount search : Name) (act : ActionTrace) : Bool :=
  (act.act.name = search ∨ act.act.name = configchangeN) ∧
    coreAccount = act.receiver

/-- The place of the trace at index `j` in the order of the picked ones: the
    global sequence of its parent for `evmtx`, its own for `pushtx`, and the
    first place for `configchange`. -/
def sequenceOf (actions : List ActionTrace) (j : Nat) (act : ActionTrace) :
    Except Failure Nat :=
  match act.receipt with
  | none => .error (.runtimeError "action_trace does not have receipt")
  | some receipt =>
      if act.act.name = evmtxN then
        if act.creatorActionOrdinal = 0 then
          .error (.runtimeError "creator_action_ordinal can't be zero in evmtx")
        else
          let parentActIndex := act.creatorActionOrdinal - 1
          if j ≤ parentActIndex then
            .error (.runtimeError
              "parent action index must be less than current action index")
          else
            match (actions[parentActIndex]?).map (fun parent => parent.receipt) with
            | none => .error .undefined
            | some none =>
                .error (.runtimeError "parent action does not have receipt")
            | some (some parentReceipt) => .ok parentReceipt.globalSequence
      else if act.act.name = configchangeN then .ok 0
      else .ok receipt.globalSequence

/-- The body of the loop that fills `ordered_action_traces`. -/
def orderAction (coreAccount search : Name) (actions : List ActionTrace)
    (ordered : List (Nat × ActionTrace)) (entry : ActionTrace × Nat) :
    Except Failure (List (Nat × ActionTrace)) :=
  if isSelected coreAccount search entry.1 then do
    let globalSequence ← sequenceOf actions entry.2 entry.1
    .ok (OrderedMap.assign globalSequence entry.1 ordered)
  else .ok ordered

def orderActions (coreAccount : Name) (actions : List ActionTrace) :
    Except Failure (List (Nat × ActionTrace)) :=
  actions.zipIdx.foldlM
    (orderAction coreAccount (actionToSearch coreAccount actions) actions) []

def ActionTrace.toNativeAction (act : ActionTrace) : NativeAction where
  ordinal := act.actionOrdinal
  receiver := act.receiver
  account := act.act.account
  name := act.act.name
  data := act.act.data

/-! ## Adding a transaction to the native block -/

/-- The body of the loop over `ordered_action_traces`, over the block and the
    transaction under construction. -/
def addAction : NativeBlock × NativeTrx → NativeAction →
    Except Failure (NativeBlock × NativeTrx)
  | (block, nativeTrx), action =>
      if action.name = configchangeN then
        if block.newConfig.isSome then
          .error (.runtimeError "multiple configchange in one block")
        else if nativeTrx.actions.length > 0 ∨ block.transactions.length > 0 then
          .error (.runtimeError "configchange can only be the first action")
        else .ok ({ block with newConfig := some action }, nativeTrx)
      else if block.newConfig.isSome ∧ action.name = pushtxN then
        .error (.runtimeError
          "pushtx and configchange found on the same transaction")
      else
        match nativeTrx.actions.getLast? with
        | none => .ok (block, { nativeTrx with actions := [action] })
        | some back =>
            if back.name ≠ action.name then
              .error (.runtimeError
                "pushtx and evmtx found on the same transaction")
            else
              .ok (block,
                { nativeTrx with actions := nativeTrx.actions ++ [action] })

/-- The check against the transaction before, and the `emplace_back`. -/
def addTrx (block : NativeBlock) (nativeTrx : NativeTrx) :
    Except Failure NativeBlock :=
  match block.transactions.getLast? with
  | none => .ok { block with transactions := block.transactions ++ [nativeTrx] }
  | some backTrx =>
      match backTrx.actions.getLast?, nativeTrx.actions.getLast? with
      | some backAction, some lastAction =>
          if backAction.name ≠ lastAction.name then
            .error (.runtimeError "pushtx and evmtx found on the same block")
          else
            .ok { block with transactions := block.transactions ++ [nativeTrx] }
      | _, _ => .error .undefined

def appendToBlock (coreAccount : Name) (block : NativeBlock)
    (trace : TransactionTrace) : Except Failure NativeBlock := do
  let ordered ← orderActions coreAccount trace.actionTraces
  let nativeTrx : NativeTrx :=
    { id := trace.id
      cpuUsageUs := trace.cpuUsageUs
      elapsed := trace.elapsed
      actions := [] }
  if ordered.length > 0 then do
    let (block, nativeTrx) ← (ordered.map (fun entry => entry.2.toNativeAction)).foldlM
      addAction (block, nativeTrx)
    addTrx block nativeTrx
  else .ok block

/-! ## The native block -/

/-- The body of the loop over the transaction traces: only executed transactions
    count. -/
def appendTrace (coreAccount : Name) (block : NativeBlock)
    (trace : TransactionTrace) : Except Failure NativeBlock :=
  if trace.status ≠ .executed then .ok block
  else appendToBlock coreAccount block trace

/-- `start_native_block`; both optionals are read without a test. -/
def startNativeBlock (thisBlock : BlockPosition) (res : GetBlocksResult) :
    Except Failure NativeBlock :=
  match res.block, res.prevBlock with
  | some sb, some prevBlock =>
      .ok
        { id := thisBlock.blockId
          prev := prevBlock.blockId
          blockNum := thisBlock.blockNum
          timestamp := timePointOfSlot sb.timestamp
          lib := 0
          newConfig := none
          transactions := [] }
  | _, _ => .error .undefined

def toNative (coreAccount : Name) (res : GetBlocksResult) :
    Except Failure (Option NativeBlock) :=
  match res.thisBlock with
  | none => .ok none
  | some thisBlock => do
      let block ← startNativeBlock thisBlock res
      let block ← (res.traces.getD []).foldlM (appendTrace coreAccount) block
      .ok (some { block with lib := res.lastIrreversible.blockNum })

end ShipReceiver

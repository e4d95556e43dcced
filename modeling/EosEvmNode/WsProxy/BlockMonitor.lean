import EosEvmNode.WsProxy.Json

/-! # The block monitor

    `block-monitor.js` keeps the last blocks of the EVM chain in a window and
    reports every change of it.  `poll` is an async function: it runs up to an
    `await`, is suspended there, and goes on when the awaited request is
    answered.  A suspended poll is the `Poll` it is suspended at, with the local
    variables it will read.

    The window is kept NEWEST FIRST: `peekBack()` is the head of the list, `add`
    is `cons`, `pop` drops the head and `shift` the last element. -/

namespace WsProxy

/-- A log of a block; the rest of it is handed through. -/
structure Log where
  blockHash : String
  address : String
  topics : List String
  body : String
  deriving DecidableEq, Repr

/-- A transaction of a block; the creation of a contract has no `to`. -/
structure Transaction where
  hash : String
  fromAddress : Option String
  toAddress : Option String
  deriving DecidableEq, Repr

/-- A block with its logs, as `getBlockWithLogs` returns it.  The number is a
    hexadecimal string in the source. -/
structure Block where
  number : Nat
  hash : String
  parentHash : String
  transactions : List Transaction
  logs : List Log
  deriving DecidableEq, Repr

/-- What the monitor emits. -/
inductive BlockEvent where
  | removed (block : Block)
  | forked (block : Block)
  | appended (block : Block)
  deriving DecidableEq, Repr

/-! ## Requests and answers -/

/-- The two results of the batch request for a block and its logs.  A block
    without a hash counts as missing, and so do logs that are no array; a missing
    `blockHash` is the empty string. -/
structure BatchResponse where
  block : Option Block
  logs : Option (List Log)
  deriving DecidableEq, Repr

/-- The checks of `getBlockWithLogs` on an answered request. -/
def getBlockWithLogs (r : BatchResponse) : Except JsError Block :=
  match r.block, r.logs with
  | none, _ => .error (.error ("missing hash in response for getBlock request of " ++
      "the [getBlock, GetPastLogs] batch request"))
  | some _, none => .error (.error ("invalid logs in response for GetPastLogs " ++
      "request of the [getBlock, GetPastLogs] batch request"))
  | some block, some logs =>
      if logs.any (fun log => log.blockHash = "") then
        .error (.error ("missing blockHash in response for GetPastLogs request of " ++
          "the [getBlock, GetPastLogs] batch request"))
      else if logs.any (fun log => log.blockHash ≠ block.hash) then
        .error (.error ("mismatched hashes in response of [getBlock, GetPastLogs] " ++
          "batch request"))
      else .ok { block with logs := logs }

/-- How an awaited request ends. -/
inductive Answer where
  | fails
  /-- `getBlock("latest")`: the number of the head block, or null. -/
  | head (number : Option Nat)
  | batch (r : BatchResponse)
  | info
  /-- The block of the last irreversible block, as its EVM block number. -/
  | lib (evmLib : Nat)
  deriving DecidableEq, Repr

/-- Where a poll is suspended. -/
inductive Poll where
  /-- `get_next_block()` for an empty window: the head, then the block below
      it. -/
  | firstHead
  | firstBlock (number : Int)
  /-- `get_next_block(last)`: the head, then the next block. -/
  | nextHead (last : Option Block) (found : Bool)
  | nextBlock (last : Option Block) (number : Int)
  /-- `get_evm_lib()`. -/
  | info
  | libBlock
  deriving DecidableEq, Repr

/-! ## The body of `poll` -/

/-- How a poll goes on. -/
inductive Progress where
  | await (p : Poll)
  /-- The end of the `try` block, reached or left by an exception. -/
  | done
  deriving DecidableEq, Repr

/-- The window, the events emitted so far, and how the poll goes on. -/
structure Outcome where
  window : List Block
  events : List BlockEvent
  progress : Progress
  deriving DecidableEq, Repr

/-- `poll` up to its first `await`. -/
def startPoll (window : List Block) : Poll :=
  match window with
  | [] => .firstHead
  | last :: _ => .nextHead (some last) false

/-- After the loop: the last irreversible block is asked for from time to
    time. -/
def afterLoop (window : List Block) (found : Bool) : Progress :=
  if found = true ∧ window.length > 180 + 6 then .await .info else .done

/-- Take away irreversible blocks, keeping 180; the events in order. -/
def removeFrontBlocks (evmLib : Nat) : Nat → List Block →
    List Block × List BlockEvent
  | 0, window => (window, [])
  | fuel + 1, window =>
      match window.getLast? with
      | none => (window, [])
      | some block =>
          if window.length > 180 ∧ block.number < evmLib then
            let (window, events) := removeFrontBlocks evmLib fuel window.dropLast
            (window, .removed block :: events)
          else (window, [])

/-- What a suspended poll does when its request is answered, up to the next
    `await`.  Without a head block the first request throws; an answer of the
    wrong kind is like a failure. -/
def resume (window : List Block) : Poll → Answer → Outcome
  | .firstHead, .head none => ⟨window, [], .done⟩
  | .firstHead, .head (some number) =>
      ⟨window, [], .await (.firstBlock (number - 1))⟩
  | .firstBlock _, .batch r =>
      match getBlockWithLogs r with
      | .error _ => ⟨window, [], .done⟩
      | .ok block =>
          ⟨block :: window, [.appended block], .await (.nextHead (some block) false)⟩
  | .nextHead _ found, .head none => ⟨window, [], afterLoop window found⟩
  | .nextHead none _, .head (some number) =>
      ⟨window, [], .await (.nextBlock none (number - 1))⟩
  | .nextHead (some last) found, .head (some number) =>
      if (number : Int) - 1 ≤ last.number + 1 then
        ⟨window, [], afterLoop window found⟩
      else ⟨window, [], .await (.nextBlock (some last) (last.number + 1))⟩
  | .nextBlock last _, .batch r =>
      match getBlockWithLogs r with
      | .error _ => ⟨window, [], .done⟩
      | .ok next =>
          match last with
          | none => ⟨window, [], afterLoop window true⟩
          | some last =>
              if next.parentHash = last.hash then
                ⟨next :: window, [.appended next], .await (.nextHead (some next) true)⟩
              else
                match window with
                -- popping nothing: `block.number` of undefined
                | [] => ⟨[], [], .done⟩
                | block :: window =>
                    ⟨window, [.forked block], .await (.nextHead window.head? true)⟩
  | .info, .info => ⟨window, [], .await .libBlock⟩
  | .libBlock, .lib evmLib =>
      let (window, events) := removeFrontBlocks evmLib window.length window
      ⟨window, events, .done⟩
  | _, _ => ⟨window, [], .done⟩

/-! ## The monitor -/

/-- `timer` says whether a call of `poll` is scheduled: every `setTimeout`
    follows a `clearTimeout` of the one before.  `polls` are the suspended ones,
    in the order in which they were started. -/
structure BlockMonitor where
  reversibleBlocks : List Block
  run : Bool
  timer : Bool
  polls : List Poll
  deriving DecidableEq, Repr

def BlockMonitor.init : BlockMonitor where
  reversibleBlocks := []
  run := false
  timer := false
  polls := []

def BlockMonitor.start (m : BlockMonitor) : BlockMonitor :=
  if m.run then m else { m with run := true, timer := true }

def BlockMonitor.stop (m : BlockMonitor) : BlockMonitor :=
  { m with run := false }

/-- The end of `poll`: schedule the next one, or clear the window. -/
def BlockMonitor.finish (m : BlockMonitor) : BlockMonitor :=
  if m.run then { m with timer := true }
  else { m with reversibleBlocks := [], timer := false }

/-- The timer fires. -/
def BlockMonitor.fire (m : BlockMonitor) : BlockMonitor :=
  if m.timer then
    { m with timer := false, polls := m.polls ++ [startPoll m.reversibleBlocks] }
  else m

/-- The request of the `i`-th suspended poll ends. -/
def BlockMonitor.complete (m : BlockMonitor) (i : Nat) (a : Answer) :
    BlockMonitor × List BlockEvent :=
  match m.polls[i]? with
  | none => (m, [])
  | some p =>
      let o := resume m.reversibleBlocks p a
      match o.progress with
      | .await p' =>
          ({ m with
              reversibleBlocks := o.window
              polls := m.polls.set i p' }, o.events)
      | .done =>
          ({ m with
              reversibleBlocks := o.window
              polls := m.polls.eraseIdx i }.finish, o.events)

/-- What happens to a monitor; `start` and `stop` are called when subscriptions
    come and go, at any time between two completions. -/
inductive MonitorEvent where
  | start
  | stop
  | timer
  | answer (i : Nat) (a : Answer)
  deriving DecidableEq, Repr

def BlockMonitor.handle (m : BlockMonitor) :
    MonitorEvent → BlockMonitor × List BlockEvent
  | .start => (m.start, [])
  | .stop => (m.stop, [])
  | .timer => (m.fire, [])
  | .answer i a => m.complete i a

/-! ## Plain blocks -/

def plainLog (blockHash : String) : Log where
  blockHash := blockHash
  address := "0xaa"
  topics := ["0x01"]
  body := ""

/-- Block `number` on top of `parent`, with one log. -/
def plainBlock (number : Nat) (hash parent : String) : Block where
  number := number
  hash := hash
  parentHash := parent
  transactions := [⟨"0x" ++ hash, some "0xcc", some "0xdd"⟩]
  logs := [plainLog hash]

end WsProxy

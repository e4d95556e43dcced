import EosEvmNode.Lib.InsertionMap
import EosEvmNode.WsProxy.BlockMonitor

/-! # The subscription server

    `subscription-server.js` keeps three registries of subscriptions, in the
    order in which they were made, and a record of the log frames sent for each
    block number.  It serves the events of the block monitor to every
    subscription, and starts and stops the monitor.

    The handlers of an event run to their end before the next event: a handler
    only waits for promises that are fulfilled already, and those run before any
    request can be answered. -/

namespace WsProxy

/-- A websocket connection, by identity. -/
abbrev Ws := Nat

/-- The text of a fresh uuid. -/
abbrev SubId := String

/-- A `newHeads` client has no filter. -/
structure Client where
  ws : Ws
  filter : Json

/-- What an `eth_subscription` frame carries. -/
inductive Result where
  | head
  | log (log : Log) (removed : Bool)
  | tx (transaction : Transaction) (hashOnly removed : Bool)
  deriving DecidableEq, Repr

/-- An `eth_subscription` frame: the connection it is sent to, and the block it
    is, or is about. -/
structure Frame where
  ws : Ws
  subid : SubId
  block : Block
  result : Result
  deriving DecidableEq, Repr

/-- Is this the retraction of a log or a transaction? -/
def Frame.isRetraction (f : Frame) : Bool :=
  match f.result with
  | .head => false
  | .log _ removed => removed
  | .tx _ _ removed => removed

/-- The same frame with `removed` set. -/
def Frame.retract (f : Frame) : Frame :=
  match f.result with
  | .head => f
  | .log log _ => { f with result := .log log true }
  | .tx transaction hashOnly _ => { f with result := .tx transaction hashOnly true }

abbrev Registry := List (SubId × Client)

/-- The three registries. -/
structure Registries where
  newHeadSubs : Registry
  logsSubs : Registry
  minedTransactionsSubs : Registry

/-- `logs_sent`: the log frames sent, by block number. -/
abbrev LogsSent := List (Nat × List Frame)

/-! ## Filters -/

/-- Without a topic restriction every log matches.  An own property `addresses`
    leads to a read of an unknown identifier. -/
def logsFilterMatch (filter : Json) (log : Log) : Except JsError Bool := do
  if ← filter.hasOwnProperty "addresses" then
    .error .referenceError
  else if ← filter.hasOwnProperty "topics" then
    match filter.own "topics" with
    | some (.arr topics) =>
        .ok (topics.any fun element =>
          match element with
          | .str topic => log.topics.contains topic
          | _ => false)
    | _ => .error .typeError
  else .ok true

/-- Is the own string property equal to this value? -/
def matchesString (filter : Json) (key : String) (value : Option String) : Bool :=
  match filter.own key with
  | some (.str s) => value = some s
  | _ => false

def txFilterMatch (filter : Json) (tx : Transaction) (removed : Bool) : Bool :=
  let includeRemoved := match filter.own "includeRemoved" with
    | some (.bool b) => b
    | _ => false
  if removed && !includeRemoved then false
  else
    match filter.own "addresses" with
    | some (.arr addresses) => addresses.any fun ofilter =>
        matchesString ofilter "from" tx.fromAddress
          || matchesString ofilter "to" tx.toAddress
    | _ => true

/-! ## Block events -/

def processNewHeadsSubscriptions (subs : Registry) (block : Block) : List Frame :=
  subs.map fun (subid, client) => ⟨client.ws, subid, block, .head⟩

/-- The pairs the loops over logs and subscriptions go through. -/
def logsPairs (subs : Registry) (logs : List Log) : List (Log × SubId × Client) :=
  logs.flatMap fun log => subs.map fun sub => (log, sub)

/-- The body of the loops: the frames sent, and the subscription whose filter
    raised an error, if one did. -/
def logsLoop (block : Block) :
    List (Log × SubId × Client) → List Frame × Option (SubId × Client)
  | [] => ([], none)
  | (log, subid, client) :: rest =>
      match logsFilterMatch client.filter log with
      | .error _ => ([], some (subid, client))
      | .ok false => logsLoop block rest
      | .ok true =>
          let (frames, aborted) := logsLoop block rest
          (⟨client.ws, subid, block, .log log false⟩ :: frames, aborted)

/-- Frames sent for a block are recorded under its number. -/
def saveLogs (logsSent : LogsSent) (number : Nat) (frames : List Frame) : LogsSent :=
  if frames.isEmpty then logsSent
  else InsertionMap.set logsSent number
    ((InsertionMap.get logsSent number).getD [] ++ frames)

def processMinedTransactionsSubscriptions (subs : Registry) (block : Block)
    (removed : Bool) : List Frame :=
  block.transactions.flatMap fun tx =>
    (subs.filter fun (_, client) => txFilterMatch client.filter tx removed).map
      fun (subid, client) =>
        let hashOnly := match client.filter.own "hashesOnly" with
          | some (.bool b) => b
          | _ => false
        ⟨client.ws, subid, block, .tx tx hashOnly removed⟩

/-- What the handler of an event sends; an error in the filter of a subscription
    ends it early. -/
structure Handled where
  logsSent : LogsSent
  frames : List Frame
  aborted : Option (SubId × Client)

def handleBlockRemoved (logsSent : LogsSent) (block : Block) : Handled where
  logsSent := InsertionMap.delete logsSent block.number
  frames := []
  aborted := none

def handleBlockForked (r : Registries) (logsSent : LogsSent) (block : Block) :
    Handled where
  logsSent := InsertionMap.delete logsSent block.number
  frames := ((InsertionMap.get logsSent block.number).getD []).map Frame.retract
    ++ processMinedTransactionsSubscriptions r.minedTransactionsSubs block true
  aborted := none

def handleBlockAppended (r : Registries) (logsSent : LogsSent) (block : Block) :
    Handled :=
  let (logFrames, aborted) := logsLoop block (logsPairs r.logsSubs block.logs)
  { logsSent := saveLogs logsSent block.number logFrames
    frames := processNewHeadsSubscriptions r.newHeadSubs block ++ logFrames
      ++ if aborted.isSome then []
        else processMinedTransactionsSubscriptions r.minedTransactionsSubs block false
    aborted := aborted }

def handleBlockEvent (r : Registries) (logsSent : LogsSent) : BlockEvent → Handled
  | .removed block => handleBlockRemoved logsSent block
  | .forked block => handleBlockForked r logsSent block
  | .appended block => handleBlockAppended r logsSent block

/-! ## Subscribing and unsubscribing -/

/-- The configured limits. -/
structure Limits where
  maxLogsSubsPerConnection : Nat
  maxMinedtxSubsPerConnection : Nat

/-- The members that subscriptions change. -/
structure Server where
  registries : Registries
  monitor : BlockMonitor

def Server.init : Server where
  registries := { newHeadSubs := [], logsSubs := [], minedTransactionsSubs := [] }
  monitor := BlockMonitor.init

/-- The three kinds of subscriptions. -/
inductive Kind where
  | newHeads
  | logs
  | minedTransactions
  deriving DecidableEq, Repr

def Registries.get (r : Registries) : Kind → Registry
  | .newHeads => r.newHeadSubs
  | .logs => r.logsSubs
  | .minedTransactions => r.minedTransactionsSubs

def Registries.put (r : Registries) (subs : Registry) : Kind → Registries
  | .newHeads => { r with newHeadSubs := subs }
  | .logs => { r with logsSubs := subs }
  | .minedTransactions => { r with minedTransactionsSubs := subs }

def Registries.isEmpty (r : Registries) : Bool :=
  r.newHeadSubs.isEmpty && r.logsSubs.isEmpty && r.minedTransactionsSubs.isEmpty

def checkStartMonitor (s : Server) : Server :=
  if !s.monitor.run && !s.registries.isEmpty then
    { s with monitor := s.monitor.start }
  else s

def checkStopMonitor (s : Server) : Server :=
  if s.monitor.run && s.registries.isEmpty then
    { s with monitor := s.monitor.stop }
  else s

/-- The subscriptions of a connection. -/
def Registry.of (ws : Ws) (subs : Registry) : Registry :=
  subs.filter fun (_, client) => client.ws = ws

/-- A handler returns the server as it leaves it, and whether it has thrown. -/
abbrev Handler := Server × Except JsError Unit

/-- What the three subscription handlers share: throw when the connection has
    no room, otherwise register the client. -/
def register (kind : Kind) (full : Bool) (message : String) (s : Server)
    (subid : SubId) (client : Client) : Handler :=
  if full then (s, .error (.error message))
  else
    let subs := InsertionMap.set (s.registries.get kind) subid client
    (checkStartMonitor { s with registries := s.registries.put subs kind }, .ok ())

def handleNewHeads (s : Server) (subid : SubId) (ws : Ws) : Handler :=
  register .newHeads (s.registries.newHeadSubs.any fun (_, client) => client.ws = ws)
    "Already subscribed" s subid ⟨ws, .obj []⟩

def handleLogs (limits : Limits) (s : Server) (subid : SubId) (ws : Ws)
    (filter : Json) : Handler :=
  register .logs
    (decide (limits.maxLogsSubsPerConnection ≤ (s.registries.logsSubs.of ws).length))
    "Max logs subscriptions reached" s subid ⟨ws, filter⟩

def handleMinedTransactions (limits : Limits) (s : Server) (subid : SubId)
    (ws : Ws) (filter : Json) : Handler :=
  register .minedTransactions
    (decide (limits.maxMinedtxSubsPerConnection
      ≤ (s.registries.minedTransactionsSubs.of ws).length))
    "Max minedTransactions subscriptions reached" s subid ⟨ws, filter⟩

/-- The registry that has the subscription. -/
def subscriptionMap (r : Registries) (subid : SubId) : Option Kind :=
  if InsertionMap.has r.newHeadSubs subid then some .newHeads
  else if InsertionMap.has r.logsSubs subid then some .logs
  else if InsertionMap.has r.minedTransactionsSubs subid then some .minedTransactions
  else none

def handleUnsubscribe (s : Server) (subid : SubId) (ws : Ws) : Handler :=
  match subscriptionMap s.registries subid with
  | none => (s, .error (.error "Not found"))
  | some kind =>
      match InsertionMap.get (s.registries.get kind) subid with
      | none => (s, .error .typeError)
      | some client =>
          if client.ws ≠ ws then (s, .error (.error "Not found"))
          else
            let subs := InsertionMap.delete (s.registries.get kind) subid
            (checkStopMonitor { s with registries := s.registries.put subs kind },
              .ok ())

/-- A registry without the subscriptions of a connection. -/
def Registry.without (ws : Ws) (subs : Registry) : Registry :=
  subs.filter fun (_, client) => client.ws ≠ ws

def handleDisconnect (s : Server) (ws : Ws) : Server :=
  checkStopMonitor { s with registries :=
    { newHeadSubs := s.registries.newHeadSubs.without ws
      logsSubs := s.registries.logsSubs.without ws
      minedTransactionsSubs := s.registries.minedTransactionsSubs.without ws } }

end WsProxy

import EosEvmNode.WsProxy.Requests

/-! # Incoming messages

    `handle_message` of `websocket-handler.js` answers a message.  It is an async
    function: it runs until it waits for an endpoint, is suspended there, and goes
    on when the endpoint has answered.  A suspended message is what the rest of the
    function will read.  Closes are handled at once, in between. -/

namespace WsProxy

/-- How a request to an endpoint ends: with a body, or with an exception. -/
inductive HttpAnswer where
  | ok (body : Json)
  | fails (message : String)

/-! ## Answers to the client -/

/-- The message of an error that is sent. -/
inductive ErrorMessage where
  | thrown (e : JsError)
  | minerError (message : String)
  | serverError (message : String)
  /-- The body of a batch that is no array. -/
  | serverBody (body : Json)
  | null

/-- A response; `id` is left out where the request has none. -/
inductive Response where
  | result (id : Option Json) (value : Json)
  | error (id : Option Json) (message : ErrorMessage)
  /-- What the endpoint has answered, handed through. -/
  | forwarded (body : Json)

/-- What `handle_message` sends. -/
inductive ReplyFrame where
  | invalidJson
  | single (response : Response)
  | batch (responses : List Response)

inductive Output where
  | sent (ws : Ws) (frame : ReplyFrame)
  /-- The promise of the message is rejected, which nobody handles. -/
  | rejected (e : JsError)

/-- The result of a handled request; a disconnect is not answered. -/
def Reply.value : Reply → Except JsError Json
  | .subscribed subid => .ok (.str subid)
  | .unsubscribed => .ok (.bool true)
  | .thrown e => .error e
  | .closed => .ok .null

/-- `handle_eth_subscribe` and `handle_eth_unsubscribe`, with what is answered for
    an exception. -/
def respond (id : Option Json) (reply : Reply) : Response :=
  match reply.value with
  | .ok value => .result id value
  | .error e => .error id (.thrown e)

/-! ## Methods -/

/-- `data.method`, of any value. -/
def methodOf : Json → Except JsError (Option Json)
  | .null => .error .typeError
  | data => .ok (data.own "method")

/-- The cases of the two `switch` statements. -/
inductive Method where
  | ethSubscribe
  | ethUnsubscribe
  /-- `eth_gasPrice` and `eth_sendRawTransaction`. -/
  | miner
  | other (whitelisted : Bool)
  deriving DecidableEq, Repr

/-- The methods are compared with `===`, and looked up with `indexOf`. -/
def classify (whitelist : List String) (method : Option Json) : Method :=
  match method with
  | some (.str name) =>
      if name = "eth_subscribe" then .ethSubscribe
      else if name = "eth_unsubscribe" then .ethUnsubscribe
      else if name = "eth_gasPrice" || name = "eth_sendRawTransaction" then .miner
      else .other (whitelist.contains name)
  | _ => .other false

/-! ## Suspended messages -/

/-- The second loop over a batch: `rpcResponses` is what is left of the array of the
    endpoint, `rpcError` the message for requests it has not answered. -/
structure Batch where
  ws : Ws
  rpcResponses : List Json
  rpcError : ErrorMessage
  responses : List Response

/-- A request that is waited for. -/
inductive Suspended where
  /-- The forwarded requests of a batch, and the whole batch. -/
  | batchRpc (ws : Ws) (requests : List Json) (useTestRpc : Bool) (data : List Json)
  /-- A miner request of a batch, and what follows it there. -/
  | batchMiner (batch : Batch) (request : Json) (rest : List Json)
  | singleMiner (ws : Ws) (data : Json)
  | singleOther (ws : Ws) (data : Json) (useTestRpc : Bool)

/-- The connection that has sent the message. -/
def Suspended.ws : Suspended → Ws
  | .batchRpc ws _ _ _ => ws
  | .batchMiner batch _ _ => batch.ws
  | .singleMiner ws _ => ws
  | .singleOther ws _ _ => ws

/-- How a message goes on. -/
inductive Handling where
  | await (p : Suspended)
  | done (output : Output)

/-! ## `handle_message` -/

/-- What the handler reads besides the message. -/
structure Config where
  toLowerCase : String → String
  limits : Limits
  whitelistMethods : List String
  /-- The uuids, in the order in which they are drawn. -/
  uuid : Nat → SubId

/-- The subscription server, and how many uuids have been drawn. -/
structure Served where
  server : Server
  drawn : Nat

/-- An `eth_subscribe` request. -/
def Config.subscribe (c : Config) (s : Served) (ws : Ws) (data : Json) :
    Served × Reply :=
  let (server, reply) := applyOp c.toLowerCase c.limits s.server
    (.subscribe ws (c.uuid s.drawn) data)
  (⟨server, s.drawn + 1⟩, reply)

/-- An `eth_unsubscribe` request. -/
def Config.unsubscribe (c : Config) (s : Served) (ws : Ws) (data : Json) :
    Served × Reply :=
  let (server, reply) := applyOp c.toLowerCase c.limits s.server (.unsubscribe ws data)
  ({ s with server := server }, reply)

def Config.methodOf (c : Config) (data : Json) : Except JsError Method := do
  let method ← WsProxy.methodOf data
  .ok (classify c.whitelistMethods method)

/-- The first loop over a batch: the requests to forward, and whether one of them is
    not in the white list. -/
def Config.forwarded (c : Config) : List Json → Except JsError (List Json × Bool)
  | [] => .ok ([], false)
  | data :: rest => do
      let method ← c.methodOf data
      let (requests, useTestRpc) ← c.forwarded rest
      match method with
      | .other whitelisted => .ok (data :: requests, !whitelisted || useTestRpc)
      | _ => .ok (requests, useTestRpc)

/-- The second loop, up to the next miner request. -/
def Config.runBatch (c : Config) (s : Served) (batch : Batch) :
    List Json → Served × Handling
  | [] => (s, .done (.sent batch.ws (.batch batch.responses)))
  | data :: rest =>
      match c.methodOf data with
      | .error e => (s, .done (.rejected e))
      | .ok .ethSubscribe =>
          let (s, reply) := c.subscribe s batch.ws data
          c.runBatch s { batch with
            responses := batch.responses ++ [respond (data.own "id") reply] } rest
      | .ok .ethUnsubscribe =>
          let (s, reply) := c.unsubscribe s batch.ws data
          c.runBatch s { batch with
            responses := batch.responses ++ [respond (data.own "id") reply] } rest
      | .ok .miner => (s, .await (.batchMiner batch data rest))
      | .ok (.other _) =>
          match batch.rpcResponses with
          | body :: bodies =>
              c.runBatch s { batch with
                rpcResponses := bodies
                responses := batch.responses ++ [.forwarded body] } rest
          | [] =>
              c.runBatch s { batch with
                responses := batch.responses
                  ++ [.error (data.own "id") batch.rpcError] } rest

/-- A message that is no batch. -/
def Config.handleSingle (c : Config) (s : Served) (ws : Ws) (data : Json) :
    Served × Handling :=
  match c.methodOf data with
  | .error e => (s, .done (.rejected e))
  | .ok .ethSubscribe =>
      let (s, reply) := c.subscribe s ws data
      (s, .done (.sent ws (.single (respond (data.own "id") reply))))
  | .ok .ethUnsubscribe =>
      let (s, reply) := c.unsubscribe s ws data
      (s, .done (.sent ws (.single (respond (data.own "id") reply))))
  | .ok .miner => (s, .await (.singleMiner ws data))
  | .ok (.other whitelisted) => (s, .await (.singleOther ws data (!whitelisted)))

/-- A message, parsed; `none` is a text that is no JSON. -/
def Config.handleMessage (c : Config) (s : Served) (ws : Ws) :
    Option Json → Served × Handling
  | none => (s, .done (.sent ws .invalidJson))
  | some (.arr data) =>
      match c.forwarded data with
      | .error e => (s, .done (.rejected e))
      | .ok ([], _) => c.runBatch s ⟨ws, [], .null, []⟩ data
      | .ok (requests, useTestRpc) => (s, .await (.batchRpc ws requests useTestRpc data))
  | some data => c.handleSingle s ws data

/-- A suspended message goes on. -/
def Config.resume (c : Config) (s : Served) : Suspended → HttpAnswer → Served × Handling
  | .batchRpc ws _ _ data, .ok (.arr bodies) => c.runBatch s ⟨ws, bodies, .null, []⟩ data
  | .batchRpc ws _ _ data, .ok body => c.runBatch s ⟨ws, [], .serverBody body, []⟩ data
  | .batchRpc ws _ _ data, .fails message =>
      c.runBatch s ⟨ws, [], .serverError message, []⟩ data
  | .batchMiner batch _ rest, .ok body =>
      c.runBatch s { batch with responses := batch.responses ++ [.forwarded body] } rest
  | .batchMiner batch data rest, .fails message =>
      c.runBatch s { batch with
        responses := batch.responses ++ [.error (data.own "id") (.thrown (.error message))] }
        rest
  | .singleMiner ws _, .ok body => (s, .done (.sent ws (.single (.forwarded body))))
  | .singleMiner ws data, .fails message =>
      (s, .done (.sent ws (.single (.error (data.own "id") (.minerError message)))))
  | .singleOther ws _ _, .ok body => (s, .done (.sent ws (.single (.forwarded body))))
  | .singleOther ws data _, .fails message =>
      (s, .done (.sent ws (.single (.error (data.own "id") (.serverError message)))))

/-! ## Connections -/

/-- The open connections, and the messages that are waited for.  `seen` are the
    connections there have been. -/
structure Proxy where
  served : Served
  suspended : List Suspended
  connections : List Ws
  seen : List Ws

def Proxy.init : Proxy where
  served := ⟨Server.init, 0⟩
  suspended := []
  connections := []
  seen := []

inductive Incoming where
  | connect (ws : Ws)
  | message (ws : Ws) (data : Option Json)
  | answer (i : Nat) (a : HttpAnswer)
  | close (ws : Ws)

/-- A message or an answer is handled up to the next `await`. -/
def Proxy.handle (c : Config) (p : Proxy) : Incoming → Proxy × List Output
  | .connect ws =>
      ({ p with
          connections := ws :: p.connections
          seen := ws :: p.seen }, [])
  | .message ws data =>
      match c.handleMessage p.served ws data with
      | (served, .await q) =>
          ({ p with
              served := served
              suspended := p.suspended ++ [q] }, [])
      | (served, .done output) => ({ p with served := served }, [output])
  | .answer i a =>
      match p.suspended[i]? with
      | none => (p, [])
      | some q =>
          match c.resume p.served q a with
          | (served, .await q') =>
              ({ p with
                  served := served
                  suspended := p.suspended.set i q' }, [])
          | (served, .done output) =>
              ({ p with
                  served := served
                  suspended := p.suspended.eraseIdx i }, [output])
  | .close ws =>
      let server := (applyOp c.toLowerCase c.limits p.served.server (.disconnect ws)).1
      ({ p with
          served := { p.served with server := server }
          connections := p.connections.filter (· ≠ ws) }, [])

end WsProxy

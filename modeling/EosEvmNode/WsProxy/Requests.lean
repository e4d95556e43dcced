import EosEvmNode.WsProxy.SubscriptionServer

/-! # Subscription requests

    What `handle_eth_subscribe` and `handle_eth_unsubscribe` of
    `websocket-handler.js` check before they emit a request to the subscription
    server. -/

namespace WsProxy

/-- An accepted request, with the filter that is registered. -/
inductive Subscribe where
  | newHeads
  | logs (filter : Json)
  | minedTransactions (filter : Json)

/-- A `logs` filter restricts by `address` and by `topics`. -/
def checkLogsFilter (filter : Json) : Except JsError Unit :=
  if !filter.isPlainObject then .error (.error "Invalid filter")
  else do
    let hasAddress ← filter.hasOwnProperty "address"
    if hasAddress && !filter.ownIs "address" (fun v => v.isString || v.isArray) then
      .error (.error "Invalid address filter")
    else do
      let hasTopics ← filter.hasOwnProperty "topics"
      if hasTopics && !filter.ownIs "topics" Json.isArray then
        .error (.error "Invalid topics filter")
      else .ok ()

/-- An element of `addresses`: a plain object with a string `to` or `from`. -/
def checkAddressElement (ofilter : Json) : Bool :=
  ofilter.isPlainObject &&
    ((ofilter.own "to").any Json.isString || (ofilter.own "from").any Json.isString)

/-- A `minedTransactions` filter restricts by `addresses`, which are changed to
    lower case in place. -/
def checkMinedTransactionsFilter (toLowerCase : String → String) (filter : Json) :
    Except JsError Json :=
  if !filter.isPlainObject then .error (.error "Invalid filter")
  else do
    let lowered ←
      if ← filter.hasOwnProperty "addresses" then
        match filter.own "addresses" with
        | some (.arr addresses) =>
            if addresses.all checkAddressElement then
              .ok (filter.setOwn "addresses" (.arr (addresses.map fun ofilter =>
                (ofilter.mapOwnString toLowerCase "to").mapOwnString
                  toLowerCase "from")))
            else .error (.error "Invalid addresses filter element")
        | _ => .error (.error "Invalid addresses filter")
      else .ok filter
    if !filter.ownIs "includeRemoved" Json.isBoolean then
      .error (.error "Invalid includeRemoved filter")
    else if !filter.ownIs "hashesOnly" Json.isBoolean then
      .error (.error "Invalid hashesOnly filter")
    else .ok lowered

/-- `handle_eth_subscribe`, up to the event it emits. -/
def checkSubscribe (toLowerCase : String → String) (data : Json) :
    Except JsError Subscribe := do
  let _ ← data.hasOwnProperty "params"
  match data.own "params" with
  | some (.arr (subscriptionType :: rest)) =>
      if subscriptionType.looseEq "newHeads" then .ok .newHeads
      else if subscriptionType.looseEq "logs" then
        match rest with
        | [] => .ok (.logs (.obj []))
        | filter :: _ => do
            checkLogsFilter filter
            .ok (.logs filter)
      else if subscriptionType.looseEq "minedTransactions" then
        match rest with
        | [] => .ok (.minedTransactions (.obj []))
        | filter :: _ => do
            let filter ← checkMinedTransactionsFilter toLowerCase filter
            .ok (.minedTransactions filter)
      else .error (.error (subscriptionType.toText ++ " not supported"))
  | _ => .error (.error "No params")

/-- `handle_eth_unsubscribe`, up to the event it emits: the id to look up. -/
def checkUnsubscribe (data : Json) : Except JsError Json := do
  let _ ← data.hasOwnProperty "params"
  match data.own "params" with
  | some (.arr (subid :: _)) => .ok subid
  | _ => .error (.error "Invalid params")

/-! ## Operations of clients -/

/-- What a connection asks for; a subscription gets a fresh uuid. -/
inductive ClientOp where
  | subscribe (ws : Ws) (subid : SubId) (data : Json)
  | unsubscribe (ws : Ws) (data : Json)
  | disconnect (ws : Ws)

def ClientOp.ws : ClientOp → Ws
  | .subscribe ws _ _ => ws
  | .unsubscribe ws _ => ws
  | .disconnect ws => ws

/-- How the request is answered: with the id of the subscription, with true, or
    with an error. -/
inductive Reply where
  | subscribed (subid : SubId)
  | unsubscribed
  | thrown (e : JsError)
  | closed
  deriving DecidableEq, Repr

/-- The answer to a request whose event has been handled. -/
def answer (h : Handler) (reply : Reply) : Server × Reply :=
  match h.2 with
  | .ok () => (h.1, reply)
  | .error e => (h.1, .thrown e)

/-- `handle_eth_subscribe`, `handle_eth_unsubscribe` and `handle_close`: the
    events are handled synchronously. -/
def applyOp (toLowerCase : String → String) (limits : Limits) (s : Server) :
    ClientOp → Server × Reply
  | .subscribe ws subid data =>
      match checkSubscribe toLowerCase data with
      | .error e => (s, .thrown e)
      | .ok .newHeads => answer (handleNewHeads s subid ws) (.subscribed subid)
      | .ok (.logs filter) =>
          answer (handleLogs limits s subid ws filter) (.subscribed subid)
      | .ok (.minedTransactions filter) =>
          answer (handleMinedTransactions limits s subid ws filter) (.subscribed subid)
  | .unsubscribe ws data =>
      match checkUnsubscribe data with
      | .error e => (s, .thrown e)
      | .ok (.str subid) => answer (handleUnsubscribe s subid ws) .unsubscribed
      | .ok _ => (s, .thrown (.error "Not found"))
  | .disconnect ws => (handleDisconnect s ws, .closed)

end WsProxy

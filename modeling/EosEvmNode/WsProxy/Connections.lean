import EosEvmNode.WsProxy.Messages
import EosEvmNode.WsProxy.Registry

/-! # Subscriptions and their connections

    A subscription is made for the connection of the message that asks for it.  A
    single request is served before its connection can close; a batch that waits for
    an endpoint may go on after the close has been handled, and the `eth_subscribe`
    requests it then serves are the only ones nobody ever takes back. -/

namespace WsProxy

open Runs

/-! ## Requests that are refused -/

def Subscribe.kind : Subscribe → Kind
  | .newHeads => .newHeads
  | .logs _ => .logs
  | .minedTransactions _ => .minedTransactions

/-- The request does not pass its checks, or no connection may have a subscription of
    its kind. -/
def Config.refuses (c : Config) (data : Json) : Bool :=
  match checkSubscribe c.toLowerCase data with
  | .error _ => true
  | .ok request => c.limits.max request.kind = 0

/-- Is this an `eth_subscribe` request? -/
def Config.subscribes (c : Config) (data : Json) : Bool :=
  match c.methodOf data with
  | .ok .ethSubscribe => true
  | _ => false

/-- The requests of a batch that are served before the next `await`. -/
def Config.next (c : Config) (requests : List Json) : List Json :=
  requests.takeWhile fun data =>
    match c.methodOf data with
    | .ok .miner => false
    | .error _ => false
    | _ => true

/-- The requests a suspended message has still to serve. -/
def Suspended.requests : Suspended → List Json
  | .batchRpc _ _ _ data => data
  | .batchMiner _ _ rest => rest
  | .singleMiner _ _ => []
  | .singleOther _ _ _ => []

/-! ## What serving a message does -/

/-- The registries are in order, and their ids have been drawn. -/
structure ServedInv (c : Config) (s : Served) : Prop where
  registry : RegistryInv c.limits s.server
  drawn : ∀ kind, ∀ sub ∈ s.server.registries.get kind, ∃ n < s.drawn, sub.1 = c.uuid n

/-- Serving these requests for a connection adds subscriptions of that connection
    only, and none unless one of them is an `eth_subscribe` that is not refused. -/
structure Serves (c : Config) (ws : Ws) (requests : List Json) (s s' : Served) :
    Prop where
  inv : ServedInv c s'
  adds : ∀ kind, ∀ sub ∈ s'.server.registries.get kind,
    sub ∈ s.server.registries.get kind ∨ (sub.2.ws = ws ∧
      ∃ data ∈ requests, c.subscribes data = true ∧ c.refuses data = false)

section Serving

variable {c : Config} {s s' s'' : Served} {ws : Ws} {requests : List Json}

theorem Serves.refl (h : ServedInv c s) : Serves c ws requests s s :=
  ⟨h, fun _ _ hsub => Or.inl hsub⟩

theorem Serves.mono {more : List Json} (h : Serves c ws requests s s')
    (hmore : ∀ data ∈ requests, data ∈ more) : Serves c ws more s s' := by
  refine ⟨h.inv, ?_⟩
  intro kind sub hsub
  rcases h.adds kind sub hsub with hold | ⟨hws, data, hdata, haccepted⟩
  · exact Or.inl hold
  · exact Or.inr ⟨hws, data, hmore data hdata, haccepted⟩

theorem Serves.trans (h : Serves c ws requests s s')
    (h' : Serves c ws requests s' s'') : Serves c ws requests s s'' := by
  refine ⟨h'.inv, ?_⟩
  intro kind sub hsub
  rcases h'.adds kind sub hsub with hold | hnew
  · exact h.adds kind sub hold
  · exact Or.inr hnew

/-- A request that is refused changes nothing. -/
theorem applyOp_refused {server : Server} {subid : SubId} {data : Json}
    (h : c.refuses data = true) :
    (applyOp c.toLowerCase c.limits server (.subscribe ws subid data)).1 = server := by
  rw [Config.refuses] at h
  rw [applyOp]
  cases hcheck : checkSubscribe c.toLowerCase data with
  | error e => rfl
  | ok request =>
      rw [hcheck] at h
      have hmax : c.limits.max request.kind = 0 := of_decide_eq_true h
      cases request with
      | newHeads => cases hmax
      | logs filter =>
          have hfull : decide (c.limits.maxLogsSubsPerConnection
              ≤ (server.registries.logsSubs.of ws).length) = true :=
            decide_eq_true (le_of_eq_of_le hmax (Nat.zero_le _))
          simp only [handleLogs, hfull]
          rfl
      | minedTransactions filter =>
          have hfull : decide (c.limits.maxMinedtxSubsPerConnection
              ≤ (server.registries.minedTransactionsSubs.of ws).length) = true :=
            decide_eq_true (le_of_eq_of_le hmax (Nat.zero_le _))
          simp only [handleMinedTransactions, hfull]
          rfl

/-- A uuid that has not been drawn is registered nowhere. -/
theorem ServedInv.fresh (h : ServedInv c s) (huuid : Function.Injective c.uuid)
    (data : Json) : Fresh s.server (.subscribe ws (c.uuid s.drawn) data) := by
  have hnew : ∀ kind, InsertionMap.has (s.server.registries.get kind)
      (c.uuid s.drawn) = false := by
    intro kind
    cases hhas : InsertionMap.has (s.server.registries.get kind) (c.uuid s.drawn) with
    | false => rfl
    | true =>
        obtain ⟨client, hmem⟩ := InsertionMap.has_eq_true.mp hhas
        obtain ⟨n, hn, heq⟩ := h.drawn kind _ hmem
        exact absurd (huuid heq) (Nat.ne_of_gt hn)
  exact ⟨hnew .newHeads, hnew .logs, hnew .minedTransactions⟩

theorem Config.subscribe_serves (h : ServedInv c s) (huuid : Function.Injective c.uuid)
    {data : Json} (hdata : c.subscribes data = true) :
    Serves c ws [data] s (c.subscribe s ws data).1 := by
  have happ := applyOp_applied c.toLowerCase c.limits s.server
    (.subscribe ws (c.uuid s.drawn) data)
  refine ⟨⟨h.registry.step (h.fresh huuid data) happ, ?_⟩, ?_⟩
  · intro kind sub hsub
    rcases happ.registered hsub with hold | ⟨hnew, -⟩
    · obtain ⟨n, hn, heq⟩ := h.drawn kind sub hold
      exact ⟨n, Nat.lt_succ_of_lt hn, heq⟩
    · exact ⟨s.drawn, Nat.lt_succ_self _, List.mem_singleton.mp hnew⟩
  · intro kind sub hsub
    cases hrefused : c.refuses data with
    | true =>
        have hsame : (c.subscribe s ws data).1.server = s.server :=
          applyOp_refused hrefused
        rw [hsame] at hsub
        exact Or.inl hsub
    | false =>
        rcases happ.registered hsub with hold | ⟨-, hws⟩
        · exact Or.inl hold
        · exact Or.inr ⟨hws, data, List.mem_cons_self, hdata, hrefused⟩

theorem Config.unsubscribe_serves (h : ServedInv c s) (data : Json) :
    Serves c ws requests s (c.unsubscribe s ws data).1 := by
  have happ := applyOp_applied c.toLowerCase c.limits s.server (.unsubscribe ws data)
  have hold : ∀ kind, ∀ sub ∈ (c.unsubscribe s ws data).1.server.registries.get kind,
      sub ∈ s.server.registries.get kind := by
    intro kind sub hsub
    rcases happ.registered hsub with hold | ⟨hnew, -⟩
    · exact hold
    · cases hnew
  have hfresh : Fresh s.server (.unsubscribe ws data) := trivial
  exact ⟨⟨h.registry.step hfresh happ, fun kind sub hsub =>
    h.drawn kind sub (hold kind sub hsub)⟩, fun kind sub hsub =>
    Or.inl (hold kind sub hsub)⟩

/-- A request of a batch is served before those that follow it. -/
theorem Serves.cons {data : Json} {rest : List Json}
    (hnext : c.next (data :: rest) = data :: c.next rest)
    (h : Serves c ws [data] s s') (h' : Serves c ws (c.next rest) s' s'') :
    Serves c ws (c.next (data :: rest)) s s'' := by
  rw [hnext]
  refine (h.mono ?_).trans (h'.mono fun _ => List.mem_cons_of_mem _)
  intro x hx
  rw [List.mem_singleton.mp hx]
  exact List.mem_cons_self

/-- **The second loop over a batch.** -/
theorem Config.runBatch_serves (huuid : Function.Injective c.uuid) :
    ∀ (requests : List Json) {s : Served} (batch : Batch), ServedInv c s →
      Serves c batch.ws (c.next requests) s (c.runBatch s batch requests).1 := by
  intro requests
  induction requests with
  | nil => intro s batch h; exact .refl h
  -- the batch stops at the first request that raises or waits
  | cons data rest ih =>
      intro s batch h
      rw [Config.runBatch]
      cases hmethod : c.methodOf data with
      | error e => exact .refl h
      | ok method =>
          cases method with
          | miner => exact .refl h
          | ethSubscribe =>
              have hnext : c.next (data :: rest) = data :: c.next rest :=
                List.takeWhile_cons_of_pos (by rw [hmethod])
              have hdata : c.subscribes data = true := by
                rw [Config.subscribes, hmethod]
              have hfirst : Serves c batch.ws [data] s
                  (c.subscribe s batch.ws data).1 := c.subscribe_serves h huuid hdata
              exact hfirst.cons hnext (ih { batch with
                responses := batch.responses
                  ++ [respond (data.own "id") (c.subscribe s batch.ws data).2] }
                hfirst.inv)
          | ethUnsubscribe =>
              have hnext : c.next (data :: rest) = data :: c.next rest :=
                List.takeWhile_cons_of_pos (by rw [hmethod])
              have hfirst : Serves c batch.ws [data] s
                  (c.unsubscribe s batch.ws data).1 := c.unsubscribe_serves h data
              exact hfirst.cons hnext (ih { batch with
                responses := batch.responses
                  ++ [respond (data.own "id") (c.unsubscribe s batch.ws data).2] }
                hfirst.inv)
          | other whitelisted =>
              have hnext : c.next (data :: rest) = data :: c.next rest :=
                List.takeWhile_cons_of_pos (by rw [hmethod])
              have hfirst : Serves c batch.ws [data] s s := .refl h
              cases hbodies : batch.rpcResponses with
              | cons body bodies =>
                  exact hfirst.cons hnext (ih { batch with
                    rpcResponses := bodies
                    responses := batch.responses ++ [.forwarded body] } h)
              | nil =>
                  exact hfirst.cons hnext (ih { batch with
                    rpcResponses := []
                    responses := batch.responses
                      ++ [.error (data.own "id") batch.rpcError] } h)

/-- A suspended message goes on. -/
theorem Config.resume_serves (h : ServedInv c s) (huuid : Function.Injective c.uuid)
    (q : Suspended) (a : HttpAnswer) :
    Serves c q.ws (c.next q.requests) s (c.resume s q a).1 := by
  cases q with
  | batchRpc ws requests useTestRpc data =>
      cases a with
      | ok body =>
          cases body with
          | arr bodies => exact c.runBatch_serves huuid data ⟨ws, bodies, .null, []⟩ h
          | _ => exact c.runBatch_serves huuid data ⟨ws, [], .serverBody _, []⟩ h
      | fails message =>
          exact c.runBatch_serves huuid data ⟨ws, [], .serverError message, []⟩ h
  | batchMiner batch data rest =>
      cases a with
      | ok body =>
          exact c.runBatch_serves huuid rest { batch with
            responses := batch.responses ++ [.forwarded body] } h
      | fails message =>
          exact c.runBatch_serves huuid rest { batch with
            responses := batch.responses
              ++ [.error (data.own "id") (.thrown (.error message))] } h
  | singleMiner ws data => cases a <;> exact .refl h
  | singleOther ws data useTestRpc => cases a <;> exact .refl h

theorem Config.handleSingle_serves (h : ServedInv c s)
    (huuid : Function.Injective c.uuid) (data : Json) :
    Serves c ws [data] s (c.handleSingle s ws data).1 := by
  rw [Config.handleSingle]
  cases hmethod : c.methodOf data with
  | error e => exact .refl h
  | ok method =>
      cases method with
      | ethSubscribe =>
          have hdata : c.subscribes data = true := by rw [Config.subscribes, hmethod]
          exact c.subscribe_serves h huuid hdata
      | ethUnsubscribe => exact c.unsubscribe_serves h data
      | miner => exact .refl h
      | other whitelisted => exact .refl h

/-- A message is served for its connection. -/
theorem Config.handleMessage_serves (h : ServedInv c s)
    (huuid : Function.Injective c.uuid) (data : Option Json) :
    ∃ requests, Serves c ws requests s (c.handleMessage s ws data).1 := by
  cases data with
  | none => exact ⟨[], .refl h⟩
  | some data =>
      cases data with
      | arr data =>
          rw [Config.handleMessage]
          cases hforwarded : c.forwarded data with
          | error e => exact ⟨[], .refl h⟩
          | ok forwarded =>
              obtain ⟨requests, useTestRpc⟩ := forwarded
              cases requests with
              | nil => exact ⟨_, c.runBatch_serves huuid data ⟨ws, [], .null, []⟩ h⟩
              | cons first rest => exact ⟨[], .refl h⟩
      | _ => exact ⟨_, c.handleSingle_serves h huuid _⟩

end Serving

/-! ## Connections -/

/-- What the environment promises: connections are new, and messages and closes come
    from open ones. -/
def Admissible (p : Proxy) : Incoming → Prop
  | .connect ws => ws ∉ p.seen
  | .message ws _ => ws ∈ p.connections
  | .answer _ _ => True
  | .close ws => ws ∈ p.connections

/-- **The condition**: a batch that goes on after the close of its connection has
    been handled serves no `eth_subscribe` that is not refused. -/
def LateRefused (c : Config) (p : Proxy) : Incoming → Prop
  | .answer i _ => ∀ q ∈ p.suspended[i]?, q.ws ∉ p.connections →
      ∀ data ∈ c.next q.requests, c.subscribes data = true → c.refuses data = true
  | _ => True

instance (p : Proxy) (e : Incoming) : Decidable (Admissible p e) := by
  unfold Admissible
  cases e <;> infer_instance

instance (c : Config) (p : Proxy) (e : Incoming) : Decidable (LateRefused c p e) := by
  unfold LateRefused
  cases e <;> infer_instance

/-- Every subscription belongs to an open connection. -/
structure ProxyInv (c : Config) (p : Proxy) : Prop where
  served : ServedInv c p.served
  owned : ∀ kind, ∀ sub ∈ p.served.server.registries.get kind, sub.2.ws ∈ p.connections

theorem proxyInv_init (c : Config) : ProxyInv c Proxy.init where
  served := ⟨registryInv_init c.limits, fun kind _ hsub => by
    cases kind <;> cases hsub⟩
  owned := fun kind _ hsub => by cases kind <;> cases hsub

section Proxies

variable {c : Config} {p : Proxy}

/-- Serving an open connection keeps the invariant. -/
theorem ProxyInv.serve (h : ProxyInv c p) {ws : Ws} {requests : List Json} {s : Served}
    (hserves : Serves c ws requests p.served s)
    (hws : ∀ data ∈ requests, c.subscribes data = true → c.refuses data = false →
      ws ∈ p.connections) :
    ServedInv c s ∧ ∀ kind, ∀ sub ∈ s.server.registries.get kind,
      sub.2.ws ∈ p.connections := by
  refine ⟨hserves.inv, ?_⟩
  intro kind sub hsub
  rcases hserves.adds kind sub hsub with hold | ⟨heq, data, hdata, hsubscribes, hrefused⟩
  · exact h.owned kind sub hold
  · rw [heq]
    exact hws data hdata hsubscribes hrefused

theorem ProxyInv.handle (h : ProxyInv c p) (huuid : Function.Injective c.uuid)
    {e : Incoming} (hadm : Admissible p e) (hlate : LateRefused c p e) :
    ProxyInv c (p.handle c e).1 := by
  cases e with
  | connect ws =>
      exact ⟨h.served, fun kind sub hsub =>
        List.mem_cons_of_mem _ (h.owned kind sub hsub)⟩
  | message ws data =>
      have hmessage : ∃ requests, Serves c ws requests p.served
          (c.handleMessage p.served ws data).1 :=
        c.handleMessage_serves h.served huuid data
      obtain ⟨requests, hserves⟩ := hmessage
      obtain ⟨hserved, howned⟩ := h.serve hserves fun _ _ _ _ => hadm
      rw [Proxy.handle]
      split
      · next hhandled => rw [hhandled] at hserved howned; exact ⟨hserved, howned⟩
      · next hhandled => rw [hhandled] at hserved howned; exact ⟨hserved, howned⟩
  | answer i a =>
      rw [Proxy.handle]
      cases hq : p.suspended[i]? with
      | none => exact h
      | some q =>
          have hserves := c.resume_serves h.served huuid q a
          obtain ⟨hserved, howned⟩ := h.serve hserves (by
            intro data hdata hsubscribes hrefused
            -- a message of a closed connection registers nothing any more
            by_contra hclosed
            rw [hlate q hq hclosed data hdata hsubscribes] at hrefused
            cases hrefused)
          dsimp only
          split
          · next hhandled => rw [hhandled] at hserved howned; exact ⟨hserved, howned⟩
          · next hhandled => rw [hhandled] at hserved howned; exact ⟨hserved, howned⟩
  | close ws =>
      have happ := applyOp_applied c.toLowerCase c.limits p.served.server (.disconnect ws)
      have hfresh : Fresh p.served.server (.disconnect ws) := trivial
      have hleft : ∀ kind, ∀ sub ∈ (handleDisconnect p.served.server ws).registries.get
          kind, sub ∈ p.served.server.registries.get kind ∧ sub.2.ws ≠ ws := by
        intro kind sub hsub
        rw [handleDisconnect_get] at hsub
        obtain ⟨hmem, hne⟩ := List.mem_filter.mp hsub
        exact ⟨hmem, of_decide_eq_true hne⟩
      refine ⟨⟨h.served.registry.step hfresh happ, ?_⟩, ?_⟩
      · exact fun kind sub hsub => h.served.drawn kind sub (hleft kind sub hsub).1
      · intro kind sub hsub
        obtain ⟨hmem, hne⟩ := hleft kind sub hsub
        exact List.mem_filter.mpr ⟨h.owned kind sub hmem, by simpa using hne⟩

end Proxies

/-- The proxy after an event. -/
def proxyStep (c : Config) (p : Proxy) (e : Incoming) : Except JsError Proxy :=
  .ok (p.handle c e).1

/-- **No subscription outlives its connection**, in every run in which batches that
    come late are refused their subscriptions; and without connections the registries
    are empty and the monitor is stopped. -/
theorem subscriptions_owned {c : Config} (huuid : Function.Injective c.uuid)
    {es : List Incoming} {p : Proxy}
    (hrun : Reach (proxyStep c) (fun p e => Admissible p e ∧ LateRefused c p e)
      Proxy.init es p) :
    (∀ kind, ∀ sub ∈ p.served.server.registries.get kind, sub.2.ws ∈ p.connections) ∧
      (p.connections = [] → p.served.server.registries.isEmpty = true ∧
        p.served.server.monitor.run = false) := by
  have hinv : ProxyInv c p :=
    hrun.invariant (P := ProxyInv c) (proxyInv_init c) fun p e p' h hadm hstep => by
      rw [← Except.ok.inj hstep]
      exact h.handle huuid hadm.1 hadm.2
  refine ⟨hinv.owned, ?_⟩
  intro hnone
  have hempty : p.served.server.registries.isEmpty = true := by
    refine (Registries.isEmpty_iff _).mpr fun kind => ?_
    rw [List.eq_nil_iff_forall_not_mem]
    intro sub hsub
    have hmem := hinv.owned kind sub hsub
    rw [hnone] at hmem
    cases hmem
  refine ⟨hempty, ?_⟩
  rw [hinv.served.registry.running, hempty]
  rfl

/-! ## A batch that comes late -/

def plainConfig : Config where
  toLowerCase := id
  limits := ⟨1, 1⟩
  whitelistMethods := ["eth_chainId"]
  uuid := fun n => String.ofList (List.replicate n 'a')

theorem plainConfig_uuid : Function.Injective plainConfig.uuid := by
  intro m n h
  have hlength := congrArg String.length h
  simpa [plainConfig] using hlength

/-- A forwarded request and a subscription. -/
def batchFor (kind : String) : Option Json :=
  some (.arr [.obj [("method", .str "eth_chainId")], plainSubscribe [.str kind]])

/-- A subscription to the heads. -/
def plainBatch : Option Json := batchFor "newHeads"

/-- Both batches wait for the endpoint.  Connection 2 closes, and its batch goes on to
    ask for a subscription of an unknown kind; then the one of connection 1 goes on. -/
def plainRefusedBatch : List Incoming :=
  [.connect 1, .connect 2, .message 1 plainBatch, .message 2 (batchFor "syncing"), .close 2,
    .answer 1 (.ok (.arr [])), .answer 0 (.ok (.arr []))]

/-- The heads are followed by connection 1, and by nobody when it has closed too. -/
theorem subscriptions_owned_plain :
    ∃ p p', Reach (proxyStep plainConfig)
        (fun p e => Admissible p e ∧ LateRefused plainConfig p e) Proxy.init
        plainRefusedBatch p ∧
      p.connections = [1] ∧ p.served.server.registries.newHeadSubs.length = 1 ∧
      (∀ kind, ∀ sub ∈ p.served.server.registries.get kind, sub.2.ws ∈ p.connections) ∧
      Reach (proxyStep plainConfig)
        (fun p e => Admissible p e ∧ LateRefused plainConfig p e) Proxy.init
        (plainRefusedBatch ++ [.close 1]) p' ∧
      p'.connections = [] ∧ p'.served.server.registries.isEmpty = true ∧
      p'.served.server.monitor.run = false := by
  have hcheck : checkRun (proxyStep plainConfig)
      (fun p e => Admissible p e ∧ LateRefused plainConfig p e) Proxy.init
      plainRefusedBatch = true := by
    decide +kernel
  have hcheck' : checkRun (proxyStep plainConfig)
      (fun p e => Admissible p e ∧ LateRefused plainConfig p e) Proxy.init
      (plainRefusedBatch ++ [.close 1]) = true := by
    decide +kernel
  obtain ⟨p, hp⟩ := exists_reach hcheck
  obtain ⟨p', hp'⟩ := exists_reach hcheck'
  have hopen : p.connections = [1] := hp.eval (by decide +kernel)
  have hfollowed : p.served.server.registries.newHeadSubs.length = 1 :=
    hp.eval (f := fun p => p.served.server.registries.newHeadSubs.length)
      (by decide +kernel)
  have hclosed : p'.connections = [] := hp'.eval (by decide +kernel)
  exact ⟨p, p', hp, hopen, hfollowed, (subscriptions_owned plainConfig_uuid hp).1, hp',
    hclosed, (subscriptions_owned plainConfig_uuid hp').2 hclosed⟩

/-- The connection is closed while the batch waits for the endpoint. -/
def plainLateBatch : List Incoming :=
  [.connect 1, .message 1 plainBatch, .close 1, .answer 0 (.ok (.arr []))]

theorem not_owned_plainLateBatch :
    ¬ ∀ (c : Config) (es : List Incoming) (p : Proxy), Function.Injective c.uuid →
      Reach (proxyStep c) Admissible Proxy.init es p →
      (∀ kind, ∀ sub ∈ p.served.server.registries.get kind, sub.2.ws ∈ p.connections) ∧
        (p.connections = [] → p.served.server.registries.isEmpty = true ∧
          p.served.server.monitor.run = false) := by
  intro h
  have hcheck : checkRun (proxyStep plainConfig) Admissible Proxy.init plainLateBatch
      = true := by decide +kernel
  obtain ⟨p, hp⟩ := exists_reach hcheck
  have hclosed : p.connections = [] := hp.eval (by decide +kernel)
  have hrun : p.served.server.monitor.run = true := 
    hp.eval (f := fun p => p.served.server.monitor.run) (by decide +kernel)
  have hstopped := ((h plainConfig plainLateBatch p plainConfig_uuid hp).2 hclosed).2
  rw [hrun] at hstopped
  cases hstopped

end WsProxy

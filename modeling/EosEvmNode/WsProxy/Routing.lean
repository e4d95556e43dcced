import EosEvmNode.WsProxy.Batches
import Mathlib.Data.List.Perm.Basic

/-! # Which endpoint is asked what

    A message may make several requests to the three endpoints, with awaits in
    between at which anything else may happen: other messages, answers, closes, its
    own connection's included.  Nothing of that changes what is posted.  Over every
    run the requests of a message that are not about subscriptions are posted once
    each: the forwarded ones of a batch together, to the test endpoint as soon as one
    of them is not in the white list, and then the miner's one by one.

    The heart is `Config.runBatch_continues`: the second loop over a batch stops at
    its next miner request and nowhere else. -/

namespace WsProxy

open Runs

/-! ## Posts -/

/-- `web3_rpc_endpoint`, `web3_rpc_test_endpoint` and `miner_rpc_endpoint`. -/
inductive Endpoint where
  | web3
  | test
  | miner
  deriving DecidableEq, Repr

/-- The body of a post: a request, or the forwarded requests of a batch. -/
inductive Body where
  | single (request : Json)
  | batch (requests : List Json)

/-- `axios.post`. -/
structure Post where
  endpoint : Endpoint
  body : Body

def Post.requests (post : Post) : List Json :=
  match post.body with
  | .single request => [request]
  | .batch requests => requests

/-- `handle_other_methods`. -/
def rpcEndpoint (useTestRpc : Bool) : Endpoint :=
  if useTestRpc then .test else .web3

/-- `handle_miner_methods`. -/
def minerPost (request : Json) : Post := ⟨.miner, .single request⟩

/-- What a suspended message has posted last, and waits for. -/
def Suspended.post : Suspended → Post
  | .batchRpc _ requests useTestRpc _ => ⟨rpcEndpoint useTestRpc, .batch requests⟩
  | .batchMiner _ request _ => minerPost request
  | .singleMiner _ data => minerPost data
  | .singleOther _ data useTestRpc => ⟨rpcEndpoint useTestRpc, .single data⟩

/-! ## What a message should post -/

def Config.isMiner (c : Config) (request : Json) : Bool :=
  match c.methodOf request with
  | .ok .miner => true
  | _ => false

def Config.isWhitelisted (c : Config) (request : Json) : Bool :=
  match c.methodOf request with
  | .ok (.other whitelisted) => whitelisted
  | _ => false

/-- The requests of a message that are not about subscriptions. -/
def Config.outgoing (c : Config) : Option Json → List Json
  | none => []
  | some (.arr data) => data.filter fun request => c.isForwarded request || c.isMiner request
  | some data => [data].filter fun request => c.isForwarded request || c.isMiner request

/-- What the endpoints are for. -/
def Permitted (c : Config) (post : Post) : Prop :=
  match post.endpoint with
  | .miner => ∃ request, post.requests = [request] ∧ c.methodOf request = .ok .miner
  | .web3 => ∀ request ∈ post.requests, c.methodOf request = .ok (.other true)
  | .test => (∀ request ∈ post.requests, ∃ whitelisted,
      c.methodOf request = .ok (.other whitelisted)) ∧
      ∃ request ∈ post.requests, c.methodOf request = .ok (.other false)

/-- The posts a part of a batch makes in the second loop. -/
def Config.minerPosts (c : Config) (data : List Json) : List Post :=
  (data.filter c.isMiner).map minerPost

/-- The post of the forwarded requests, if there are any. -/
def Config.rpcPosts (c : Config) (requests : List Json) : List Post :=
  if requests.isEmpty then []
  else [⟨rpcEndpoint (requests.any fun request => !c.isWhitelisted request),
    .batch requests⟩]

/-- The post of a message that is no batch, if it makes one. -/
def Config.singlePosts (c : Config) (data : Json) : List Post :=
  if c.isMiner data then [minerPost data]
  else if c.isForwarded data then [⟨rpcEndpoint (!c.isWhitelisted data), .single data⟩]
  else []

/-- The posts of a message, in order. -/
def Config.dispatch (c : Config) : Option Json → List Post
  | none => []
  | some (.arr data) =>
      match c.forwarded data with
      | .error _ => []
      | .ok (requests, _) => c.rpcPosts requests ++ c.minerPosts data
  | some data => c.singlePosts data

section Dispatch

variable {c : Config}

theorem dispatch_single {data : Json} (h : ¬ ∃ elements, data = .arr elements) :
    c.dispatch (some data) = c.singlePosts data := by
  cases data with
  | arr elements => exact absurd ⟨elements, rfl⟩ h
  | _ => rfl

theorem outgoing_single {data : Json} (h : ¬ ∃ elements, data = .arr elements) :
    c.outgoing (some data)
      = [data].filter fun request => c.isForwarded request || c.isMiner request := by
  cases data with
  | arr elements => exact absurd ⟨elements, rfl⟩ h
  | _ => rfl

theorem handleMessage_single {data : Json} (h : ¬ ∃ elements, data = .arr elements)
    (s : Served) (ws : Ws) : c.handleMessage s ws (some data) = c.handleSingle s ws data := by
  cases data with
  | arr elements => exact absurd ⟨elements, rfl⟩ h
  | _ => rfl

theorem isForwarded_iff {request : Json} :
    c.isForwarded request = true ↔
      c.methodOf request = .ok (.other (c.isWhitelisted request)) := by
  rw [Config.isForwarded, Config.isWhitelisted]
  cases hmethod : c.methodOf request with
  | error e => simp
  | ok method => cases method <;> simp

theorem isMiner_iff {request : Json} :
    c.isMiner request = true ↔ c.methodOf request = .ok .miner := by
  rw [Config.isMiner]
  cases hmethod : c.methodOf request with
  | error e => simp
  | ok method => cases method <;> simp

/-- No request is for two endpoints. -/
theorem isMiner_eq_false_of_isForwarded {request : Json}
    (h : c.isForwarded request = true) : c.isMiner request = false := by
  rw [Config.isMiner, isForwarded_iff.mp h]

/-- **The first loop over a batch**: the test endpoint is used as soon as one of the
    forwarded requests is not in the white list. -/
theorem Config.forwarded_eq {data : List Json} (hnull : .null ∉ data) :
    c.forwarded data = .ok (data.filter c.isForwarded,
      (data.filter c.isForwarded).any fun request => !c.isWhitelisted request) := by
  induction data with
  | nil => rfl
  | cons request rest ih =>
      have hrest := ih fun hmem => hnull (List.mem_cons_of_mem _ hmem)
      obtain ⟨method, hmethod⟩ := c.methodOf_ok fun heq =>
        hnull (heq ▸ List.mem_cons_self)
      rw [Config.forwarded, hrest, hmethod]
      cases method with
      | other whitelisted =>
          have hlisted : c.isWhitelisted request = whitelisted := by
            rw [Config.isWhitelisted, hmethod]
          rw [List.filter_cons_of_pos (by rw [Config.isForwarded, hmethod]), List.any_cons,
            hlisted]
          rfl
      | _ =>
          rw [List.filter_cons_of_neg (by simp [Config.isForwarded, hmethod])]
          rfl

theorem permitted_minerPost {request : Json} (h : c.isMiner request = true) :
    Permitted c (minerPost request) :=
  ⟨request, rfl, isMiner_iff.mp h⟩

/-- Forwarded requests go to the test endpoint exactly when one of them is not in the
    white list. -/
theorem permitted_forwarded {requests : List Json} {body : Body}
    (hbody : Post.requests ⟨.web3, body⟩ = requests)
    (h : ∀ request ∈ requests, c.isForwarded request = true) :
    Permitted c ⟨rpcEndpoint (requests.any fun request => !c.isWhitelisted request),
      body⟩ := by
  have hmethods : ∀ request ∈ requests,
      c.methodOf request = .ok (.other (c.isWhitelisted request)) :=
    fun request hmem => isForwarded_iff.mp (h request hmem)
  cases htest : requests.any fun request => !c.isWhitelisted request with
  | false =>
      show ∀ request ∈ Post.requests ⟨.web3, body⟩, c.methodOf request = .ok (.other true)
      rw [hbody]
      intro request hmem
      have hlisted : c.isWhitelisted request = true := by
        simpa using List.any_eq_false.mp htest request hmem
      rw [hmethods request hmem, hlisted]
  | true =>
      show (∀ request ∈ Post.requests ⟨.web3, body⟩, ∃ whitelisted,
          c.methodOf request = .ok (.other whitelisted)) ∧
        ∃ request ∈ Post.requests ⟨.web3, body⟩, c.methodOf request = .ok (.other false)
      rw [hbody]
      refine ⟨fun request hmem => ⟨_, hmethods request hmem⟩, ?_⟩
      obtain ⟨request, hmem, hlisted⟩ := List.any_eq_true.mp htest
      refine ⟨request, hmem, ?_⟩
      rw [hmethods request hmem, show c.isWhitelisted request = false by simpa using hlisted]

theorem minerPosts_permitted {data : List Json} {post : Post}
    (h : post ∈ c.minerPosts data) : Permitted c post := by
  obtain ⟨request, hmem, rfl⟩ := List.mem_map.mp h
  exact permitted_minerPost (List.mem_filter.mp hmem).2

theorem singlePosts_permitted {data : Json} {post : Post}
    (h : post ∈ c.singlePosts data) : Permitted c post := by
  rw [Config.singlePosts] at h
  split at h
  · next hminer =>
      rw [List.mem_singleton.mp h]
      exact permitted_minerPost hminer
  · split at h
    · next hforwarded =>
        have hpermitted : Permitted c ⟨rpcEndpoint ([data].any fun request =>
            !c.isWhitelisted request), .single data⟩ :=
          permitted_forwarded rfl (by simpa using hforwarded)
        rw [List.any_cons, List.any_nil, Bool.or_false] at hpermitted
        rw [List.mem_singleton.mp h]
        exact hpermitted
    · cases h

/-- **Every post of a message is permitted.** -/
theorem dispatch_permitted {message : Option Json} {post : Post}
    (h : post ∈ c.dispatch message) : Permitted c post := by
  cases message with
  | none => cases h
  | some data =>
      by_cases harr : ∃ elements, data = .arr elements
      · obtain ⟨data, rfl⟩ := harr
        by_cases hnull : .null ∈ data
        · rw [Config.dispatch, c.forwarded_null hnull] at h
          cases h
        · rw [Config.dispatch, c.forwarded_eq hnull] at h
          rcases List.mem_append.mp h with hrpc | hminer
          · rw [Config.rpcPosts] at hrpc
            split at hrpc
            · cases hrpc
            · rw [List.mem_singleton.mp hrpc]
              exact permitted_forwarded rfl fun request hmem => (List.mem_filter.mp hmem).2
          · exact minerPosts_permitted hminer
      · rw [dispatch_single harr] at h
        exact singlePosts_permitted h

theorem rpcPosts_requests (requests : List Json) :
    (c.rpcPosts requests).flatMap Post.requests = requests := by
  cases requests with
  | nil => rfl
  | cons request rest => exact List.append_nil _

theorem minerPosts_requests (data : List Json) :
    (c.minerPosts data).flatMap Post.requests = data.filter c.isMiner := by
  rw [Config.minerPosts, List.flatMap_map]
  exact List.flatMap_singleton' _

theorem singlePosts_requests (data : Json) :
    (c.singlePosts data).flatMap Post.requests
      = [data].filter fun request => c.isForwarded request || c.isMiner request := by
  rw [Config.singlePosts]
  cases hminer : c.isMiner data with
  | true => simp [hminer, minerPost, Post.requests]
  | false =>
      cases hforwarded : c.isForwarded data with
      | true => simp [hminer, hforwarded, Post.requests]
      | false => simp [hminer, hforwarded]

/-- **Each request once.** -/
theorem dispatch_requests {message : Option Json} (hnull : ¬ HoldsNull message) :
    ((c.dispatch message).flatMap Post.requests).Perm (c.outgoing message) := by
  cases message with
  | none => exact List.Perm.refl _
  | some data =>
      by_cases harr : ∃ elements, data = .arr elements
      · obtain ⟨data, rfl⟩ := harr
        have hdata : .null ∉ data := fun hmem => hnull (Or.inr ⟨data, rfl, hmem⟩)
        rw [Config.dispatch, c.forwarded_eq hdata]
        show ((c.rpcPosts _ ++ c.minerPosts data).flatMap Post.requests).Perm _
        rw [List.flatMap_append, rpcPosts_requests, minerPosts_requests, Config.outgoing]
        -- the outgoing requests, parted into those that are forwarded and the others
        have hparts := List.filter_append_perm c.isForwarded
          (data.filter fun request => c.isForwarded request || c.isMiner request)
        rw [List.filter_filter, List.filter_filter] at hparts
        have hleft : data.filter (fun request => c.isForwarded request &&
            (c.isForwarded request || c.isMiner request)) = data.filter c.isForwarded := by
          refine List.filter_congr ?_
          intro request _
          cases c.isForwarded request <;> rfl
        have hright : data.filter (fun request => !c.isForwarded request &&
            (c.isForwarded request || c.isMiner request)) = data.filter c.isMiner := by
          refine List.filter_congr ?_
          intro request _
          cases hforwarded : c.isForwarded request with
          | false => rfl
          | true => rw [isMiner_eq_false_of_isForwarded hforwarded]; rfl
        rw [hleft, hright] at hparts
        exact hparts
      · rw [dispatch_single harr, outgoing_single harr, singlePosts_requests]

theorem dispatch_null {message : Option Json} (hnull : HoldsNull message) :
    c.dispatch message = [] := by
  rcases hnull with rfl | ⟨data, rfl, hmem⟩
  · rfl
  · rw [Config.dispatch, c.forwarded_null hmem]

/-! ## What a message posts -/

/-- The posts a suspended message has still to make. -/
def Suspended.later (c : Config) (p : Suspended) : List Post :=
  c.minerPosts p.requests

/-- A message goes on as planned: it waits for the first post that is left, or it is
    done and none is left. -/
inductive Continues (c : Config) : List Post → Handling → Prop where
  | done (output : Output) : Continues c [] (.done output)
  | await (p : Suspended) (hnull : .null ∉ p.requests) :
      Continues c (p.post :: p.later c) (.await p)

/-- **The second loop over a batch** stops at its next miner request. -/
theorem Config.runBatch_continues (s : Served) (batch : Batch) {data : List Json}
    (hnull : .null ∉ data) :
    Continues c (c.minerPosts data) (c.runBatch s batch data).2 := by
  induction data generalizing s batch with
  | nil => exact .done _
  | cons request rest ih =>
      have hrest : .null ∉ rest := fun hmem => hnull (List.mem_cons_of_mem _ hmem)
      obtain ⟨method, hmethod⟩ := c.methodOf_ok fun heq =>
        hnull (heq ▸ List.mem_cons_self)
      -- the miner's own requests are the ones that are waited for
      have hskip : method ≠ .miner → c.minerPosts (request :: rest) = c.minerPosts rest := by
        intro hne
        have hother : c.isMiner request = false := by
          rw [Config.isMiner, hmethod]
          cases method with
          | miner => exact absurd rfl hne
          | _ => rfl
        rw [Config.minerPosts, List.filter_cons_of_neg (by simp [hother])]
        rfl
      rw [Config.runBatch, hmethod]
      cases method with
      | ethSubscribe =>
          rw [hskip (by rintro ⟨⟩)]
          exact ih (c.subscribe s batch.ws request).1 _ hrest
      | ethUnsubscribe =>
          rw [hskip (by rintro ⟨⟩)]
          exact ih (c.unsubscribe s batch.ws request).1 _ hrest
      | miner =>
          have hminer : c.isMiner request = true := isMiner_iff.mpr hmethod
          rw [Config.minerPosts, List.filter_cons_of_pos hminer, List.map_cons]
          exact .await (.batchMiner batch request rest) hrest
      | other whitelisted =>
          rw [hskip (by rintro ⟨⟩)]
          cases hbodies : batch.rpcResponses with
          | cons body bodies => exact ih s _ hrest
          | nil => exact ih s _ hrest

/-- A suspended message goes on as planned, whatever it is answered. -/
theorem Config.resume_continues (s : Served) {p : Suspended} (a : HttpAnswer)
    (hnull : .null ∉ p.requests) : Continues c (p.later c) (c.resume s p a).2 := by
  cases p with
  | batchRpc ws requests useTestRpc data =>
      cases a with
      | ok body => cases body <;> exact c.runBatch_continues s _ hnull
      | fails message => exact c.runBatch_continues s _ hnull
  | batchMiner batch request rest =>
      cases a with
      | ok body => exact c.runBatch_continues s _ hnull
      | fails message => exact c.runBatch_continues s _ hnull
  | singleMiner ws data => cases a <;> exact .done _
  | singleOther ws data useTestRpc => cases a <;> exact .done _

theorem Config.handleSingle_continues (s : Served) (ws : Ws) (data : Json) :
    Continues c (c.singlePosts data) (c.handleSingle s ws data).2 := by
  rw [Config.handleSingle, Config.singlePosts, Config.isMiner, Config.isForwarded,
    Config.isWhitelisted]
  cases c.methodOf data with
  | error e => exact .done _
  | ok method =>
      cases method with
      | ethSubscribe => exact .done _
      | ethUnsubscribe => exact .done _
      | miner => exact .await (.singleMiner ws data) List.not_mem_nil
      | other whitelisted =>
          exact .await (.singleOther ws data (!whitelisted)) List.not_mem_nil

/-- A message starts as planned. -/
theorem Config.handleMessage_continues (s : Served) (ws : Ws) (message : Option Json) :
    Continues c (c.dispatch message) (c.handleMessage s ws message).2 := by
  cases message with
  | none => exact .done _
  | some data =>
      by_cases harr : ∃ elements, data = .arr elements
      · obtain ⟨data, rfl⟩ := harr
        by_cases hnull : .null ∈ data
        · rw [Config.dispatch, Config.handleMessage, c.forwarded_null hnull]
          exact .done _
        · rw [Config.dispatch, Config.handleMessage, c.forwarded_eq hnull]
          cases hrequests : data.filter c.isForwarded with
          | nil => exact c.runBatch_continues s _ hnull
          | cons request more => exact .await (.batchRpc ws _ _ data) hnull
      · rw [dispatch_single harr, handleMessage_single harr]
        exact c.handleSingle_continues s ws data

end Dispatch

/-! ## Runs -/

/-- A message, and what has been posted for it so far. -/
structure Job where
  ws : Ws
  message : Option Json
  posted : List Post

def Job.source (job : Job) : Ws × Option Json := (job.ws, job.message)

/-- The proxy, with what has been posted; the jobs are those of the suspended
    messages, and the finished ones. -/
structure Traffic where
  proxy : Proxy
  jobs : List (Suspended × Job)
  finished : List Job

def Traffic.start : Traffic := ⟨Proxy.init, [], []⟩

/-- All jobs there have been. -/
def Traffic.all (t : Traffic) : List Job := t.finished ++ t.jobs.map Prod.snd

/-- A message makes a post whenever it is suspended. -/
def Traffic.handle (c : Config) (t : Traffic) : Incoming → Traffic
  | .connect ws => { t with proxy := (t.proxy.handle c (.connect ws)).1 }
  | .close ws => { t with proxy := (t.proxy.handle c (.close ws)).1 }
  | .message ws data =>
      match (c.handleMessage t.proxy.served ws data).2 with
      | .await q =>
          { t with
            proxy := (t.proxy.handle c (.message ws data)).1
            jobs := t.jobs ++ [(q, ⟨ws, data, [q.post]⟩)] }
      | .done _ =>
          { t with
            proxy := (t.proxy.handle c (.message ws data)).1
            finished := ⟨ws, data, []⟩ :: t.finished }
  | .answer i a =>
      match t.jobs[i]? with
      | none => { t with proxy := (t.proxy.handle c (.answer i a)).1 }
      | some (q, job) =>
          match (c.resume t.proxy.served q a).2 with
          | .await q' =>
              { t with
                proxy := (t.proxy.handle c (.answer i a)).1
                jobs := t.jobs.set i (q', { job with posted := job.posted ++ [q'.post] }) }
          | .done _ =>
              { proxy := (t.proxy.handle c (.answer i a)).1
                jobs := t.jobs.eraseIdx i
                finished := job :: t.finished }

def trafficStep (c : Config) (t : Traffic) (e : Incoming) : Except JsError Traffic :=
  .ok (t.handle c e)

/-- The messages among the events. -/
def received (es : List Incoming) : List (Ws × Option Json) :=
  es.filterMap fun e =>
    match e with
    | .message ws data => some (ws, data)
    | _ => none

/-- The jobs are those of the suspended messages, and go on as planned. -/
structure TrafficInv (c : Config) (t : Traffic) : Prop where
  suspended : t.proxy.suspended = t.jobs.map Prod.fst
  underway : ∀ x ∈ t.jobs, .null ∉ x.1.requests ∧ x.2.posted ≠ [] ∧
    c.dispatch x.2.message = x.2.posted ++ x.1.later c
  finished : ∀ job ∈ t.finished, job.posted = c.dispatch job.message

section Traffic

variable {c : Config} {t : Traffic}

/-- The proxy does not look at the jobs. -/
theorem handle_proxy (t : Traffic) (e : Incoming) :
    (t.handle c e).proxy = (t.proxy.handle c e).1 := by
  cases e with
  | connect ws => rfl
  | close ws => rfl
  | message ws data =>
      rw [Traffic.handle]
      split <;> rfl
  | answer i a =>
      rw [Traffic.handle]
      split
      · rfl
      · split <;> rfl

theorem TrafficInv.message (h : TrafficInv c t) (ws : Ws) (data : Option Json) :
    TrafficInv c (t.handle c (.message ws data)) := by
  have hplan := c.handleMessage_continues t.proxy.served ws data
  have hproxy := handle_proxy (c := c) t (.message ws data)
  rw [Proxy.handle] at hproxy
  rw [Traffic.handle] at hproxy ⊢
  generalize hplanned : c.dispatch data = planned at hplan
  cases hhandled : c.handleMessage t.proxy.served ws data with
  | mk served handling =>
      rw [hhandled] at hplan hproxy
      cases hplan with
      | done output =>
          refine ⟨?_, h.underway, ?_⟩
          · show (t.proxy.handle c (.message ws data)).1.suspended = _
            rw [show (t.proxy.handle c (.message ws data)).1 = _ from hproxy]
            exact h.suspended
          · intro job hjob
            rcases List.mem_cons.mp hjob with rfl | hold
            · exact hplanned.symm
            · exact h.finished job hold
      | await q hnull =>
          refine ⟨?_, ?_, h.finished⟩
          · show (t.proxy.handle c (.message ws data)).1.suspended = _
            rw [show (t.proxy.handle c (.message ws data)).1 = _ from hproxy,
              List.map_append, ← h.suspended]
            rfl
          · intro x hx
            rcases List.mem_append.mp hx with hold | hnew
            · exact h.underway x hold
            · rw [List.mem_singleton.mp hnew]
              exact ⟨hnull, List.cons_ne_nil _ _, hplanned⟩

theorem TrafficInv.answer (h : TrafficInv c t) (i : Nat) (a : HttpAnswer) :
    TrafficInv c (t.handle c (.answer i a)) := by
  have hproxy := handle_proxy (c := c) t (.answer i a)
  rw [Proxy.handle, h.suspended, List.getElem?_map] at hproxy
  rw [Traffic.handle] at hproxy ⊢
  cases hjob : t.jobs[i]? with
  | none =>
      rw [hjob] at hproxy
      refine ⟨?_, h.underway, h.finished⟩
      show (t.proxy.handle c (.answer i a)).1.suspended = _
      rw [show (t.proxy.handle c (.answer i a)).1 = _ from hproxy]
      exact h.suspended
  | some x =>
      obtain ⟨q, job⟩ := x
      dsimp only
      obtain ⟨hnull, -, hplanned⟩ := h.underway (q, job) (List.mem_of_getElem? hjob)
      have hplan := c.resume_continues t.proxy.served a hnull
      rw [hjob] at hproxy
      generalize q.later c = planned at hplan hplanned
      cases hhandled : c.resume t.proxy.served q a with
      | mk served handling =>
          simp only [Option.map_some, hhandled] at hproxy
          rw [hhandled] at hplan
          cases hplan with
          | done output =>
              refine ⟨?_, ?_, ?_⟩
              · show (t.proxy.handle c (.answer i a)).1.suspended = _
                rw [show (t.proxy.handle c (.answer i a)).1 = _ from hproxy]
                exact List.eraseIdx_map _ _ _
              · exact fun x hx => h.underway x (List.mem_of_mem_eraseIdx hx)
              · intro job' hjob'
                rcases List.mem_cons.mp hjob' with rfl | hold
                · rw [hplanned, List.append_nil]
                · exact h.finished job' hold
          | await q' hnull' =>
              refine ⟨?_, ?_, h.finished⟩
              · show (t.proxy.handle c (.answer i a)).1.suspended = _
                rw [show (t.proxy.handle c (.answer i a)).1 = _ from hproxy, List.map_set]
              · intro x hx
                rcases List.mem_or_eq_of_mem_set hx with hold | rfl
                · exact h.underway x hold
                · refine ⟨hnull', by simp, ?_⟩
                  show c.dispatch job.message = (job.posted ++ [q'.post]) ++ q'.later c
                  rw [List.append_assoc, List.singleton_append]
                  exact hplanned

theorem trafficInv_reach {es : List Incoming}
    (hrun : Reach (trafficStep c) (fun _ _ => True) Traffic.start es t) :
    TrafficInv c t := by
  refine hrun.invariant (P := TrafficInv c)
    ⟨rfl, fun _ hx => (by cases hx), fun _ hx => by cases hx⟩ ?_
  intro t e t' h _ hstep
  rw [← Except.ok.inj hstep]
  cases e with
  | connect ws => exact ⟨h.suspended, h.underway, h.finished⟩
  | close ws => exact ⟨h.suspended, h.underway, h.finished⟩
  | message ws data => exact h.message ws data
  | answer i a => exact h.answer i a

/-- An event adds the job of the message it is, if it is one. -/
theorem handle_sources (t : Traffic) (e : Incoming) :
    ((t.handle c e).all.map Job.source).Perm
      (t.all.map Job.source ++ received [e]) := by
  cases e with
  | connect ws => exact List.Perm.of_eq (List.append_nil _).symm
  | close ws => exact List.Perm.of_eq (List.append_nil _).symm
  | message ws data =>
      rw [Traffic.handle]
      split
      · refine List.Perm.of_eq ?_
        simp only [Traffic.all, List.map_append, List.map_cons, List.map_nil,
          ← List.append_assoc]
        rfl
      · exact (List.perm_append_singleton _ _).symm
  | answer i a =>
      rw [Traffic.handle]
      cases hjob : t.jobs[i]? with
      | none => exact List.Perm.of_eq (List.append_nil _).symm
      | some x =>
          obtain ⟨q, job⟩ := x
          obtain ⟨hlt, hget⟩ := List.getElem?_eq_some_iff.mp hjob
          have hold : (t.jobs.map Prod.snd).Perm (job :: (t.jobs.eraseIdx i).map Prod.snd) := by
            have hperm := (List.getElem_cons_eraseIdx_perm hlt).symm.map Prod.snd
            rwa [hget] at hperm
          have hbefore : (t.all.map Job.source).Perm
              (job.source :: (t.finished ++ (t.jobs.eraseIdx i).map Prod.snd).map
                Job.source) :=
            ((hold.append_left t.finished).trans List.perm_middle).map Job.source
          rw [show received [.answer i a] = [] from rfl, List.append_nil]
          dsimp only
          cases (c.resume t.proxy.served q a).2 with
          | done output => exact hbefore.symm
          | await q' =>
              have hnew := (List.set_perm_cons_eraseIdx hlt
                (q', ({ job with posted := job.posted ++ [q'.post] } : Job))).map Prod.snd
              exact (((hnew.append_left t.finished).trans List.perm_middle).map
                Job.source).trans hbefore.symm

end Traffic

/-- **Every request is posted once, and to the right endpoint.** In every run of the
    proxy, each message received has one job.  Once it is finished, the requests posted
    for it are its requests that are not about subscriptions, each once (and none if it
    holds null); as long as it is not, they are some of them, each once.  The miner is
    only sent single requests that are its own, the endpoint proper only requests in
    the white list, the test endpoint only such posts as hold one that is not; requests
    about subscriptions are sent to nobody. -/
theorem requests_posted_once {c : Config} {es : List Incoming} {t : Traffic}
    (hrun : Reach (trafficStep c) (fun _ _ => True) Traffic.start es t) :
    Reach (proxyStep c) (fun _ _ => True) Proxy.init es t.proxy ∧
    (t.all.map Job.source).Perm (received es) ∧
    (∀ job ∈ t.finished,
      (¬ HoldsNull job.message →
        (job.posted.flatMap Post.requests).Perm (c.outgoing job.message)) ∧
      (HoldsNull job.message → job.posted = [])) ∧
    (∀ x ∈ t.jobs, ∃ rest,
      (x.2.posted.flatMap Post.requests ++ rest).Perm (c.outgoing x.2.message)) ∧
    ∀ job ∈ t.all, ∀ post ∈ job.posted, Permitted c post := by
  have hinv := trafficInv_reach hrun
  have hprefix : ∀ job ∈ t.all, ∃ rest, c.dispatch job.message = job.posted ++ rest := by
    intro job hjob
    rcases List.mem_append.mp hjob with hfinished | hjobs
    · exact ⟨[], by rw [List.append_nil, hinv.finished job hfinished]⟩
    · obtain ⟨x, hx, rfl⟩ := List.mem_map.mp hjobs
      exact ⟨_, (hinv.underway x hx).2.2⟩
  refine ⟨?_, ?_, ?_, ?_, ?_⟩
  · clear hinv hprefix
    induction hrun with
    | start => exact .start
    | @step es t t' e _ _ hstep ih =>
        obtain rfl := Except.ok.inj hstep
        refine .step ih trivial ?_
        rw [proxyStep, handle_proxy]
  · clear hinv hprefix
    induction hrun with
    | start => exact List.Perm.refl _
    | @step es t t' e _ _ hstep ih =>
        obtain rfl := Except.ok.inj hstep
        refine (handle_sources t e).trans ?_
        rw [show received (es ++ [e]) = received es ++ received [e] from
          List.filterMap_append]
        exact ih.append_right _
  · intro job hjob
    rw [hinv.finished job hjob]
    exact ⟨dispatch_requests, dispatch_null⟩
  · intro x hx
    obtain ⟨-, hposted, hplanned⟩ := hinv.underway x hx
    refine ⟨(x.1.later c).flatMap Post.requests, ?_⟩
    rw [← List.flatMap_append, ← hplanned]
    refine dispatch_requests fun hnull => ?_
    -- a message that holds null is never suspended
    rw [dispatch_null hnull] at hplanned
    exact hposted (List.append_eq_nil_iff.mp hplanned.symm).1
  · intro job hjob post hpost
    obtain ⟨rest, hplanned⟩ := hprefix job hjob
    have hmem : post ∈ c.dispatch job.message := by
      rw [hplanned]
      exact List.mem_append_left _ hpost
    exact dispatch_permitted hmem

/-- A request in the white list, one for the miner and a subscription. -/
def plainErrand : Option Json :=
  some (.arr [.obj [("method", .str "eth_gasPrice")], plainCall [],
    plainSubscribe [.str "newHeads"]])

/-- Two posts, while another connection sends a request that is not in the white list;
    the connection is closed in between. -/
theorem requests_posted_once_plainErrand :
    ∃ t job, Reach (trafficStep plainConfig) (fun _ _ => True) Traffic.start
        [.connect 1, .connect 2, .message 1 plainErrand,
          .message 2 (some (.obj [("method", .str "net_version")])), .close 1,
          .answer 0 (.ok (.arr [])), .answer 0 (.fails "timeout")] t ∧
      job ∈ t.finished ∧ job.source = (1, plainErrand) ∧
      job.posted.map Post.endpoint = [.web3, .miner] ∧
      (job.posted.flatMap Post.requests).Perm (plainConfig.outgoing plainErrand) := by
  have hcheck : checkRun (trafficStep plainConfig) (fun _ _ => True) Traffic.start
      [.connect 1, .connect 2, .message 1 plainErrand,
        .message 2 (some (.obj [("method", .str "net_version")])), .close 1,
        .answer 0 (.ok (.arr [])), .answer 0 (.fails "timeout")] = true := rfl
  obtain ⟨t, ht⟩ := exists_reach hcheck
  have hfinished : t.finished.map (fun job => (job.source, job.posted.map Post.endpoint))
      = [((1, plainErrand), [.web3, .miner])] :=
    ht.eval (f := fun t => t.finished.map
      fun job => (job.source, job.posted.map Post.endpoint)) rfl
  obtain ⟨job, rest, hlist, hjob, -⟩ := List.map_eq_cons_iff.mp hfinished
  obtain ⟨hsource, hposted⟩ := Prod.mk.inj hjob
  have hmem : job ∈ t.finished := hlist ▸ List.mem_cons_self
  have hmessage : job.message = plainErrand := (Prod.mk.inj hsource).2
  have hnull : ¬ HoldsNull job.message := by
    rw [hmessage]
    rintro (hnull | ⟨data, hdata, hmem⟩)
    · cases hnull
    · cases hdata
      simp [plainCall, plainSubscribe] at hmem
  have hperm := ((requests_posted_once ht).2.2.1 job hmem).1 hnull
  rw [hmessage] at hperm
  exact ⟨t, job, ht, hmem, hsource, hposted, hperm⟩

end WsProxy

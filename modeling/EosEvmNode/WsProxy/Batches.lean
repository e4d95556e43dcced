import EosEvmNode.WsProxy.Replies
import Mathlib.Data.List.Perm.Basic

/-! # The answers of a batch

    The forwarded requests of a batch are answered by position, from the front of the
    endpoint's array.  JSON-RPC answers only the requests with an id, in any order.
    So the answers are those of the requests, each once, as long as no forwarded
    request without an id stands before one with an id: it takes the place of an
    answer, and the last request with an id gets an error besides. -/

namespace WsProxy

open Runs

/-- The id a response is for. -/
def Response.answeredId : Response → Option Json
  | .result id _ => id
  | .error id _ => id
  | .forwarded body => body.own "id"

/-- The ids that are present. -/
def idsOf (requests : List Json) : List Json :=
  requests.filterMap fun request => request.own "id"

def answeredIds (frame : List Response) : List Json :=
  frame.filterMap Response.answeredId

/-- The endpoint answers the requests that have an id, once each and in any order. -/
def EndpointObeys (requests bodies : List Json) : Prop :=
  (bodies.map fun body => body.own "id").Perm ((idsOf requests).map some)

/-- The answers to the requests of a batch obey JSON-RPC. -/
def Obeys : Suspended → HttpAnswer → Prop
  | .batchRpc _ requests _ _, a =>
      ∃ bodies, a = .ok (.arr bodies) ∧ EndpointObeys requests bodies
  | .batchMiner _ request _, a => MinerObeys request a
  | _, _ => True

/-- The responses of the endpoint. -/
def HttpAnswer.bodies : HttpAnswer → List Json
  | .ok (.arr bodies) => bodies
  | _ => []

/-- The requests of a batch, each with the response made for it when its turn comes.
    A subscription is handled by the server as it is by then.  A miner request is
    answered with what has been awaited for it, and the server is the one that the
    batch goes on with.  A forwarded request is answered by the endpoint. -/
def Config.made (c : Config) (ws : Ws) :
    Served → (Nat → Served × HttpAnswer) → List Json → List (Json × Option Response)
  | _, _, [] => []
  | s, answers, request :: rest =>
      match c.methodOf request with
      | .ok .ethSubscribe =>
          let (s, reply) := c.subscribe s ws request
          (request, some (respond (request.own "id") reply)) :: c.made ws s answers rest
      | .ok .ethUnsubscribe =>
          let (s, reply) := c.unsubscribe s ws request
          (request, some (respond (request.own "id") reply)) :: c.made ws s answers rest
      | .ok .miner =>
          (request, some (minerResponse request (answers 0).2))
            :: c.made ws (answers 0).1 (fun i => answers (i + 1)) rest
      | _ => (request, none) :: c.made ws s answers rest

/-- The same from the message on: the answer of the endpoint is awaited first, if there
    is something to forward. -/
def Config.madeFor (c : Config) (ws : Ws) (s : Served)
    (answers : Nat → Served × HttpAnswer) (data : List Json) :
    List (Json × Option Response) :=
  match data.filter c.isForwarded with
  | [] => c.made ws s answers data
  | _ :: _ => c.made ws (answers 0).1 (fun i => answers (i + 1)) data

/-- The response is the one produced for the request: the one made for it, or what the
    endpoint has answered it. -/
inductive Produced (bodies : List Json) (request : Json) :
    Option Response → Response → Prop where
  | made (response : Response) : Produced bodies request (some response) response
  | endpoint {body : Json} (answers : body ∈ bodies)
      (id : body.own "id" = request.own "id") :
      Produced bodies request none (.forwarded body)

/-- The frame answers the ids of the requests, each as often as it is asked, and every
    request with an id by the response produced for it. -/
structure Matched (bodies : List Json) (made : List (Json × Option Response))
    (frame : List Response) : Prop where
  ids : (answeredIds frame).Perm (idsOf (made.map Prod.fst))
  produced : ∀ p ∈ made, ∀ id ∈ p.1.own "id",
    ∃ response ∈ frame, response.answeredId = some id ∧ Produced bodies p.1 p.2 response

/-- No forwarded request without an id stands before one with an id. -/
def InOrder (c : Config) (data : List Json) : Prop :=
  (data.filter c.isForwarded).Pairwise fun x y =>
    (y.own "id").isSome = true → (x.own "id").isSome = true

section Ids

@[simp] theorem idsOf_nil : idsOf [] = [] := rfl

theorem idsOf_cons (request : Json) (rest : List Json) :
    idsOf (request :: rest) = (request.own "id").toList ++ idsOf rest := by
  rw [idsOf, List.filterMap_cons]
  cases request.own "id" <;> rfl

@[simp] theorem answeredIds_nil : answeredIds [] = [] := rfl

theorem answeredIds_cons (response : Response) (frame : List Response) :
    answeredIds (response :: frame) = response.answeredId.toList ++ answeredIds frame := by
  rw [answeredIds, List.filterMap_cons]
  cases response.answeredId <;> rfl

theorem respond_answeredId (id : Option Json) (reply : Reply) :
    (respond id reply).answeredId = id := by
  rw [respond]
  cases reply.value <;> rfl

theorem minerResponse_answeredId {request : Json} {answer : HttpAnswer}
    (h : MinerObeys request answer) :
    (minerResponse request answer).answeredId = request.own "id" := by
  cases answer with
  | ok body => exact h
  | fails message => rfl

/-- The ids of a batch are those of its forwarded requests and of the others. -/
theorem idsOf_perm (p : Json → Bool) (data : List Json) :
    (idsOf (data.filter fun request => !p request) ++ idsOf (data.filter p)).Perm
      (idsOf data) := by
  rw [idsOf, idsOf, ← List.filterMap_append]
  exact ((List.perm_append_comm).trans (List.filter_append_perm p data)).filterMap _

/-- **The requests with an id stand first** exactly when dropping as many requests as
    there are ids leaves none. -/
theorem idsOf_drop_eq_nil_iff (requests : List Json) :
    idsOf (requests.drop (idsOf requests).length) = [] ↔
      requests.Pairwise fun x y =>
        (y.own "id").isSome = true → (x.own "id").isSome = true := by
  induction requests with
  | nil => exact iff_of_true rfl .nil
  | cons request rest ih =>
      rw [idsOf_cons, List.pairwise_cons]
      cases hid : request.own "id" with
      | some id =>
          show idsOf ((request :: rest).drop ((idsOf rest).length + 1)) = [] ↔ _
          rw [List.drop_succ_cons, ih]
          exact ⟨fun h => ⟨fun _ _ _ => rfl, h⟩, fun h => h.2⟩
      | none =>
          show idsOf ((request :: rest).drop (idsOf rest).length) = [] ↔ _
          cases hids : idsOf rest with
          | nil =>
              -- nobody has an id
              have hnone : ∀ x ∈ rest, x.own "id" = none :=
                List.filterMap_eq_nil_iff.mp hids
              refine iff_of_true ?_ ⟨?_, ?_⟩
              · show idsOf (request :: rest) = []
                rw [idsOf_cons, hid, hids]
                rfl
              · intro x hx hsome
                rw [hnone x hx] at hsome
                cases hsome
              · refine ih.mp ?_
                rw [hids]
                exact hids
          | cons id ids =>
              refine iff_of_false ?_ ?_
              · -- one request fewer is dropped than there are ids
                intro hnil
                rw [List.length_cons, List.drop_succ_cons] at hnil
                have hsplit : idsOf rest
                    = idsOf (rest.take ids.length) ++ idsOf (rest.drop ids.length) := by
                  rw [idsOf, idsOf, idsOf, ← List.filterMap_append, List.take_append_drop]
                have hle : (idsOf (rest.take ids.length)).length ≤ ids.length :=
                  Nat.le_trans (List.length_filterMap_le _ _) (List.length_take_le _ _)
                have hlen := congrArg List.length hsplit
                rw [hnil, List.append_nil, hids, List.length_cons] at hlen
                omega
              · rintro ⟨hfirst, -⟩
                have hmem : id ∈ idsOf rest := by
                  rw [hids]
                  exact List.mem_cons_self
                obtain ⟨x, hx, hown⟩ := List.mem_filterMap.mp hmem
                have hsome := hfirst x hx (by rw [hown]; rfl)
                cases hsome

end Ids

/-! ## The frame of a batch -/

section Frames

variable {c : Config} {data bodies left known : List Json} {responses : List Response}

theorem filter_own {request : Json} (rest : List Json) (h : c.isForwarded request = false) :
    (request :: rest).filter (fun request => !c.isForwarded request)
        = request :: rest.filter (fun request => !c.isForwarded request) ∧
      (request :: rest).filter c.isForwarded = rest.filter c.isForwarded :=
  ⟨List.filter_cons_of_pos (by rw [h]; rfl), List.filter_cons_of_neg (by rw [h]; simp)⟩

theorem filter_forwarded {request : Json} (rest : List Json)
    (h : c.isForwarded request = true) :
    (request :: rest).filter (fun request => !c.isForwarded request)
        = rest.filter (fun request => !c.isForwarded request) ∧
      (request :: rest).filter c.isForwarded = request :: rest.filter c.isForwarded :=
  ⟨List.filter_cons_of_neg (by rw [h]; simp), List.filter_cons_of_pos h⟩

/-- **The ids a batch answers**: those of the requests it serves itself, those of the
    endpoint's array as far as it is handed out, and those of the forwarded requests
    that are left over. -/
theorem Pushed.ids (h : Pushed c data bodies responses left) :
    (answeredIds responses).Perm
      (idsOf (data.filter fun request => !c.isForwarded request)
        ++ (idsOf (bodies.take (data.filter c.isForwarded).length)
          ++ idsOf ((data.filter c.isForwarded).drop bodies.length))) := by
  -- a request that the batch serves itself is answered under its own id
  have hown : ∀ {request : Json} {rest bodies : List Json} {response : Response}
      {responses : List Response}, c.isForwarded request = false →
      response.answeredId = request.own "id" →
      (answeredIds responses).Perm
        (idsOf (rest.filter fun request => !c.isForwarded request)
          ++ (idsOf (bodies.take (rest.filter c.isForwarded).length)
            ++ idsOf ((rest.filter c.isForwarded).drop bodies.length))) →
      (answeredIds (response :: responses)).Perm
        (idsOf ((request :: rest).filter fun request => !c.isForwarded request)
          ++ (idsOf (bodies.take ((request :: rest).filter c.isForwarded).length)
            ++ idsOf (((request :: rest).filter c.isForwarded).drop bodies.length))) := by
    intro request rest bodies response responses hlocal hid ih
    obtain ⟨hothers, hforwarded⟩ := filter_own rest hlocal
    rw [hothers, hforwarded, answeredIds_cons, idsOf_cons, hid, List.append_assoc]
    exact ih.append_left _
  induction h with
  | nil bodies =>
      show List.Perm [] (idsOf (bodies.take 0) ++ idsOf ([].drop bodies.length))
      rw [List.take_zero, List.drop_nil]
      exact .nil
  | subscribe s ws method _ ih =>
      exact hown (by rw [Config.isForwarded, method]) (respond_answeredId _ _) ih
  | unsubscribe s ws method _ ih =>
      exact hown (by rw [Config.isForwarded, method]) (respond_answeredId _ _) ih
  | miner answer method obeys _ ih =>
      exact hown (by rw [Config.isForwarded, method]) (minerResponse_answeredId obeys) ih
  | @answered request body rest bodies left responses whitelisted method _ ih =>
      obtain ⟨hothers, hforwarded⟩ := filter_forwarded rest
        (show c.isForwarded request = true by rw [Config.isForwarded, method])
      rw [hothers, hforwarded, answeredIds_cons, List.length_cons, List.length_cons,
        List.take_succ_cons, List.drop_succ_cons, idsOf_cons, List.append_assoc]
      exact (ih.append_left _).trans (List.perm_append_comm_assoc _ _ _)
  | @unanswered request rest left responses message whitelisted method _ ih =>
      obtain ⟨hothers, hforwarded⟩ := filter_forwarded rest
        (show c.isForwarded request = true by rw [Config.isForwarded, method])
      rw [hothers, hforwarded, answeredIds_cons, List.take_nil, List.length_nil,
        List.drop_zero, idsOf_cons]
      rw [List.take_nil, List.length_nil, List.drop_zero] at ih
      exact (ih.append_left _).trans (List.perm_append_comm_assoc _ _ _)

/-- The endpoint's array is handed out from the front. -/
theorem Pushed.handedOut (h : Pushed c data bodies responses left) :
    ∀ body ∈ bodies.take (data.filter c.isForwarded).length,
      .forwarded body ∈ responses := by
  have hown : ∀ {request : Json} {rest bodies : List Json} {response : Response}
      {responses : List Response}, c.isForwarded request = false →
      (∀ body ∈ bodies.take (rest.filter c.isForwarded).length,
        .forwarded body ∈ responses) →
      ∀ body ∈ bodies.take ((request :: rest).filter c.isForwarded).length,
        .forwarded body ∈ response :: responses := by
    intro request rest bodies response responses hlocal ih body hbody
    rw [(filter_own _ hlocal).2] at hbody
    exact List.mem_cons_of_mem _ (ih body hbody)
  induction h with
  | nil bodies =>
      intro body hbody
      rw [List.filter_nil, List.length_nil, List.take_zero] at hbody
      cases hbody
  | subscribe s ws method _ ih => exact hown (by rw [Config.isForwarded, method]) ih
  | unsubscribe s ws method _ ih => exact hown (by rw [Config.isForwarded, method]) ih
  | miner answer method obeys _ ih => exact hown (by rw [Config.isForwarded, method]) ih
  | @answered request body rest bodies left responses whitelisted method _ ih =>
      intro b hb
      rw [(filter_forwarded _ (show c.isForwarded request = true by
        rw [Config.isForwarded, method])).2, List.length_cons, List.take_succ_cons] at hb
      rcases List.mem_cons.mp hb with rfl | hmem
      · exact List.mem_cons_self
      · exact List.mem_cons_of_mem _ (ih b hmem)
  | unanswered message whitelisted method _ ih =>
      intro b hb
      rw [List.take_nil] at hb
      cases hb

theorem EndpointObeys.bodies_length {requests : List Json}
    (h : EndpointObeys requests bodies) : bodies.length = (idsOf requests).length := by
  have hlen := List.Perm.length_eq h
  rwa [List.length_map, List.length_map] at hlen

theorem EndpointObeys.ids {requests : List Json} (h : EndpointObeys requests bodies) :
    (idsOf bodies).Perm (idsOf requests) := by
  have hperm := List.Perm.filterMap id h
  rw [List.filterMap_map, List.filterMap_map] at hperm
  have hsome : (idsOf requests).filterMap (id ∘ some) = idsOf requests :=
    List.filterMap_some
  rw [hsome] at hperm
  exact hperm

/-- **The frame of a batch matches** exactly when its forwarded requests are in order. -/
theorem Pushed.matched_iff (h : Pushed c data bodies responses left)
    (hobeys : EndpointObeys (data.filter c.isForwarded) bodies)
    (hknown : ∀ body ∈ bodies, body ∈ known) {made : List (Json × Option Response)}
    (hdata : made.map Prod.fst = data)
    (hmade : ∀ p ∈ made, ∀ r ∈ p.2, r ∈ responses ∧ r.answeredId = p.1.own "id")
    (hforwarded : ∀ p ∈ made, p.2 = none → c.isForwarded p.1 = true) :
    Matched known made responses ↔ InOrder c data := by
  have hlen := hobeys.bodies_length
  have hle : bodies.length ≤ (data.filter c.isForwarded).length := by
    rw [hlen]
    exact List.length_filterMap_le _ _
  have htake := List.take_of_length_le hle
  -- the ids of the batch, and once more those of the requests that are left over
  have hids : (answeredIds responses).Perm (idsOf data
      ++ idsOf ((data.filter c.isForwarded).drop
        (idsOf (data.filter c.isForwarded)).length)) := by
    have hpushed := h.ids
    rw [htake, hlen, ← List.append_assoc] at hpushed
    exact hpushed.trans (((hobeys.ids.append_left _).trans
      (idsOf_perm c.isForwarded data)).append_right _)
  rw [InOrder, ← idsOf_drop_eq_nil_iff]
  constructor
  · intro hmatched
    have hlength := (hids.symm.trans (hdata ▸ hmatched.ids)).length_eq
    rw [List.length_append] at hlength
    exact List.eq_nil_of_length_eq_zero (by omega)
  · intro hnil
    rw [hnil, List.append_nil] at hids
    refine ⟨hdata.symm ▸ hids, ?_⟩
    rintro ⟨request, response⟩ hmem id hid
    have hrequest : request ∈ data := hdata ▸ List.mem_map_of_mem hmem
    cases response with
    | some response =>
        obtain ⟨hsent, hanswers⟩ := hmade _ hmem response rfl
        exact ⟨response, hsent, hanswers.trans hid, .made response⟩
    | none =>
        -- the endpoint has answered it, and every answer of it is handed out
        have hin : id ∈ idsOf (data.filter c.isForwarded) :=
          List.mem_filterMap.mpr ⟨request,
            List.mem_filter.mpr ⟨hrequest, hforwarded _ hmem rfl⟩, hid⟩
        obtain ⟨body, hbody, hown⟩ :=
          List.mem_filterMap.mp (hobeys.ids.symm.subset hin)
        refine ⟨.forwarded body, h.handedOut body (by rwa [htake]), hown, ?_⟩
        exact .endpoint (hknown body hbody) (hown.trans hid.symm)

/-! ## Runs of a batch -/

/-- The answers to all requests of a handled message obey JSON-RPC. -/
def AllObey (c : Config) (answers : Nat → Served × HttpAnswer) (h : Handling) : Prop :=
  ∀ n p, c.answered answers n h = .await p → Obeys p (answers n).2

theorem AllObey.resume {answers : Nat → Served × HttpAnswer} {p : Suspended}
    (h : AllObey c answers (.await p)) :
    AllObey c (fun i => answers (i + 1))
      (c.resume (answers 0).1 p (answers 0).2).2 :=
  fun n q hq => h (n + 1) q hq

/-- A batch goes on with the response to its miner request. -/
theorem Config.resume_miner (s : Served) (batch : Batch) (request : Json)
    (later : List Json) (answer : HttpAnswer) :
    (c.resume s (.batchMiner batch request later) answer).2
      = (c.runBatch s { batch with
          responses := batch.responses ++ [minerResponse request answer] } later).2 := by
  cases answer <;> rfl

/-- **The run lemma**: in the end a batch has been answered request by request. -/
theorem Reaches.pushed {batch : Batch} {rest : List Json} {h : Handling}
    (hreaches : Reaches c batch rest h) (hnull : .null ∉ rest)
    {answers : Nat → Served × HttpAnswer} {n : Nat} {ws : Ws} {frame : ReplyFrame}
    (hobeys : AllObey c answers h)
    (hdone : c.answered answers n h = .done (.sent ws frame)) :
    ∃ responses left, frame = .batch (batch.responses ++ responses) ∧
      Pushed c rest batch.rpcResponses responses left := by
  induction n generalizing batch rest h answers with
  | zero =>
      cases hreaches with
      | finished pushed =>
          cases hdone
          exact ⟨_, _, rfl, pushed⟩
      | waits split method pushed => cases hdone
  | succ n ih =>
      cases hreaches with
      | finished pushed =>
          cases hdone
          exact ⟨_, _, rfl, pushed⟩
      | @waits before later left request responses split method pushed =>
          have hminer : MinerObeys request (answers 0).2 := hobeys 0 _ rfl
          have hlater : .null ∉ later := by
            intro hmem
            rw [split] at hnull
            exact hnull (List.mem_append_right _ (List.mem_cons_of_mem _ hmem))
          have hnext := hobeys.resume
          rw [c.resume_miner] at hnext
          rw [Config.answered, c.resume_miner] at hdone
          obtain ⟨responses', left', hframe, hpushed⟩ :=
            ih (c.runBatch_reaches (answers 0).1 _ hlater) hlater hnext hdone
          refine ⟨responses ++ minerResponse request (answers 0).2 :: responses', left',
            ?_, ?_⟩
          · rw [hframe, List.append_assoc, List.append_assoc]
            rfl
          · rw [split]
            exact pushed.append (.miner _ method hminer hpushed)

/-! ## What is made for a request is sent -/

theorem Config.made_fst (c : Config) (ws : Ws) (s : Served)
    (answers : Nat → Served × HttpAnswer) (data : List Json) :
    (c.made ws s answers data).map Prod.fst = data := by
  induction data generalizing s answers with
  | nil => rfl
  | cons request rest ih =>
      rw [Config.made]
      split <;> exact congrArg (request :: ·) (ih _ _)

/-- Nothing is made for the forwarded requests only. -/
theorem Config.made_none (c : Config) {ws : Ws} {s : Served}
    {answers : Nat → Served × HttpAnswer} (hnull : .null ∉ data) :
    ∀ p ∈ c.made ws s answers data, p.2 = none → c.isForwarded p.1 = true := by
  induction data generalizing s answers with
  | nil => rintro p ⟨⟩
  | cons request rest ih =>
      have hrest : .null ∉ rest := fun hmem => hnull (List.mem_cons_of_mem _ hmem)
      obtain ⟨method, hmethod⟩ := c.methodOf_ok fun heq =>
        hnull (heq ▸ List.mem_cons_self)
      intro p hp hnone
      rw [Config.made, hmethod] at hp
      cases method with
      | other whitelisted =>
          rcases List.mem_cons.mp hp with rfl | hmem
          · show c.isForwarded request = true
            rw [Config.isForwarded, hmethod]
          · exact ih hrest p hmem hnone
      | _ =>
          rcases List.mem_cons.mp hp with rfl | hmem
          · cases hnone
          · exact ih hrest p hmem hnone

/-- **What is made for a request is sent**, under the id of the request. -/
theorem Config.made_sent {batch : Batch} {rest : List Json} {s : Served}
    {answers : Nat → Served × HttpAnswer} {n : Nat} {ws : Ws} {frame : List Response}
    (hnull : .null ∉ rest) (hobeys : AllObey c answers (c.runBatch s batch rest).2)
    (hdone : c.answered answers n (c.runBatch s batch rest).2
      = .done (.sent ws (.batch frame))) :
    (∀ r ∈ batch.responses, r ∈ frame) ∧
      ∀ p ∈ c.made batch.ws s answers rest, ∀ r ∈ p.2,
        r ∈ frame ∧ r.answeredId = p.1.own "id" := by
  induction rest generalizing s batch answers n with
  | nil =>
      rw [Config.runBatch, c.answered_done] at hdone
      cases hdone
      exact ⟨fun r hr => hr, by rintro p ⟨⟩⟩
  | cons request rest ih =>
      have hrest : .null ∉ rest := fun hmem => hnull (List.mem_cons_of_mem _ hmem)
      obtain ⟨method, hmethod⟩ := c.methodOf_ok fun heq =>
        hnull (heq ▸ List.mem_cons_self)
      -- one more response at the end of those so far
      have hpush : ∀ {response : Response} {made : List (Json × Option Response)},
          response.answeredId = request.own "id" →
          (∀ r ∈ batch.responses ++ [response], r ∈ frame) ∧
            (∀ p ∈ made, ∀ r ∈ p.2, r ∈ frame ∧ r.answeredId = p.1.own "id") →
          (∀ r ∈ batch.responses, r ∈ frame) ∧
            ∀ p ∈ (request, some response) :: made, ∀ r ∈ p.2,
              r ∈ frame ∧ r.answeredId = p.1.own "id" := by
        rintro response made hid ⟨hsent, hmade⟩
        refine ⟨fun r hr => hsent r (List.mem_append_left _ hr), ?_⟩
        intro p hp r hr
        rcases List.mem_cons.mp hp with rfl | hmem
        · obtain rfl := Option.some.inj hr
          exact ⟨hsent _ (List.mem_append_right _ (List.mem_singleton_self _)), hid⟩
        · exact hmade p hmem r hr
      rw [Config.runBatch, hmethod] at hobeys hdone
      rw [Config.made, hmethod]
      cases method with
      | ethSubscribe => exact hpush (respond_answeredId _ _) (ih hrest hobeys hdone)
      | ethUnsubscribe => exact hpush (respond_answeredId _ _) (ih hrest hobeys hdone)
      | miner =>
          cases n with
          | zero => cases hdone
          | succ n =>
              have hminer : MinerObeys request (answers 0).2 := hobeys 0 _ rfl
              have hnext := hobeys.resume
              rw [c.resume_miner] at hnext
              rw [Config.answered, c.resume_miner] at hdone
              exact hpush (minerResponse_answeredId hminer) (ih hrest hnext hdone)
      | other whitelisted =>
          -- nothing is made here; the response is one of the endpoint or an error
          have hskip : ∀ {responses : List Response} {made : List (Json × Option Response)},
              (∀ r ∈ batch.responses ++ responses, r ∈ frame) ∧
                (∀ p ∈ made, ∀ r ∈ p.2, r ∈ frame ∧ r.answeredId = p.1.own "id") →
              (∀ r ∈ batch.responses, r ∈ frame) ∧
                ∀ p ∈ (request, (none : Option Response)) :: made, ∀ r ∈ p.2,
                  r ∈ frame ∧ r.answeredId = p.1.own "id" := by
            rintro responses made ⟨hsent, hmade⟩
            refine ⟨fun r hr => hsent r (List.mem_append_left _ hr), ?_⟩
            intro p hp r hr
            rcases List.mem_cons.mp hp with rfl | hmem
            · cases hr
            · exact hmade p hmem r hr
          cases hbodies : batch.rpcResponses with
          | cons body bodies =>
              rw [hbodies] at hobeys hdone
              exact hskip (ih hrest hobeys hdone)
          | nil =>
              rw [hbodies] at hobeys hdone
              exact hskip (ih hrest hobeys hdone)

end Frames

/-- **The frame of a batch answers its requests**, each by the response produced for it
    and no id twice, exactly when no forwarded request without an id stands before one with
    an id. -/
theorem batch_matched_iff (c : Config) (s : Served) (ws : Ws) {data : List Json}
    (hnull : .null ∉ data) {answers : Nat → Served × HttpAnswer}
    (hobeys : AllObey c answers (c.handleMessage s ws (some (.arr data))).2) :
    ∃ frame, c.answered answers (data.length + 1)
        (c.handleMessage s ws (some (.arr data))).2 = .done (.sent ws (.batch frame)) ∧
      (Matched (answers 0).2.bodies (c.madeFor ws s answers data) frame ↔
        InOrder c data) := by
  have hmessage : ¬ HoldsNull (some (.arr data)) := by
    rintro (heq | ⟨data', heq, hmem⟩)
    · cases heq
    · cases heq
      exact hnull hmem
  have hsettles : Settles ws (awaits (some (.arr data)))
      (c.handleMessage s ws (some (.arr data))).2 := c.handleMessage_settles s hmessage
  obtain ⟨frame, hframe⟩ := hsettles.answered answers _ (Nat.le_refl _)
  have hdone : c.answered answers (data.length + 1)
      (c.handleMessage s ws (some (.arr data))).2 = .done (.sent ws frame) := hframe
  obtain ⟨useTestRpc, hforwarded⟩ := c.forwarded_ok hnull
  rw [Config.handleMessage, hforwarded] at hobeys hdone
  rw [Config.madeFor]
  cases hrequests : data.filter c.isForwarded with
  | nil =>
      -- nothing is forwarded
      rw [hrequests] at hobeys hdone
      obtain ⟨responses, left, rfl, hpushed⟩ :=
        (c.runBatch_reaches s ⟨ws, [], .null, []⟩ hnull).pushed hnull hobeys hdone
      have hbodies : EndpointObeys (data.filter c.isForwarded) [] := by
        rw [hrequests]
        exact .nil
      exact ⟨responses, hframe, hpushed.matched_iff hbodies (by rintro body ⟨⟩)
        (c.made_fst _ _ _ _) (Config.made_sent hnull hobeys hdone).2 (c.made_none hnull)⟩
  | cons first more =>
      rw [hrequests] at hobeys hdone
      obtain ⟨bodies, hanswer, hbodies⟩ := hobeys 0 _ rfl
      have hresume : (c.resume (answers 0).1
            (.batchRpc ws (first :: more) useTestRpc data) (answers 0).2).2
          = (c.runBatch (answers 0).1 ⟨ws, bodies, .null, []⟩ data).2 := by
        rw [hanswer]
        rfl
      have hnext := hobeys.resume
      rw [hresume] at hnext
      rw [Config.answered, hresume] at hdone
      obtain ⟨responses, left, rfl, hpushed⟩ :=
        (c.runBatch_reaches (answers 0).1 ⟨ws, bodies, .null, []⟩ hnull).pushed
          hnull hnext hdone
      have hknown : ∀ body ∈ bodies, body ∈ (answers 0).2.bodies := by
        intro body hbody
        rw [hanswer]
        exact hbody
      exact ⟨responses, hframe, hpushed.matched_iff (hrequests ▸ hbodies) hknown
        (c.made_fst _ _ _ _) (Config.made_sent hnull hnext hdone).2 (c.made_none hnull)⟩

/-! ## A request without an id -/

/-- A call of a whitelisted method. -/
def plainCall (id : List (String × Json)) : Json :=
  .obj (id ++ [("method", .str "eth_chainId")])

/-- The endpoint's answer to request 1, and then the miner's to request 2. -/
def plainAnswers : Nat → Served × HttpAnswer
  | 0 => (⟨Server.init, 0⟩, .ok (.arr [.obj [("id", .num "1"), ("result", .str "0x1")]]))
  | _ => (⟨Server.init, 0⟩, .ok (.obj [("id", .num "2"), ("result", .str "0x2")]))

theorem AllObey.done {c : Config} {answers : Nat → Served × HttpAnswer} {output : Output} :
    AllObey c answers (.done output) := by
  intro n p hp
  rw [c.answered_done] at hp
  cases hp

theorem AllObey.await {c : Config} {answers : Nat → Served × HttpAnswer} {p : Suspended}
    (hobeys : Obeys p (answers 0).2)
    (hnext : AllObey c (fun i => answers (i + 1))
      (c.resume (answers 0).1 p (answers 0).2).2) :
    AllObey c answers (.await p) := by
  intro n q hq
  cases n with
  | zero =>
      cases hq
      exact hobeys
  | succ n => exact hnext n q hq

/-- A miner request, a subscription, and two forwarded requests. -/
def plainMixed : List Json :=
  [.obj [("id", .num "2"), ("method", .str "eth_gasPrice")],
    .obj [("id", .num "3"), ("method", .str "eth_subscribe"),
      ("params", .arr [.str "newHeads"])],
    plainCall [("id", .num "1")], plainCall []]

theorem batch_matched_plainMixed :
    ∃ frame, plainConfig.answered plainAnswers 5
        (plainConfig.handleMessage ⟨Server.init, 0⟩ 1 (some (.arr plainMixed))).2
        = .done (.sent 1 (.batch frame)) ∧
      Matched (plainAnswers 0).2.bodies
        (plainConfig.madeFor 1 ⟨Server.init, 0⟩ plainAnswers plainMixed) frame := by
  have hobeys : AllObey plainConfig plainAnswers
      (plainConfig.handleMessage ⟨Server.init, 0⟩ 1 (some (.arr plainMixed))).2 :=
    .await ⟨_, rfl, .refl _⟩ (.await rfl .done)
  have hnull : Json.null ∉ plainMixed := by
    simp [plainMixed, plainCall]
  obtain ⟨frame, hframe, hiff⟩ :=
    batch_matched_iff plainConfig ⟨Server.init, 0⟩ 1 hnull hobeys
  refine ⟨frame, hframe, hiff.mpr ?_⟩
  show List.Pairwise _ [plainCall [("id", .num "1")], plainCall []]
  simp [plainCall, Json.own]

/-- **Request 1 is answered twice**, by the endpoint and with an error, when a request
    without an id stands before it. -/
theorem not_matched_plainCalls :
    AllObey plainConfig plainAnswers
      (plainConfig.handleMessage ⟨Server.init, 0⟩ 1
        (some (.arr [plainCall [], plainCall [("id", .num "1")]]))).2 ∧
    plainConfig.answered plainAnswers 3
      (plainConfig.handleMessage ⟨Server.init, 0⟩ 1
        (some (.arr [plainCall [], plainCall [("id", .num "1")]]))).2
      = .done (.sent 1 (.batch [
        .forwarded (.obj [("id", .num "1"), ("result", .str "0x1")]),
        .error (some (.num "1")) .null])) ∧
    ¬ Matched (plainAnswers 0).2.bodies
      (plainConfig.madeFor 1 ⟨Server.init, 0⟩ plainAnswers
        [plainCall [], plainCall [("id", .num "1")]])
      [.forwarded (.obj [("id", .num "1"), ("result", .str "0x1")]),
        .error (some (.num "1")) .null] := by
  refine ⟨.await ⟨_, rfl, .refl _⟩ .done, rfl, ?_⟩
  intro hmatched
  have hlength : 2 = 1 := hmatched.ids.length_eq
  omega

end WsProxy

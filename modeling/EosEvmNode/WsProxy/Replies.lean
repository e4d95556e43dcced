import EosEvmNode.WsProxy.Connections

/-! # One answer to each message

    A message is answered in one frame, at the end of `handle_message`, whatever its
    requests to the endpoints come to.  The one thing that is read outside of the
    `try` blocks is `method`: of `null` this raises a `TypeError`, which rejects the
    promise of the message. -/

namespace WsProxy

open Runs

/-- A handled message goes on with the answers to its requests, in turn, and with the
    server as it is by then. -/
def Config.answered (c : Config) : (Nat → Served × HttpAnswer) → Nat → Handling → Handling
  | _, 0, h => h
  | answers, n + 1, .await p =>
      c.answered (fun i => answers (i + 1)) n (c.resume (answers 0).1 p (answers 0).2).2
  | _, _ + 1, .done output => .done output

/-- How often a message waits at most. -/
def awaits : Option Json → Nat
  | some (.arr data) => data.length + 1
  | some _ => 1
  | none => 0

/-- Null, or a batch that holds one. -/
def HoldsNull (message : Option Json) : Prop :=
  message = some .null ∨ ∃ data, message = some (.arr data) ∧ .null ∈ data

/-- What a miner's answer to a request of a batch is answered with. -/
def minerResponse (request : Json) : HttpAnswer → Response
  | .ok body => .forwarded body
  | .fails message => .error (request.own "id") (.thrown (.error message))

/-- The answers of a miner obey JSON-RPC: they carry the id of the request. -/
def MinerObeys (request : Json) : HttpAnswer → Prop
  | .ok body => body.own "id" = request.own "id"
  | .fails _ => True

/-- The responses that a part of a batch is answered with, given what is left of the
    endpoint's array before and after it. -/
inductive Pushed (c : Config) :
    List Json → List Json → List Response → List Json → Prop where
  | nil (bodies : List Json) : Pushed c [] bodies [] bodies
  | subscribe {request : Json} {rest bodies left : List Json} {responses : List Response}
      (s : Served) (ws : Ws) (method : c.methodOf request = .ok .ethSubscribe)
      (later : Pushed c rest bodies responses left) :
      Pushed c (request :: rest) bodies
        (respond (request.own "id") (c.subscribe s ws request).2 :: responses) left
  | unsubscribe {request : Json} {rest bodies left : List Json} {responses : List Response}
      (s : Served) (ws : Ws) (method : c.methodOf request = .ok .ethUnsubscribe)
      (later : Pushed c rest bodies responses left) :
      Pushed c (request :: rest) bodies
        (respond (request.own "id") (c.unsubscribe s ws request).2 :: responses) left
  | miner {request : Json} {rest bodies left : List Json} {responses : List Response}
      (answer : HttpAnswer) (method : c.methodOf request = .ok .miner)
      (obeys : MinerObeys request answer) (later : Pushed c rest bodies responses left) :
      Pushed c (request :: rest) bodies (minerResponse request answer :: responses) left
  | answered {request body : Json} {rest bodies left : List Json}
      {responses : List Response} (whitelisted : Bool)
      (method : c.methodOf request = .ok (.other whitelisted))
      (later : Pushed c rest bodies responses left) :
      Pushed c (request :: rest) (body :: bodies) (.forwarded body :: responses) left
  | unanswered {request : Json} {rest left : List Json} {responses : List Response}
      (message : ErrorMessage) (whitelisted : Bool)
      (method : c.methodOf request = .ok (.other whitelisted))
      (later : Pushed c rest [] responses left) :
      Pushed c (request :: rest) [] (.error (request.own "id") message :: responses) left

section Batches

variable {c : Config} {ws : Ws}

/-- Parts of a batch are answered one after the other. -/
theorem Pushed.append {xs ys bodies middle left : List Json} {rs rs' : List Response}
    (h : Pushed c xs bodies rs middle) (h' : Pushed c ys middle rs' left) :
    Pushed c (xs ++ ys) bodies (rs ++ rs') left := by
  induction h with
  | nil bodies => exact h'
  | subscribe s ws method _ ih => exact .subscribe s ws method (ih h')
  | unsubscribe s ws method _ ih => exact .unsubscribe s ws method (ih h')
  | miner answer method obeys _ ih => exact .miner answer method obeys (ih h')
  | answered whitelisted method _ ih => exact .answered whitelisted method (ih h')
  | unanswered message whitelisted method _ ih =>
      exact .unanswered message whitelisted method (ih h')

/-- How far a batch gets: to its end, or to its next miner request. -/
inductive Reaches (c : Config) (batch : Batch) (data : List Json) : Handling → Prop where
  | finished {responses : List Response} {left : List Json}
      (pushed : Pushed c data batch.rpcResponses responses left) :
      Reaches c batch data
        (.done (.sent batch.ws (.batch (batch.responses ++ responses))))
  | waits {before rest left : List Json} {request : Json} {responses : List Response}
      (split : data = before ++ request :: rest)
      (method : c.methodOf request = .ok .miner)
      (pushed : Pushed c before batch.rpcResponses responses left) :
      Reaches c batch data (.await (.batchMiner
        { batch with rpcResponses := left, responses := batch.responses ++ responses }
        request rest))

/-- One more request in front, answered with `response`. -/
theorem Reaches.cons {batch : Batch} {request : Json} {rest bodies : List Json}
    {response : Response} {h : Handling}
    (hpushed : ∀ {xs responses left}, Pushed c xs bodies responses left →
      Pushed c (request :: xs) batch.rpcResponses (response :: responses) left)
    (hreaches : Reaches c { batch with
      rpcResponses := bodies
      responses := batch.responses ++ [response] } rest h) :
    Reaches c batch (request :: rest) h := by
  cases hreaches with
  | @finished responses left pushed =>
      have hall : Reaches c batch (request :: rest) _ := .finished (hpushed pushed)
      rw [List.append_cons batch.responses] at hall
      exact hall
  | @waits before after left miner responses split method pushed =>
      subst split
      have hall : Reaches c batch (request :: (before ++ miner :: after)) _ :=
        .waits (List.cons_append).symm method (hpushed pushed)
      rw [List.append_cons batch.responses] at hall
      exact hall

/-- Of the JSON values only null has no members to read. -/
theorem Config.methodOf_ok (c : Config) {request : Json} (h : request ≠ .null) :
    ∃ method, c.methodOf request = .ok method := by
  cases request with
  | null => exact absurd rfl h
  | _ => exact ⟨_, rfl⟩

/-- **The second loop over a batch** raises nothing when no element is null. -/
theorem Config.runBatch_reaches (s : Served) (batch : Batch) {data : List Json}
    (hnull : .null ∉ data) : Reaches c batch data (c.runBatch s batch data).2 := by
  induction data generalizing s batch with
  | nil =>
      have hall : Reaches c batch [] _ := .finished (.nil batch.rpcResponses)
      rw [List.append_nil] at hall
      exact hall
  | cons request rest ih =>
      have hrest : .null ∉ rest := fun hmem => hnull (List.mem_cons_of_mem _ hmem)
      obtain ⟨method, hmethod⟩ := c.methodOf_ok fun heq =>
        hnull (heq ▸ List.mem_cons_self)
      rw [Config.runBatch, hmethod]
      cases method with
      | ethSubscribe =>
          exact Reaches.cons (.subscribe s batch.ws hmethod)
            (ih (c.subscribe s batch.ws request).1 { batch with
              responses := batch.responses
                ++ [respond (request.own "id") (c.subscribe s batch.ws request).2] }
              hrest)
      | ethUnsubscribe =>
          exact Reaches.cons (.unsubscribe s batch.ws hmethod)
            (ih (c.unsubscribe s batch.ws request).1 { batch with
              responses := batch.responses
                ++ [respond (request.own "id") (c.unsubscribe s batch.ws request).2] }
              hrest)
      | miner =>
          have hwaits : Reaches c batch (request :: rest) _ :=
            .waits (List.nil_append _).symm hmethod (.nil batch.rpcResponses)
          rw [List.append_nil] at hwaits
          exact hwaits
      | other whitelisted =>
          cases hbodies : batch.rpcResponses with
          | cons body bodies =>
              refine Reaches.cons ?_ (ih s { batch with
                rpcResponses := bodies
                responses := batch.responses ++ [.forwarded body] } hrest)
              intro xs responses left hpushed
              rw [hbodies]
              exact .answered whitelisted hmethod hpushed
          | nil =>
              refine Reaches.cons ?_ (ih s { batch with
                rpcResponses := []
                responses := batch.responses
                  ++ [.error (request.own "id") batch.rpcError] } hrest)
              intro xs responses left hpushed
              rw [hbodies]
              exact .unanswered batch.rpcError whitelisted hmethod hpushed

/-! ## Whole messages -/

/-- Is this request forwarded to the endpoint? -/
def Config.isForwarded (c : Config) (request : Json) : Bool :=
  match c.methodOf request with
  | .ok (.other _) => true
  | _ => false

/-- The first loop over a batch raises nothing when no element is null. -/
theorem Config.forwarded_ok {data : List Json} (hnull : .null ∉ data) :
    ∃ useTestRpc, c.forwarded data = .ok (data.filter c.isForwarded, useTestRpc) := by
  induction data with
  | nil => exact ⟨false, rfl⟩
  | cons request rest ih =>
      obtain ⟨useTestRpc, hrest⟩ := ih fun hmem => hnull (List.mem_cons_of_mem _ hmem)
      obtain ⟨method, hmethod⟩ := c.methodOf_ok fun heq =>
        hnull (heq ▸ List.mem_cons_self)
      rw [Config.forwarded, hrest, hmethod]
      cases method with
      | other whitelisted =>
          rw [List.filter_cons_of_pos (by rw [Config.isForwarded, hmethod])]
          exact ⟨_, rfl⟩
      | _ =>
          rw [List.filter_cons_of_neg (by simp [Config.isForwarded, hmethod])]
          exact ⟨useTestRpc, rfl⟩

/-- A null among the elements stops it. -/
theorem Config.forwarded_null {data : List Json} (hnull : .null ∈ data) :
    c.forwarded data = .error .typeError := by
  induction data with
  | nil => cases hnull
  | cons request rest ih =>
      rw [Config.forwarded]
      cases request with
      | null => rfl
      | _ =>
          have hrest : .null ∈ rest := by
            rcases List.mem_cons.mp hnull with heq | hmem
            · cases heq
            · exact hmem
          rw [ih hrest]
          rfl

/-- The message is answered, or waits with fewer than `n` requests of its batch left,
    none of them null. -/
def Settles (ws : Ws) (n : Nat) (h : Handling) : Prop :=
  (∃ frame, h = .done (.sent ws frame)) ∨
  ∃ p, h = .await p ∧ p.ws = ws ∧ .null ∉ p.requests ∧ p.requests.length < n

theorem Reaches.settles {batch : Batch} {data : List Json} {h : Handling}
    (hreaches : Reaches c batch data h) (hnull : .null ∉ data) :
    Settles batch.ws data.length h := by
  cases hreaches with
  | finished pushed => exact Or.inl ⟨_, rfl⟩
  | @waits before rest left request responses split method pushed =>
      refine Or.inr ⟨_, rfl, rfl, ?_, ?_⟩
      · intro hmem
        rw [split] at hnull
        exact hnull (List.mem_append_right _ (List.mem_cons_of_mem _ hmem))
      · rw [split, List.length_append, List.length_cons]
        show rest.length < before.length + (rest.length + 1)
        omega

/-- A suspended message goes on without an exception. -/
theorem Config.resume_settles (s : Served) {p : Suspended} (a : HttpAnswer)
    (hnull : .null ∉ p.requests) :
    Settles p.ws p.requests.length (c.resume s p a).2 := by
  cases p with
  | batchRpc ws requests useTestRpc data =>
      cases a with
      | ok body =>
          cases body with
          | arr bodies =>
              exact (c.runBatch_reaches s ⟨ws, bodies, .null, []⟩ hnull).settles hnull
          | _ =>
              exact (c.runBatch_reaches s ⟨ws, [], .serverBody _, []⟩ hnull).settles hnull
      | fails message =>
          exact (c.runBatch_reaches s ⟨ws, [], .serverError message, []⟩ hnull).settles hnull
  | batchMiner batch request rest =>
      cases a with
      | ok body =>
          exact (c.runBatch_reaches s { batch with
            responses := batch.responses ++ [.forwarded body] } hnull).settles hnull
      | fails message =>
          exact (c.runBatch_reaches s { batch with responses := batch.responses
            ++ [.error (request.own "id") (.thrown (.error message))] } hnull).settles hnull
  | singleMiner ws data => cases a <;> exact Or.inl ⟨_, rfl⟩
  | singleOther ws data useTestRpc => cases a <;> exact Or.inl ⟨_, rfl⟩

/-- A message is handled without an exception, up to its first `await`. -/
theorem Config.handleMessage_settles (s : Served) {message : Option Json}
    (hnull : ¬ HoldsNull message) :
    Settles ws (awaits message) (c.handleMessage s ws message).2 := by
  cases message with
  | none => exact Or.inl ⟨_, rfl⟩
  | some data =>
      have hsingle : ∀ data : Json, data ≠ .null →
          Settles ws 1 (c.handleSingle s ws data).2 := by
        intro data hdata
        rw [Config.handleSingle]
        cases hmethod : c.methodOf data with
        | error e =>
            cases data with
            | null => exact absurd rfl hdata
            | _ => cases hmethod
        | ok method =>
            cases method with
            | ethSubscribe => exact Or.inl ⟨_, rfl⟩
            | ethUnsubscribe => exact Or.inl ⟨_, rfl⟩
            | miner => exact Or.inr ⟨_, rfl, rfl, List.not_mem_nil, Nat.zero_lt_one⟩
            | other whitelisted =>
                exact Or.inr ⟨_, rfl, rfl, List.not_mem_nil, Nat.zero_lt_one⟩
      cases data with
      | null => exact absurd (Or.inl rfl) hnull
      | arr data =>
          have hdata : .null ∉ data := fun hmem => hnull (Or.inr ⟨data, rfl, hmem⟩)
          obtain ⟨useTestRpc, hforwarded⟩ := c.forwarded_ok hdata
          rw [Config.handleMessage, hforwarded]
          cases hrequests : data.filter c.isForwarded with
          | nil =>
              -- nothing is forwarded: the second loop starts at once
              rcases (c.runBatch_reaches s ⟨ws, [], .null, []⟩ hdata).settles hdata with
                hsent | ⟨p, hp, hws, hnull, hlt⟩
              · exact Or.inl hsent
              · exact Or.inr ⟨p, hp, hws, hnull, Nat.lt_succ_of_lt hlt⟩
          | cons first more =>
              exact Or.inr ⟨_, rfl, rfl, hdata, Nat.lt_succ_self _⟩
      | _ => exact hsingle _ (by rintro ⟨⟩)

theorem Config.answered_done (answers : Nat → Served × HttpAnswer) (n : Nat)
    (output : Output) : c.answered answers n (.done output) = .done output := by
  cases n <;> rfl

/-- **The run lemma**: every answer leaves fewer requests, so there is a frame in the
    end. -/
theorem Settles.answered {n : Nat} {h : Handling} (hsettles : Settles ws n h) :
    ∀ (answers : Nat → Served × HttpAnswer) (m : Nat), n ≤ m →
      ∃ frame, c.answered answers m h = .done (.sent ws frame) := by
  intro answers m hle
  induction m generalizing answers n h with
  | zero =>
      rcases hsettles with ⟨frame, rfl⟩ | ⟨p, -, -, -, hlt⟩
      · exact ⟨frame, rfl⟩
      · omega
  | succ m ih =>
      rcases hsettles with ⟨frame, rfl⟩ | ⟨p, rfl, rfl, hnull, hlt⟩
      · exact ⟨frame, rfl⟩
      · exact ih (c.resume_settles (answers 0).1 (answers 0).2 hnull) _ (by omega)

/-- A message that holds null is not answered. -/
theorem Config.handleMessage_null (s : Served) {message : Option Json}
    (hnull : HoldsNull message) :
    c.handleMessage s ws message = (s, .done (.rejected .typeError)) := by
  rcases hnull with rfl | ⟨data, rfl, hmem⟩
  · rfl
  · rw [Config.handleMessage, c.forwarded_null hmem]

end Batches

/-- **Every message gets one answer** exactly when it is neither null nor a batch that
    holds null, whatever the endpoints answer and whatever else is served meanwhile.
    A text that is no JSON gets an error; a message that holds null is rejected before
    anything is sent. -/
theorem one_answer_iff (c : Config) (s : Served) (ws : Ws) (message : Option Json)
    (answers : Nat → Served × HttpAnswer) :
    ((∃ frame, c.answered answers (awaits message) (c.handleMessage s ws message).2
        = .done (.sent ws frame)) ↔ ¬ HoldsNull message) ∧
    (message = none → (c.handleMessage s ws message).2 = .done (.sent ws .invalidJson)) ∧
    (HoldsNull message → ∀ n, c.answered answers n (c.handleMessage s ws message).2
      = .done (.rejected .typeError)) := by
  refine ⟨⟨?_, ?_⟩, ?_, ?_⟩
  · rintro ⟨frame, hframe⟩ hnull
    rw [c.handleMessage_null s hnull, c.answered_done] at hframe
    cases hframe
  · intro hnull
    exact (c.handleMessage_settles s hnull).answered answers _ (Nat.le_refl _)
  · rintro rfl
    rfl
  · intro hnull n
    rw [c.handleMessage_null s hnull, c.answered_done]

/-- **A client ends the proxy** with the text `null`, or with a batch that holds it. -/
theorem not_one_answer_plainNull :
    plainConfig.handleMessage ⟨Server.init, 0⟩ 1 (some .null)
      = (⟨Server.init, 0⟩, .done (.rejected .typeError)) ∧
    plainConfig.handleMessage ⟨Server.init, 0⟩ 1 (some (.arr [.null]))
      = (⟨Server.init, 0⟩, .done (.rejected .typeError)) :=
  ⟨rfl, rfl⟩

end WsProxy

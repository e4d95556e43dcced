import EosEvmNode.WsProxy.Requests
import EosEvmNode.Lib.Runs
import Mathlib.Data.List.Find

/-! # Isolation between websocket clients

    All clients are served by the same loops over the same registries.  What a
    connection is sent is compared with what it would be sent if it were alone:
    the loops send it the same frames, unless the filter of another client ends
    one of them early.

    `logs_filter_match` raises an error for every filter with an own property
    `addresses`, a property that `handle_eth_subscribe` does not look at. -/

namespace WsProxy

open Runs

/-! ## Filters that were let through -/

/-- Does matching this filter raise an error? -/
def readsAddresses (filter : Json) : Bool :=
  (filter.own "addresses").isSome

theorem checkLogsFilter_ok {filter : Json} (h : checkLogsFilter filter = .ok ()) :
    filter.own "hasOwnProperty" = none ∧
      ∀ v ∈ filter.own "topics", ∃ topics, v = .arr topics := by
  rw [checkLogsFilter] at h
  split at h
  · cases h
  · obtain ⟨hasAddress, haddress, h⟩ := bind_ok h
    split at h
    · cases h
    · obtain ⟨hasTopics, htopics, h⟩ := bind_ok h
      rw [Json.hasOwnProperty] at htopics
      split at htopics
      · cases htopics
      · next hown =>
          obtain rfl := Except.ok.inj htopics
          refine ⟨by simpa using hown, ?_⟩
          intro v hv
          split at h
          · cases h
          · next hcheck =>
              rw [Json.ownIs, show filter.own "topics" = some v from hv] at hcheck
              cases v with
              | arr topics => exact ⟨topics, rfl⟩
              | _ => simp [Json.isArray] at hcheck

/-- Filters that are let through can be asked for their own properties. -/
theorem checkLogsFilter_has {filter : Json} (h : checkLogsFilter filter = .ok ())
    (key : String) : filter.hasOwnProperty key = .ok (filter.own key).isSome := by
  rw [Json.hasOwnProperty, (checkLogsFilter_ok h).1]
  rfl

/-- Of the filters that are let through, those with an own property `addresses`
    raise an error, on every log. -/
theorem logsFilterMatch_of_accepted {filter : Json}
    (h : checkLogsFilter filter = .ok ()) (log : Log) :
    if readsAddresses filter then
      logsFilterMatch filter log = .error .referenceError
    else ∃ accepted, logsFilterMatch filter log = .ok accepted := by
  have htopics := (checkLogsFilter_ok h).2
  rw [logsFilterMatch, checkLogsFilter_has h, checkLogsFilter_has h, readsAddresses]
  cases haddr : filter.own "addresses" with
  | some v => rfl
  | none =>
      cases htop : filter.own "topics" with
      | none => exact ⟨_, rfl⟩
      | some v =>
          obtain ⟨topics, rfl⟩ := htopics v htop
          exact ⟨_, rfl⟩

/-! ## What a connection sees -/

def framesTo (A : Ws) (frames : List Frame) : List Frame :=
  frames.filter fun f => f.ws = A

@[simp] theorem framesTo_nil (A : Ws) : framesTo A [] = [] := rfl

@[simp] theorem framesTo_append (A : Ws) (fs gs : List Frame) :
    framesTo A (fs ++ gs) = framesTo A fs ++ framesTo A gs :=
  List.filter_append _ _

/-- The registries as they would be without the other connections. -/
def Registries.only (A : Ws) (r : Registries) : Registries where
  newHeadSubs := r.newHeadSubs.of A
  logsSubs := r.logsSubs.of A
  minedTransactionsSubs := r.minedTransactionsSubs.of A

/-- Serve events to unchanging registries, one after the other. -/
def serve (r : Registries) : LogsSent → List BlockEvent → List Handled
  | _, [] => []
  | sent, e :: es =>
      let h := handleBlockEvent r sent e
      h :: serve r h.logsSent es

/-- Every frame of the run to a connection, in order. -/
def framesOf (A : Ws) (hs : List Handled) : List Frame :=
  hs.flatMap fun h => framesTo A h.frames

section Loops

variable {A : Ws} {r : Registries}

theorem newHeads_only (subs : Registry) (block : Block) :
    framesTo A (processNewHeadsSubscriptions subs block)
      = processNewHeadsSubscriptions (subs.of A) block := by
  rw [framesTo, processNewHeadsSubscriptions, processNewHeadsSubscriptions,
    Registry.of, List.filter_map]
  rfl

theorem mined_only (subs : Registry) (block : Block) (removed : Bool) :
    framesTo A (processMinedTransactionsSubscriptions subs block removed)
      = processMinedTransactionsSubscriptions (subs.of A) block removed := by
  rw [framesTo, processMinedTransactionsSubscriptions,
    processMinedTransactionsSubscriptions, List.filter_flatMap]
  congr 1
  funext tx
  rw [Registry.of, List.filter_map, List.filter_filter, List.filter_filter]
  refine congrArg _ (List.filter_congr ?_)
  rintro ⟨subid, client⟩ -
  exact Bool.and_comm _ _

theorem logsPairs_only (subs : Registry) (logs : List Log) :
    (logsPairs subs logs).filter (fun p => p.2.2.ws = A)
      = logsPairs (subs.of A) logs := by
  rw [logsPairs, logsPairs, List.filter_flatMap]
  congr 1
  funext log
  rw [List.filter_map]
  rfl

/-- Does matching this pair raise an error? -/
def raises (p : Log × SubId × Client) : Bool :=
  match logsFilterMatch p.2.2.filter p.1 with
  | .error _ => true
  | .ok _ => false

/-- The loop ends early at the first pair that raises an error. -/
theorem logsLoop_aborted (block : Block) (pairs : List (Log × SubId × Client)) :
    (logsLoop block pairs).2 = (pairs.find? raises).map Prod.snd := by
  induction pairs with
  | nil => rfl
  | cons p rest ih =>
      obtain ⟨log, subid, client⟩ := p
      rw [logsLoop]
      cases hmatch : logsFilterMatch client.filter log with
      | error e =>
          rw [List.find?_cons_of_pos (by simp [raises, hmatch])]
          rfl
      | ok accepted =>
          rw [List.find?_cons_of_neg (by simp [raises, hmatch])]
          cases accepted <;> exact ih

/-- **The loop alone**: where no other client's pair is the first to raise an
    error, a connection's part of the loop is the loop over its own pairs. -/
theorem logsLoop_only :
    ∀ {pairs : List (Log × SubId × Client)} (block : Block),
      (∀ p ∈ pairs.find? raises, p.2.2.ws = A) →
      framesTo A (logsLoop block pairs).1
          = (logsLoop block (pairs.filter fun p => p.2.2.ws = A)).1 ∧
        (logsLoop block pairs).2
          = (logsLoop block (pairs.filter fun p => p.2.2.ws = A)).2 := by
  intro pairs
  induction pairs with
  | nil => intro _ _; exact ⟨rfl, rfl⟩
  | cons p rest ih =>
      obtain ⟨log, subid, client⟩ := p
      intro block hfirst
      cases hmatch : logsFilterMatch client.filter log with
      | error e =>
          -- the first filter that raises is the connection's own
          have hown : client.ws = A := by
            refine hfirst (log, subid, client) ?_
            rw [List.find?_cons_of_pos (by simp [raises, hmatch])]
            rfl
          rw [List.filter_cons_of_pos (by simpa using hown), logsLoop, logsLoop,
            hmatch]
          exact ⟨rfl, rfl⟩
      | ok accepted =>
          rw [List.find?_cons_of_neg (by simp [raises, hmatch])] at hfirst
          obtain ⟨hframes, haborted⟩ := ih block hfirst
          by_cases hown : client.ws = A
          · rw [List.filter_cons_of_pos (by simpa using hown), logsLoop, logsLoop,
              hmatch]
            cases accepted with
            | false => exact ⟨hframes, haborted⟩
            | true =>
                refine ⟨?_, haborted⟩
                show framesTo A (_ :: _) = _ :: _
                rw [framesTo, List.filter_cons_of_pos (by simpa using hown)]
                exact congrArg _ hframes
          · rw [List.filter_cons_of_neg (by simpa using hown), logsLoop, hmatch]
            cases accepted with
            | false => exact ⟨hframes, haborted⟩
            | true =>
                refine ⟨?_, haborted⟩
                show framesTo A (_ :: _) = _
                rw [framesTo, List.filter_cons_of_neg (by simpa using hown)]
                exact hframes

end Loops

/-! ## The record of sent logs -/

/-- What is recorded for a block number. -/
def LogsSent.at (sent : LogsSent) (number : Nat) : List Frame :=
  (InsertionMap.get sent number).getD []

theorem saveLogs_at (sent : LogsSent) (number k : Nat) (frames : List Frame) :
    (saveLogs sent number frames).at k
      = if k = number then sent.at number ++ frames else sent.at k := by
  rw [saveLogs]
  by_cases hframes : frames.isEmpty = true
  · rw [if_pos hframes, List.isEmpty_iff.mp hframes, List.append_nil]
    split
    · next hk => rw [hk]
    · rfl
  · rw [if_neg hframes]
    by_cases hk : k = number
    · rw [if_pos hk, hk, LogsSent.at, InsertionMap.get_set_self]
      rfl
    · rw [if_neg hk, LogsSent.at, InsertionMap.get_set_ne _ hk]
      rfl

theorem delete_at (sent : LogsSent) (number k : Nat) :
    LogsSent.at (InsertionMap.delete sent number) k
      = if k = number then [] else sent.at k := by
  by_cases hk : k = number
  · rw [if_pos hk, hk, LogsSent.at, InsertionMap.get_delete_self]
    rfl
  · rw [if_neg hk, LogsSent.at, InsertionMap.get_delete_ne _ hk]
    rfl

/-- `sent'` records what `sent` records for one connection. -/
def Tracks (A : Ws) (sent sent' : LogsSent) : Prop :=
  ∀ n, framesTo A (sent.at n) = sent'.at n

theorem framesTo_retract (A : Ws) (frames : List Frame) :
    framesTo A (frames.map Frame.retract) = (framesTo A frames).map Frame.retract := by
  rw [framesTo, framesTo, List.filter_map]
  refine congrArg _ (List.filter_congr ?_)
  intro f _
  have hws : f.retract.ws = f.ws := by
    rw [Frame.retract]
    split <;> rfl
  simp [hws]

/-! ## Events -/

/-- **The condition** on an event: if a block with logs is appended, the first
    `logs` subscription whose filter has an own property `addresses` is one of
    `A`'s. -/
def FirstReader (A : Ws) (r : Registries) : BlockEvent → Prop
  | .appended block => block.logs ≠ [] →
      ∀ sub ∈ r.logsSubs.find? (fun sub => readsAddresses sub.2.filter), sub.2.ws = A
  | _ => True

/-- The filters of all `logs` subscriptions were let through. -/
def Accepted (r : Registries) : Prop :=
  ∀ sub ∈ r.logsSubs, checkLogsFilter sub.2.filter = .ok ()

section Events

variable {A : Ws} {r : Registries} {sent sent' : LogsSent}

theorem raises_of_accepted (hr : Accepted r) (log : Log) {sub : SubId × Client}
    (hsub : sub ∈ r.logsSubs) : raises (log, sub) = readsAddresses sub.2.filter := by
  have hmatch := logsFilterMatch_of_accepted (hr sub hsub) log
  rw [raises]
  cases hreads : readsAddresses sub.2.filter with
  | true => rw [if_pos hreads] at hmatch; rw [hmatch]
  | false =>
      rw [if_neg (by simp [hreads])] at hmatch
      obtain ⟨accepted, hok⟩ := hmatch
      rw [hok]

/-- The first pair that raises an error is one of the first such subscription. -/
theorem find?_raises (hr : Accepted r) (logs : List Log) :
    ((logsPairs r.logsSubs logs).find? raises).map Prod.snd
      = if logs = [] then none
        else r.logsSubs.find? (fun sub => readsAddresses sub.2.filter) := by
  induction logs with
  | nil => rfl
  | cons log rest ih =>
      have hpairs : logsPairs r.logsSubs (log :: rest)
          = r.logsSubs.map (fun sub => (log, sub)) ++ logsPairs r.logsSubs rest := rfl
      have hhere : r.logsSubs.find? (raises ∘ fun sub => (log, sub))
          = r.logsSubs.find? (fun sub => readsAddresses sub.2.filter) :=
        List.find?_congr fun sub hsub => raises_of_accepted hr log hsub
      rw [if_neg (List.cons_ne_nil _ _), hpairs, List.find?_append, List.find?_map,
        hhere]
      cases hfind : r.logsSubs.find? (fun sub => readsAddresses sub.2.filter) with
      | some sub => rfl
      | none =>
          rw [Option.map_none, Option.none_or, ih, hfind]
          split <;> rfl

/-- **An event alone**: a connection is sent what it would be sent if it were
    the only one. -/
theorem handleBlockEvent_only (hr : Accepted r) {e : BlockEvent}
    (hfirst : FirstReader A r e) (htracks : Tracks A sent sent') :
    framesTo A (handleBlockEvent r sent e).frames
        = (handleBlockEvent (r.only A) sent' e).frames ∧
      Tracks A (handleBlockEvent r sent e).logsSent
        (handleBlockEvent (r.only A) sent' e).logsSent := by
  cases e with
  | removed block =>
      refine ⟨rfl, fun n => ?_⟩
      show framesTo A (LogsSent.at (InsertionMap.delete sent block.number) n)
        = LogsSent.at (InsertionMap.delete sent' block.number) n
      rw [delete_at, delete_at]
      split
      · rfl
      · exact htracks n
  | forked block =>
      refine ⟨?_, fun n => ?_⟩
      · show framesTo A ((sent.at block.number).map Frame.retract ++ _) = _
        rw [framesTo_append, framesTo_retract, htracks block.number, mined_only]
        rfl
      · show framesTo A (LogsSent.at (InsertionMap.delete sent block.number) n)
          = LogsSent.at (InsertionMap.delete sent' block.number) n
        rw [delete_at, delete_at]
        split
        · rfl
        · exact htracks n
  | appended block =>
      -- log filters that raise cut the loop off for everyone behind them
      have hpairs : ∀ p ∈ (logsPairs r.logsSubs block.logs).find? raises,
          p.2.2.ws = A := by
        intro p hp
        have hmap := find?_raises hr block.logs
        rw [show (logsPairs r.logsSubs block.logs).find? raises = some p from hp,
          Option.map_some] at hmap
        split at hmap
        · cases hmap
        · next hne => exact hfirst hne p.2 hmap.symm
      obtain ⟨hframes, haborted⟩ := logsLoop_only block hpairs
      rw [logsPairs_only, show r.logsSubs.of A = (r.only A).logsSubs from rfl]
        at hframes haborted
      refine ⟨?_, fun n => ?_⟩
      · show framesTo A (_ ++ _ ++ _) = _ ++ _ ++ _
        rw [framesTo_append, framesTo_append, newHeads_only, hframes, haborted]
        refine congrArg _ ?_
        by_cases habort : (logsLoop block (logsPairs (r.only A).logsSubs block.logs)).2.isSome
            = true
        · rw [if_pos habort, if_pos habort, framesTo_nil]
        · rw [if_neg habort, if_neg habort, mined_only]
          rfl
      · show framesTo A (LogsSent.at (saveLogs sent block.number _) n)
          = LogsSent.at (saveLogs sent' block.number _) n
        rw [saveLogs_at, saveLogs_at]
        split
        · rw [framesTo_append, htracks, hframes]
        · exact htracks n

/-- **A run alone.** -/
theorem serve_only (hr : Accepted r) :
    ∀ {es : List BlockEvent} {sent sent' : LogsSent},
      (∀ e ∈ es, FirstReader A r e) → Tracks A sent sent' →
      framesOf A (serve r sent es)
        = (serve (r.only A) sent' es).flatMap Handled.frames := by
  intro es
  induction es with
  | nil => intro _ _ _ _; rfl
  | cons e es ih =>
      intro sent sent' hfirst htracks
      obtain ⟨hframes, htracks'⟩ :=
        handleBlockEvent_only hr (hfirst e List.mem_cons_self) htracks
      have hrest := ih (fun x hx => hfirst x (List.mem_cons_of_mem _ hx)) htracks'
      show framesTo A (handleBlockEvent r sent e).frames ++ framesOf A (serve r _ es)
        = _
      rw [hframes, hrest, serve, List.flatMap_cons]

/-- Every event of a run is handled. -/
theorem exists_handled (r : Registries) {e : BlockEvent} :
    ∀ {es : List BlockEvent} (sent : LogsSent), e ∈ es →
      ∃ sent', handleBlockEvent r sent' e ∈ serve r sent es := by
  intro es
  induction es with
  | nil => intro _ he; cases he
  | cons x es ih =>
      intro sent he
      rcases List.mem_cons.mp he with rfl | hmem
      · exact ⟨sent, List.mem_cons_self⟩
      · obtain ⟨sent', hin⟩ := ih (handleBlockEvent r sent x).logsSent hmem
        exact ⟨sent', List.mem_cons_of_mem _ hin⟩

/-- A run that no other client cuts short meets the condition. -/
theorem firstReader_of_not_aborted (hr : Accepted r) {es : List BlockEvent}
    (h : ∀ x ∈ serve r [] es, ∀ sub ∈ x.aborted, sub.2.ws = A) :
    ∀ e ∈ es, FirstReader A r e := by
  intro e he
  cases e with
  | removed block => exact trivial
  | forked block => exact trivial
  | appended block =>
      intro hne sub hsub
      obtain ⟨sent', hin⟩ := exists_handled r [] he
      refine h _ hin sub ?_
      show (logsLoop block (logsPairs r.logsSubs block.logs)).2 = some sub
      rw [logsLoop_aborted, find?_raises hr, if_neg hne]
      exact hsub

/-- A run that meets it is only cut short by the connection itself. -/
theorem not_aborted_of_firstReader (hr : Accepted r) :
    ∀ {es : List BlockEvent} {sent : LogsSent}, (∀ e ∈ es, FirstReader A r e) →
      ∀ x ∈ serve r sent es, ∀ sub ∈ x.aborted, sub.2.ws = A := by
  intro es
  induction es with
  | nil => intro _ _ x hx; cases hx
  | cons e es ih =>
      intro sent hfirst x hx sub hsub
      rcases List.mem_cons.mp hx with rfl | hmem
      · cases e with
        | removed block => cases hsub
        | forked block => cases hsub
        | appended block =>
            have haborted : (logsLoop block (logsPairs r.logsSubs block.logs)).2
                = some sub := hsub
            rw [logsLoop_aborted, find?_raises hr] at haborted
            split at haborted
            · cases haborted
            · next hne =>
                exact hfirst (.appended block) List.mem_cons_self hne sub haborted
      · exact ih (fun y hy => hfirst y (List.mem_cons_of_mem _ hy)) x hmem sub hsub

end Events

/-- Two registries serve a connection alike: it is sent the same frames, and no
    other client's filter ends the processing of a block. -/
structure Isolated (A : Ws) (r r' : Registries) (es : List BlockEvent) : Prop where
  frames : framesOf A (serve r [] es) = framesOf A (serve r' [] es)
  not_aborted : ∀ x ∈ serve r [] es, ∀ sub ∈ x.aborted, sub.2.ws = A
  not_aborted' : ∀ x ∈ serve r' [] es, ∀ sub ∈ x.aborted, sub.2.ws = A

/-- **Isolation**: two registries with the same subscriptions of `A` serve it
    alike if and only if in both of them every block with logs finds one of `A`'s
    subscriptions to be the first `logs` subscription with an own property
    `addresses` in its filter, or finds none. -/
theorem isolated_iff {A : Ws} {r r' : Registries} (hsame : r.only A = r'.only A)
    (hr : Accepted r) (hr' : Accepted r') (es : List BlockEvent) :
    Isolated A r r' es ↔ ∀ e ∈ es, FirstReader A r e ∧ FirstReader A r' e := by
  constructor
  · intro h e he
    exact ⟨firstReader_of_not_aborted hr h.not_aborted e he,
      firstReader_of_not_aborted hr' h.not_aborted' e he⟩
  · intro h
    have htracks : Tracks A [] [] := fun _ => rfl
    have hfirst : ∀ e ∈ es, FirstReader A r e := fun e he => (h e he).1
    have hfirst' : ∀ e ∈ es, FirstReader A r' e := fun e he => (h e he).2
    refine ⟨?_, not_aborted_of_firstReader hr hfirst,
      not_aborted_of_firstReader hr' hfirst'⟩
    rw [serve_only hr hfirst htracks, serve_only hr' hfirst' htracks, hsame]

/-! ## Two clients -/

/-- A `logs` client of connection 1, after one of connection 2. -/
def plainRegistries (filter : Json) : Registries where
  newHeadSubs := []
  logsSubs := [("b", ⟨2, filter⟩), ("a", ⟨1, .obj []⟩)]
  minedTransactionsSubs := []

theorem plainRegistries_accepted {filter : Json}
    (h : checkLogsFilter filter = .ok ()) : Accepted (plainRegistries filter) := by
  intro sub hsub
  rcases List.mem_cons.mp hsub with rfl | hmem
  · exact h
  · rw [List.mem_singleton.mp hmem]
    rfl

theorem isolated_plain :
    Isolated 1 (plainRegistries (.obj [("topics", .arr [.str "0x02"])]))
      (plainRegistries (.obj []))
      [.appended (plainBlock 7 "h7" "h6"), .forked (plainBlock 7 "h7" "h6")] := by
  have hfilter : checkLogsFilter (.obj [("topics", .arr [.str "0x02"])]) = .ok () := by
    decide +kernel
  have hempty : checkLogsFilter (.obj []) = .ok () := by decide +kernel
  have hfirst : ∀ filter : Json, readsAddresses filter = false → ∀ e ∈
      [BlockEvent.appended (plainBlock 7 "h7" "h6"), .forked (plainBlock 7 "h7" "h6")],
      FirstReader 1 (plainRegistries filter) e := by
    intro filter hreads e he
    have hnone : (plainRegistries filter).logsSubs.find?
        (fun sub => readsAddresses sub.2.filter) = none := by
      simp [plainRegistries, hreads, show readsAddresses (.obj []) = false from rfl]
    rcases List.mem_cons.mp he with rfl | hmem
    · intro _ sub hsub
      rw [hnone] at hsub
      cases hsub
    · rw [List.mem_singleton.mp hmem]
      exact trivial
  have hsame : (plainRegistries (.obj [("topics", .arr [.str "0x02"])])).only 1
      = (plainRegistries (.obj [])).only 1 := rfl
  refine (isolated_iff hsame (plainRegistries_accepted hfilter)
    (plainRegistries_accepted hempty) _).mpr ?_
  exact fun e he => ⟨hfirst _ (by decide +kernel) e he,
    hfirst _ (by decide +kernel) e he⟩

/-- A filter with `addresses` of connection 2 takes connection 1 its log. -/
theorem not_isolated_plain :
    checkLogsFilter (.obj [("addresses", .arr [])]) = .ok () ∧
    (plainRegistries (.obj [("addresses", .arr [])])).only 1
      = (plainRegistries (.obj [])).only 1 ∧
    ¬ Isolated 1 (plainRegistries (.obj [("addresses", .arr [])]))
      (plainRegistries (.obj [])) [.appended (plainBlock 7 "h7" "h6")] := by
  refine ⟨by decide +kernel, rfl, fun h => ?_⟩
  have hframes := congrArg List.length h.frames
  revert hframes
  decide +kernel

end WsProxy

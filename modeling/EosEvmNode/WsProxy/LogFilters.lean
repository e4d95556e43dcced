import EosEvmNode.WsProxy.System

/-! # What a logs filter decides

    `handle_eth_subscribe` validates `address` and `topics`; `logs_filter_match`
    reads `addresses` and `topics`, the former as an unknown identifier.  So the
    validated address restriction is not looked at, and a field that nobody
    validated raises an error. -/

namespace WsProxy

open Runs

/-- The same value without an own property. -/
def Json.without (key : String) : Json → Json
  | .obj fields => .obj (fields.filter fun p => p.1 ≠ key)
  | j => j

/-- The validated address restriction: one string, or an array of strings. -/
def AddressRestriction (filter : Json) (allowed : List String) : Prop :=
  (∃ address, filter.own "address" = some (.str address) ∧ allowed = [address]) ∨
  filter.own "address" = some (.arr (allowed.map Json.str))

/-- The filter restricts topics, and the log has none of them. -/
def TopicsExclude (filter : Json) (log : Log) : Prop :=
  ∃ topics, filter.own "topics" = some (.arr topics) ∧
    ∀ topic, Json.str topic ∈ topics → topic ∉ log.topics

/-- What the filter decides about the log is what was validated. -/
structure Decides (filter : Json) (log : Log) : Prop where
  no_error : ∃ accepted, logsFilterMatch filter log = .ok accepted
  address : ∀ allowed, AddressRestriction filter allowed →
    logsFilterMatch filter log = .ok true → log.address ∈ allowed
  /-- Without its topics the filter does not reject a log that it accepts. -/
  topics : logsFilterMatch filter log = .ok true →
    logsFilterMatch (filter.without "topics") log ≠ .ok false

section Matching

variable {filter : Json} {log : Log}

theorem Json.own_without_self (key : String) (j : Json) :
    (j.without key).own key = none := by
  cases j with
  | obj fields =>
      show (fields.filter fun p => p.1 ≠ key).lookup key = none
      rw [List.lookup_eq_none_iff]
      intro p hp
      have hne : p.1 ≠ key := by simpa using (List.mem_filter.mp hp).2
      simpa using fun h : key = p.1 => hne h.symm
  | _ => rfl

/-- Without a topics field no log is rejected. -/
theorem logsFilterMatch_of_no_topics (h : filter.own "topics" = none) :
    logsFilterMatch filter log ≠ .ok false := by
  intro hmatch
  rw [logsFilterMatch] at hmatch
  obtain ⟨hasAddresses, -, hmatch⟩ := bind_ok hmatch
  cases hasAddresses with
  | true => cases hmatch
  | false =>
      obtain ⟨hasTopics, htopics, hmatch⟩ := bind_ok hmatch
      rw [Json.hasOwnProperty, h] at htopics
      split at htopics
      · cases htopics
      · obtain rfl := Except.ok.inj htopics
        cases hmatch

/-- **What the matcher computes** for an accepted filter without `addresses`: a log is
    rejected exactly when the topics exclude it. -/
theorem logsFilterMatch_true_iff (h : checkLogsFilter filter = .ok ())
    (haddresses : filter.own "addresses" = none) :
    logsFilterMatch filter log = .ok true ↔ ¬ TopicsExclude filter log := by
  have htopics := (checkLogsFilter_ok h).2
  rw [logsFilterMatch, checkLogsFilter_has h, checkLogsFilter_has h, haddresses]
  cases htop : filter.own "topics" with
  | none =>
      refine iff_of_true rfl ?_
      rintro ⟨topics, hsome, -⟩
      rw [htop] at hsome
      cases hsome
  | some v =>
      obtain ⟨topics, rfl⟩ := htopics v htop
      show Except.ok (topics.any _) = Except.ok true ↔ _
      rw [Except.ok.injEq, List.any_eq_true]
      constructor
      · rintro ⟨element, hmem, hcontains⟩ ⟨topics', hsome, hnone⟩
        rw [htop] at hsome
        obtain rfl := Json.arr.inj (Option.some.inj hsome)
        cases element with
        | str topic => exact hnone topic hmem (by simpa using hcontains)
        | _ => cases hcontains
      · intro hnot
        by_contra hnone
        refine hnot ⟨topics, htop, ?_⟩
        intro topic hmem hin
        exact hnone ⟨.str topic, hmem, by simpa using hin⟩

/-- **One accepted filter and one log**: the matcher decides as validated exactly when
    it does not run into `addresses`, and an address restriction is met or the topics
    exclude the log. -/
theorem decides_iff (h : checkLogsFilter filter = .ok ()) :
    Decides filter log ↔ readsAddresses filter = false ∧
      ∀ allowed, AddressRestriction filter allowed →
        log.address ∈ allowed ∨ TopicsExclude filter log := by
  have hdecided := logsFilterMatch_of_accepted h log
  constructor
  · intro hdecides
    have hreads : readsAddresses filter = false := by
      by_contra hne
      rw [if_pos (Bool.eq_true_of_not_eq_false hne)] at hdecided
      obtain ⟨accepted, hok⟩ := hdecides.no_error
      rw [hdecided] at hok
      cases hok
    refine ⟨hreads, ?_⟩
    intro allowed hallowed
    by_cases hexclude : TopicsExclude filter log
    · exact Or.inr hexclude
    · have hmatch := (logsFilterMatch_true_iff h (by
        simpa [readsAddresses] using hreads)).mpr hexclude
      exact Or.inl (hdecides.address allowed hallowed hmatch)
  · rintro ⟨hreads, hrestricted⟩
    rw [hreads] at hdecided
    have haddresses : filter.own "addresses" = none := by
      simpa [readsAddresses] using hreads
    refine ⟨hdecided, ?_, ?_⟩
    · intro allowed hallowed hmatch
      rcases hrestricted allowed hallowed with hin | hexclude
      · exact hin
      · exact absurd hexclude ((logsFilterMatch_true_iff h haddresses).mp hmatch)
    · intro _
      exact logsFilterMatch_of_no_topics (filter.own_without_self "topics")

end Matching

/-- A filter that is let through has passed the check, or is the empty one. -/
theorem checkLogsFilter_of_subscribe {toLowerCase : String → String} {data filter : Json}
    (h : checkSubscribe toLowerCase data = .ok (.logs filter)) :
    checkLogsFilter filter = .ok () := by
  rw [checkSubscribe] at h
  obtain ⟨hasParams, -, h⟩ := bind_ok h
  split at h
  · split at h
    · cases h
    · split at h
      · split at h
        · cases h
          rfl
        · obtain ⟨⟨⟩, hcheck, h⟩ := bind_ok h
          cases h
          exact hcheck
      · split at h
        · split at h
          · cases h
          · obtain ⟨filter', -, h⟩ := bind_ok h
            cases h
        · cases h
  · cases h

/-- **A subscribed filter decides what was validated** exactly for the logs its address
    restriction allows, or its topics exclude, and never when it carries an own
    property `addresses`. -/
theorem logs_filter_decides_iff {toLowerCase : String → String} {data filter : Json}
    (h : checkSubscribe toLowerCase data = .ok (.logs filter)) (log : Log) :
    Decides filter log ↔ readsAddresses filter = false ∧
      ∀ allowed, AddressRestriction filter allowed →
        log.address ∈ allowed ∨ TopicsExclude filter log :=
  decides_iff (checkLogsFilter_of_subscribe h)

/-! ## The filters that are registered -/

section Registered

variable {toLowerCase : String → String} {limits : Limits}

/-- Only `logs` filters that were let through are registered. -/
theorem accepted_applyOp {s : Server} (h : Accepted s.registries) (op : ClientOp) :
    Accepted (applyOp toLowerCase limits s op).1.registries := by
  have hkept : op.newIds = [] → Accepted (applyOp toLowerCase limits s op).1.registries := by
    intro hnone sub hsub
    have hlogs : sub ∈ (applyOp toLowerCase limits s op).1.registries.get .logs := hsub
    rcases (applyOp_applied toLowerCase limits s op).registered hlogs with hold | ⟨hnew, -⟩
    · exact h sub hold
    · rw [hnone] at hnew
      cases hnew
  cases op with
  | subscribe ws subid data =>
      have hregister : ∀ (kind : Kind) (full : Bool) (message : String) (client : Client),
          (kind = .logs → checkLogsFilter client.filter = .ok ()) →
            Accepted (answer (register kind full message s subid client)
              (.subscribed subid)).1.registries := by
        intro kind full message client hfilter
        cases full with
        | true => exact h
        | false =>
            show Accepted (checkStartMonitor _).registries
            rw [checkStartMonitor_registries]
            cases kind with
            | logs =>
                intro sub hsub
                rcases InsertionMap.mem_of_mem_set hsub with hold | rfl
                · exact h sub hold
                · exact hfilter rfl
            | newHeads => exact h
            | minedTransactions => exact h
      rw [applyOp]
      cases hcheck : checkSubscribe toLowerCase data with
      | error e => exact h
      | ok request =>
          cases request with
          | newHeads => exact hregister .newHeads _ _ ⟨ws, .obj []⟩ fun hkind => by cases hkind
          | logs filter =>
              exact hregister .logs _ _ ⟨ws, filter⟩
                fun _ => checkLogsFilter_of_subscribe hcheck
          | minedTransactions filter =>
              exact hregister .minedTransactions _ _ ⟨ws, filter⟩ fun hkind => by cases hkind
  | unsubscribe ws data => exact hkept rfl
  | disconnect ws => exact hkept rfl

/-- **The filters of every run were let through.** -/
theorem accepted_of_reach {adm : System → SystemEvent → Prop} {es : List SystemEvent}
    {s : System} (hrun : Reach (systemStep toLowerCase limits) adm System.init es s) :
    Accepted s.server.registries := by
  refine hrun.invariant (P := fun s => Accepted s.server.registries)
    (fun _ hsub => by cases hsub) ?_
  intro s e s' h _ hstep
  rw [← Except.ok.inj hstep]
  cases e with
  | client op => exact accepted_applyOp h op
  | timer => exact h
  | answer i a =>
      rw [System.handle, foldl_emit_server]
      exact h

/-- A block event raises no error where no filter reads `addresses`. -/
theorem record_aborted {s : System} (h : Accepted s.server.registries)
    (hreads : ∀ sub ∈ s.server.registries.logsSubs, readsAddresses sub.2.filter = false)
    (e : BlockEvent) : (s.record e).aborted = none := by
  cases e with
  | removed block => rfl
  | forked block => rfl
  | appended block =>
      show (logsLoop block (logsPairs s.server.registries.logsSubs block.logs)).2 = none
      rw [logsLoop_aborted, find?_raises h]
      split
      · rfl
      · rw [List.find?_eq_none]
        intro sub hsub
        rw [hreads sub hsub]
        decide

/-- Such a system stays alive through an answer. -/
theorem System.Alive.answer {s : System} (hs : s.Alive) (h : Accepted s.server.registries)
    (hreads : ∀ sub ∈ s.server.registries.logsSubs, readsAddresses sub.2.filter = false)
    (i : Nat) (a : Answer) : (s.handle toLowerCase limits (.answer i a)).Alive := by
  have hemit : ∀ (events : List BlockEvent) (t : System),
      t.server.registries = s.server.registries → t.Alive →
        (events.foldl System.emit t).Alive := by
    intro events
    induction events with
    | nil => exact fun _ _ ht => ht
    | cons e events ih =>
        intro t hregistries ht
        refine ih (t.emit e) hregistries ?_
        intro r hr
        rcases List.mem_cons.mp hr with rfl | hold
        · exact record_aborted (hregistries ▸ h) (hregistries ▸ hreads) e
        · exact ht r hold
  rw [System.handle]
  exact hemit _ _ rfl hs

end Registered

/-! ## A restricted subscription -/

/-- A request for the logs of one address. -/
def addressRequest (key : String) : Json :=
  .obj [("id", .num "1"), ("method", .str "eth_subscribe"),
    ("params", .arr [.str "logs", .obj [(key, .str "0xaa")]])]

def addressLog (address : String) : Log where
  blockHash := "0x01"
  address := address
  topics := ["0x10"]
  body := ""

theorem logs_filter_decides_addressLog :
    Decides (.obj [("address", .str "0xaa")]) (addressLog "0xaa") := by
  have hsub : checkSubscribe id (addressRequest "address")
      = .ok (.logs (.obj [("address", .str "0xaa")])) := rfl
  refine (logs_filter_decides_iff hsub _).mpr ⟨rfl, ?_⟩
  rintro allowed (⟨address, hown, rfl⟩ | hown)
  · obtain rfl := Json.str.inj (Option.some.inj hown)
    exact Or.inl List.mem_cons_self
  · cases hown

/-- **The validated restriction is ignored**: a log of another address is accepted.
    The unvalidated field of a similar name raises an error. -/
theorem not_decides_addressLog :
    checkSubscribe id (addressRequest "address")
      = .ok (.logs (.obj [("address", .str "0xaa")])) ∧
    logsFilterMatch (.obj [("address", .str "0xaa")]) (addressLog "0xbb") = .ok true ∧
    ¬ Decides (.obj [("address", .str "0xaa")]) (addressLog "0xbb") ∧
    checkSubscribe id (addressRequest "addresses")
      = .ok (.logs (.obj [("addresses", .str "0xaa")])) ∧
    logsFilterMatch (.obj [("addresses", .str "0xaa")]) (addressLog "0xaa")
      = .error .referenceError := by
  refine ⟨rfl, rfl, ?_, rfl, rfl⟩
  intro hdecides
  have hmem := hdecides.address ["0xaa"] (Or.inl ⟨"0xaa", rfl, rfl⟩) rfl
  revert hmem
  decide

end WsProxy

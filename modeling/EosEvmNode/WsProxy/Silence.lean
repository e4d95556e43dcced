import EosEvmNode.WsProxy.System

/-! # Removed subscriptions

    `handle_unsubscribe` and `handle_disconnect` take a subscription out of the
    registries, but leave the frames recorded in `logs_sent`, and a fork sends
    those again.  Every other frame goes to a registered subscription, so a removed
    one is sent a frame exactly where its own record is replayed. -/

namespace WsProxy

open Runs

/-- The subscription is in a registry. -/
def Registered (s : System) (subid : SubId) : Prop :=
  (subscriptionMap s.server.registries subid).isSome

instance (s : System) (subid : SubId) : Decidable (Registered s subid) :=
  inferInstanceAs (Decidable (_ = true))

theorem registered_iff {s : System} {subid : SubId} :
    Registered s subid ↔
      ∃ kind, InsertionMap.has (s.server.registries.get kind) subid = true := by
  rw [Registered, subscriptionMap]
  constructor
  · intro h
    split at h
    · next hhas => exact ⟨.newHeads, hhas⟩
    · split at h
      · next hhas => exact ⟨.logs, hhas⟩
      · split at h
        · next hhas => exact ⟨.minedTransactions, hhas⟩
        · cases h
  · rintro ⟨kind, hhas⟩
    split
    · rfl
    · next hheads =>
        split
        · rfl
        · next hlogs =>
            cases kind with
            | newHeads => exact absurd hhas hheads
            | logs => exact absurd hhas hlogs
            | minedTransactions =>
                have hmined : InsertionMap.has
                    s.server.registries.minedTransactionsSubs subid = true := hhas
                rw [if_pos hmined]
                rfl

/-- **The condition**: no block is forked out while a frame of the subscription is
    recorded under its number. -/
def NoReplay (subid : SubId) (s : System) : SystemEvent → Prop
  | .answer i a => ∀ block, .forked block ∈ (s.server.monitor.complete i a).2 →
      ∀ f ∈ s.logsSent.at block.number, f.subid ≠ subid
  | _ => True

/-- Does the condition hold for this block event? -/
def spares (subid : SubId) (s : System) : BlockEvent → Bool
  | .forked block => decide (∀ f ∈ s.logsSent.at block.number, f.subid ≠ subid)
  | _ => true

theorem spares_iff {subid : SubId} {s : System} {e : BlockEvent} :
    spares subid s e = true ↔ ∀ block, e = .forked block →
      ∀ f ∈ s.logsSent.at block.number, f.subid ≠ subid := by
  cases e with
  | forked block =>
      rw [spares, decide_eq_true_eq]
      refine ⟨fun h b hb => ?_, fun h => h block rfl⟩
      obtain rfl := BlockEvent.forked.inj hb
      exact h
  | appended block => exact iff_of_true rfl fun _ hb => by cases hb
  | removed block => exact iff_of_true rfl fun _ hb => by cases hb

theorem noReplay_answer_iff {subid : SubId} {s : System} {i : Nat} {a : Answer} :
    (s.server.monitor.complete i a).2.all (spares subid s) = true ↔
      NoReplay subid s (.answer i a) := by
  rw [List.all_eq_true]
  constructor
  · intro h block hblock
    exact spares_iff.mp (h _ hblock) block rfl
  · intro h e he
    exact spares_iff.mpr fun block hblock => h block (hblock ▸ he)

instance (subid : SubId) (s : System) : ∀ e, Decidable (NoReplay subid s e)
  | .client _ => .isTrue trivial
  | .timer => .isTrue trivial
  | .answer i a => decidable_of_iff
      ((s.server.monitor.complete i a).2.all (spares subid s) = true) noReplay_answer_iff

/-- No frame of these records is the subscription's. -/
def Silent (subid : SubId) (records : List Record) : Prop :=
  ∀ r ∈ records, ∀ f ∈ r.frames, f.subid ≠ subid

theorem Silent.append {subid : SubId} {rs rs' : List Record} :
    Silent subid (rs ++ rs') ↔ Silent subid rs ∧ Silent subid rs' :=
  List.forall_mem_append

/-- Blocks that leave the window at the front are recorded without a frame. -/
theorem foldl_removed_history {events : List BlockEvent}
    (h : ∀ e ∈ events, ∃ block, e = .removed block) (s : System) :
    ∃ newer, (events.foldl System.emit s).history = newer ++ s.history ∧
      ∀ r ∈ newer, r.frames = [] := by
  induction events generalizing s with
  | nil => exact ⟨[], rfl, fun _ hr => by cases hr⟩
  | cons e events ih =>
      obtain ⟨block, rfl⟩ := h e List.mem_cons_self
      obtain ⟨newer, hhistory, hnewer⟩ :=
        ih (fun x hx => h x (List.mem_cons_of_mem _ hx)) (s.emit (.removed block))
      refine ⟨newer ++ [s.record (.removed block)], ?_, ?_⟩
      · rw [List.foldl_cons, hhistory, List.append_assoc]
        rfl
      · intro r hr
        rcases List.mem_append.mp hr with hold | hnew
        · exact hnewer r hold
        · rw [List.mem_singleton.mp hnew]
          rfl

section Step

variable {toLowerCase : String → String} {limits : Limits} {s : System}
  {subid : SubId}

theorem not_registered {kind : Kind} {sub : SubId × Client}
    (h : ¬ Registered s subid) (hsub : sub ∈ s.server.registries.get kind) :
    sub.1 ≠ subid := by
  rintro rfl
  exact h (registered_iff.mpr ⟨kind, InsertionMap.has_eq_true.mpr ⟨sub.2, hsub⟩⟩)

/-- An id that has been used is not registered again. -/
theorem not_registered_handle {e : SystemEvent} (hfresh : FreshId s e)
    (hused : subid ∈ s.used) (h : ¬ Registered s subid) :
    subid ∈ (s.handle toLowerCase limits e).used ∧
      ¬ Registered (s.handle toLowerCase limits e) subid := by
  cases e with
  | client op =>
      refine ⟨List.mem_append_right _ hused, ?_⟩
      intro hregistered
      obtain ⟨kind, hhas⟩ := registered_iff.mp hregistered
      obtain ⟨client, hmem⟩ := InsertionMap.has_eq_true.mp hhas
      have happ := applyOp_applied toLowerCase limits s.server op
      rcases happ.registered hmem with hold | ⟨hnew, -⟩
      · exact not_registered h hold rfl
      · exact hfresh subid hnew hused
  | timer => exact ⟨hused, h⟩
  | answer i a =>
      rw [System.handle, Registered, foldl_emit_server, foldl_emit_used]
      exact ⟨hused, h⟩

/-- What a removed subscription is sent for block events is its own record. -/
theorem emitted_silent_iff {events : List BlockEvent} (h : ¬ Registered s subid)
    (hevents : (∃ e, events = [e]) ∨ ∀ e ∈ events, ∃ block, e = .removed block) :
    ∃ newer, (events.foldl System.emit s).history = newer ++ s.history ∧
      (Silent subid newer ↔ ∀ block, .forked block ∈ events →
        ∀ f ∈ s.logsSent.at block.number, f.subid ≠ subid) := by
  rcases hevents with ⟨e, rfl⟩ | hremoved
  · refine ⟨[s.record e], rfl, ?_, ?_⟩
    · intro hsilent block hblock f hf
      obtain rfl := List.mem_singleton.mp hblock
      have hne := hsilent _ List.mem_cons_self f.retract
        (List.mem_append_left _ (List.mem_map_of_mem hf))
      rwa [retract_subid] at hne
    · intro hreplay r hr f hf
      rw [List.mem_singleton.mp hr] at hf
      rcases (sentFor_of_mem hf).subid with
        ⟨kind, sub, hsub, heq⟩ | ⟨block, rfl, g, hg, rfl⟩
      · rw [heq]
        exact not_registered h hsub
      · rw [retract_subid]
        exact hreplay block List.mem_cons_self g hg
  · obtain ⟨newer, hhistory, hnewer⟩ := foldl_removed_history hremoved s
    refine ⟨newer, hhistory, ?_, ?_⟩
    · intro _ block hblock
      obtain ⟨b, hb⟩ := hremoved _ hblock
      cases hb
    · intro _ r hr f hf
      rw [hnewer r hr] at hf
      cases hf

/-- **One event.** -/
theorem handle_silent_iff (toLowerCase : String → String) (limits : Limits)
    (h : ¬ Registered s subid) (e : SystemEvent) :
    ∃ newer, (s.handle toLowerCase limits e).history = newer ++ s.history ∧
      (Silent subid newer ↔ NoReplay subid s e) := by
  cases e with
  | client op => exact ⟨[], rfl, fun _ => trivial, fun _ _ hr => by cases hr⟩
  | timer => exact ⟨[], rfl, fun _ => trivial, fun _ _ hr => by cases hr⟩
  | answer i a =>
      have hgone : ¬ Registered (s.withMonitor (s.server.monitor.complete i a).1) subid :=
        h
      exact emitted_silent_iff hgone (complete_events s.server.monitor i a)

end Step

/-- The condition on every event of a run. -/
def Unreplayed (subid : SubId) (s : System) (e : SystemEvent) : Prop :=
  FreshId s e ∧ NoReplay subid s e

instance (subid : SubId) (s : System) (e : SystemEvent) :
    Decidable (Unreplayed subid s e) :=
  inferInstanceAs (Decidable (_ ∧ _))

/-- **After a removal**, whatever happens: the subscription is sent nothing if and
    only if every event meets the condition. -/
theorem run_silent_iff {toLowerCase : String → String} {limits : Limits}
    {s s' : System} {es : List SystemEvent} {subid : SubId}
    (hrun : Reach (systemStep toLowerCase limits) FreshId s es s')
    (hused : subid ∈ s.used) (hgone : ¬ Registered s subid) :
    (subid ∈ s'.used ∧ ¬ Registered s' subid) ∧
      ∃ newer, s'.history = newer ++ s.history ∧
        (Silent subid newer ↔
          Reach (systemStep toLowerCase limits) (Unreplayed subid) s es s') := by
  induction hrun with
  | start => exact ⟨⟨hused, hgone⟩, [], rfl, fun _ => .start, fun _ _ hr => by cases hr⟩
  | @step es t s' e hrest hfresh hstep ih =>
      obtain ⟨⟨htused, htgone⟩, newer, hhistory, hiff⟩ := ih
      obtain rfl := Except.ok.inj hstep
      obtain ⟨last, hlast, hlastiff⟩ := handle_silent_iff toLowerCase limits htgone e
      refine ⟨not_registered_handle hfresh htused htgone, last ++ newer, ?_, ?_⟩
      · rw [hlast, hhistory, List.append_assoc]
      · rw [Silent.append, hlastiff, hiff]
        constructor
        · rintro ⟨hreplay, hreach⟩
          exact .step hreach ⟨hfresh, hreplay⟩ rfl
        · intro hreach
          obtain ⟨u, hu, hadm, -⟩ := hreach.last
          obtain rfl := hrest.unique hu
          exact ⟨hadm.2, hu⟩

/-- **A removed subscription is silent**, in every run, if and only if every event
    after the removal meets the condition. -/
theorem removed_silent_iff {toLowerCase : String → String} {limits : Limits}
    {es es' : List SystemEvent} {s s' : System} {op : ClientOp} {subid : SubId}
    (hrun : Reach (systemStep toLowerCase limits) FreshId System.init es s)
    (hregistered : Registered s subid)
    (hremoved : ¬ Registered (s.handle toLowerCase limits (.client op)) subid)
    (hrest : Reach (systemStep toLowerCase limits) FreshId
      (s.handle toLowerCase limits (.client op)) es' s') :
    ∃ newer, s'.history = newer ++ s.history ∧
      (Silent subid newer ↔ Reach (systemStep toLowerCase limits) (Unreplayed subid)
        (s.handle toLowerCase limits (.client op)) es' s') := by
  have hinv := systemInv_of_reach (fun _ _ h => h) hrun
  have hused : subid ∈ s.used := by
    obtain ⟨kind, hhas⟩ := registered_iff.mp hregistered
    obtain ⟨client, hmem⟩ := InsertionMap.has_eq_true.mp hhas
    exact hinv.registered kind _ hmem
  have hused' := (List.mem_append_right op.newIds hused)
  exact (run_silent_iff hrest hused' hremoved).2

/-! ## A logs client that leaves -/

/-- An `eth_unsubscribe` request. -/
def plainUnsubscribe (subid : SubId) : Json :=
  .obj [("method", .str "eth_unsubscribe"), ("params", .arr [.str subid])]

/-- The ids on the frames, by event. -/
def sentIds (s : System) : List (List SubId) :=
  s.history.map fun r => r.frames.map Frame.subid

/-- An operation ends a registration after the blocks up to 9, and these events
    follow. -/
def leavesNine (adm : System → SystemEvent → Prop) [∀ s e, Decidable (adm s e)]
    (op : ClientOp) (subid : SubId) (es : List SystemEvent) (s : System) : Bool :=
  decide (Registered s subid) &&
    (!decide (Registered (s.handle id ⟨1, 1⟩ (.client op)) subid) &&
      checkRun plainSystemStep adm (s.handle id ⟨1, 1⟩ (.client op)) es)

theorem exists_leavesNine (adm : System → SystemEvent → Prop)
    [∀ s e, Decidable (adm s e)] (op : ClientOp) (subid : SubId) (es : List SystemEvent)
    (h : (feed plainSystemStep System.init plainNine).map (leavesNine adm op subid es) =
      .ok true) :
    ∃ s s', Reach plainSystemStep FreshId System.init plainNine s ∧
      Registered s subid ∧ ¬ Registered (s.handle id ⟨1, 1⟩ (.client op)) subid ∧
      Reach plainSystemStep adm (s.handle id ⟨1, 1⟩ (.client op)) es s' := by
  have hcheck : checkRun plainSystemStep FreshId System.init plainNine = true := by
    decide +kernel
  obtain ⟨s, hs⟩ := exists_reach hcheck
  obtain ⟨hbefore, hleft⟩ := Bool.and_eq_true_iff.mp (hs.eval h)
  obtain ⟨hafter, hrest⟩ := Bool.and_eq_true_iff.mp hleft
  obtain ⟨s', hs'⟩ := exists_reach hrest
  exact ⟨s, s', hs, of_decide_eq_true hbefore,
    by simpa using hafter, hs'⟩

/-- Block 10 comes on top of block 9, and is forked out again. -/
def plainForkNext : List SystemEvent :=
  [.timer, .answer 0 (.head (some 12)),
    .answer 0 (.ofBlock (plainBlock 10 "h10" "h9")), .answer 0 (.head (some 12)),
    .timer, .answer 0 (.head (some 13)),
    .answer 0 (.ofBlock (plainBlock 11 "h11b" "h10b"))]

/-- The logs client unsubscribes with its log of block 9 on record.  As that block
    stays, the fork of block 10 sends it nothing. -/
theorem removed_silent_plainNine :
    ∃ s s' newer, Reach plainSystemStep FreshId System.init plainNine s ∧
      (s.logsSent.at 9).map Frame.subid = ["a"] ∧
      Reach plainSystemStep FreshId
        (s.handle id ⟨1, 1⟩ (.client (.unsubscribe 1 (plainUnsubscribe "a"))))
        plainForkNext s' ∧
      s'.history = newer ++ s.history ∧ newer.length = 2 ∧ Silent "a" newer := by
  obtain ⟨s, s', hs, hbefore, hafter, hspared⟩ :=
    exists_leavesNine (Unreplayed "a") (.unsubscribe 1 (plainUnsubscribe "a")) "a"
      plainForkNext (by decide +kernel)
  have hs' := hspared.mono fun _ _ h => h.1
  obtain ⟨newer, hhistory, hiff⟩ := removed_silent_iff hs hbefore hafter hs'
  have hrecorded : (s.logsSent.at 9).map Frame.subid = ["a"] :=
    hs.eval (f := fun s => (s.logsSent.at 9).map Frame.subid) (by decide +kernel)
  have hlength : s.history.length = 1 :=
    hs.eval (f := fun s => s.history.length) (by decide +kernel)
  have hfresh : FreshId s (.client (.unsubscribe 1 (plainUnsubscribe "a"))) :=
    fun _ hid => by cases hid
  have hlength' : s'.history.length = 3 :=
    ((Reach.step hs hfresh rfl).trans hs').eval (f := fun s => s.history.length)
      (by decide +kernel)
  refine ⟨s, s', newer, hs, hrecorded, hs', hhistory, ?_, hiff.mpr hspared⟩
  rw [hhistory, List.length_append, hlength] at hlength'
  omega

/-- The logs client unsubscribes, block 9 is forked out, and the client is sent the
    retraction of its log. -/
theorem not_silent_plainForkNine :
    ¬ ∀ (toLowerCase : String → String) (limits : Limits) (es es' : List SystemEvent)
      (s s' : System) (op : ClientOp) (subid : SubId),
      Reach (systemStep toLowerCase limits) FreshId System.init es s →
      FreshId s (.client op) → Registered s subid →
      ¬ Registered (s.handle toLowerCase limits (.client op)) subid →
      Reach (systemStep toLowerCase limits) FreshId
        (s.handle toLowerCase limits (.client op)) es' s' →
      ∃ newer, s'.history = newer ++ s.history ∧ Silent subid newer := by
  intro h
  obtain ⟨s, s', hs, hbefore, hafter, hs'⟩ :=
    exists_leavesNine FreshId (.unsubscribe 1 (plainUnsubscribe "a")) "a" plainForkNine
      (by decide +kernel)
  have hfresh : FreshId s (.client (.unsubscribe 1 (plainUnsubscribe "a"))) :=
    fun _ hid => by cases hid
  obtain ⟨newer, hhistory, hsilent⟩ := h id ⟨1, 1⟩ plainNine plainForkNine s s'
    (.unsubscribe 1 (plainUnsubscribe "a")) "a" hs hfresh hbefore hafter hs'
  have hids : sentIds s = [["b", "a"]] := hs.eval (by decide +kernel)
  have hids' : sentIds s' = [["a"], ["b", "a"]] :=
    ((Reach.step hs hfresh rfl).trans hs').eval (by decide +kernel)
  have hnewer : newer.map (fun r => r.frames.map Frame.subid) = [["a"]] := by
    rw [sentIds, hhistory, List.map_append] at hids'
    exact List.append_cancel_right (hids'.trans (congrArg ([["a"]] ++ ·) hids).symm)
  obtain ⟨r, hr, hframes⟩ := List.mem_map.mp (hnewer ▸ List.mem_singleton_self ["a"])
  obtain ⟨f, hf, hsubid⟩ := List.mem_map.mp (hframes ▸ List.mem_singleton_self "a")
  exact hsilent r hr f hf hsubid

end WsProxy

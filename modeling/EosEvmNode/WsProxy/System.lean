import EosEvmNode.WsProxy.Isolation
import EosEvmNode.WsProxy.Registry
import EosEvmNode.WsProxy.Window
import Mathlib.Data.List.Infix

/-! # The monitor and the subscription server together

    The two share one event loop: a request of a client, the timer, or the end of
    a request of a poll is handled to its end, with every block event it makes the
    monitor emit, before the next one.

    `history` and `used` are kept for the statements only: what has been sent for
    each block event, newest first, and the ids that have been drawn. -/

namespace WsProxy

open Runs

/-- A block event as the server has handled it, and for whom. -/
structure Record where
  event : BlockEvent
  registries : Registries
  frames : List Frame

/-- A law of each record and the ones before it, with one more record. -/
theorem forall_suffix_cons {P : Record → List Record → Prop} {r : Record}
    {history : List Record} (h : ∀ x older, (x :: older) <:+ history → P x older)
    (hr : P r history) : ∀ x older, (x :: older) <:+ (r :: history) → P x older := by
  intro x older hsuffix
  rcases List.suffix_cons_iff.mp hsuffix with heq | hold
  · obtain ⟨rfl, rfl⟩ := List.cons.inj heq
    exact hr
  · exact h x older hold

structure System where
  server : Server
  logsSent : LogsSent
  history : List Record
  used : List SubId

def System.init : System where
  server := Server.init
  logsSent := []
  history := []
  used := []

inductive SystemEvent where
  | client (op : ClientOp)
  | timer
  | answer (i : Nat) (a : Answer)

/-- What the server makes of a block event. -/
def System.record (s : System) (e : BlockEvent) : Record where
  event := e
  registries := s.server.registries
  frames := (handleBlockEvent s.server.registries s.logsSent e).frames

/-- The server handles one block event.  An error that the filter of a `logs`
    subscription raises is caught by nothing, and where that ends the process nothing
    comes after it; here the next event is served in any case. -/
def System.emit (s : System) (e : BlockEvent) : System :=
  { s with
    logsSent := (handleBlockEvent s.server.registries s.logsSent e).logsSent
    history := s.record e :: s.history }

/-- The subscription whose filter raised an error, if one did. -/
def Record.aborted (r : Record) : Option (SubId × Client) :=
  (handleBlockEvent r.registries [] r.event).aborted

/-- No block event has raised an error so far: the process is alive. -/
def System.Alive (s : System) : Prop :=
  ∀ r ∈ s.history, r.aborted = none

def System.withMonitor (s : System) (m : BlockMonitor) : System :=
  { s with server := { s.server with monitor := m } }

/-- The system after an event. -/
def System.handle (toLowerCase : String → String) (limits : Limits) (s : System) :
    SystemEvent → System
  | .client op =>
      { s with
        server := (applyOp toLowerCase limits s.server op).1
        used := op.newIds ++ s.used }
  | .timer => s.withMonitor s.server.monitor.fire
  | .answer i a =>
      (s.server.monitor.complete i a).2.foldl System.emit
        (s.withMonitor (s.server.monitor.complete i a).1)

def systemStep (toLowerCase : String → String) (limits : Limits) (s : System)
    (e : SystemEvent) : Except JsError System :=
  .ok (s.handle toLowerCase limits e)

/-- The block events an event makes the monitor emit. -/
def System.emitted (s : System) : SystemEvent → List BlockEvent
  | .answer i a => (s.server.monitor.complete i a).2
  | _ => []

/-- A uuid is drawn once. -/
def FreshId (s : System) : SystemEvent → Prop
  | .client op => ∀ subid ∈ op.newIds, subid ∉ s.used
  | _ => True

instance (s : System) (e : SystemEvent) : Decidable (FreshId s e) := by
  unfold FreshId
  cases e <;> infer_instance

/-- The event as the monitor sees it, if it does. -/
def SystemEvent.ofMonitor : SystemEvent → Option MonitorEvent
  | .client _ => none
  | .timer => some .timer
  | .answer i a => some (.answer i a)

/-- Fresh ids, an RPC that keeps its promises, and polls that do not overlap. -/
def Orderly (blockOf : String → Block) (s : System) (e : SystemEvent) : Prop :=
  FreshId s e ∧ ∀ me ∈ e.ofMonitor,
    RpcContract blockOf s.server.monitor me ∧ NoOverlap s.server.monitor me

instance (blockOf : String → Block) (s : System) (e : SystemEvent) :
    Decidable (Orderly blockOf s e) :=
  inferInstanceAs (Decidable (_ ∧ _))

/-! ## What is sent for a block event -/

/-- The frame of a transaction for a subscription. -/
def minedFrame (block : Block) (removed : Bool) (tx : Transaction)
    (sub : SubId × Client) : Frame :=
  let hashOnly := match sub.2.filter.own "hashesOnly" with
    | some (.bool b) => b
    | _ => false
  ⟨sub.2.ws, sub.1, block, .tx tx hashOnly removed⟩

/-- The frames of a block event: heads, logs and transactions of an appended
    block; recorded logs and transactions, retracted, of a forked one. -/
inductive SentFor (r : Registries) (sent : LogsSent) : BlockEvent → Frame → Prop where
  | head (block : Block) (sub : SubId × Client) :
      sub ∈ r.newHeadSubs →
      SentFor r sent (.appended block) ⟨sub.2.ws, sub.1, block, .head⟩
  | log (block : Block) (sub : SubId × Client) (log : Log) :
      sub ∈ r.logsSubs →
      SentFor r sent (.appended block) ⟨sub.2.ws, sub.1, block, .log log false⟩
  | mined (block : Block) (sub : SubId × Client) (tx : Transaction) :
      sub ∈ r.minedTransactionsSubs →
      SentFor r sent (.appended block) (minedFrame block false tx sub)
  | replayed (block : Block) (f : Frame) :
      f ∈ sent.at block.number → SentFor r sent (.forked block) f.retract
  | retracted (block : Block) (sub : SubId × Client) (tx : Transaction) :
      sub ∈ r.minedTransactionsSubs → tx ∈ block.transactions →
      txFilterMatch sub.2.filter tx true = true →
      SentFor r sent (.forked block) (minedFrame block true tx sub)

theorem mem_mined {subs : Registry} {block : Block} {removed : Bool} {f : Frame} :
    f ∈ processMinedTransactionsSubscriptions subs block removed ↔
      ∃ tx ∈ block.transactions, ∃ sub ∈ subs,
        txFilterMatch sub.2.filter tx removed = true ∧
          minedFrame block removed tx sub = f := by
  rw [processMinedTransactionsSubscriptions, List.mem_flatMap]
  constructor
  · rintro ⟨tx, htx, hf⟩
    obtain ⟨sub, hsub, rfl⟩ := List.mem_map.mp hf
    obtain ⟨hmem, hmatch⟩ := List.mem_filter.mp hsub
    exact ⟨tx, htx, sub, hmem, hmatch, rfl⟩
  · rintro ⟨tx, htx, sub, hmem, hmatch, rfl⟩
    exact ⟨tx, htx, List.mem_map.mpr ⟨sub, List.mem_filter.mpr ⟨hmem, hmatch⟩, rfl⟩⟩

/-- The loops over logs and subscriptions send logs, to subscriptions. -/
theorem mem_logsLoop {block : Block} {f : Frame} :
    ∀ {pairs : List (Log × SubId × Client)}, f ∈ (logsLoop block pairs).1 →
      ∃ p ∈ pairs, f = ⟨p.2.2.ws, p.2.1, block, .log p.1 false⟩ := by
  intro pairs
  induction pairs with
  | nil => intro hf; cases hf
  | cons p rest ih =>
      obtain ⟨log, subid, client⟩ := p
      intro hf
      rw [logsLoop] at hf
      cases hmatch : logsFilterMatch client.filter log with
      | error e => rw [hmatch] at hf; cases hf
      | ok accepted =>
          rw [hmatch] at hf
          have hrest : f ∈ (logsLoop block rest).1 → ∃ p ∈ (log, subid, client) :: rest,
              f = ⟨p.2.2.ws, p.2.1, block, .log p.1 false⟩ := by
            intro h
            obtain ⟨p, hp, heq⟩ := ih h
            exact ⟨p, List.mem_cons_of_mem _ hp, heq⟩
          cases accepted with
          | false => exact hrest hf
          | true =>
              rcases List.mem_cons.mp hf with rfl | hmem
              · exact ⟨_, List.mem_cons_self, rfl⟩
              · exact hrest hmem

theorem mem_logsLoop_subs {subs : Registry} {block : Block} {f : Frame}
    (hf : f ∈ (logsLoop block (logsPairs subs block.logs)).1) :
    ∃ sub ∈ subs, ∃ log, f = ⟨sub.2.ws, sub.1, block, .log log false⟩ := by
  obtain ⟨p, hp, rfl⟩ := mem_logsLoop hf
  obtain ⟨log, -, hp⟩ := List.mem_flatMap.mp hp
  obtain ⟨sub, hsub, rfl⟩ := List.mem_map.mp hp
  exact ⟨sub, hsub, log, rfl⟩

/-- **What is sent.** -/
theorem sentFor_of_mem {r : Registries} {sent : LogsSent} {e : BlockEvent} {f : Frame}
    (hf : f ∈ (handleBlockEvent r sent e).frames) : SentFor r sent e f := by
  cases e with
  | removed block => cases hf
  | forked block =>
      rcases List.mem_append.mp hf with hf | hf
      · obtain ⟨g, hg, rfl⟩ := List.mem_map.mp hf
        exact .replayed block g hg
      · obtain ⟨tx, htx, sub, hsub, hmatch, rfl⟩ := mem_mined.mp hf
        exact .retracted block sub tx hsub htx hmatch
  | appended block =>
      rcases List.mem_append.mp hf with hf | hf
      · rcases List.mem_append.mp hf with hf | hf
        · obtain ⟨sub, hsub, rfl⟩ := List.mem_map.mp hf
          exact .head block sub hsub
        · obtain ⟨sub, hsub, log, rfl⟩ := mem_logsLoop_subs hf
          exact .log block sub log hsub
      · split at hf
        · cases hf
        · obtain ⟨tx, -, sub, hsub, -, rfl⟩ := mem_mined.mp hf
          exact .mined block sub tx hsub

/-- What is recorded after an event was recorded before, or is a log frame of the
    appended block. -/
theorem mem_logsSent {r : Registries} {sent : LogsSent} {e : BlockEvent} {n : Nat}
    {f : Frame} (hf : f ∈ (handleBlockEvent r sent e).logsSent.at n) :
    (f ∈ sent.at n ∧ ∀ block, e = .forked block → n ≠ block.number) ∨
      ∃ block, e = .appended block ∧ n = block.number ∧
        f ∈ (logsLoop block (logsPairs r.logsSubs block.logs)).1 := by
  cases e with
  | removed block =>
      refine Or.inl ⟨?_, fun _ h => (by cases h)⟩
      rw [show (handleBlockEvent r sent (.removed block)).logsSent
        = InsertionMap.delete sent block.number from rfl, delete_at] at hf
      split at hf
      · cases hf
      · exact hf
  | forked block =>
      rw [show (handleBlockEvent r sent (.forked block)).logsSent
        = InsertionMap.delete sent block.number from rfl, delete_at] at hf
      split at hf
      · cases hf
      · next hne =>
          refine Or.inl ⟨hf, ?_⟩
          intro b hb
          obtain rfl := BlockEvent.forked.inj hb
          exact hne
  | appended block =>
      rw [show (handleBlockEvent r sent (.appended block)).logsSent
        = saveLogs sent block.number
          (logsLoop block (logsPairs r.logsSubs block.logs)).1 from rfl, saveLogs_at] at hf
      split at hf
      · -- the record of this block grows by what was sent now
        next hn =>
          rcases List.mem_append.mp hf with hold | hnew
          · exact Or.inl ⟨hn ▸ hold, fun _ h => (by cases h)⟩
          · exact Or.inr ⟨block, rfl, hn, hnew⟩
      · exact Or.inl ⟨hf, fun _ h => (by cases h)⟩

@[simp] theorem foldl_emit_server (events : List BlockEvent) (s : System) :
    (events.foldl System.emit s).server = s.server := by
  induction events generalizing s with
  | nil => rfl
  | cons e events ih => exact ih (s.emit e)

@[simp] theorem foldl_emit_used (events : List BlockEvent) (s : System) :
    (events.foldl System.emit s).used = s.used := by
  induction events generalizing s with
  | nil => rfl
  | cons e events ih => exact ih (s.emit e)

/-- What has been sent stays sent. -/
theorem foldl_emit_suffix (events : List BlockEvent) (s : System) :
    s.history <:+ (events.foldl System.emit s).history := by
  induction events generalizing s with
  | nil => exact List.suffix_refl _
  | cons e events ih => exact (List.suffix_cons _ _).trans (ih (s.emit e))

theorem handle_suffix (toLowerCase : String → String) (limits : Limits) (s : System)
    (e : SystemEvent) : s.history <:+ (s.handle toLowerCase limits e).history := by
  cases e with
  | client op => exact List.suffix_refl _
  | timer => exact List.suffix_refl _
  | answer i a =>
      rw [System.handle]
      exact foldl_emit_suffix (s.server.monitor.complete i a).2
        (s.withMonitor (s.server.monitor.complete i a).1)

/-- A completion emits one event, or takes blocks from the front. -/
theorem complete_events (m : BlockMonitor) (i : Nat) (a : Answer) :
    (∃ e, (m.complete i a).2 = [e]) ∨
      ∀ e ∈ (m.complete i a).2, ∃ block, e = .removed block := by
  rcases complete_cases m i a with hc | ⟨p, o, -, hres, hc⟩ <;> rw [hc]
  · exact Or.inr fun _ he => by cases he
  · cases hres with
    | waits p' hseen hasks => exact Or.inr fun _ he => by cases he
    | appended block found haccepts => exact Or.inl ⟨_, rfl⟩
    | forked block rest hwindow => exact Or.inl ⟨_, rfl⟩
    | ended => exact Or.inr fun _ he => by cases he
    | pruned rest dropped hwindow =>
        refine Or.inr ?_
        intro e he
        obtain ⟨block, -, rfl⟩ := List.mem_map.mp he
        exact ⟨block, rfl⟩

/-! ## The invariant of every run -/

/-- Ids that are registered, recorded or sent have been drawn; a record under a
    number is about a block of that number. -/
structure SystemInv (limits : Limits) (s : System) : Prop where
  registry : RegistryInv limits s.server
  registered : ∀ kind, ∀ sub ∈ s.server.registries.get kind, sub.1 ∈ s.used
  recorded : ∀ n, ∀ f ∈ s.logsSent.at n,
    f.block.number = n ∧ f.subid ∈ s.used ∧ ∃ log, f.result = .log log false
  sent : ∀ r ∈ s.history, ∀ f ∈ r.frames, f.subid ∈ s.used
  /-- An id that was registered is used, and still stands for the same client. -/
  same : ∀ r ∈ s.history, ∀ kind, ∀ sub ∈ r.registries.get kind, sub.1 ∈ s.used ∧
    ∀ k, ∀ sub' ∈ s.server.registries.get k, sub'.1 = sub.1 → sub' = sub

theorem systemInv_init (limits : Limits) : SystemInv limits System.init where
  registry := registryInv_init limits
  registered := by
    intro kind sub hsub
    cases kind <;> cases hsub
  recorded := fun _ f hf => by cases (show f ∈ ([] : List Frame) from hf)
  sent := fun _ hr => by cases hr
  same := fun _ hr => by cases hr

@[simp] theorem retract_subid (f : Frame) : f.retract.subid = f.subid := by
  rw [Frame.retract]
  split <;> rfl

@[simp] theorem retract_block (f : Frame) : f.retract.block = f.block := by
  rw [Frame.retract]
  split <;> rfl

theorem retract_of_log {f : Frame} {log : Log} {removed : Bool}
    (h : f.result = .log log removed) :
    f.retract = { f with result := .log log true } := by
  rw [Frame.retract, h]

section Invariant

variable {toLowerCase : String → String} {limits : Limits} {s : System}

/-- What a fork replays is the retraction of a log. -/
theorem SystemInv.replayed (h : SystemInv limits s) {n : Nat} {f : Frame}
    (hf : f ∈ s.logsSent.at n) : ∃ log, f.retract.result = .log log true := by
  obtain ⟨-, -, log, hlog⟩ := h.recorded n f hf
  exact ⟨log, by rw [retract_of_log hlog]⟩

/-- Who is sent a frame is registered, or has been sent a log of the block. -/
theorem SentFor.subid {r : Registries} {sent : LogsSent} {e : BlockEvent} {f : Frame}
    (h : SentFor r sent e f) :
    (∃ kind, ∃ sub ∈ r.get kind, f.subid = sub.1) ∨
      ∃ block, e = .forked block ∧ ∃ g ∈ sent.at block.number, f = g.retract := by
  cases h with
  | head block sub hsub => exact Or.inl ⟨.newHeads, sub, hsub, rfl⟩
  | log block sub log hsub => exact Or.inl ⟨.logs, sub, hsub, rfl⟩
  | mined block sub tx hsub => exact Or.inl ⟨.minedTransactions, sub, hsub, rfl⟩
  | replayed block g hg => exact Or.inr ⟨block, rfl, g, hg, rfl⟩
  | retracted block sub tx hsub => exact Or.inl ⟨.minedTransactions, sub, hsub, rfl⟩

theorem SystemInv.sentFor_used (h : SystemInv limits s) {e : BlockEvent} {f : Frame}
    (hf : SentFor s.server.registries s.logsSent e f) : f.subid ∈ s.used := by
  rcases hf.subid with ⟨kind, sub, hsub, heq⟩ | ⟨block, -, g, hg, rfl⟩
  · rw [heq]
    exact h.registered kind sub hsub
  · rw [retract_subid]
    exact (h.recorded _ g hg).2.1

theorem SystemInv.emit (h : SystemInv limits s) (e : BlockEvent) :
    SystemInv limits (s.emit e) where
  registry := h.registry
  registered := h.registered
  recorded := by
    intro n f hf
    rcases mem_logsSent hf with ⟨hold, -⟩ | ⟨block, -, hn, hnew⟩
    · exact h.recorded n f hold
    · obtain ⟨sub, hsub, log, rfl⟩ := mem_logsLoop_subs hnew
      exact ⟨hn.symm, h.registered .logs sub hsub, log, rfl⟩
  sent := by
    intro r hr f hf
    rcases List.mem_cons.mp hr with rfl | hold
    · exact h.sentFor_used (sentFor_of_mem hf)
    · exact h.sent r hold f hf
  same := by
    intro r hr kind sub hsub
    rcases List.mem_cons.mp hr with rfl | hold
    · refine ⟨h.registered kind sub hsub, ?_⟩
      intro k sub' hsub' heq
      have hhas := InsertionMap.has_eq_true.mpr ⟨sub.2, hsub⟩
      have hhas' := InsertionMap.has_eq_true.mpr ⟨sub'.2, hsub'⟩
      rw [heq] at hhas'
      -- an id is in one registry only, and there once
      obtain rfl := h.registry.one_kind k kind sub.1 hhas' hhas
      exact List.inj_on_of_nodup_map (h.registry.distinct k) hsub' hsub heq
    · exact h.same r hold kind sub hsub

theorem fire_run (m : BlockMonitor) : m.fire.run = m.run := by
  rw [BlockMonitor.fire]
  split <;> rfl

theorem complete_run (m : BlockMonitor) (i : Nat) (a : Answer) :
    (m.complete i a).1.run = m.run := by
  rcases complete_cases m i a with hc | ⟨p, o, -, -, hc⟩ <;> rw [hc]
  · rw [BlockMonitor.after]
    split
    · rfl
    · rw [finish_run]

theorem SystemInv.withMonitor (h : SystemInv limits s) {m : BlockMonitor}
    (hrun : m.run = s.server.monitor.run) : SystemInv limits (s.withMonitor m) where
  registry := ⟨h.registry.bounded, h.registry.distinct, h.registry.one_kind,
    hrun.trans h.registry.running⟩
  registered := h.registered
  recorded := h.recorded
  sent := h.sent
  same := h.same

theorem SystemInv.fresh (h : SystemInv limits s) {op : ClientOp}
    (hfresh : FreshId s (.client op)) : Fresh s.server op := by
  cases op with
  | subscribe ws subid data =>
      have hnew : ∀ kind, InsertionMap.has (s.server.registries.get kind) subid
          = false := by
        intro kind
        cases hhas : InsertionMap.has (s.server.registries.get kind) subid with
        | false => rfl
        | true =>
            obtain ⟨client, hmem⟩ := InsertionMap.has_eq_true.mp hhas
            exact absurd (h.registered kind _ hmem) (hfresh subid List.mem_cons_self)
      exact ⟨hnew .newHeads, hnew .logs, hnew .minedTransactions⟩
  | _ => exact trivial

theorem SystemInv.handle (h : SystemInv limits s) {e : SystemEvent}
    (hfresh : FreshId s e) : SystemInv limits (s.handle toLowerCase limits e) := by
  cases e with
  | client op =>
      have happ := applyOp_applied toLowerCase limits s.server op
      refine ⟨h.registry.step (h.fresh hfresh) happ, ?_, ?_, ?_, ?_⟩
      · intro kind sub hsub
        rcases happ.registered hsub with hold | ⟨hnew, -⟩
        · exact List.mem_append_right _ (h.registered kind sub hold)
        · exact List.mem_append_left _ hnew
      · intro n f hf
        obtain ⟨hn, hused, hlog⟩ := h.recorded n f hf
        exact ⟨hn, List.mem_append_right _ hused, hlog⟩
      · intro r hr f hf
        exact List.mem_append_right _ (h.sent r hr f hf)
      · intro r hr kind sub hsub
        obtain ⟨hused, hsame⟩ := h.same r hr kind sub hsub
        refine ⟨List.mem_append_right _ hused, ?_⟩
        intro k sub' hsub' heq
        rcases happ.registered hsub' with hold | ⟨hnew, -⟩
        · exact hsame k sub' hold heq
        · exact absurd (heq ▸ hused) (hfresh _ hnew)
  | timer => exact h.withMonitor (fire_run _)
  | answer i a =>
      exact List.foldlRecOn _ _ (h.withMonitor (complete_run _ i a))
        fun _ hs e _ => SystemInv.emit hs e

theorem systemInv_of_reach {adm : System → SystemEvent → Prop}
    (hadm : ∀ s e, adm s e → FreshId s e) {es : List SystemEvent}
    (hrun : Reach (systemStep toLowerCase limits) adm System.init es s) :
    SystemInv limits s :=
  hrun.invariant (P := SystemInv limits) (systemInv_init limits)
    fun _ _ _ h ha hstep => by
      rw [← Except.ok.inj hstep]
      exact h.handle (hadm _ _ ha)

end Invariant

/-- One subscription of each kind for a connection. -/
def plainSystemStep : System → SystemEvent → Except JsError System :=
  systemStep id ⟨1, 1⟩

/-- Connection 1 follows the logs, connection 2 the heads; the poll finds block 9,
    which has a log. -/
def plainNine : List SystemEvent :=
  [.client (.subscribe 1 "a" (plainSubscribe [.str "logs"])),
    .client (.subscribe 2 "b" (plainSubscribe [.str "newHeads"])),
    .timer, .answer 0 (.head (some 10)),
    .answer 0 (.ofBlock (plainBlock 9 "h9" "h8")), .answer 0 (.head (some 10))]

/-- The next poll finds a block 10 on top of another block 9. -/
def plainForkNine : List SystemEvent :=
  [.timer, .answer 0 (.head (some 13)),
    .answer 0 (.ofBlock (plainBlock 10 "h10b" "h9b"))]

end WsProxy

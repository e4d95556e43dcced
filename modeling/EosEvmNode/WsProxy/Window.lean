import EosEvmNode.WsProxy.BlockMonitor
import EosEvmNode.Lib.Runs
import Mathlib.Data.List.Chain

/-! # The window of the block monitor

    A poll keeps its own copy of the newest block while it waits for an answer,
    and `start` can schedule a second poll before the first one has ended.  What a
    poll does with an answer is one of five things (`resume_cases`); only an append
    that rests on a copy the window has moved away from breaks the linked run. -/

namespace WsProxy

open Runs

/-! ## What a suspended poll knows -/

/-- The block a poll takes for the newest of the window; after its loop it has no
    more use for one. -/
def Poll.lastSeen : Poll → Option (Option Block)
  | .firstHead => some none
  | .firstBlock _ => some none
  | .nextHead last _ => some last
  | .nextBlock last _ => some last
  | .info => none
  | .libBlock => none

/-- The height a poll has requested a block for. -/
def Poll.requested : Poll → Option Int
  | .firstBlock number => some number
  | .nextBlock _ number => some number
  | _ => none

/-- After a block, the next one is requested. -/
def Poll.Asks : Poll → Prop
  | .nextBlock (some last) number => number = last.number + 1
  | _ => True

/-- The block a poll appends when it gets this answer. -/
def Poll.accepts : Poll → Answer → Option Block
  | .firstBlock _, .batch r => (getBlockWithLogs r).toOption
  | .nextBlock (some last) _, .batch r =>
      (getBlockWithLogs r).toOption.filter fun next => next.parentHash = last.hash
  | _, _ => none

/-- The five ways a poll goes on. -/
inductive Resumed (window : List Block) (p : Poll) (a : Answer) : Outcome → Prop where
  | waits (p' : Poll) :
      p'.lastSeen = p.lastSeen ∨ p'.lastSeen = none → p'.Asks →
      Resumed window p a ⟨window, [], .await p'⟩
  | appended (block : Block) (found : Bool) :
      p.accepts a = some block →
      Resumed window p a
        ⟨block :: window, [.appended block], .await (.nextHead (some block) found)⟩
  | forked (block : Block) (rest : List Block) :
      window = block :: rest →
      Resumed window p a ⟨rest, [.forked block], .await (.nextHead rest.head? true)⟩
  | ended : Resumed window p a ⟨window, [], .done⟩
  | pruned (rest dropped : List Block) :
      window = rest ++ dropped →
      Resumed window p a ⟨rest, dropped.reverse.map .removed, .done⟩

theorem resumed_afterLoop {window : List Block} {p : Poll} {a : Answer} (found : Bool) :
    Resumed window p a ⟨window, [], afterLoop window found⟩ := by
  rw [afterLoop]
  split
  · exact .waits .info (Or.inr rfl) trivial
  · exact .ended

/-- Blocks are taken from the front, the oldest one first. -/
theorem removeFrontBlocks_spec (evmLib fuel : Nat) (window : List Block) :
    ∃ dropped, window = (removeFrontBlocks evmLib fuel window).1 ++ dropped ∧
      (removeFrontBlocks evmLib fuel window).2 = dropped.reverse.map .removed := by
  induction fuel generalizing window with
  | zero => exact ⟨[], (List.append_nil _).symm, rfl⟩
  | succ fuel ih =>
      rw [removeFrontBlocks]
      cases hlast : window.getLast? with
      | none => exact ⟨[], (List.append_nil _).symm, rfl⟩
      | some block =>
          simp only
          split
          · obtain ⟨dropped, hwindow, hevents⟩ := ih window.dropLast
            refine ⟨dropped ++ [block], ?_, ?_⟩
            · rw [← List.append_assoc, ← hwindow]
              exact (List.dropLast_append_getLast? block hlast).symm
            · rw [List.reverse_concat, List.map_cons, hevents]
          · exact ⟨[], (List.append_nil _).symm, rfl⟩

/-- **What a poll does with an answer.** -/
theorem resume_cases (window : List Block) (p : Poll) (a : Answer) :
    Resumed window p a (resume window p a) := by
  fun_cases resume window p a with
  | case1 => exact .ended
  | case2 number => exact .waits _ (Or.inl rfl) trivial
  | case3 => exact .ended
  | case4 _ number r block hblock =>
      refine .appended block false ?_
      rw [Poll.accepts, hblock]
      rfl
  | case5 => exact resumed_afterLoop _
  | case6 => exact .waits _ (Or.inl rfl) trivial
  | case7 => exact resumed_afterLoop _
  | case8 => exact .waits _ (Or.inl rfl) rfl
  | case9 => exact .ended
  | case10 => exact resumed_afterLoop _
  | case11 _ number r next hnext last hparent =>
      refine .appended next true ?_
      rw [Poll.accepts, hnext]
      exact Option.filter_some_pos (by simpa using hparent)
  | case12 => exact .ended
  | case13 => exact .forked _ _ rfl
  | case14 => exact .waits _ (Or.inr rfl) trivial
  | case15 _ evmLib rest events hfront =>
      obtain ⟨dropped, hwindow, hevents⟩ :=
        removeFrontBlocks_spec evmLib window.length window
      rw [hfront] at hwindow hevents
      rw [show events = _ from hevents]
      exact .pruned rest dropped hwindow
  | case16 => exact .ended

/-- The monitor after the `i`-th poll has gone on. -/
def BlockMonitor.after (m : BlockMonitor) (i : Nat) (o : Outcome) : BlockMonitor :=
  match o.progress with
  | .await p =>
      { m with
        reversibleBlocks := o.window
        polls := m.polls.set i p }
  | .done =>
      { m with
        reversibleBlocks := o.window
        polls := m.polls.eraseIdx i }.finish

/-- What a completion does: nothing, or one of the five. -/
theorem complete_cases (m : BlockMonitor) (i : Nat) (a : Answer) :
    m.complete i a = (m, []) ∨
      ∃ p o, m.polls[i]? = some p ∧ Resumed m.reversibleBlocks p a o ∧
        m.complete i a = (m.after i o, o.events) := by
  rw [BlockMonitor.complete]
  cases hp : m.polls[i]? with
  | none => exact Or.inl rfl
  | some p =>
      have hres := resume_cases m.reversibleBlocks p a
      dsimp only
      generalize resume m.reversibleBlocks p a = o at hres
      refine Or.inr ⟨p, o, rfl, hres, ?_⟩
      rw [BlockMonitor.after]
      cases ho : o.progress <;> rfl

theorem finish_window (m : BlockMonitor) :
    m.finish.reversibleBlocks = if m.run then m.reversibleBlocks else [] := by
  rw [BlockMonitor.finish]
  split <;> rfl

@[simp] theorem finish_polls (m : BlockMonitor) : m.finish.polls = m.polls := by
  rw [BlockMonitor.finish]
  split <;> rfl

@[simp] theorem finish_run (m : BlockMonitor) : m.finish.run = m.run := by
  rw [BlockMonitor.finish]
  split <;> rfl

/-! ## The linked run -/

/-- Newest first: each block names the one below it as its parent. -/
def Linked (window : List Block) : Prop :=
  window.IsChain fun later earlier =>
    later.parentHash = earlier.hash ∧ later.number = earlier.number + 1

instance (window : List Block) : Decidable (Linked window) :=
  inferInstanceAs (Decidable (List.IsChain _ window))

theorem Linked.tail {block : Block} {rest : List Block} (h : Linked (block :: rest)) :
    Linked rest :=
  List.IsChain.tail h

/-- The numbers go up towards the newest block. -/
theorem Linked.pairwise {window : List Block} (h : Linked window) :
    window.Pairwise fun later earlier => earlier.number < later.number := by
  have hlt : window.IsChain fun later earlier => earlier.number < later.number :=
    List.IsChain.imp (fun _ _ hlink => by omega) h
  exact List.isChain_iff_pairwise.mp hlt

theorem Linked.number_lt {block b : Block} {rest : List Block}
    (h : Linked (block :: rest)) (hb : b ∈ rest) : b.number < block.number :=
  List.rel_of_pairwise_cons h.pairwise hb

theorem Linked.lt_number {block b : Block} {rest : List Block}
    (h : Linked (rest ++ [block])) (hb : b ∈ rest) : block.number < b.number :=
  (List.pairwise_append.mp h.pairwise).2.2 b hb block List.mem_cons_self

theorem Linked.not_mem {block : Block} {rest : List Block}
    (h : Linked (block :: rest)) : block ∉ rest :=
  fun hmem => Nat.lt_irrefl _ (h.number_lt hmem)

/-! ## Steps of the monitor -/

/-- What the RPC promises: a request for a height is answered with a block of that
    number, and a hash determines its block. -/
def RpcContract (blockOf : String → Block) (m : BlockMonitor) : MonitorEvent → Prop
  | .answer i (.batch r) =>
      match (m.polls[i]?).bind Poll.requested, getBlockWithLogs r with
      | some number, .ok block => block.number = number ∧ blockOf block.hash = block
      | _, _ => True
  | _ => True

instance (blockOf : String → Block) (m : BlockMonitor) (e : MonitorEvent) :
    Decidable (RpcContract blockOf m e) := by
  unfold RpcContract
  split
  · split <;> infer_instance
  · infer_instance

theorem accepts_eq_some {p : Poll} {a : Answer} {block : Block}
    (h : p.accepts a = some block) :
    ∃ r number last, a = .batch r ∧ getBlockWithLogs r = .ok block ∧
      p.requested = some number ∧ p.lastSeen = some last ∧
      ∀ l ∈ last, block.parentHash = l.hash ∧ (p.Asks → number = l.number + 1) := by
  revert h
  fun_cases Poll.accepts p a with
  | case1 number r =>
      intro h
      cases hr : getBlockWithLogs r with
      | error e => rw [hr] at h; cases h
      | ok b =>
          rw [hr] at h
          obtain rfl := Option.some.inj h
          exact ⟨r, number, none, rfl, hr, rfl, rfl, fun _ hl => (by cases hl)⟩
  | case2 last number r =>
      intro h
      obtain ⟨hsome, hparent⟩ := Option.filter_eq_some_iff.mp h
      cases hr : getBlockWithLogs r with
      | error e => rw [hr] at hsome; cases hsome
      | ok b =>
          rw [hr] at hsome
          obtain rfl := Option.some.inj hsome
          refine ⟨r, number, some last, rfl, hr, rfl, rfl, ?_⟩
          intro l hl
          obtain rfl := Option.some.inj hl
          exact ⟨by simpa using hparent, id⟩
  | case3 => intro h; cases h

/-- **The condition**: when a poll appends a block, the block it takes for the
    newest of the window still is, unless the window is empty. -/
def UpToDate (m : BlockMonitor) : MonitorEvent → Prop
  | .answer i a => ∀ p ∈ m.polls[i]?, (p.accepts a).isSome → m.reversibleBlocks ≠ [] →
      ∀ last ∈ p.lastSeen, last = m.reversibleBlocks.head?
  | _ => True

instance (m : BlockMonitor) (e : MonitorEvent) : Decidable (UpToDate m e) := by
  unfold UpToDate
  cases e <;> infer_instance

/-- The linked run, and what it rests on. -/
structure WindowInv (m : BlockMonitor) : Prop where
  linked : Linked m.reversibleBlocks
  asks : ∀ p ∈ m.polls, p.Asks

theorem windowInv_init : WindowInv BlockMonitor.init :=
  ⟨List.isChain_nil, fun _ hp => (by cases hp)⟩

section Steps

variable {blockOf : String → Block} {m : BlockMonitor}

/-- An appended block continues the run. -/
theorem WindowInv.append (h : WindowInv m) {i : Nat} {a : Answer} {p : Poll}
    {block : Block} (hp : m.polls[i]? = some p) (haccepts : p.accepts a = some block)
    (hcontract : RpcContract blockOf m (.answer i a))
    (hcurrent : UpToDate m (.answer i a)) : Linked (block :: m.reversibleBlocks) := by
  obtain ⟨r, number, last, rfl, hr, hrequested, hseen, hlast⟩ := accepts_eq_some haccepts
  refine List.isChain_cons.mpr ⟨?_, h.linked⟩
  intro newest hnewest
  have hne : m.reversibleBlocks ≠ [] := by
    rintro hnil
    rw [hnil] at hnewest
    cases hnewest
  have heq : last = m.reversibleBlocks.head? :=
    hcurrent p hp (by rw [haccepts]; rfl) hne last hseen
  obtain ⟨hparent, hnumber⟩ := hlast newest (heq ▸ hnewest)
  have hasks := hnumber (h.asks p (List.mem_of_getElem? hp))
  rw [RpcContract, hp, hr, Option.bind_some, hrequested] at hcontract
  exact ⟨hparent, by have := hcontract.1; omega⟩

theorem mem_set_asks (h : WindowInv m) {i : Nat} {p p' : Poll} (hp' : p'.Asks)
    (hmem : p ∈ m.polls.set i p') : p.Asks := by
  rcases List.mem_or_eq_of_mem_set hmem with hold | rfl
  · exact h.asks p hold
  · exact hp'

theorem WindowInv.complete (h : WindowInv m) {i : Nat} {a : Answer}
    (hcontract : RpcContract blockOf m (.answer i a))
    (hcurrent : UpToDate m (.answer i a)) : WindowInv (m.complete i a).1 := by
  -- an ended poll leaves the window, or clears it after a stop
  have hdone : ∀ {w}, Linked w → WindowInv
      ({ m with reversibleBlocks := w, polls := m.polls.eraseIdx i } : BlockMonitor).finish := by
    intro w hw
    refine ⟨?_, ?_⟩
    · rw [finish_window]
      split
      · exact hw
      · exact List.isChain_nil
    · rw [finish_polls]
      exact fun p hp => h.asks p (List.mem_of_mem_eraseIdx hp)
  rcases complete_cases m i a with hc | ⟨p, o, hp, hres, hc⟩ <;> rw [hc]
  · exact h
  · cases hres with
    | waits p' hseen hasks => exact ⟨h.linked, fun _ hmem => mem_set_asks h hasks hmem⟩
    | appended block found haccepts =>
        exact ⟨h.append hp haccepts hcontract hcurrent,
          fun _ hmem => mem_set_asks h
            (show (Poll.nextHead (some block) found).Asks from trivial) hmem⟩
    | forked block rest hwindow =>
        have hlinked := h.linked
        rw [hwindow] at hlinked
        exact ⟨hlinked.tail, fun _ hmem => mem_set_asks h
          (show (Poll.nextHead rest.head? true).Asks from trivial) hmem⟩
    | ended => exact hdone h.linked
    | pruned rest dropped hwindow =>
        have hlinked := h.linked
        rw [hwindow] at hlinked
        exact hdone (List.IsChain.left_of_append hlinked)

theorem WindowInv.handle (h : WindowInv m) {e : MonitorEvent}
    (hcontract : RpcContract blockOf m e) (hcurrent : UpToDate m e) :
    WindowInv (m.handle e).1 := by
  cases e with
  | start =>
      show WindowInv m.start
      rw [BlockMonitor.start]
      split
      · exact h
      · exact ⟨h.linked, h.asks⟩
  | stop => exact ⟨h.linked, h.asks⟩
  | timer =>
      show WindowInv m.fire
      rw [BlockMonitor.fire]
      split
      · refine ⟨h.linked, ?_⟩
        intro p hp
        rcases List.mem_append.mp hp with hold | hnew
        · exact h.asks p hold
        · rw [List.mem_singleton.mp hnew]
          unfold startPoll
          split <;> trivial
      · exact h
  | answer i a => exact h.complete hcontract hcurrent

/-- A block that is appended is new to the window. -/
theorem WindowInv.appended_not_mem (h : WindowInv m) {e : MonitorEvent}
    (hcontract : RpcContract blockOf m e) (hcurrent : UpToDate m e) {block : Block}
    (hblock : .appended block ∈ (m.handle e).2) : block ∉ m.reversibleBlocks := by
  cases e with
  | answer i a =>
      rw [BlockMonitor.handle] at hblock
      rcases complete_cases m i a with hc | ⟨p, o, hp, hres, hc⟩ <;> rw [hc] at hblock
      · cases hblock
      · cases hres with
        | appended b found haccepts =>
            obtain rfl : block = b := by simpa using hblock
            exact (h.append hp haccepts hcontract hcurrent).not_mem
        | pruned rest dropped hwindow => simp at hblock
        | _ => simp at hblock
  | _ => cases hblock

/-- For a poll in its loop the condition is necessary: the block it appends on a
    copy that is out of date does not continue the run. -/
theorem not_linked_of_stale {newest last block : Block} {rest : List Block}
    (hnewest : blockOf newest.hash = newest) (hlast : blockOf last.hash = last)
    (hparent : block.parentHash = last.hash) (hstale : last ≠ newest) :
    ¬ Linked (block :: newest :: rest) := by
  intro hlinked
  obtain ⟨hhash, -⟩ := (List.isChain_cons_cons.mp hlinked).1
  have heq : last.hash = newest.hash := hparent.symm.trans hhash
  exact hstale (hlast.symm.trans ((congrArg blockOf heq).trans hnewest))

end Steps

/-! ## Runs -/

/-- The monitor after an event. -/
def monitorStep (m : BlockMonitor) (e : MonitorEvent) : Except JsError BlockMonitor :=
  .ok (m.handle e).1

/-- **The window is a linked run**, and no appended block is in it already, in
    every run whose appends rest on a copy that is up to date. -/
theorem window_linked {blockOf : String → Block} {es : List MonitorEvent}
    {m : BlockMonitor}
    (hrun : Reach monitorStep (fun m e => RpcContract blockOf m e ∧ UpToDate m e)
      BlockMonitor.init es m) :
    Linked m.reversibleBlocks ∧
      ∀ e, RpcContract blockOf m e → UpToDate m e →
        ∀ block, .appended block ∈ (m.handle e).2 → block ∉ m.reversibleBlocks := by
  have hinv : WindowInv m :=
    hrun.invariant (P := WindowInv) windowInv_init fun m e m' h hadm hstep => by
      rw [← Except.ok.inj hstep]
      exact h.handle hadm.1 hadm.2
  exact ⟨hinv.linked, fun e hcontract hcurrent block hblock =>
    hinv.appended_not_mem hcontract hcurrent hblock⟩

/-- The answer of the RPC with this block and its logs. -/
def Answer.ofBlock (block : Block) : Answer := .batch ⟨some block, some block.logs⟩

/-- Blocks by their hash. -/
def blockIn (blocks : List Block) (hash : String) : Block :=
  (blocks.find? fun block => block.hash = hash).getD (plainBlock 0 hash "")

def plainBlocks : List Block :=
  [plainBlock 9 "h9" "h8", plainBlock 10 "h10" "h9", plainBlock 11 "h11" "h10",
    plainBlock 10 "h10b" "h9b", plainBlock 12 "h12b" "h11b"]

theorem window_linked_plain :
    ∃ m, Reach monitorStep
        (fun m e => RpcContract (blockIn plainBlocks) m e ∧ UpToDate m e) BlockMonitor.init
        [.start, .timer, .answer 0 (.head (some 11)),
          .answer 0 (.ofBlock (plainBlock 10 "h10" "h9")), .answer 0 (.head (some 13)),
          .answer 0 (.ofBlock (plainBlock 11 "h11" "h10"))] m ∧
      Linked m.reversibleBlocks := by
  have hcheck : checkRun monitorStep
      (fun m e => RpcContract (blockIn plainBlocks) m e ∧ UpToDate m e) BlockMonitor.init
      [.start, .timer, .answer 0 (.head (some 11)),
        .answer 0 (.ofBlock (plainBlock 10 "h10" "h9")), .answer 0 (.head (some 13)),
        .answer 0 (.ofBlock (plainBlock 11 "h11" "h10"))] = true := by decide +kernel
  obtain ⟨m, hm⟩ := exists_reach hcheck
  exact ⟨m, hm, (window_linked hm).1⟩

/-- A poll waits for block 10 when the last subscription goes and a new one comes:
    the second poll finds the window empty as well, and both append block 10. -/
def restartedPolls : List MonitorEvent :=
  [.start, .timer, .answer 0 (.head (some 11)), .stop, .start, .timer,
    .answer 1 (.head (some 11)), .answer 0 (.ofBlock (plainBlock 10 "h10" "h9")),
    .answer 1 (.ofBlock (plainBlock 10 "h10" "h9"))]

theorem not_linked_restartedPolls :
    ¬ ∀ (blockOf : String → Block) (es : List MonitorEvent) (m : BlockMonitor),
      Reach monitorStep (RpcContract blockOf) BlockMonitor.init es m →
        Linked m.reversibleBlocks := by
  intro h
  have hcheck : checkRun monitorStep (RpcContract (blockIn plainBlocks)) BlockMonitor.init
      restartedPolls = true := by decide +kernel
  obtain ⟨m, hm⟩ := exists_reach hcheck
  have hwindow : m.reversibleBlocks
      = [plainBlock 10 "h10" "h9", plainBlock 10 "h10" "h9"] :=
    hm.eval (f := BlockMonitor.reversibleBlocks) (by decide +kernel)
  have hlinked := h (blockIn plainBlocks) restartedPolls m hm
  rw [hwindow] at hlinked
  revert hlinked
  decide +kernel

/-! ## One poll at a time -/

/-- At most one poll is suspended, and its copy is up to date. -/
structure Solo (m : BlockMonitor) : Prop where
  single : m.polls.length ≤ 1
  seen : ∀ p ∈ m.polls, ∀ last ∈ p.lastSeen, last = m.reversibleBlocks.head?

/-- The timer fires when no poll is suspended. -/
def NoOverlap (m : BlockMonitor) (e : MonitorEvent) : Prop :=
  e = .timer → m.polls = []

instance (m : BlockMonitor) (e : MonitorEvent) : Decidable (NoOverlap m e) :=
  inferInstanceAs (Decidable (_ → _))

theorem Solo.upToDate {m : BlockMonitor} (h : Solo m) (e : MonitorEvent) :
    UpToDate m e := by
  cases e with
  | answer i a => exact fun p hp _ _ => h.seen p (List.mem_of_getElem? hp)
  | _ => exact trivial

/-- The only poll, and what is left without it. -/
theorem Solo.unique {m : BlockMonitor} (h : Solo m) {i : Nat} {p : Poll}
    (hp : m.polls[i]? = some p) (q : Poll) :
    m.polls.set i q = [q] ∧ m.polls.eraseIdx i = [] := by
  have hlength := h.single
  cases hpolls : m.polls with
  | nil => rw [hpolls] at hp; cases hp
  | cons x xs =>
      rw [hpolls] at hp hlength
      obtain rfl : xs = [] := List.length_eq_zero_iff.mp (by simpa using hlength)
      cases i with
      | zero => exact ⟨rfl, rfl⟩
      | succ i => cases hp

theorem solo_init : Solo BlockMonitor.init :=
  ⟨Nat.zero_le _, fun _ hp => (by cases hp)⟩

theorem solo_of_nil {m : BlockMonitor} (h : m.polls = []) : Solo m := by
  refine ⟨by simp [h], ?_⟩
  rw [h]
  exact fun p hp => (by cases hp)

theorem solo_of_singleton {m : BlockMonitor} {p : Poll} (h : m.polls = [p])
    (hseen : ∀ last ∈ p.lastSeen, last = m.reversibleBlocks.head?) : Solo m := by
  refine ⟨by simp [h], ?_⟩
  rw [h]
  intro q hq
  rw [List.mem_singleton.mp hq]
  exact hseen

theorem startPoll_lastSeen (window : List Block) :
    (startPoll window).lastSeen = some window.head? := by
  cases window <;> rfl

theorem Solo.complete {m : BlockMonitor} (h : Solo m) (i : Nat) (a : Answer) :
    Solo (m.complete i a).1 := by
  rcases complete_cases m i a with hc | ⟨p, o, hp, hres, hc⟩ <;> rw [hc]
  · exact h
  · have hdone : ∀ w, Solo
        ({ m with reversibleBlocks := w, polls := m.polls.eraseIdx i } : BlockMonitor).finish :=
      fun w => solo_of_nil (by rw [finish_polls]; exact (h.unique hp p).2)
    cases hres with
    | waits p' hseen hasks =>
        refine solo_of_singleton (h.unique hp p').1 ?_
        intro last hlast
        rcases hseen with hseen | hseen
        · exact h.seen p (List.mem_of_getElem? hp) last (hseen ▸ hlast)
        · rw [hseen] at hlast
          cases hlast
    | appended block found haccepts =>
        refine solo_of_singleton (h.unique hp _).1 ?_
        intro last hlast
        exact (Option.some.inj hlast).symm
    | forked block rest hwindow =>
        refine solo_of_singleton (h.unique hp _).1 ?_
        intro last hlast
        exact (Option.some.inj hlast).symm
    | ended => exact hdone _
    | pruned rest dropped hwindow => exact hdone _

theorem Solo.handle {m : BlockMonitor} (h : Solo m) {e : MonitorEvent}
    (hadm : NoOverlap m e) : Solo (m.handle e).1 := by
  cases e with
  | start =>
      show Solo m.start
      rw [BlockMonitor.start]
      split
      · exact h
      · exact ⟨h.single, h.seen⟩
  | stop => exact ⟨h.single, h.seen⟩
  | timer =>
      show Solo m.fire
      rw [BlockMonitor.fire]
      split
      · refine solo_of_singleton (p := startPoll m.reversibleBlocks) ?_ ?_
        · rw [hadm rfl]
          rfl
        · intro last hlast
          rw [startPoll_lastSeen] at hlast
          exact (Option.some.inj hlast).symm
      · exact h
  | answer i a => exact h.complete i a

/-- Polls that do not overlap keep the window a linked run. -/
theorem window_linked_of_noOverlap {blockOf : String → Block} {es : List MonitorEvent}
    {m : BlockMonitor}
    (hrun : Reach monitorStep (fun m e => RpcContract blockOf m e ∧ NoOverlap m e)
      BlockMonitor.init es m) : Solo m ∧ Linked m.reversibleBlocks := by
  have hinv : Solo m ∧ WindowInv m :=
    hrun.invariant (P := fun m => Solo m ∧ WindowInv m) ⟨solo_init, windowInv_init⟩
      fun m e m' h hadm hstep => by
        rw [← Except.ok.inj hstep]
        exact ⟨h.1.handle hadm.2, h.2.handle hadm.1 (h.1.upToDate e)⟩
  exact ⟨hinv.1, hinv.2.linked⟩

end WsProxy

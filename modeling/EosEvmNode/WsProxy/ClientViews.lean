import EosEvmNode.Lib.NumberedLog
import EosEvmNode.WsProxy.Heads
import EosEvmNode.WsProxy.LogRetractions
import Mathlib.Data.Multiset.AddSub

/-! # What clients make of their frames

    A client of `newHeads` lets each head take the place of the ones at its height
    and above.  A client of `logs` takes an announced log in and gives a retracted
    one up.  Neither is ever told what the window of the monitor is; the two main
    results say that what they hold is the window nevertheless, as far as they have
    been told anything about it. -/

namespace WsProxy

open NumberedLog Runs

/-! ## Heads -/

/-- The heads a subscription is sent for an event. -/
def Record.heads (subid : SubId) (r : Record) : List Block :=
  (r.frames.filter fun f => f.subid = subid ∧ f.result = .head).map Frame.block

/-- All of them, the last one sent first. -/
def headsSent (subid : SubId) (history : List Record) : List Block :=
  history.flatMap fun r => (r.heads subid).reverse

/-- What a client of a `newHeads` subscription holds. -/
def heldHeads (subid : SubId) (history : List Record) : List Block :=
  view Block.number (headsSent subid history)

section Heads

variable {toLowerCase : String → String} {limits : Limits} {s : System} {subid : SubId}

theorem headsSent_emit (subid : SubId) (s : System) (e : BlockEvent) :
    headsSent subid (s.emit e).history
      = ((s.record e).heads subid).reverse ++ headsSent subid s.history :=
  List.flatMap_cons

/-- The heads and their numbers. -/
theorem Record.map_heads (subid : SubId) (r : Record) :
    (r.heads subid).map Block.number = r.headNumbers subid := by
  rw [Record.heads, List.map_map]
  rfl

theorem headsSent_emit_other (hs : SystemInv limits s) {e : BlockEvent}
    (he : ∀ block, e ≠ .appended block) (subid : SubId) :
    headsSent subid (s.emit e).history = headsSent subid s.history := by
  have hnone : (s.record e).heads subid = [] := by
    rw [← List.map_eq_nil_iff, Record.map_heads, headNumbers_eq_nil hs he]
  rw [headsSent_emit, hnone]
  rfl

theorem headsSent_of_unused (hs : SystemInv limits s) (hunused : subid ∉ s.used) :
    headsSent subid s.history = [] := by
  have hnumbers : (headsSent subid s.history).map Block.number
      = headNumbers subid s.history := by
    rw [headsSent, headNumbers, List.map_flatMap]
    refine List.flatMap_congr ?_
    intro r _
    rw [List.map_reverse, Record.map_heads]
  rw [← List.map_eq_nil_iff, hnumbers, headNumbers_of_unused hs hunused]

/-- **An appended block** is sent to a registered subscription once. -/
theorem heads_appended (hs : SystemInv limits s) {sub : SubId × Client}
    (hsub : sub ∈ s.server.registries.newHeadSubs) (block : Block) :
    (s.record (.appended block)).heads sub.1 = [block] := by
  have hlogs : (logsLoop block (logsPairs s.server.registries.logsSubs block.logs)).1.filter
      (fun f => f.subid = sub.1 ∧ f.result = .head) = [] := by
    rw [List.filter_eq_nil_iff]
    intro f hf hhead
    obtain ⟨sub', -, log, rfl⟩ := mem_logsLoop_subs hf
    cases (of_decide_eq_true hhead).2
  have hmined : (if (logsLoop block (logsPairs s.server.registries.logsSubs
      block.logs)).2.isSome = true then [] else processMinedTransactionsSubscriptions
      s.server.registries.minedTransactionsSubs block false).filter
      (fun f => f.subid = sub.1 ∧ f.result = .head) = [] := by
    rw [List.filter_eq_nil_iff]
    intro f hf hhead
    split at hf
    · cases hf
    · obtain ⟨tx, -, sub', -, -, rfl⟩ := mem_mined.mp hf
      cases (of_decide_eq_true hhead).2
  have honce := InsertionMap.filter_of_mem (hs.registry.distinct .newHeads) hsub
  show List.map Frame.block (List.filter _ (_ ++ _ ++ _)) = _
  rw [List.filter_append, List.filter_append, hlogs, hmined, List.append_nil,
    List.append_nil, processNewHeadsSubscriptions, List.filter_map, List.map_map]
  have hkey : s.server.registries.newHeadSubs.filter ((fun f : Frame =>
      decide (f.subid = sub.1 ∧ f.result = .head)) ∘ fun x => ⟨x.2.ws, x.1, block, .head⟩)
      = s.server.registries.newHeadSubs.filter fun q => q.1 = sub.1 := by
    refine List.filter_congr ?_
    intro x _
    simp
  rw [hkey, show s.server.registries.newHeadSubs.filter (fun q => q.1 = sub.1) = [sub]
    from honce]
  rfl

/-- A registered subscription holds every block of the window that is at or above
    a head it has been sent. -/
def HeadsHeld (window : List Block) (s : System) : Prop :=
  ∀ sub ∈ s.server.registries.newHeadSubs, ∀ y ∈ window,
    (∃ x ∈ headsSent sub.1 s.history, x.number ≤ y.number) →
      y ∈ heldHeads sub.1 s.history

/-- Forks and removals only take blocks from the window. -/
theorem HeadsHeld.emit_other {w w' : List Block} (h : HeadsHeld w s)
    (hs : SystemInv limits s) {e : BlockEvent} (he : ∀ block, e ≠ .appended block)
    (hw : ∀ block ∈ w', block ∈ w) : HeadsHeld w' (s.emit e) := by
  intro sub hsub y hy hsent
  rw [headsSent_emit_other hs he] at hsent
  rw [heldHeads, headsSent_emit_other hs he]
  exact h sub hsub y (hw y hy) hsent

theorem headsHeld_kept : Kept toLowerCase limits (fun _ _ => True) HeadsHeld where
  init := fun _ hsub => by cases hsub
  monitor := fun _ _ _ h => h
  client := by
    intro w s op hs hfresh h sub hsub y hy hsent
    have hcases : sub ∈ s.server.registries.get .newHeads
        ∨ (sub.1 ∈ op.newIds ∧ sub.2.ws = op.ws) :=
      (applyOp_applied toLowerCase limits s.server op).registered hsub
    rcases hcases with hold | ⟨hnew, -⟩
    · exact h sub hold y hy hsent
    · -- a new id has been sent nothing
      obtain ⟨x, hx, -⟩ := hsent
      rw [show (s.handle toLowerCase limits (.client op)).history = s.history from rfl,
        headsSent_of_unused hs (hfresh _ hnew)] at hx
      cases hx
  clear := fun _ _ _ _ _ _ _ hy => by cases hy
  appended := by
    intro block w s hs hlinked _ h sub hsub y hy hsent
    rw [heldHeads, headsSent_emit, heads_appended hs hsub, List.reverse_singleton,
      List.singleton_append, mem_view_cons]
    rcases List.mem_cons.mp hy with rfl | hmem
    · exact Or.inl rfl
    · right
      have hlt : y.number < block.number := hlinked.number_lt hmem
      refine ⟨?_, hlt⟩
      obtain ⟨x, hx, hle⟩ := hsent
      rw [headsSent_emit, heads_appended hs hsub, List.reverse_singleton,
        List.singleton_append] at hx
      -- the block itself is above `y`, so an older head is not
      rcases List.mem_cons.mp hx with rfl | hold
      · exact absurd hle (Nat.not_le_of_lt hlt)
      · exact h sub hsub y hmem ⟨x, hold, hle⟩
  forked := fun _ _ _ hs _ _ h =>
    h.emit_other hs (fun _ he => by cases he) fun _ hb => List.mem_cons_of_mem _ hb
  removed := fun _ _ _ hs _ h =>
    h.emit_other hs (fun _ he => by cases he) fun _ hb => List.mem_append_left _ hb

/-- In a run of consecutive numbers none is left out. -/
theorem Linked.exists_number {window : List Block} (h : Linked window) :
    ∀ {lo hi : Block} {n : Nat}, lo ∈ window → hi ∈ window → lo.number ≤ n →
      n ≤ hi.number → ∃ y ∈ window, y.number = n := by
  induction window with
  | nil => intro lo _ _ hlo; cases hlo
  | cons newest rest ih =>
      intro lo hi n hlo hhi hle hge
      by_cases hnewest : newest.number = n
      · exact ⟨newest, List.mem_cons_self, hnewest⟩
      · have hrest : lo ∈ rest := by
          rcases List.mem_cons.mp hlo with rfl | hmem
          · rcases List.mem_cons.mp hhi with rfl | hmem
            · omega
            · have := h.number_lt hmem
              omega
          · exact hmem
        have htail : Linked rest := List.IsChain.tail h
        have hbound : ∃ top ∈ rest, n ≤ top.number := by
          rcases List.mem_cons.mp hhi with rfl | hmem
          · cases rest with
            | nil => cases hrest
            | cons next older =>
                have hnext := (List.isChain_cons_cons.mp h).1.2
                exact ⟨next, List.mem_cons_self, by omega⟩
          · exact ⟨hi, hmem, hge⟩
        obtain ⟨top, htop, hle'⟩ := hbound
        obtain ⟨y, hy, hn⟩ := ih htail hrest htop hle hle'
        exact ⟨y, List.mem_cons_of_mem _ hy, hn⟩

/-- Between the oldest and the newest block of the window nothing else is held. -/
theorem HeadsHeld.mem_window {window : List Block} (h : HeadsHeld window s)
    (hlinked : Linked window) {sub : SubId × Client}
    (hsub : sub ∈ s.server.registries.newHeadSubs) {x lo hi : Block}
    (hx : x ∈ heldHeads sub.1 s.history) (hlo : lo ∈ window) (hhi : hi ∈ window)
    (hle : lo.number ≤ x.number) (hge : x.number ≤ hi.number) : x ∈ window := by
  -- the window has a block of that number, which the client holds too
  obtain ⟨y, hy, hnumber⟩ := hlinked.exists_number hlo hhi hle hge
  have hheld := h sub hsub y hy ⟨x, mem_of_mem_view hx, Nat.le_of_eq hnumber.symm⟩
  rwa [eq_of_num hx hheld hnumber.symm]

end Heads

/-- **A client of heads holds the window.** In every run whose polls do not overlap
    a registered `newHeads` client holds each block of the window that is at or above
    any head it was ever sent, whatever forks and restarts of the window came in
    between; and between the oldest and the newest block of the window it holds
    nothing else. -/
theorem heads_replicate {toLowerCase : String → String} {limits : Limits}
    {blockOf : String → Block} {es : List SystemEvent} {s : System}
    (hrun : Reach (systemStep toLowerCase limits) (Orderly blockOf) System.init es s)
    {sub : SubId × Client} (hsub : sub ∈ s.server.registries.newHeadSubs) :
    (∀ y ∈ s.server.monitor.reversibleBlocks,
      (∃ x ∈ headsSent sub.1 s.history, x.number ≤ y.number) →
        y ∈ heldHeads sub.1 s.history) ∧
    ∀ x ∈ heldHeads sub.1 s.history,
      (∃ lo ∈ s.server.monitor.reversibleBlocks, lo.number ≤ x.number) →
      (∃ hi ∈ s.server.monitor.reversibleBlocks, x.number ≤ hi.number) →
        x ∈ s.server.monitor.reversibleBlocks := by
  have hinv : OrderlyInv limits HeadsHeld s :=
    headsHeld_kept.holds (fun _ _ h => h) (fun _ _ _ _ _ _ _ => trivial) hrun
  refine ⟨hinv.holds sub hsub, ?_⟩
  rintro x hx ⟨lo, hlo, hle⟩ ⟨hi, hhi, hge⟩
  exact hinv.holds.mem_window hinv.monitor.window.linked hsub hx hlo hhi hle hge

/-- Blocks 9 and 10, and another block 10 with a block 11 on top. -/
def plainBranches : List Block :=
  [plainBlock 9 "h9" "h8", plainBlock 10 "h10" "h9", plainBlock 10 "h10b" "h9",
    plainBlock 11 "h11b" "h10b"]

/-- Connection 1 follows the logs, connection 2 the heads; the second poll finds
    that block 10 has been replaced. -/
def plainForkTen : List SystemEvent :=
  [.client (.subscribe 1 "a" (plainSubscribe [.str "logs"])),
    .client (.subscribe 2 "b" (plainSubscribe [.str "newHeads"])),
    .timer, .answer 0 (.head (some 10)),
    .answer 0 (.ofBlock (plainBlock 9 "h9" "h8")), .answer 0 (.head (some 12)),
    .answer 0 (.ofBlock (plainBlock 10 "h10" "h9")), .answer 0 (.head (some 12)),
    .timer, .answer 0 (.head (some 13)),
    .answer 0 (.ofBlock (plainBlock 11 "h11b" "h10b")), .answer 0 (.head (some 13)),
    .answer 0 (.ofBlock (plainBlock 10 "h10b" "h9")), .answer 0 (.head (some 13)),
    .answer 0 (.ofBlock (plainBlock 11 "h11b" "h10b")), .answer 0 (.head (some 13))]

/-- The client holds blocks 11 to 9 of the new branch. -/
theorem heads_replicate_plainForkTen :
    ∃ s client, Reach plainSystemStep (Orderly (blockIn plainBranches)) System.init
        plainForkTen s ∧ ("b", client) ∈ s.server.registries.newHeadSubs ∧
      s.server.monitor.reversibleBlocks.map Block.hash = ["h11b", "h10b", "h9"] ∧
      (headsSent "b" s.history).map Block.hash = ["h11b", "h10b", "h10", "h9"] ∧
      ∀ y ∈ s.server.monitor.reversibleBlocks, y ∈ heldHeads "b" s.history := by
  have hcheck : checkRun plainSystemStep (Orderly (blockIn plainBranches)) System.init
      plainForkTen = true := by decide +kernel
  obtain ⟨s, hs⟩ := exists_reach hcheck
  have hhas : InsertionMap.has s.server.registries.newHeadSubs "b" = true :=
    hs.eval (f := fun s => InsertionMap.has s.server.registries.newHeadSubs "b")
      (by decide +kernel)
  have hwindow : s.server.monitor.reversibleBlocks.map Block.hash = ["h11b", "h10b", "h9"] :=
    hs.eval (f := fun s => s.server.monitor.reversibleBlocks.map Block.hash)
      (by decide +kernel)
  have hheads : (headsSent "b" s.history).map Block.hash = ["h11b", "h10b", "h10", "h9"] :=
    hs.eval (f := fun s => (headsSent "b" s.history).map Block.hash) (by decide +kernel)
  have hlow : (s.server.monitor.reversibleBlocks.all fun y =>
      (headsSent "b" s.history).any fun x => x.number ≤ y.number) = true :=
    hs.eval (f := fun s => s.server.monitor.reversibleBlocks.all fun y =>
      (headsSent "b" s.history).any fun x => x.number ≤ y.number) (by decide +kernel)
  obtain ⟨client, hsub⟩ := InsertionMap.has_eq_true.mp hhas
  exact ⟨s, client, hs, hsub, hwindow, hheads,
    fun y hy => (heads_replicate hs hsub).1 y hy
      (by simpa using List.all_eq_true.mp hlow y hy)⟩

/-! ## Logs -/

/-- The frame a retraction takes back. -/
def Frame.announcement (f : Frame) : Frame :=
  match f.result with
  | .head => f
  | .log log _ => { f with result := .log log false }
  | .tx transaction hashOnly _ => { f with result := .tx transaction hashOnly false }

/-- A client takes an announced log in, and gives a retracted one up. -/
def readLog (held : List Frame) (f : Frame) : List Frame :=
  match f.result with
  | .log _ false => f :: held
  | .log _ true => held.erase f.announcement
  | _ => held

/-- What a client of a `logs` subscription holds. -/
def heldLogs (subid : SubId) : List Record → List Frame
  | [] => []
  | r :: older =>
      (r.frames.filter fun f => f.subid = subid).foldl readLog (heldLogs subid older)

/-- The logs of a block that were sent before the block left the window at the
    front: nothing will retract them. -/
def settledLogs (subid : SubId) (block : Block) : List Record → List Frame
  | [] => []
  | r :: older =>
      (if r.event = .removed block then sentSince subid block older else [])
        ++ settledLogs subid block older

/-- The logs of a block that can still be retracted. -/
def standingLogs (subid : SubId) (window : List Block) (history : List Record)
    (block : Block) : List Frame :=
  if block ∈ window then sentSince subid block history else []

/-- The logs a client should hold of a block. -/
def expectedLogs (subid : SubId) (window : List Block) (history : List Record)
    (block : Block) : List Frame :=
  standingLogs subid window history block ++ settledLogs subid block history

section Logs

variable {toLowerCase : String → String} {limits : Limits} {s : System} {subid : SubId}

theorem isLog_iff {f : Frame} : f.isLog = true ↔ ∃ log, f.result = .log log false := by
  rw [Frame.isLog]
  split
  · next log removed hresult =>
      rw [hresult]
      cases removed <;> simp
  · next hother =>
      constructor
      · intro h
        cases h
      · rintro ⟨log, hlog⟩
        exact absurd hlog (hother log false)

theorem readLog_of_isLog {f : Frame} (hf : f.isLog = true) (held : List Frame) :
    readLog held f = f :: held := by
  obtain ⟨log, hlog⟩ := isLog_iff.mp hf
  rw [readLog, hlog]

theorem readLog_retract {f : Frame} (hf : f.isLog = true) (held : List Frame) :
    readLog held f.retract = held.erase f := by
  obtain ⟨log, hlog⟩ := isLog_iff.mp hf
  have hself : ({ f with result := .log log false } : Frame) = f := by rw [← hlog]
  rw [retract_of_log hlog, readLog]
  show held.erase { f with result := .log log false } = _
  rw [hself]

/-- Frames that retract nothing only add. -/
theorem foldl_readLog_announced {frames : List Frame}
    (h : ∀ f ∈ frames, f.isRetraction = false) :
    ∀ held : List Frame, frames.foldl readLog held
      = (frames.filter Frame.isLog).reverse ++ held := by
  induction frames with
  | nil => intro held; rfl
  | cons f rest ih =>
      intro held
      have hf := h f List.mem_cons_self
      rw [List.foldl_cons, ih fun g hg => h g (List.mem_cons_of_mem _ hg)]
      cases hlog : f.isLog with
      | true =>
          rw [readLog_of_isLog hlog, List.filter_cons_of_pos hlog, List.reverse_cons,
            List.append_assoc, List.singleton_append]
      | false =>
          have hkeep : readLog held f = held := by
            rw [readLog]
            split
            · next log hresult => rw [Frame.isLog, hresult] at hlog; cases hlog
            · next log hresult => rw [Frame.isRetraction, hresult] at hf; cases hf
            · rfl
          rw [hkeep, List.filter_cons_of_neg (by simp [hlog])]

/-- Retracted announcements are given up one by one. -/
theorem foldl_readLog_retracted {frames : List Frame}
    (h : ∀ f ∈ frames, f.isLog = true) :
    ∀ held : List Frame, (frames.map Frame.retract).foldl readLog held
      = held.diff frames := by
  induction frames with
  | nil => intro held; rfl
  | cons f rest ih =>
      intro held
      rw [List.map_cons, List.foldl_cons, readLog_retract (h f List.mem_cons_self),
        ih fun g hg => h g (List.mem_cons_of_mem _ hg), List.diff_cons]

theorem isLog_of_mem_sentSince {block : Block} {f : Frame} :
    ∀ {history : List Record}, f ∈ sentSince subid block history → f.isLog = true := by
  intro history
  induction history with
  | nil => intro hf; cases hf
  | cons r older ih =>
      intro hf
      rcases List.mem_append.mp hf with hold | hnew
      · split at hold
        · cases hold
        · exact ih hold
      · exact (of_decide_eq_true (List.mem_filter.mp hnew).2).2.2

theorem block_of_mem_settledLogs {block : Block} {f : Frame} :
    ∀ {history : List Record}, f ∈ settledLogs subid block history →
      f.block = block ∧ ∃ r ∈ history, r.event = .removed block := by
  intro history
  induction history with
  | nil => intro hf; cases hf
  | cons r older ih =>
      intro hf
      rcases List.mem_append.mp hf with hnew | hold
      · split at hnew
        · next hremoved =>
            exact ⟨block_of_mem_sentSince hnew, r, List.mem_cons_self, hremoved⟩
        · cases hnew
      · obtain ⟨hblock, x, hx, hremoved⟩ := ih hold
        exact ⟨hblock, x, List.mem_cons_of_mem _ hx, hremoved⟩

theorem block_of_mem_expectedLogs {window : List Block} {block : Block} {f : Frame}
    {history : List Record} (hf : f ∈ expectedLogs subid window history block) :
    f.block = block := by
  rcases List.mem_append.mp hf with hstanding | hsettled
  · rw [standingLogs] at hstanding
    split at hstanding
    · exact block_of_mem_sentSince hstanding
    · cases hstanding
  · exact (block_of_mem_settledLogs hsettled).1

/-! ### One event -/

theorem heldLogs_emit (subid : SubId) (s : System) (e : BlockEvent) :
    heldLogs subid (s.emit e).history
      = ((s.record e).frames.filter fun f => f.subid = subid).foldl readLog
          (heldLogs subid s.history) := rfl

/-- An appended block adds its logs. -/
theorem heldLogs_appended (hs : SystemInv limits s) (subid : SubId) (block : Block) :
    heldLogs subid (s.emit (.appended block)).history
      = (logFrames subid block (s.record (.appended block)).frames).reverse
          ++ heldLogs subid s.history := by
  have hfresh : ∀ f ∈ (s.record (.appended block)).frames.filter
      (fun f => f.subid = subid), f.isRetraction = false := by
    intro f hf
    obtain ⟨hmem, hsubid⟩ := List.mem_filter.mp hf
    cases hretraction : f.isRetraction with
    | false => rfl
    | true =>
        have hnone : f ∈ retractionsTo subid (s.record (.appended block)).frames :=
          List.mem_filter.mpr ⟨hmem, by simpa [hretraction] using hsubid⟩
        rw [retractionsTo_eq_nil fun _ he => by cases he] at hnone
        cases hnone
  rw [heldLogs_emit, foldl_readLog_announced hfresh, List.filter_filter, logFrames]
  congr 2
  refine List.filter_congr ?_
  intro f hf
  cases hlog : f.isLog with
  | false => simp
  | true =>
      have hblock := BlockEvent.appended.inj (isLog_of_sentFor hs (sentFor_of_mem hf) hlog)
      simp [hblock]

/-- A fork gives up what was sent for the block. -/
theorem heldLogs_forked (hs : SystemInv limits s) {sub : SubId × Client}
    (hsub : sub ∈ s.server.registries.logsSubs) {block : Block}
    (hrecorded : recordedFor sub.1 s.logsSent block.number
      = sentSince sub.1 block s.history) :
    heldLogs sub.1 (s.emit (.forked block)).history
      = (heldLogs sub.1 s.history).diff (sentSince sub.1 block s.history) := by
  have hall : (s.record (.forked block)).frames.filter (fun f => f.subid = sub.1)
      = retractionsTo sub.1 (s.record (.forked block)).frames := by
    refine List.filter_congr ?_
    intro f hf
    have hretraction : f.isRetraction = true := by
      cases sentFor_of_mem hf with
      | replayed block g hg =>
          obtain ⟨log, hlog⟩ := hs.replayed hg
          rw [Frame.isRetraction, hlog]
      | retracted block sub tx hsub => rfl
    simp [hretraction]
  rw [heldLogs_emit, hall, retractionsTo_forked hs hsub, hrecorded,
    foldl_readLog_retracted fun _ hf => isLog_of_mem_sentSince hf]

/-- A block that is removed at the front is not talked about. -/
theorem heldLogs_removed (subid : SubId) (s : System) (block : Block) :
    heldLogs subid (s.emit (.removed block)).history = heldLogs subid s.history := rfl

theorem settledLogs_emit_other (subid : SubId) (s : System) {e : BlockEvent}
    {block : Block} (he : e ≠ .removed block) :
    settledLogs subid block (s.emit e).history = settledLogs subid block s.history := by
  rw [show (s.emit e).history = s.record e :: s.history from rfl, settledLogs,
    if_neg (show (s.record e).event ≠ .removed block from he), List.nil_append]

theorem settledLogs_removed (subid : SubId) (s : System) (block : Block) :
    settledLogs subid block (s.emit (.removed block)).history
      = sentSince subid block s.history ++ settledLogs subid block s.history := by
  rw [show (s.emit (.removed block)).history = s.record (.removed block) :: s.history from rfl,
    settledLogs, if_pos (show (s.record (.removed block)).event = .removed block from rfl)]

/-! ### The invariant -/

/-- Of each block a registered subscription holds what it should. -/
structure LedgerInv (window : List Block) (s : System) : Prop where
  logs : LogsInv window s
  held : ∀ sub ∈ s.server.registries.logsSubs, ∀ f : Frame,
    (heldLogs sub.1 s.history).count f
      = (expectedLogs sub.1 window s.history f.block).count f

theorem heldLogs_of_unused :
    ∀ {history : List Record}, (∀ r ∈ history, ∀ f ∈ r.frames, f.subid ≠ subid) →
      heldLogs subid history = [] := by
  intro history
  induction history with
  | nil => intro _; rfl
  | cons r older ih =>
      intro h
      have hframes : r.frames.filter (fun f => f.subid = subid) = [] := by
        rw [List.filter_eq_nil_iff]
        intro f hf heq
        exact h r List.mem_cons_self f hf (of_decide_eq_true heq)
      rw [heldLogs, hframes, ih fun x hx => h x (List.mem_cons_of_mem _ hx)]
      rfl

theorem settledLogs_of_unused (block : Block) :
    ∀ {history : List Record}, (∀ r ∈ history, ∀ f ∈ r.frames, f.subid ≠ subid) →
      settledLogs subid block history = [] := by
  intro history
  induction history with
  | nil => intro _; rfl
  | cons r older ih =>
      intro h
      have hold := fun x (hx : x ∈ older) => h x (List.mem_cons_of_mem _ hx)
      rw [settledLogs, sentSince_of_unused block hold, ih hold]
      split <;> rfl

/-- A new id holds nothing, and should hold nothing. -/
theorem expectedLogs_of_unused {history : List Record}
    (h : ∀ r ∈ history, ∀ f ∈ r.frames, f.subid ≠ subid) (window : List Block)
    (block : Block) : expectedLogs subid window history block = [] := by
  rw [expectedLogs, standingLogs, sentSince_of_unused block h,
    settledLogs_of_unused block h]
  split <;> rfl

/-- What is expected of a block, an event about another one leaves alone. -/
theorem expectedLogs_emit_other (hs : SystemInv limits s) {e : BlockEvent}
    {block : Block} (happ : e ≠ .appended block) (hrem : e ≠ .removed block)
    {w w' : List Block} (hw : block ∈ w' ↔ block ∈ w) :
    expectedLogs subid w' (s.emit e).history block
      = expectedLogs subid w s.history block := by
  rw [expectedLogs, expectedLogs, standingLogs, standingLogs, sentSince_emit hs happ,
    settledLogs_emit_other subid s hrem]
  by_cases hmem : block ∈ w
  · rw [if_pos hmem, if_pos (hw.mpr hmem)]
  · rw [if_neg hmem, if_neg fun h => hmem (hw.mp h)]

theorem LedgerInv.appended {block : Block} {w : List Block} (h : LedgerInv w s)
    (hs : SystemInv limits s) (hnew : block ∉ w) {sub : SubId × Client}
    (hsub : sub ∈ s.server.registries.logsSubs) (f : Frame) :
    (heldLogs sub.1 (s.emit (.appended block)).history).count f
      = (expectedLogs sub.1 (block :: w) (s.emit (.appended block)).history
          f.block).count f := by
  rw [heldLogs_appended hs, List.count_append, List.count_reverse, h.held sub hsub f]
  by_cases hblock : f.block = block
  · -- nothing stands of the block before it is appended
    rw [hblock, expectedLogs, expectedLogs, standingLogs, standingLogs, if_neg hnew,
      if_pos List.mem_cons_self, List.nil_append, List.count_append,
      settledLogs_emit_other sub.1 s (fun he => by cases he)]
    congr 2
    show _ = (if BlockEvent.appended block = .appended block then [] else _) ++ _
    rw [if_pos rfl, List.nil_append]
  · have hnone : (logFrames sub.1 block (s.record (.appended block)).frames).count f
        = 0 := by
      rw [List.count_eq_zero]
      intro hf
      exact hblock (of_decide_eq_true (List.mem_filter.mp hf).2).2.1
    have hw : f.block ∈ block :: w ↔ f.block ∈ w := by
      rw [List.mem_cons]
      exact ⟨fun h => h.resolve_left hblock, Or.inr⟩
    rw [hnone, Nat.zero_add, expectedLogs_emit_other hs
      (fun he => hblock (BlockEvent.appended.inj he).symm) (fun he => by cases he) hw]

theorem LedgerInv.forked {block : Block} {w : List Block} (h : LedgerInv (block :: w) s)
    (hs : SystemInv limits s) (hout : block ∉ w) {sub : SubId × Client}
    (hsub : sub ∈ s.server.registries.logsSubs) (f : Frame) :
    (heldLogs sub.1 (s.emit (.forked block)).history).count f
      = (expectedLogs sub.1 w (s.emit (.forked block)).history f.block).count f := by
  rw [heldLogs_forked hs hsub (h.logs.recorded sub hsub block List.mem_cons_self),
    ← Multiset.coe_count, ← Multiset.coe_sub, Multiset.count_sub, Multiset.coe_count,
    Multiset.coe_count, h.held sub hsub f]
  by_cases hblock : f.block = block
  · rw [hblock, expectedLogs, expectedLogs, standingLogs, standingLogs, if_neg hout,
      if_pos List.mem_cons_self, List.nil_append, List.count_append,
      settledLogs_emit_other sub.1 s (fun he => by cases he)]
    exact Nat.add_sub_cancel_left _ _
  · have hnone : (sentSince sub.1 block s.history).count f = 0 := by
      rw [List.count_eq_zero]
      exact fun hf => hblock (block_of_mem_sentSince hf)
    have hw : f.block ∈ w ↔ f.block ∈ block :: w := by
      rw [List.mem_cons]
      exact ⟨Or.inr, fun h => h.resolve_left hblock⟩
    rw [hnone, Nat.sub_zero, expectedLogs_emit_other hs (fun he => by cases he)
      (fun he => by cases he) hw]

theorem LedgerInv.removed {block : Block} {w : List Block} (h : LedgerInv (w ++ [block]) s)
    (hs : SystemInv limits s) (hout : block ∉ w) {sub : SubId × Client}
    (hsub : sub ∈ s.server.registries.logsSubs) (f : Frame) :
    (heldLogs sub.1 (s.emit (.removed block)).history).count f
      = (expectedLogs sub.1 w (s.emit (.removed block)).history f.block).count f := by
  rw [heldLogs_removed, h.held sub hsub f]
  by_cases hblock : f.block = block
  · -- what stood of the block is settled now
    rw [hblock, expectedLogs, expectedLogs, standingLogs, standingLogs, if_neg hout,
      if_pos (List.mem_append_right _ List.mem_cons_self), List.nil_append,
      settledLogs_removed]
  · have hw : f.block ∈ w ↔ f.block ∈ w ++ [block] := by
      rw [List.mem_append, List.mem_singleton]
      exact ⟨Or.inl, fun h => h.resolve_right hblock⟩
    rw [expectedLogs_emit_other hs (fun he => by cases he)
      (fun he => hblock (BlockEvent.removed.inj he).symm) hw]

theorem ledgerInv_kept : Kept toLowerCase limits (fun _ _ => True) LedgerInv := by
  have hlogs : Kept toLowerCase limits (fun _ _ => True) LogsInv := logsInv_kept
  constructor
  case init => exact ⟨hlogs.init, fun _ hsub => by cases hsub⟩
  case monitor => exact fun w s m h => ⟨hlogs.monitor w s m h.logs, h.held⟩
  case client =>
    intro w s op hs hfresh h
    refine ⟨hlogs.client w s op hs hfresh h.logs, ?_⟩
    intro sub hsub f
    have hcases : sub ∈ s.server.registries.get .logs
        ∨ (sub.1 ∈ op.newIds ∧ sub.2.ws = op.ws) :=
      (applyOp_applied toLowerCase limits s.server op).registered hsub
    rcases hcases with hold | ⟨hnew, -⟩
    · exact h.held sub hold f
    · have hunused := hfresh _ hnew
      have hnone : ∀ r ∈ s.history, ∀ g ∈ r.frames, g.subid ≠ sub.1 :=
        fun r hr g hg heq => hunused (heq ▸ hs.sent r hr g hg)
      show (heldLogs sub.1 s.history).count f
        = (expectedLogs sub.1 w s.history f.block).count f
      rw [heldLogs_of_unused hnone, expectedLogs_of_unused hnone]
  case clear =>
    intro w s hempty h
    refine ⟨hlogs.clear w s hempty h.logs, ?_⟩
    intro sub hsub
    have hnone := s.server.registries.isEmpty_iff.mp hempty .logs
    rw [show s.server.registries.logsSubs = [] from hnone] at hsub
    cases hsub
  case appended =>
    intro block w s hs hlinked hcond h
    exact ⟨hlogs.appended block w s hs hlinked hcond h.logs,
      fun _ hsub f => h.appended hs hlinked.not_mem hsub f⟩
  case forked =>
    intro block w s hs hlinked hcond h
    exact ⟨hlogs.forked block w s hs hlinked hcond h.logs,
      fun _ hsub f => h.forked hs hlinked.not_mem hsub f⟩
  case removed =>
    intro block w s hs hlinked h
    have hout : block ∉ w := fun hmem => Nat.lt_irrefl _ (hlinked.lt_number hmem)
    exact ⟨hlogs.removed block w s hs hlinked h.logs,
      fun _ hsub f => h.removed hs hout hsub f⟩

/-- What is held is of a block of the window, or of one that was removed at the
    front. -/
theorem LedgerInv.block_held {window : List Block} (h : LedgerInv window s)
    {sub : SubId × Client} (hsub : sub ∈ s.server.registries.logsSubs) {f : Frame}
    (hf : f ∈ heldLogs sub.1 s.history) :
    f.block ∈ window ∨ ∃ r ∈ s.history, r.event = .removed f.block := by
  have hmem : f ∈ expectedLogs sub.1 window s.history f.block := by
    rw [← List.count_pos_iff, ← h.held sub hsub f, List.count_pos_iff]
    exact hf
  rcases List.mem_append.mp hmem with hstanding | hsettled
  · rw [standingLogs] at hstanding
    split at hstanding
    · next hin => exact Or.inl hin
    · cases hstanding
  · exact Or.inr (block_of_mem_settledLogs hsettled).2

end Logs

/-- **A client of logs holds the logs of the window.** In every run whose polls do
    not overlap a registered `logs` client that takes announcements in and gives
    retractions up holds, of each block of the window, exactly the logs it was sent
    since the block was last appended; of any other block, exactly those of the
    times the block left the window at the front; so nothing of a block that has
    only ever been forked out. -/
theorem logs_ledger {toLowerCase : String → String} {limits : Limits}
    {blockOf : String → Block} {es : List SystemEvent} {s : System}
    (hrun : Reach (systemStep toLowerCase limits) (Orderly blockOf) System.init es s)
    {sub : SubId × Client} (hsub : sub ∈ s.server.registries.logsSubs) :
    (∀ block : Block, ((heldLogs sub.1 s.history).filter fun f => f.block = block).Perm
      (expectedLogs sub.1 s.server.monitor.reversibleBlocks s.history block)) ∧
    ∀ f ∈ heldLogs sub.1 s.history, f.block ∈ s.server.monitor.reversibleBlocks ∨
      ∃ r ∈ s.history, r.event = .removed f.block := by
  have hinv : OrderlyInv limits LedgerInv s :=
    ledgerInv_kept.holds (fun _ _ h => h) (fun _ _ _ _ _ _ _ => trivial) hrun
  constructor
  · intro block
    rw [List.perm_iff_count]
    intro f
    by_cases hblock : f.block = block
    · rw [List.count_filter (by simpa using hblock), hinv.holds.held sub hsub f, hblock]
    · rw [List.count_eq_zero.mpr, List.count_eq_zero.mpr]
      · exact fun hf => hblock (block_of_mem_expectedLogs hf)
      · intro hf
        exact hblock (by simpa using (List.mem_filter.mp hf).2)
  · exact fun f hf => hinv.holds.block_held hsub hf

/-- After the fork the client holds one log of each block of the new branch. -/
theorem logs_ledger_plainForkTen :
    ∃ s client, Reach plainSystemStep (Orderly (blockIn plainBranches)) System.init
        plainForkTen s ∧ ("a", client) ∈ s.server.registries.logsSubs ∧
      (heldLogs "a" s.history).map (fun f => f.block.hash) = ["h11b", "h10b", "h9"] ∧
      ∀ f ∈ heldLogs "a" s.history, f.block ∈ s.server.monitor.reversibleBlocks ∨
        ∃ r ∈ s.history, r.event = .removed f.block := by
  have hcheck : checkRun plainSystemStep (Orderly (blockIn plainBranches)) System.init
      plainForkTen = true := by decide +kernel
  obtain ⟨s, hs⟩ := exists_reach hcheck
  have hhas : InsertionMap.has s.server.registries.logsSubs "a" = true :=
    hs.eval (f := fun s => InsertionMap.has s.server.registries.logsSubs "a")
      (by decide +kernel)
  have hheld : (heldLogs "a" s.history).map (fun f => f.block.hash)
      = ["h11b", "h10b", "h9"] :=
    hs.eval (f := fun s => (heldLogs "a" s.history).map (fun f => f.block.hash))
      (by decide +kernel)
  obtain ⟨client, hsub⟩ := InsertionMap.has_eq_true.mp hhas
  exact ⟨s, client, hs, hsub, hheld, (logs_ledger hs hsub).2⟩

end WsProxy

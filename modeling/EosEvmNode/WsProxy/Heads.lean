import EosEvmNode.WsProxy.OrderlyRuns
import Mathlib.Data.List.Chain

/-! # The stream of heads

    Every appended block is sent to every `newHeads` subscription, so two frames in
    a row are about two blocks appended in a row.  Inside a window the second is at
    most one above the first; after a fork that has taken the whole window the
    monitor starts over one below the head, wherever that is. -/

namespace WsProxy

open Runs

/-- The numbers of the heads a subscription is sent for an event. -/
def Record.headNumbers (subid : SubId) (r : Record) : List Nat :=
  (r.frames.filter fun f => f.subid = subid ∧ f.result = .head).map
    fun f => f.block.number

/-- All of them, the last one sent first. -/
def headNumbers (subid : SubId) (history : List Record) : List Nat :=
  history.flatMap fun r => (r.headNumbers subid).reverse

/-- No head is skipped. -/
def Continuous (subid : SubId) (history : List Record) : Prop :=
  (headNumbers subid history).IsChain fun later earlier => later ≤ earlier + 1

instance (subid : SubId) (history : List Record) : Decidable (Continuous subid history) :=
  inferInstanceAs (Decidable (List.IsChain _ _))

/-- The block that was appended last. -/
def lastAppended : List Record → Option Block
  | [] => none
  | r :: older =>
      match r.event with
      | .appended block => some block
      | _ => lastAppended older

/-- **The condition**: while a `newHeads` subscription has been sent a head, the
    monitor does not start over with a block more than one above the last one. -/
def NoJump (s : System) : SystemEvent → Prop
  | .answer i a => ∀ block, .appended block ∈ (s.server.monitor.complete i a).2 →
      s.server.monitor.reversibleBlocks = [] →
      (∃ sub ∈ s.server.registries.newHeadSubs, headNumbers sub.1 s.history ≠ []) →
      ∀ last ∈ lastAppended s.history, block.number ≤ last.number + 1
  | _ => True

/-! ## The heads of one event -/

theorem headNumbers_cons (subid : SubId) (r : Record) (older : List Record) :
    headNumbers subid (r :: older)
      = (r.headNumbers subid).reverse ++ headNumbers subid older :=
  List.flatMap_cons

section Event

variable {limits : Limits} {s : System} {subid : SubId}

theorem mem_headNumbers (hs : SystemInv limits s) {e : BlockEvent} {n : Nat}
    (hn : n ∈ (s.record e).headNumbers subid) :
    ∃ block, e = .appended block ∧ n = block.number ∧
      ∃ sub ∈ s.server.registries.newHeadSubs, sub.1 = subid := by
  obtain ⟨f, hf, rfl⟩ := List.mem_map.mp hn
  obtain ⟨hf, hhead⟩ := List.mem_filter.mp hf
  obtain ⟨hsubid, hresult⟩ := of_decide_eq_true hhead
  cases sentFor_of_mem hf with
  | head block sub hsub => exact ⟨block, rfl, rfl, sub, hsub, hsubid⟩
  | log block sub log hsub => cases hresult
  | mined block sub tx hsub => cases hresult
  | replayed block g hg =>
      obtain ⟨log, hlog⟩ := hs.replayed hg
      rw [hlog] at hresult
      cases hresult
  | retracted block sub tx hsub => cases hresult

theorem headNumbers_eq_nil (hs : SystemInv limits s) {e : BlockEvent}
    (he : ∀ block, e ≠ .appended block) : (s.record e).headNumbers subid = [] := by
  rw [List.eq_nil_iff_forall_not_mem]
  intro n hn
  obtain ⟨block, hblock, -⟩ := mem_headNumbers hs hn
  exact he block hblock

/-- A registered subscription is sent the appended block. -/
theorem mem_headNumbers_of_registered {sub : SubId × Client}
    (hsub : sub ∈ s.server.registries.newHeadSubs) (block : Block) :
    block.number ∈ (s.record (.appended block)).headNumbers sub.1 := by
  have hframe : (⟨sub.2.ws, sub.1, block, .head⟩ : Frame)
      ∈ (s.record (.appended block)).frames :=
    List.mem_append_left _ (List.mem_append_left _
      (List.mem_map_of_mem (f := fun sub : SubId × Client =>
        (⟨sub.2.ws, sub.1, block, .head⟩ : Frame)) hsub))
  exact List.mem_map.mpr ⟨_, List.mem_filter.mpr ⟨hframe, by simp⟩, rfl⟩

/-- A drawn id that was never used has been sent nothing. -/
theorem headNumbers_of_unused (hs : SystemInv limits s) (hunused : subid ∉ s.used) :
    headNumbers subid s.history = [] := by
  rw [List.eq_nil_iff_forall_not_mem]
  intro n hn
  obtain ⟨r, hr, hn⟩ := List.mem_flatMap.mp hn
  obtain ⟨f, hf, -⟩ := List.mem_map.mp (List.mem_reverse.mp hn)
  obtain ⟨hf, hhead⟩ := List.mem_filter.mp hf
  exact hunused ((of_decide_eq_true hhead).1 ▸ hs.sent r hr f hf)

end Event

/-! ## The invariant -/

/-- The window is below the last appended block, and that is what every registered
    subscription has been sent last. -/
structure HeadsInv (window : List Block) (s : System) : Prop where
  below : ∀ block ∈ window, ∃ last ∈ lastAppended s.history,
    block.number ≤ last.number
  latest : ∀ sub ∈ s.server.registries.newHeadSubs,
    ∀ n ∈ (headNumbers sub.1 s.history).head?, ∃ last ∈ lastAppended s.history,
      n = last.number

section Kept

variable {toLowerCase : String → String} {limits : Limits}

theorem headNumbers_emit (subid : SubId) (s : System) (e : BlockEvent) :
    headNumbers subid (s.emit e).history
      = ((s.record e).headNumbers subid).reverse ++ headNumbers subid s.history :=
  headNumbers_cons subid _ _

/-- Forks and removals send no head. -/
theorem headNumbers_emit_other {s : System} (hs : SystemInv limits s) {e : BlockEvent}
    (he : ∀ block, e ≠ .appended block) (subid : SubId) :
    headNumbers subid (s.emit e).history = headNumbers subid s.history := by
  rw [headNumbers_emit, headNumbers_eq_nil hs he]
  rfl

theorem HeadsInv.emit_other {w w' : List Block} {s : System} (h : HeadsInv w s)
    (hs : SystemInv limits s) {e : BlockEvent} (he : ∀ block, e ≠ .appended block)
    (hw : ∀ block ∈ w', block ∈ w) : HeadsInv w' (s.emit e) := by
  have hlast : lastAppended (s.emit e).history = lastAppended s.history := by
    rw [show (s.emit e).history = s.record e :: s.history from rfl, lastAppended]
    split
    · next block hblock => exact absurd hblock (he block)
    · rfl
  refine ⟨?_, ?_⟩
  · intro block hblock
    rw [hlast]
    exact h.below block (hw block hblock)
  · intro sub hsub n hn
    rw [headNumbers_emit_other hs he] at hn
    rw [hlast]
    exact h.latest sub hsub n hn

theorem headsInv_kept : Kept toLowerCase limits (fun _ _ => True) HeadsInv where
  init := ⟨fun _ hb => (by cases hb), fun _ hsub => (by cases hsub)⟩
  monitor := fun _ _ _ h => ⟨h.below, h.latest⟩
  client := by
    intro w s op hs hfresh h
    refine ⟨h.below, ?_⟩
    intro sub hsub n hn
    have hcases : sub ∈ s.server.registries.get .newHeads
        ∨ (sub.1 ∈ op.newIds ∧ sub.2.ws = op.ws) :=
      (applyOp_applied toLowerCase limits s.server op).registered hsub
    rcases hcases with hold | ⟨hnew, -⟩
    · exact h.latest sub hold n hn
    · rw [show (s.handle toLowerCase limits (.client op)).history = s.history from rfl,
        headNumbers_of_unused hs (hfresh _ hnew)] at hn
      cases hn
  clear := fun _ _ _ h => ⟨fun _ hb => (by cases hb), h.latest⟩
  appended := by
    intro block w s hs hlinked _ h
    refine ⟨?_, ?_⟩
    · intro b hb
      refine ⟨block, rfl, ?_⟩
      rcases List.mem_cons.mp hb with rfl | hmem
      · exact Nat.le_refl _
      · exact Nat.le_of_lt (hlinked.number_lt hmem)
    · intro sub hsub n hn
      refine ⟨block, rfl, ?_⟩
      rw [headNumbers_emit] at hn
      have hsent := mem_headNumbers_of_registered (s := s) hsub block
      have hmem : n ∈ ((s.record (.appended block)).headNumbers sub.1).reverse := by
        cases hrev : ((s.record (.appended block)).headNumbers sub.1).reverse with
        | nil =>
            rw [List.reverse_eq_nil_iff.mp hrev] at hsent
            cases hsent
        | cons m rest =>
            rw [hrev] at hn
            obtain rfl := Option.some.inj hn
            exact List.mem_cons_self
      obtain ⟨b, hb, hn, -⟩ := mem_headNumbers hs (List.mem_reverse.mp hmem)
      rw [hn, BlockEvent.appended.inj hb]
  forked := fun block w s hs _ _ h =>
    h.emit_other hs (fun _ he => by cases he) fun _ hb => List.mem_cons_of_mem _ hb
  removed := fun block w s hs _ h =>
    h.emit_other hs (fun _ he => by cases he) fun _ hb => List.mem_append_left _ hb

end Kept

/-! ## Continuity -/

section Step

variable {toLowerCase : String → String} {limits : Limits} {s : System}

/-- Events without an appended block leave every stream as it is. -/
theorem headNumbers_foldl_removed {events : List BlockEvent} {subid : SubId}
    (h : ∀ e ∈ events, ∃ block, e = .removed block) :
    ∀ s : System, headNumbers subid (events.foldl System.emit s).history
      = headNumbers subid s.history := by
  induction events with
  | nil => intro s; rfl
  | cons e events ih =>
      intro s
      obtain ⟨block, rfl⟩ := h e List.mem_cons_self
      rw [List.foldl_cons, ih (fun x hx => h x (List.mem_cons_of_mem _ hx)),
        headNumbers_emit]
      rfl

/-- A stream goes on with copies of one number. -/
theorem continuous_append {number : Nat} {news olds : List Nat}
    (hnews : ∀ n ∈ news, n = number) :
    (news ++ olds).IsChain (fun later earlier => later ≤ earlier + 1) ↔
      olds.IsChain (fun later earlier => later ≤ earlier + 1) ∧
        (news ≠ [] → ∀ n ∈ olds.head?, number ≤ n + 1) := by
  have hchain : news.IsChain fun later earlier : Nat => later ≤ earlier + 1 := by
    refine List.Pairwise.isChain (List.pairwise_of_forall_mem_list ?_)
    intro a ha b hb
    rw [hnews a ha, hnews b hb]
    exact Nat.le_succ number
  rw [List.isChain_append]
  constructor
  · rintro ⟨-, holds, hjoin⟩
    refine ⟨holds, ?_⟩
    intro hne n hn
    have hlast := List.getLast?_eq_getLast_of_ne_nil hne
    have hjoin := hjoin _ hlast n hn
    rwa [hnews _ (List.getLast_mem hne)] at hjoin
  · rintro ⟨holds, hjoin⟩
    refine ⟨hchain, holds, ?_⟩
    intro a ha n hn
    have hmem := List.mem_of_getLast? ha
    rw [hnews a hmem]
    exact hjoin (List.ne_nil_of_mem hmem) n hn

/-- **An appended block** continues every stream if and only if the condition
    holds. -/
theorem continuous_appended {block : Block} (hs : SystemInv limits s)
    {window : List Block} (h : HeadsInv window s) (hlinked : Linked (block :: window))
    (hold : ∀ subid, Continuous subid s.history) :
    (∀ subid, Continuous subid (s.emit (.appended block)).history) ↔
      (window = [] → (∃ sub ∈ s.server.registries.newHeadSubs,
        headNumbers sub.1 s.history ≠ []) →
        ∀ last ∈ lastAppended s.history, block.number ≤ last.number + 1) := by
  have hnews : ∀ subid, ∀ n ∈ ((s.record (.appended block)).headNumbers subid).reverse,
      n = block.number := by
    intro subid n hn
    obtain ⟨b, hb, hn, -⟩ := mem_headNumbers hs (List.mem_reverse.mp hn)
    rw [hn, BlockEvent.appended.inj hb]
  have hiff : ∀ subid, Continuous subid (s.emit (.appended block)).history ↔
      (((s.record (.appended block)).headNumbers subid).reverse ≠ [] →
        ∀ n ∈ (headNumbers subid s.history).head?, block.number ≤ n + 1) := by
    intro subid
    rw [Continuous, headNumbers_emit, continuous_append (hnews subid)]
    exact ⟨fun hc => hc.2, fun hc => ⟨hold subid, hc⟩⟩
  constructor
  · rintro hall - ⟨sub, hsub, hne⟩ last hlast
    have hsent := mem_headNumbers_of_registered hsub block
    obtain ⟨n, rest, hnumbers⟩ := List.exists_cons_of_ne_nil hne
    have hhead : n ∈ (headNumbers sub.1 s.history).head? := by
      rw [hnumbers]
      rfl
    obtain ⟨last', hlast', hn⟩ := h.latest sub hsub n hhead
    obtain rfl := Option.some.inj (hlast.symm.trans hlast')
    rw [← hn]
    exact (hiff sub.1).mp (hall sub.1)
      (List.ne_nil_of_mem (List.mem_reverse.mpr hsent)) n hhead
  · intro hjump subid
    rw [hiff]
    intro hne n hn
    obtain ⟨m, hm⟩ := List.exists_mem_of_ne_nil _ hne
    obtain ⟨-, -, -, sub, hsub, rfl⟩ := mem_headNumbers hs (List.mem_reverse.mp hm)
    obtain ⟨last, hlast, rfl⟩ := h.latest sub hsub n hn
    -- on a non-empty window the block is the child of its newest one
    cases window with
    | nil =>
        refine hjump rfl ⟨sub, hsub, ?_⟩ last hlast
        intro hnil
        rw [hnil] at hn
        cases hn
    | cons newest rest =>
        obtain ⟨last', hlast', hle⟩ := h.below newest List.mem_cons_self
        obtain rfl := Option.some.inj (hlast.symm.trans hlast')
        have hnext := (List.isChain_cons_cons.mp hlinked).1.2
        omega

theorem Continuous.of_suffix {subid : SubId} {older history : List Record}
    (hsuffix : older <:+ history) (h : Continuous subid history) :
    Continuous subid older := by
  obtain ⟨newer, rfl⟩ := hsuffix
  rw [Continuous, headNumbers, List.flatMap_append] at h
  exact List.IsChain.right_of_append h

/-- **One event** of an orderly run. -/
theorem continuous_handle {blockOf : String → Block} {e : SystemEvent}
    (hs : OrderlyInv limits HeadsInv s) (horderly : Orderly blockOf s e)
    (hold : ∀ subid, Continuous subid s.history) :
    (∀ subid, Continuous subid (s.handle toLowerCase limits e).history) ↔
      NoJump s e := by
  obtain ⟨hsys, hmonitor, hinv⟩ := hs
  cases e with
  | client op => exact ⟨fun _ => trivial, fun _ => hold⟩
  | timer => exact ⟨fun _ => trivial, fun _ => hold⟩
  | answer i a =>
      rw [System.handle, NoJump]
      have hrun := complete_run s.server.monitor i a
      rcases complete_cases s.server.monitor i a with hc | ⟨p, o, hp, hres, hc⟩ <;>
        rw [hc] at hrun ⊢
      · exact ⟨fun _ _ hb => (by cases hb), fun _ => hold⟩
      · -- nothing is sent, and nothing is appended
        have hquiet : ∀ events : List BlockEvent, (∀ block, .appended block ∉ events) →
            (∀ subid, headNumbers subid (events.foldl System.emit
              (s.withMonitor (s.server.monitor.after i o))).history
              = headNumbers subid s.history) →
            ((∀ subid, Continuous subid (events.foldl System.emit
              (s.withMonitor (s.server.monitor.after i o))).history) ↔
              ∀ block, .appended block ∈ events →
                s.server.monitor.reversibleBlocks = [] →
                (∃ sub ∈ s.server.registries.newHeadSubs,
                  headNumbers sub.1 s.history ≠ []) →
                ∀ last ∈ lastAppended s.history, block.number ≤ last.number + 1) := by
          intro events hnone hsame
          refine ⟨fun _ block hb => absurd hb (hnone block), fun _ subid => ?_⟩
          rw [Continuous, hsame]
          exact hold subid
        cases hres with
        | waits p' hseen hasks =>
            exact hquiet [] (fun _ hb => by cases hb) fun _ => rfl
        | appended block found haccepts =>
            obtain ⟨hcontract, -⟩ := horderly.2 (.answer i a) rfl
            have hlinked := hmonitor.window.append hp haccepts hcontract
              (hmonitor.solo.upToDate _)
            have hstep := continuous_appended (hsys.withMonitor hrun)
              ⟨hinv.below, hinv.latest⟩ hlinked hold
            refine hstep.trans ⟨?_, ?_⟩
            · intro hjump b hb
              rw [BlockEvent.appended.inj (List.mem_singleton.mp hb)]
              exact hjump
            · intro hjump
              exact hjump block List.mem_cons_self
        | forked block rest hwindow =>
            refine hquiet [.forked block] ?_ fun subid => ?_
            · intro b hb
              cases List.mem_singleton.mp hb
            · have hother : ∀ b, BlockEvent.forked block ≠ .appended b :=
                fun _ he => by cases he
              exact headNumbers_emit_other (hsys.withMonitor hrun) hother subid
        | ended => exact hquiet [] (fun _ hb => by cases hb) fun _ => rfl
        | pruned rest dropped hwindow =>
            have hremoved : ∀ e ∈ dropped.reverse.map BlockEvent.removed,
                ∃ block, e = .removed block := by
              intro e he
              obtain ⟨block, -, rfl⟩ := List.mem_map.mp he
              exact ⟨block, rfl⟩
            refine hquiet _ (fun _ hb => ?_) fun subid =>
              headNumbers_foldl_removed hremoved _
            obtain ⟨block, hblock⟩ := hremoved _ hb
            cases hblock

end Step

/-- An orderly event that meets the condition. -/
def Unskipping (blockOf : String → Block) (s : System) (e : SystemEvent) : Prop :=
  Orderly blockOf s e ∧ NoJump s e

/-- **No head is skipped**, on any subscription of a run whose polls do not overlap,
    if and only if every event of the run meets the condition. -/
theorem heads_continuous_iff {toLowerCase : String → String} {limits : Limits}
    {blockOf : String → Block} {es : List SystemEvent} {s : System}
    (hrun : Reach (systemStep toLowerCase limits) (Orderly blockOf) System.init es s) :
    (∀ subid, Continuous subid s.history) ↔
      Reach (systemStep toLowerCase limits) (Unskipping blockOf) System.init es s := by
  induction hrun with
  | start => exact ⟨fun _ => .start, fun _ _ => List.isChain_nil⟩
  | @step es s s' e hrest horderly hstep ih =>
      have hs : OrderlyInv limits HeadsInv s :=
        headsInv_kept.holds (fun _ _ h => h) (fun _ _ _ _ _ _ _ => trivial) hrest
      obtain rfl := Except.ok.inj hstep
      constructor
      · intro hall
        have hold : ∀ subid, Continuous subid s.history :=
          fun subid => (hall subid).of_suffix (handle_suffix toLowerCase limits s e)
        exact .step (ih.mp hold) ⟨horderly, (continuous_handle hs horderly hold).mp hall⟩
          rfl
      · intro hreach
        obtain ⟨t, ht, hadm, -⟩ := hreach.last
        obtain rfl := hrest.unique ht
        exact (continuous_handle hs horderly (ih.mpr ht)).mpr hadm.2

/-! ## A fork that takes the whole window -/

/-- Block 9 is the whole window when it is forked out, and the next request
    fails. -/
def plainForkedNine : List SystemEvent :=
  [.client (.subscribe 2 "b" (plainSubscribe [.str "newHeads"])),
    .timer, .answer 0 (.head (some 10)),
    .answer 0 (.ofBlock (plainBlock 9 "h9" "h8")), .answer 0 (.head (some 10)),
    .timer, .answer 0 (.head (some 13)),
    .answer 0 (.ofBlock (plainBlock 10 "h10b" "h9b")), .answer 0 .fails]

/-- The next poll starts over one below the head. -/
def plainStartOver (block : Block) : List SystemEvent :=
  [.timer, .answer 0 (.head (some (block.number + 1))), .answer 0 (.ofBlock block)]

theorem heads_continuous_plainTen :
    ∃ s, Reach plainSystemStep (Orderly (blockIn plainBlocks)) System.init
        (plainForkedNine ++ plainStartOver (plainBlock 10 "h10b" "h9b")) s ∧
      ((∀ subid, Continuous subid s.history) ↔
        Reach plainSystemStep (Unskipping (blockIn plainBlocks)) System.init
          (plainForkedNine ++ plainStartOver (plainBlock 10 "h10b" "h9b")) s) := by
  have hcheck : checkRun plainSystemStep (Orderly (blockIn plainBlocks)) System.init
      (plainForkedNine ++ plainStartOver (plainBlock 10 "h10b" "h9b")) = true := by
    decide +kernel
  obtain ⟨s, hs⟩ := exists_reach hcheck
  exact ⟨s, hs, heads_continuous_iff hs⟩

/-- With the head at 13 the client is sent block 12 after block 9. -/
theorem not_continuous_plainTwelve :
    ¬ ∀ (toLowerCase : String → String) (limits : Limits) (blockOf : String → Block)
      (es : List SystemEvent) (s : System),
      Reach (systemStep toLowerCase limits) (Orderly blockOf) System.init es s →
      ∀ subid, Continuous subid s.history := by
  intro h
  have hcheck : checkRun plainSystemStep (Orderly (blockIn plainBlocks)) System.init
      (plainForkedNine ++ plainStartOver (plainBlock 12 "h12b" "h11b")) = true := by
    decide +kernel
  obtain ⟨s, hs⟩ := exists_reach hcheck
  have hcontinuous := h id ⟨1, 1⟩ (blockIn plainBlocks) _ s hs "b"
  have hnumbers : headNumbers "b" s.history = [12, 9] :=
    hs.eval (f := fun s => headNumbers "b" s.history) (by decide +kernel)
  rw [Continuous, hnumbers] at hcontinuous
  revert hcontinuous
  decide

end WsProxy

import EosEvmNode.WsProxy.OrderlyRuns

/-! # Log retractions are complete and exact

    For a registered `logs` subscription the record under a number is what it was
    sent for the block of that number in the window since it was appended, and
    nothing where the window has no block of that number. -/

namespace WsProxy

open Runs

/-- Does the frame announce a log? -/
def Frame.isLog (f : Frame) : Bool :=
  match f.result with
  | .log _ removed => !removed
  | _ => false

/-- The logs of a block that a subscription is sent. -/
def logFrames (subid : SubId) (block : Block) (frames : List Frame) : List Frame :=
  frames.filter fun f => f.subid = subid ∧ f.block = block ∧ f.isLog

/-- The logs of a block that a subscription was sent since the block was last
    appended. -/
def sentSince (subid : SubId) (block : Block) : List Record → List Frame
  | [] => []
  | r :: older =>
      (if r.event = .appended block then [] else sentSince subid block older)
        ++ logFrames subid block r.frames

/-- The retractions a subscription is sent. -/
def retractionsTo (subid : SubId) (frames : List Frame) : List Frame :=
  frames.filter fun f => f.subid = subid ∧ f.isRetraction

/-- A fork retracts what was sent, once each and in order, and nothing else does. -/
def RetractsExactly (subid : SubId) (r : Record) (older : List Record) : Prop :=
  retractionsTo subid r.frames = match r.event with
    | .forked block => (sentSince subid block older).map Frame.retract
    | _ => []

/-- What is recorded for a subscription under a number. -/
def recordedFor (subid : SubId) (sent : LogsSent) (number : Nat) : List Frame :=
  (sent.at number).filter fun f => f.subid = subid

/-! ## One event -/

section Event

variable {limits : Limits} {s : System} {subid : SubId}

/-- Only an appended block announces logs, and they are its own. -/
theorem isLog_of_sentFor (hs : SystemInv limits s) {e : BlockEvent} {f : Frame}
    (hf : SentFor s.server.registries s.logsSent e f) (hlog : f.isLog = true) :
    e = .appended f.block := by
  cases hf with
  | head block sub hsub => cases hlog
  | log block sub log hsub => rfl
  | mined block sub tx hsub => cases hlog
  | retracted block sub tx hsub htx hmatch => cases hlog
  | replayed block g hg =>
      obtain ⟨log, hresult⟩ := hs.replayed hg
      rw [Frame.isLog, hresult] at hlog
      cases hlog

theorem logFrames_eq_nil (hs : SystemInv limits s) {e : BlockEvent} {block : Block}
    (he : e ≠ .appended block) : logFrames subid block (s.record e).frames = [] := by
  rw [logFrames, List.filter_eq_nil_iff]
  intro f hf hlog
  obtain ⟨-, hblock, hlog⟩ := of_decide_eq_true hlog
  exact he (hblock ▸ isLog_of_sentFor hs (sentFor_of_mem hf) hlog)

/-- Of the frames of an appended block, the log frames are those of the loops over
    logs and subscriptions. -/
theorem logFrames_appended (s : System) (subid : SubId) (block : Block) :
    logFrames subid block (s.record (.appended block)).frames
      = (logsLoop block (logsPairs s.server.registries.logsSubs block.logs)).1.filter
        fun f => f.subid = subid := by
  have hheads : (processNewHeadsSubscriptions s.server.registries.newHeadSubs
      block).filter (fun f => f.subid = subid ∧ f.block = block ∧ f.isLog) = [] := by
    rw [List.filter_eq_nil_iff]
    intro f hf hlog
    obtain ⟨sub, -, rfl⟩ := List.mem_map.mp hf
    cases (of_decide_eq_true hlog).2.2
  have hmined : (processMinedTransactionsSubscriptions
      s.server.registries.minedTransactionsSubs block false).filter
      (fun f => f.subid = subid ∧ f.block = block ∧ f.isLog) = [] := by
    rw [List.filter_eq_nil_iff]
    intro f hf hlog
    obtain ⟨tx, -, sub, -, -, rfl⟩ := mem_mined.mp hf
    cases (of_decide_eq_true hlog).2.2
  show List.filter _ (_ ++ _ ++ _) = _
  rw [List.filter_append, List.filter_append, hheads, List.nil_append]
  -- an aborted handler sends no mined transactions at all
  have hrest : (if (logsLoop block (logsPairs s.server.registries.logsSubs
      block.logs)).2.isSome = true then [] else processMinedTransactionsSubscriptions
      s.server.registries.minedTransactionsSubs block false).filter
      (fun f => f.subid = subid ∧ f.block = block ∧ f.isLog) = [] := by
    split
    · rfl
    · exact hmined
  rw [hrest, List.append_nil]
  refine List.filter_congr ?_
  intro f hf
  obtain ⟨sub, -, log, rfl⟩ := mem_logsLoop_subs hf
  simp [Frame.isLog]

theorem retractionsTo_eq_nil {e : BlockEvent} (he : ∀ block, e ≠ .forked block) :
    retractionsTo subid (s.record e).frames = [] := by
  rw [retractionsTo, List.filter_eq_nil_iff]
  intro f hf hretraction
  have hretraction := (of_decide_eq_true hretraction).2
  cases sentFor_of_mem hf with
  | head block sub hsub => cases hretraction
  | log block sub log hsub => cases hretraction
  | mined block sub tx hsub => cases hretraction
  | replayed block g hg => exact he block rfl
  | retracted block sub tx hsub htx hmatch => exact he block rfl

/-- A fork retracts what is recorded for the subscription. -/
theorem retractionsTo_forked (hs : SystemInv limits s) {sub : SubId × Client}
    (hsub : sub ∈ s.server.registries.logsSubs) (block : Block) :
    retractionsTo sub.1 (s.record (.forked block)).frames
      = (recordedFor sub.1 s.logsSent block.number).map Frame.retract := by
  have hmined : (processMinedTransactionsSubscriptions
      s.server.registries.minedTransactionsSubs block true).filter
      (fun f => f.subid = sub.1 ∧ f.isRetraction) = [] := by
    rw [List.filter_eq_nil_iff]
    intro f hf hmatch
    obtain ⟨tx, -, sub', hsub', -, rfl⟩ := mem_mined.mp hf
    have heq : sub'.1 = sub.1 := (of_decide_eq_true hmatch).1
    have hlogs := InsertionMap.has_eq_true.mpr ⟨sub.2, hsub⟩
    have hminedtx := InsertionMap.has_eq_true.mpr ⟨sub'.2, hsub'⟩
    rw [heq] at hminedtx
    cases hs.registry.one_kind .logs .minedTransactions sub.1 hlogs hminedtx
  show List.filter _ ((s.logsSent.at block.number).map Frame.retract ++ _) = _
  rw [List.filter_append, hmined, List.append_nil, List.filter_map, recordedFor]
  refine congrArg _ (List.filter_congr ?_)
  intro f hf
  obtain ⟨log, hlog⟩ := hs.replayed hf
  have hretraction : f.retract.isRetraction = true := by rw [Frame.isRetraction, hlog]
  simp [hretraction]

theorem recordedFor_appended (s : System) (subid : SubId) (block : Block) (n : Nat) :
    recordedFor subid (s.emit (.appended block)).logsSent n
      = if n = block.number then recordedFor subid s.logsSent n
          ++ logFrames subid block (s.record (.appended block)).frames
        else recordedFor subid s.logsSent n := by
  rw [logFrames_appended, recordedFor, show (s.emit (.appended block)).logsSent
    = saveLogs s.logsSent block.number
      (logsLoop block (logsPairs s.server.registries.logsSubs block.logs)).1 from rfl,
    saveLogs_at]
  split
  · next hn => rw [List.filter_append, hn]; rfl
  · rfl

theorem recordedFor_delete (sent : LogsSent) (subid : SubId) (number n : Nat) :
    recordedFor subid (InsertionMap.delete sent number) n
      = if n = number then [] else recordedFor subid sent n := by
  rw [recordedFor, delete_at]
  split
  · rfl
  · rfl

end Event

/-! ## The invariant -/

structure LogsInv (window : List Block) (s : System) : Prop where
  recorded : ∀ sub ∈ s.server.registries.logsSubs, ∀ block ∈ window,
    recordedFor sub.1 s.logsSent block.number = sentSince sub.1 block s.history
  /-- Where the window has no block, nothing is recorded. -/
  empty : ∀ sub ∈ s.server.registries.logsSubs, ∀ n, (∀ block ∈ window, block.number ≠ n) →
    recordedFor sub.1 s.logsSent n = []
  exact : ∀ r older, (r :: older) <:+ s.history → ∀ sub ∈ r.registries.logsSubs,
    RetractsExactly sub.1 r older

section Kept

variable {toLowerCase : String → String} {limits : Limits} {s : System}

/-- An id that is drawn now has nothing recorded, and was sent nothing. -/
theorem unused_nil (hs : SystemInv limits s) {subid : SubId} (hunused : subid ∉ s.used)
    (n : Nat) : recordedFor subid s.logsSent n = [] := by
  rw [recordedFor, List.filter_eq_nil_iff]
  intro f hf heq
  exact hunused (of_decide_eq_true heq ▸ (hs.recorded n f hf).2.1)

theorem sentSince_of_unused {subid : SubId} (block : Block) :
    ∀ {history : List Record}, (∀ r ∈ history, ∀ f ∈ r.frames, f.subid ≠ subid) →
      sentSince subid block history = [] := by
  intro history
  induction history with
  | nil => intro _; rfl
  | cons r older ih =>
      intro h
      have hframes : logFrames subid block r.frames = [] := by
        rw [logFrames, List.filter_eq_nil_iff]
        intro f hf hlog
        exact h r List.mem_cons_self f hf (of_decide_eq_true hlog).1
      rw [sentSince, hframes, ih (fun x hx => h x (List.mem_cons_of_mem _ hx)),
        List.append_nil]
      split <;> rfl

/-- A record of another block's event adds nothing. -/
theorem sentSince_emit (hs : SystemInv limits s) {e : BlockEvent} {block : Block}
    (he : e ≠ .appended block) (subid : SubId) :
    sentSince subid block (s.emit e).history = sentSince subid block s.history := by
  rw [show (s.emit e).history = s.record e :: s.history from rfl, sentSince,
    logFrames_eq_nil hs he, List.append_nil]
  exact if_neg he

/-- The record of a number that leaves the window is deleted. -/
theorem LogsInv.leave {block : Block} {window rest : List Block}
    (h : LogsInv window s) (hs : SystemInv limits s) {e : BlockEvent}
    (he : ∀ b, e ≠ .appended b)
    (hsent : (s.emit e).logsSent = InsertionMap.delete s.logsSent block.number)
    (hrest : ∀ b ∈ rest, b ∈ window ∧ b.number ≠ block.number)
    (hwindow : ∀ b ∈ window, b = block ∨ b ∈ rest)
    (hexact : ∀ sub ∈ s.server.registries.logsSubs,
      RetractsExactly sub.1 (s.record e) s.history) : LogsInv rest (s.emit e) := by
  refine ⟨?_, ?_, forall_suffix_cons h.exact hexact⟩
  · intro sub hsub b hb
    obtain ⟨hmem, hne⟩ := hrest b hb
    rw [hsent, recordedFor_delete, if_neg hne, sentSince_emit hs (he b)]
    exact h.recorded sub hsub b hmem
  · intro sub hsub n hn
    rw [hsent, recordedFor_delete]
    split
    · rfl
    · next hne =>
        refine h.empty sub hsub n ?_
        intro b hb
        rcases hwindow b hb with rfl | hmem
        · exact fun heq => hne heq.symm
        · exact hn b hmem

theorem logsInv_kept : Kept toLowerCase limits (fun _ _ => True) LogsInv where
  init := by
    refine ⟨fun _ hsub => (by cases hsub), fun _ hsub => (by cases hsub), ?_⟩
    intro r older hsuffix
    exact absurd (List.suffix_nil.mp hsuffix) (List.cons_ne_nil _ _)
  monitor := fun _ _ _ h => ⟨h.recorded, h.empty, h.exact⟩
  client := by
    intro w s op hs hfresh h
    have hcases : ∀ sub ∈ (s.handle toLowerCase limits
        (.client op)).server.registries.logsSubs,
        sub ∈ s.server.registries.get .logs
          ∨ (sub.1 ∈ op.newIds ∧ sub.2.ws = op.ws) := fun sub hsub =>
      (applyOp_applied toLowerCase limits s.server op).registered hsub
    refine ⟨?_, ?_, h.exact⟩
    · intro sub hsub block hblock
      rcases hcases sub hsub with hold | ⟨hnew, -⟩
      · exact h.recorded sub hold block hblock
      · have hunused := hfresh _ hnew
        have hsent : sentSince sub.1 block s.history = [] :=
          sentSince_of_unused block fun r hr f hf heq =>
            hunused (heq ▸ hs.sent r hr f hf)
        exact (unused_nil hs hunused block.number).trans hsent.symm
    · intro sub hsub n hn
      rcases hcases sub hsub with hold | ⟨hnew, -⟩
      · exact h.empty sub hold n hn
      · exact unused_nil hs (hfresh _ hnew) n
  clear := by
    intro w s hempty h
    have hnone : ∀ sub, sub ∉ s.server.registries.logsSubs := by
      intro sub hsub
      have hlogs := s.server.registries.isEmpty_iff.mp hempty .logs
      rw [show s.server.registries.logsSubs = [] from hlogs] at hsub
      cases hsub
    exact ⟨fun sub hsub => absurd hsub (hnone sub), fun sub hsub => absurd hsub (hnone sub),
      h.exact⟩
  appended := by
    intro block w s hs hlinked _ h
    have hlt : ∀ b ∈ w, b.number ≠ block.number := fun b hb =>
      Nat.ne_of_lt (hlinked.number_lt hb)
    refine ⟨?_, ?_, forall_suffix_cons h.exact ?_⟩
    · intro sub hsub b hb
      rw [recordedFor_appended]
      rcases List.mem_cons.mp hb with rfl | hmem
      · rw [if_pos rfl, h.empty sub hsub b.number hlt, List.nil_append]
        show _ = (if BlockEvent.appended b = .appended b then [] else _) ++ _
        rw [if_pos rfl, List.nil_append]
      · rw [if_neg (hlt b hmem), sentSince_emit hs ?_]
        · exact h.recorded sub hsub b hmem
        · intro heq
          exact hlinked.not_mem (BlockEvent.appended.inj heq ▸ hmem)
    · intro sub hsub n hn
      rw [recordedFor_appended, if_neg (fun heq => hn block List.mem_cons_self heq.symm)]
      exact h.empty sub hsub n fun b hb => hn b (List.mem_cons_of_mem _ hb)
    · intro sub hsub
      exact retractionsTo_eq_nil fun b he => by cases he
  forked := by
    intro block w s hs hlinked _ h
    refine h.leave hs (fun _ he => by cases he) rfl ?_ ?_ ?_
    · exact fun b hb => ⟨List.mem_cons_of_mem _ hb, Nat.ne_of_lt (hlinked.number_lt hb)⟩
    · exact fun b hb => List.mem_cons.mp hb
    · intro sub hsub
      show retractionsTo sub.1 _ = (sentSince sub.1 block s.history).map Frame.retract
      rw [retractionsTo_forked hs hsub, h.recorded sub hsub block List.mem_cons_self]
  removed := by
    intro block w s hs hlinked h
    refine h.leave hs (fun _ he => by cases he) rfl ?_ ?_ ?_
    · exact fun b hb =>
        ⟨List.mem_append_left _ hb, Nat.ne_of_gt (hlinked.lt_number hb)⟩
    · intro b hb
      rcases List.mem_append.mp hb with hmem | hlast
      · exact Or.inr hmem
      · exact Or.inl (List.mem_singleton.mp hlast)
    · intro sub hsub
      exact retractionsTo_eq_nil fun b he => by cases he

end Kept

/-! ## The run -/

theorem block_of_mem_sentSince {subid : SubId} {block : Block} {f : Frame} :
    ∀ {history : List Record}, f ∈ sentSince subid block history → f.block = block := by
  intro history
  induction history with
  | nil => intro hf; cases hf
  | cons r older ih =>
      intro hf
      rcases List.mem_append.mp hf with hold | hnew
      · split at hold
        · cases hold
        · exact ih hold
      · exact (of_decide_eq_true (List.mem_filter.mp hnew).2).2.1

/-- A retraction is about the block that is forked out. -/
theorem RetractsExactly.forked {subid : SubId} {r : Record} {older : List Record}
    (h : RetractsExactly subid r older) {f : Frame} (hf : f ∈ r.frames)
    (hsubid : f.subid = subid) (hretraction : f.isRetraction = true) :
    r.event = .forked f.block := by
  have hmem : f ∈ retractionsTo subid r.frames :=
    List.mem_filter.mpr ⟨hf, by simp [hsubid, hretraction]⟩
  rw [h] at hmem
  cases hevent : r.event with
  | removed block => rw [hevent] at hmem; cases hmem
  | appended block => rw [hevent] at hmem; cases hmem
  | forked block =>
      rw [hevent] at hmem
      obtain ⟨g, hg, rfl⟩ := List.mem_map.mp hmem
      rw [retract_block, block_of_mem_sentSince hg]

/-- **Log retractions are complete and exact**: in every run whose polls do not
    overlap, a registered `logs` subscription is sent for each fork the retractions
    of what it was sent for the block since that was appended, and no others. -/
theorem log_retractions_exact {toLowerCase : String → String} {limits : Limits}
    {blockOf : String → Block} {es : List SystemEvent} {s : System}
    (hrun : Reach (systemStep toLowerCase limits) (Orderly blockOf) System.init es s)
    {r : Record} {older : List Record} (hr : (r :: older) <:+ s.history)
    {sub : SubId × Client} (hsub : sub ∈ r.registries.logsSubs) :
    RetractsExactly sub.1 r older ∧
      ∀ f ∈ r.frames, f.subid = sub.1 → f.isRetraction = true →
        r.event = .forked f.block := by
  have hinv : OrderlyInv limits LogsInv s :=
    logsInv_kept.holds (fun _ _ h => h) (fun _ _ _ _ _ _ _ => trivial) hrun
  have hexact := hinv.holds.exact r older hr sub hsub
  exact ⟨hexact, fun f hf hsubid hretraction => hexact.forked hf hsubid hretraction⟩

/-- What a subscription that is registered at the last event is sent to retract. -/
def lastRetractions (subid : SubId) (s : System) : Option (List Frame) :=
  match s.history with
  | [] => none
  | r :: _ =>
      if InsertionMap.has r.registries.logsSubs subid then
        some (retractionsTo subid r.frames)
      else none

/-- The log of block 9 is retracted once. -/
theorem log_retractions_plainForkNine :
    ∃ s r older client, Reach plainSystemStep (Orderly (blockIn plainBlocks)) System.init
        (plainNine ++ plainForkNine) s ∧
      s.history = r :: older ∧ ("a", client) ∈ r.registries.logsSubs ∧
      (retractionsTo "a" r.frames).length = 1 ∧ RetractsExactly "a" r older := by
  have hcheck : checkRun plainSystemStep (Orderly (blockIn plainBlocks)) System.init
      (plainNine ++ plainForkNine) = true := by decide +kernel
  obtain ⟨s, hs⟩ := exists_reach hcheck
  have hlast : (lastRetractions "a" s).map List.length = some 1 :=
    hs.eval (f := fun s => (lastRetractions "a" s).map List.length) (by decide +kernel)
  rw [lastRetractions] at hlast
  split at hlast
  · cases hlast
  · next r older hhistory =>
      split at hlast
      · next hhas =>
          obtain ⟨client, hsub⟩ := InsertionMap.has_eq_true.mp hhas
          have hsuffix : (r :: older) <:+ s.history := hhistory ▸ List.suffix_refl _
          exact ⟨s, r, older, client, hs, hhistory, hsub, Option.some.inj hlast,
            (log_retractions_exact hs hsuffix hsub).1⟩
      · cases hlast

end WsProxy

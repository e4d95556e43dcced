import EosEvmNode.WsProxy.ClientViews
import EosEvmNode.WsProxy.Convergence
import EosEvmNode.WsProxy.LogFilters

/-! # Clients catch up

    A poll that is answered by a chain which does not change brings the window to
    that chain, whatever forks there were before.  Its answers are events of the
    system like any others, so what the clients hold follows: the heads end with the
    newest block a poll asks for and agree with the chain above its oldest block in
    the window, and of the logs none is left that is of a block off the chain, unless
    that block had become irreversible.

    The heart is `drive_reach`: a run of a poll is a run of the system.  The chain
    leaves the system no choice, so that what is shown of this run is shown of every
    one. -/

namespace WsProxy

open NumberedLog Runs

/-! ## The blocks of the window are named by their hashes -/

section Named

variable {toLowerCase : String → String} {limits : Limits} {blockOf : String → Block}

/-- What is known of an appended block. -/
def Named (blockOf : String → Block) (_ : System) (e : BlockEvent) : Prop :=
  ∀ block, e = .appended block → blockOf block.hash = block

theorem named_kept : Kept toLowerCase limits (Named blockOf)
    fun window _ => ∀ block ∈ window, blockOf block.hash = block where
  init := fun _ hb => by cases hb
  monitor := fun _ _ _ h => h
  client := fun _ _ _ _ _ h => h
  clear := fun _ _ _ _ _ hb => by cases hb
  appended := by
    intro block w s _ _ hnamed h b hb
    rcases List.mem_cons.mp hb with rfl | hmem
    · exact hnamed b rfl
    · exact h b hmem
  forked := fun _ _ _ _ _ _ h b hb => h b (List.mem_cons_of_mem _ hb)
  removed := fun _ _ _ _ _ h b hb => h b (List.mem_append_left _ hb)

/-- The RPC only hands out such blocks. -/
theorem named_complete {m : BlockMonitor} {i : Nat} {a : Answer}
    (hcontract : RpcContract blockOf m (.answer i a)) {s : System} {e : BlockEvent}
    (he : e ∈ (m.complete i a).2) : Named blockOf s e := by
  rintro block rfl
  rcases complete_cases m i a with hc | ⟨p, o, hp, hres, hc⟩ <;> rw [hc] at he
  · cases he
  · cases hres with
    | waits p' hseen hasks => cases he
    | appended found _ haccepts =>
        obtain ⟨r, number, last, rfl, hr, hrequested, -, -⟩ := accepts_eq_some haccepts
        rw [RpcContract, hp, hr, Option.bind_some, hrequested] at hcontract
        rw [BlockEvent.appended.inj (List.mem_singleton.mp he)]
        exact hcontract.2
    | forked found rest hwindow => cases List.mem_singleton.mp he
    | ended => cases he
    | pruned rest dropped hwindow =>
        obtain ⟨found, -, hfound⟩ := List.mem_map.mp he
        cases hfound

/-- A chain that names its blocks so determines the window. -/
theorem determines_of_reach {es : List SystemEvent} {s : System}
    (hrun : Reach (systemStep toLowerCase limits) (Orderly blockOf) System.init es s)
    {C : RpcChain} (hC : ∀ k ≤ C.head, blockOf (C.blockAt k).hash = C.blockAt k) :
    C.Determines s.server.monitor.reversibleBlocks := by
  have hnamed : OrderlyInv limits
      (fun window _ => ∀ block ∈ window, blockOf block.hash = block) s :=
    named_kept.holds (fun _ _ h => h)
      (fun _ i a _ horderly _ he => named_complete (horderly.2 (.answer i a) rfl).1 he) hrun
  intro block hblock k hk hhash
  rw [← hnamed.holds block hblock, hhash, hC k hk]

end Named

/-! ## A poll as a run of the system -/

/-- The blocks that are appended, in order. -/
def appendedBlocks (events : List BlockEvent) : List Block :=
  events.filterMap fun e =>
    match e with
    | .appended block => some block
    | _ => none

/-- What a poll asks for is on the chain. -/
def Poll.InRange (C : RpcChain) (p : Poll) : Prop :=
  ∀ n ∈ p.requested, 0 ≤ n ∧ n ≤ C.head

/-- The poll under way is answered by the chain. -/
def AnsweredBy (C : RpcChain) (evmLib : Nat) (s : System) (e : SystemEvent) : Prop :=
  ∃ p, s.server.monitor.polls = [p] ∧ e = .answer 0 (C.answer evmLib p)

theorem AnsweredBy.unique {C : RpcChain} {evmLib : Nat} {s : System} {e e' : SystemEvent}
    (h : AnsweredBy C evmLib s e) (h' : AnsweredBy C evmLib s e') : e = e' := by
  obtain ⟨p, hp, rfl⟩ := h
  obtain ⟨p', hp', rfl⟩ := h'
  rw [hp] at hp'
  rw [List.singleton_inj.mp hp']

/-- When it has ended the chain is asked nothing. -/
theorem not_answeredBy {C : RpcChain} {evmLib : Nat} {s : System}
    (h : s.server.monitor.polls = []) (e : SystemEvent) : ¬ AnsweredBy C evmLib s e := by
  rintro ⟨p, hp, -⟩
  rw [h] at hp
  cases hp

section Driven

variable {toLowerCase : String → String} {limits : Limits} {blockOf : String → Block}
  {C : RpcChain} {evmLib : Nat}

/-- The answers of the chain keep the promises of the RPC. -/
theorem answer_contract (hC : ∀ k ≤ C.head, blockOf (C.blockAt k).hash = C.blockAt k)
    {m : BlockMonitor} {p : Poll} (hp : m.polls = [p]) (hrange : p.InRange C) :
    RpcContract blockOf m (.answer 0 (C.answer evmLib p)) := by
  have hblock : ∀ number : Int, p.requested = some number →
      RpcContract blockOf m (.answer 0 (.ofBlock (C.blockAt number.toNat))) := by
    intro number hrequested
    obtain ⟨hge, hle⟩ := hrange number hrequested
    have hhead : number.toNat ≤ C.head := by omega
    rw [Answer.ofBlock, RpcContract, hp, C.getBlockWithLogs_blockAt hhead,
      List.getElem?_cons_zero, Option.bind_some, hrequested]
    refine ⟨?_, hC _ hhead⟩
    rw [C.numbered _ hhead]
    omega
  cases p with
  | firstBlock number => exact hblock number rfl
  | nextBlock last number => exact hblock number rfl
  | _ => trivial

/-- A poll that goes on asks for blocks of the chain. -/
theorem resume_inRange (hpos : 0 < C.head) {window : List Block} {p p' : Poll}
    (h : (resume window p (C.answer evmLib p)).progress = .await p') : p'.InRange C := by
  have hloop : ∀ {w : List Block} {found : Bool}, afterLoop w found = .await p' →
      p'.InRange C := by
    intro w found hafter
    rw [afterLoop] at hafter
    split at hafter
    · rw [← Progress.await.inj hafter]
      exact fun n hn => by cases hn
    · cases hafter
  intro n hn
  cases p with
  | firstHead =>
      rw [← Progress.await.inj h] at hn
      obtain rfl := Option.some.inj hn
      omega
  | nextHead last found =>
      cases last with
      | none =>
          rw [← Progress.await.inj h] at hn
          obtain rfl := Option.some.inj hn
          omega
      | some last =>
          rw [RpcChain.answer, resume] at h
          split at h
          · exact hloop h n hn
          · rw [← Progress.await.inj h] at hn
            obtain rfl := Option.some.inj hn
            omega
  | firstBlock number =>
      rw [RpcChain.answer, Answer.ofBlock, resume] at h
      split at h
      · cases h
      · rw [← Progress.await.inj h] at hn
        cases hn
  | nextBlock last number =>
      rw [RpcChain.answer, Answer.ofBlock] at h
      cases hblock : getBlockWithLogs
          ⟨some (C.blockAt number.toNat), some (C.blockAt number.toNat).logs⟩ with
      | error e =>
          simp only [resume, hblock] at h
          cases h
      | ok next =>
          cases last with
          | none =>
              simp only [resume, hblock] at h
              exact hloop h n hn
          | some last =>
              simp only [resume, hblock] at h
              split at h
              · rw [← Progress.await.inj h] at hn
                cases hn
              · split at h
                · cases h
                · rw [← Progress.await.inj h] at hn
                  cases hn
  | info =>
      rw [← Progress.await.inj h] at hn
      cases hn
  | libBlock => cases h

/-- The heads sent for a series of block events. -/
theorem headsSent_foldl {events : List BlockEvent} :
    ∀ {s : System}, SystemInv limits s → ∀ {sub : SubId × Client},
      sub ∈ s.server.registries.newHeadSubs →
      headsSent sub.1 (events.foldl System.emit s).history
        = (appendedBlocks events).reverse ++ headsSent sub.1 s.history := by
  induction events with
  | nil => intro s _ sub _; rfl
  | cons e events ih =>
      intro s hs sub hsub
      rw [List.foldl_cons, ih (hs.emit e) hsub]
      cases e with
      | appended block =>
          rw [headsSent_emit, heads_appended hs hsub]
          show _ = ((block :: appendedBlocks events).reverse) ++ _
          simp
      | forked block =>
          rw [headsSent_emit_other hs fun _ he => by cases he]
          rfl
      | removed block =>
          rw [headsSent_emit_other hs fun _ he => by cases he]
          rfl

/-- The monitor when its only poll has ended. -/
def BlockMonitor.rested (m : BlockMonitor) (window : List Block) : BlockMonitor :=
  { m with reversibleBlocks := window, polls := [], timer := true }

/-- The answer to the only poll. -/
theorem complete_only {m : BlockMonitor} {p : Poll} (hp : m.polls = [p]) (a : Answer) :
    m.complete 0 a = (m.after 0 (resume m.reversibleBlocks p a),
      (resume m.reversibleBlocks p a).events) := by
  rw [BlockMonitor.complete, BlockMonitor.after, hp]
  dsimp only [List.getElem?_cons_zero]
  generalize resume m.reversibleBlocks p a = o
  cases ho : o.progress <;> rfl

/-- The chain's answer to the only poll is a step of the system. -/
theorem answer_reach (hC : ∀ k ≤ C.head, blockOf (C.blockAt k).hash = C.blockAt k)
    {s : System} {p : Poll} (hp : s.server.monitor.polls = [p]) (hrange : p.InRange C) :
    Reach (systemStep toLowerCase limits)
      (fun t e => Orderly blockOf t e ∧ AnsweredBy C evmLib t e) s
      [.answer 0 (C.answer evmLib p)]
      ((resume s.server.monitor.reversibleBlocks p (C.answer evmLib p)).events.foldl
        System.emit (s.withMonitor (s.server.monitor.after 0
          (resume s.server.monitor.reversibleBlocks p (C.answer evmLib p))))) := by
  have horderly : Orderly blockOf s (.answer 0 (C.answer evmLib p)) := by
    refine ⟨trivial, ?_⟩
    intro me hme
    obtain rfl := Option.some.inj hme
    exact ⟨answer_contract hC hp hrange, fun he => by cases he⟩
  show Reach _ _ s ([] ++ [_]) _
  refine .step .start ⟨horderly, p, hp, rfl⟩ ?_
  rw [systemStep, System.handle, complete_only hp]

/-- **A run of a poll is a run of the system.** -/
theorem drive_reach (hpos : 0 < C.head)
    (hC : ∀ k ≤ C.head, blockOf (C.blockAt k).hash = C.blockAt k) (n : Nat) :
    ∀ {s : System} {p : Poll} {events all : List BlockEvent} {window : List Block},
      SystemInv limits s → s.server.monitor.polls = [p] → s.server.monitor.run = true →
      p.InRange C →
      drive (C.answer evmLib) n ⟨s.server.monitor.reversibleBlocks, events, .await p⟩
        = ⟨window, all, .done⟩ →
      ∃ (es : List SystemEvent) (s' : System), Reach (systemStep toLowerCase limits)
          (fun t e => Orderly blockOf t e ∧ AnsweredBy C evmLib t e) s es s' ∧
        s'.server = { s.server with monitor := s.server.monitor.rested window } ∧
        ∃ more, all = events ++ more ∧
          ∀ sub ∈ s.server.registries.newHeadSubs,
            headsSent sub.1 s'.history
              = (appendedBlocks more).reverse ++ headsSent sub.1 s.history := by
  induction n with
  | zero => intro s p events all window _ _ _ _ hdrive; cases hdrive
  | succ n ih =>
      intro s p events all window hs hp hrun hrange hdrive
      rw [drive_await n events rfl] at hdrive
      have hfirst := @answer_reach toLowerCase limits blockOf C evmLib hC s p hp hrange
      have hcomplete := complete_only hp (C.answer evmLib p)
      have hprogress : ∀ p', (resume s.server.monitor.reversibleBlocks p
          (C.answer evmLib p)).progress = .await p' → p'.InRange C :=
        fun p' => resume_inRange hpos
      generalize resume s.server.monitor.reversibleBlocks p (C.answer evmLib p) = o
        at hdrive hfirst hcomplete hprogress
      have hrunning : (s.server.monitor.after 0 o).run = s.server.monitor.run := by
        have h := complete_run s.server.monitor 0 (C.answer evmLib p)
        rwa [hcomplete] at h
      have hsys : SystemInv limits (s.withMonitor (s.server.monitor.after 0 o)) :=
        hs.withMonitor hrunning
      have hheads : ∀ sub ∈ s.server.registries.newHeadSubs,
          headsSent sub.1 (o.events.foldl System.emit
              (s.withMonitor (s.server.monitor.after 0 o))).history
            = (appendedBlocks o.events).reverse ++ headsSent sub.1 s.history :=
        fun _ hsub => headsSent_foldl hsys hsub
      cases hprog : o.progress with
      | done =>
          rw [hprog, drive_done] at hdrive
          injection hdrive with hwindow hall
          refine ⟨_, _, hfirst, ?_, o.events, hall.symm, hheads⟩
          rw [foldl_emit_server, ← hwindow]
          show { s.server with monitor := s.server.monitor.after 0 o } = _
          rw [BlockMonitor.after, hprog, hp]
          dsimp only
          rw [BlockMonitor.finish, if_pos hrun]
          rfl
      | await p' =>
          rw [hprog] at hdrive
          have hafter : s.server.monitor.after 0 o
              = { s.server.monitor with reversibleBlocks := o.window, polls := [p'] } := by
            rw [BlockMonitor.after, hprog, hp]
            rfl
          obtain ⟨es, s', hrest, hserver, more, hall, hmore⟩ := ih
            (s := o.events.foldl System.emit (s.withMonitor (s.server.monitor.after 0 o)))
            (List.foldlRecOn _ _ hsys fun _ h e _ => SystemInv.emit h e)
            (by rw [foldl_emit_server]; exact congrArg BlockMonitor.polls hafter)
            (by rw [foldl_emit_server]; exact hrunning.trans hrun)
            (hprogress p' hprog)
            (by
              rw [foldl_emit_server]
              show drive _ n ⟨(s.server.monitor.after 0 o).reversibleBlocks, _, _⟩ = _
              rw [hafter]
              exact hdrive)
          rw [foldl_emit_server] at hserver hmore
          refine ⟨_, s', hfirst.trans hrest, ?_, o.events ++ more, ?_, ?_⟩
          · rw [hserver]
            show { s.server with monitor := (s.server.monitor.after 0 o).rested window } = _
            rw [hafter]
            rfl
          · rw [hall, List.append_assoc]
          · intro sub hsub
            rw [hmore sub hsub, hheads sub hsub, appendedBlocks, appendedBlocks,
              appendedBlocks, List.filterMap_append, List.reverse_append, List.append_assoc]

end Driven

/-! ## The blocks that are missing -/

section Missing

variable {C : RpcChain} {window : List Block} {top : Block} {older : List Block}

/-- What is appended on the way to the chain. -/
theorem appendedBlocks_changes (dropped : List Block) :
    appendedBlocks (C.changes window ++ dropped.reverse.map .removed) = C.missing window := by
  have hforked : ∀ blocks : List Block, appendedBlocks (blocks.map .forked) = [] :=
    fun blocks => List.filterMap_eq_nil_iff.mpr fun e he => by
      obtain ⟨block, -, rfl⟩ := List.mem_map.mp he
      rfl
  have hremoved : ∀ blocks : List Block, appendedBlocks (blocks.map .removed) = [] :=
    fun blocks => List.filterMap_eq_nil_iff.mpr fun e he => by
      obtain ⟨block, -, rfl⟩ := List.mem_map.mp he
      rfl
  have happended : ∀ blocks : List Block, appendedBlocks (blocks.map .appended) = blocks := by
    intro blocks
    rw [appendedBlocks, List.filterMap_map]
    exact List.filterMap_some
  have happend : ∀ xs ys : List BlockEvent,
      appendedBlocks (xs ++ ys) = appendedBlocks xs ++ appendedBlocks ys :=
    fun xs ys => List.filterMap_append
  rw [RpcChain.changes, happend, happend, hforked, hremoved, happended, List.nil_append,
    List.append_nil]

/-- They are the blocks of the chain from the common part up to two below the head. -/
theorem mem_missing (hcommon : C.common window = top :: older) {x : Block} :
    x ∈ C.missing window ↔
      ∃ k, top.number < k ∧ k + 2 ≤ C.head ∧ x = C.blockAt k := by
  rw [RpcChain.missing, hcommon]
  show x ∈ C.above top.number ↔ _
  rw [RpcChain.above, List.mem_map]
  constructor
  · rintro ⟨k, hk, rfl⟩
    rw [List.mem_range'_1] at hk
    exact ⟨k, by omega, by omega, rfl⟩
  · rintro ⟨k, hlt, hle, rfl⟩
    exact ⟨k, List.mem_range'_1.mpr (by omega), rfl⟩

theorem missing_falling (hcommon : C.common window = top :: older) :
    (C.missing window).reverse.Pairwise fun x y => y.number < x.number := by
  rw [List.pairwise_reverse, RpcChain.missing, hcommon]
  show List.Pairwise _ (C.above top.number)
  rw [RpcChain.above, List.pairwise_map]
  refine List.Pairwise.imp_of_mem ?_ List.pairwise_lt_range'
  intro j k hj hk hlt
  rw [List.mem_range'_1] at hj hk
  rwa [C.numbered j (by omega), C.numbered k (by omega)]

/-- The newest one is the last block a poll asks for. -/
theorem head?_missing (hcommon : C.common window = top :: older)
    (hlt : top.number + 2 < C.head) :
    (C.missing window).reverse.head? = some (C.blockAt (C.head - 2)) := by
  obtain ⟨d, hd⟩ : ∃ d, C.head - 2 - top.number = d + 1 := ⟨C.head - 2 - top.number - 1, by omega⟩
  rw [List.head?_reverse, RpcChain.missing, hcommon]
  show (C.above top.number).getLast? = _
  rw [RpcChain.above, hd, List.range'_concat, List.map_append, List.map_singleton,
    List.getLast?_concat]
  congr 2
  omega

theorem has_of_mem_missing (hcommon : C.common window = top :: older) {x : Block}
    (hx : x ∈ C.missing window) : C.has x = true := by
  obtain ⟨k, -, hle, rfl⟩ := (mem_missing hcommon).mp hx
  have hnumber := C.numbered k (by omega)
  exact RpcChain.has_iff.mpr ⟨by omega, by rw [hnumber]⟩

/-- Up to its newest block the common part is the window. -/
theorem mem_common_of_le (hlinked : Linked window) (hcommon : C.common window = top :: older)
    {x : Block} (hx : x ∈ window) (hle : x.number ≤ top.number) : x ∈ C.common window := by
  have hwhole : C.others window ++ C.common window = window :=
    List.rdropWhile_append_rtakeWhile
  rw [← hwhole] at hx hlinked
  rcases List.mem_append.mp hx with hother | hmem
  · have htop : top ∈ C.common window := hcommon ▸ List.mem_cons_self
    have hlt := (List.pairwise_append.mp hlinked.pairwise).2.2 x hother top htop
    omega
  · exact hmem

theorem common_subset {x : Block} (hx : x ∈ C.common window) :
    x ∈ window ∧ C.has x = true :=
  ⟨(List.rtakeWhile_suffix _ _).subset hx, List.mem_rtakeWhile_imp hx⟩

/-- The common part has the oldest block, where the chain has it. -/
theorem exists_common {oldest : Block} (holdest : window.getLast? = some oldest)
    (hhas : C.has oldest = true) : ∃ top older, C.common window = top :: older := by
  obtain ⟨newer, hnewer⟩ := List.getLast?_eq_some_iff.mp holdest
  have hmem : oldest ∈ C.common window := by
    rw [hnewer, RpcChain.common, List.rtakeWhile_concat_pos C.has newer oldest hhas]
    exact List.mem_append_right _ List.mem_cons_self
  exact List.exists_cons_of_ne_nil (List.ne_nil_of_mem hmem)

/-- Its newest block is not above the newest one of the window. -/
theorem common_le (hlinked : Linked window) (hcommon : C.common window = top :: older)
    {last : Block} (hlast : window.head? = some last) : top.number ≤ last.number := by
  have htop : top ∈ window := (common_subset (hcommon ▸ List.mem_cons_self)).1
  obtain ⟨rest, rfl⟩ := List.head?_eq_some_iff.mp hlast
  rcases List.mem_cons.mp htop with rfl | hmem
  · exact Nat.le_refl _
  · exact Nat.le_of_lt (hlinked.number_lt hmem)

/-- The poll runs to its end. -/
theorem drive_startPoll (evmLib : Nat) (hlinked : Linked window)
    (hdetermines : C.Determines window) {last : Block} (hlast : window.head? = some last)
    (hlt : last.number + 1 < C.head - 1) :
    ∃ n kept dropped, C.converged window = kept ++ dropped ∧
      (∀ block ∈ dropped, block.number < evmLib) ∧
      drive (C.answer evmLib) n ⟨window, [], .await (startPoll window)⟩
        = ⟨kept, C.changes window ++ dropped.reverse.map .removed, .done⟩ := by
  obtain ⟨rest, rfl⟩ := List.head?_eq_some_iff.mp hlast
  have hbelow : ∀ x ∈ (last :: rest).head?, x.number + 2 < C.head := by
    intro x hx
    obtain rfl := Option.some.inj hx
    omega
  obtain ⟨n, hunwind⟩ := drive_unwind evmLib (by omega) hlinked hdetermines hbelow [] false
    (Or.inl (List.cons_ne_nil _ _))
  obtain ⟨kept, dropped, hsplit, hprune, hbelow', -⟩ :=
    drive_prune C evmLib (C.converged (last :: rest)) (C.changes (last :: rest))
  refine ⟨n + 2, kept, dropped, hsplit, hbelow', ?_⟩
  rw [drive_add]
  exact (congrArg _ hunwind).trans hprune

end Missing

/-! ## The poll of the timer -/

section Timer

variable {toLowerCase : String → String} {limits : Limits} {blockOf : String → Block}
  {C : RpcChain} {s : System}

/-- The timer starts a poll when none is under way. -/
theorem fire_idle {m : BlockMonitor} (htimer : m.timer = true) (hidle : m.polls = []) :
    m.fire = { m with timer := false, polls := [startPoll m.reversibleBlocks] } := by
  rw [BlockMonitor.fire, if_pos htimer, hidle]
  rfl

theorem orderly_timer (hidle : s.server.monitor.polls = []) : Orderly blockOf s .timer := by
  refine ⟨trivial, ?_⟩
  intro me hme
  obtain rfl := Option.some.inj hme
  exact ⟨trivial, fun _ => hidle⟩

/-- **The poll of the timer ends**, and appends the blocks that are missing. -/
theorem timer_reach (hsys : SystemInv limits s) (hrunning : s.server.monitor.run = true)
    (htimer : s.server.monitor.timer = true) (hidle : s.server.monitor.polls = [])
    (hlinked : Linked s.server.monitor.reversibleBlocks)
    (hdetermines : C.Determines s.server.monitor.reversibleBlocks) (evmLib : Nat)
    (hC : ∀ k ≤ C.head, blockOf (C.blockAt k).hash = C.blockAt k) {last : Block}
    (hlast : s.server.monitor.reversibleBlocks.head? = some last)
    (hlt : last.number + 1 < C.head - 1) :
    ∃ (polled : List SystemEvent) (s' : System) (kept dropped : List Block),
      Reach (systemStep toLowerCase limits)
        (fun t e => Orderly blockOf t e ∧ AnsweredBy C evmLib t e)
        (s.handle toLowerCase limits .timer) polled s' ∧
      s'.server = { s.server with monitor := s.server.monitor.rested kept } ∧
      C.converged s.server.monitor.reversibleBlocks = kept ++ dropped ∧
      (∀ block ∈ dropped, block.number < evmLib) ∧
      ∀ sub ∈ s.server.registries.newHeadSubs,
        headsSent sub.1 s'.history
          = (C.missing s.server.monitor.reversibleBlocks).reverse
            ++ headsSent sub.1 s.history := by
  have hfire := fire_idle htimer hidle
  obtain ⟨n, kept, dropped, hsplit, hbelow, hdrive⟩ :=
    drive_startPoll evmLib hlinked hdetermines hlast hlt
  have hrange : (startPoll s.server.monitor.reversibleBlocks).InRange C := by
    obtain ⟨rest, hwindow⟩ := List.head?_eq_some_iff.mp hlast
    rw [hwindow]
    exact fun k hk => by cases hk
  have hfired : SystemInv limits (s.withMonitor s.server.monitor.fire) :=
    hsys.withMonitor (fire_run _)
  obtain ⟨polled, s', hpoll, hserver, more, hmore, hsent⟩ :=
    @drive_reach toLowerCase limits blockOf C evmLib (by omega) hC n _ _ [] _ _ hfired
      (congrArg BlockMonitor.polls hfire) ((fire_run _).trans hrunning) hrange
      (by
        show drive _ n ⟨s.server.monitor.fire.reversibleBlocks, _, _⟩ = _
        rw [hfire]
        exact hdrive)
  rw [List.nil_append] at hmore
  refine ⟨polled, s', kept, dropped, hpoll, ?_, hsplit, hbelow, ?_⟩
  · rw [hserver]
    show { s.server with monitor := s.server.monitor.fire.rested kept } = _
    rw [hfire]
    rfl
  · intro sub hsub
    rw [hsent sub hsub, ← hmore, appendedBlocks_changes]
    rfl

end Timer

/-! ## Catching up -/

/-- The heads a client holds agree with the chain, up to the last block a poll asks
    for. -/
structure HeadsOn (C : RpcChain) (common held : List Block) : Prop where
  newest : held.head? = some (C.blockAt (C.head - 2))
  complete : ∀ top ∈ common.head?, ∀ k, top.number < k → k + 2 ≤ C.head → C.blockAt k ∈ held
  sound : ∀ x ∈ held, (∃ lo ∈ common, lo.number ≤ x.number) → C.has x = true

/-- Heads of the missing blocks, on top of those that were held before. -/
theorem HeadsHeld.caughtUp {C : RpcChain} {window : List Block} {s : System}
    (h : HeadsHeld window s) (hlinked : Linked window) {top : Block} {older : List Block}
    (hcommon : C.common window = top :: older) (hlt : top.number + 2 < C.head)
    {sub : SubId × Client} (hsub : sub ∈ s.server.registries.newHeadSubs) :
    HeadsOn C (C.common window) (view Block.number
      ((C.missing window).reverse ++ headsSent sub.1 s.history)) := by
  have htop : top ∈ C.common window := hcommon ▸ List.mem_cons_self
  refine ⟨?_, ?_, ?_⟩
  · rw [head?_view, List.head?_append, head?_missing hcommon hlt]
    rfl
  · intro t ht k hk hle
    rw [hcommon] at ht
    obtain rfl := Option.some.inj ht
    refine mem_view_of_falling (missing_falling hcommon) ?_
    exact List.mem_reverse.mpr ((mem_missing hcommon).mpr ⟨k, hk, hle, rfl⟩)
  · rintro x hx ⟨lo, hlo, hle⟩
    rcases mem_view_append_cases hx with hnew | ⟨hold, hbelow⟩
    · exact has_of_mem_missing hcommon (List.mem_reverse.mp hnew)
    · -- below all missing blocks, so in the common part
      have hnext : C.blockAt (top.number + 1) ∈ (C.missing window).reverse :=
        List.mem_reverse.mpr ((mem_missing hcommon).mpr
          ⟨top.number + 1, by omega, by omega, rfl⟩)
      have hxlt := hbelow _ hnext
      rw [C.numbered _ (by omega)] at hxlt
      have hmem : x ∈ window := h.mem_window hlinked hsub hold (common_subset hlo).1
        (common_subset htop).1 hle (by omega)
      exact (common_subset (mem_common_of_le hlinked hcommon hmem (by omega))).2

/-- What a client holds is of a block on the chain, or of one that has been removed. -/
theorem LedgerInv.caughtUp {C : RpcChain} {window kept dropped : List Block} {s : System}
    (h : LedgerInv kept s) {top : Block} {older : List Block}
    (hcommon : C.common window = top :: older)
    (hsplit : C.converged window = kept ++ dropped) {sub : SubId × Client}
    (hsub : sub ∈ s.server.registries.logsSubs) {f : Frame}
    (hf : f ∈ heldLogs sub.1 s.history) :
    C.has f.block = true ∨ ∃ r ∈ s.history, r.event = .removed f.block := by
  rcases h.block_held hsub hf with hmem | hremoved
  · left
    have hconverged : f.block ∈ C.converged window := by
      rw [hsplit]
      exact List.mem_append_left _ hmem
    rcases List.mem_append.mp hconverged with hmissing | hold
    · exact has_of_mem_missing hcommon (List.mem_reverse.mp hmissing)
    · exact (common_subset hold).2
  · exact Or.inr hremoved

/-- What the poll leaves behind: a system that is alive and has caught up. -/
structure CaughtUp (C : RpcChain) (evmLib : Nat) (s s' : System) : Prop where
  alive : s'.Alive
  registries : s'.server.registries = s.server.registries
  timer : s'.server.monitor.timer = true
  /-- The window is the one of the chain, but for old blocks below its LIB. -/
  window : ∃ dropped, C.converged s.server.monitor.reversibleBlocks
      = s'.server.monitor.reversibleBlocks ++ dropped ∧
    ∀ block ∈ dropped, block.number < evmLib
  heads : ∀ sub ∈ s.server.registries.newHeadSubs,
    HeadsOn C (C.common s.server.monitor.reversibleBlocks) (heldHeads sub.1 s'.history)
  logs : ∀ sub ∈ s.server.registries.logsSubs, ∀ f ∈ heldLogs sub.1 s'.history,
    C.has f.block = true ∨ ∃ r ∈ s'.history, r.event = .removed f.block

/-- The chain's answers leave the registries and the life of the system as they are. -/
theorem alive_of_answered {toLowerCase : String → String} {limits : Limits} {C : RpcChain}
    {evmLib : Nat} {s s' : System} {es : List SystemEvent} (halive : s.Alive)
    (haccepted : Accepted s.server.registries)
    (hreads : ∀ sub ∈ s.server.registries.logsSubs, readsAddresses sub.2.filter = false)
    (hrun : Reach (systemStep toLowerCase limits) (AnsweredBy C evmLib) s es s') :
    s'.Alive ∧ s'.server.registries = s.server.registries := by
  refine hrun.invariant (P := fun t => t.Alive ∧ t.server.registries = s.server.registries)
    ⟨halive, rfl⟩ ?_
  rintro t e t' ⟨ht, hregistries⟩ ⟨p, -, rfl⟩ hstep
  rw [← Except.ok.inj hstep]
  refine ⟨ht.answer (hregistries ▸ haccepted) (hregistries ▸ hreads) 0 _, ?_⟩
  rw [System.handle, foldl_emit_server]
  exact hregistries

/-- **Clients catch up with the chain.** Take any run whose polls do not overlap, up to
    a state in which no block event has raised an error and no `logs` filter would
    raise one, the timer is set and no poll is under way.  Let the timer fire, and let
    everything that poll asks for be answered from a chain `C` that has the oldest
    block of the window and goes beyond the newest one.  The poll then ends, and in
    the state in which it has ended, whatever the clients had been sent before, each
    `newHeads` client holds as newest head the last block a poll asks for, every block
    of `C` above the common part up to it, and from the common part on nothing that is
    not on `C`; and a `logs` client holds only logs of blocks on `C` or of blocks that
    were removed as irreversible. -/
theorem clients_catch_up {toLowerCase : String → String} {limits : Limits}
    {blockOf : String → Block} {es : List SystemEvent} {s : System}
    (hrun : Reach (systemStep toLowerCase limits) (Orderly blockOf) System.init es s)
    (hrunning : s.server.monitor.run = true) (htimer : s.server.monitor.timer = true)
    (hidle : s.server.monitor.polls = []) (halive : s.Alive)
    (hreads : ∀ sub ∈ s.server.registries.logsSubs, readsAddresses sub.2.filter = false)
    (C : RpcChain) (evmLib : Nat)
    (hC : ∀ k ≤ C.head, blockOf (C.blockAt k).hash = C.blockAt k) {last oldest : Block}
    (hlast : s.server.monitor.reversibleBlocks.head? = some last)
    (hlt : last.number + 1 < C.head - 1)
    (holdest : s.server.monitor.reversibleBlocks.getLast? = some oldest)
    (hhas : C.has oldest = true) :
    (∃ polled s', Reach (systemStep toLowerCase limits) (AnsweredBy C evmLib)
      (s.handle toLowerCase limits .timer) polled s' ∧ s'.server.monitor.polls = []) ∧
    ∀ polled s', Reach (systemStep toLowerCase limits) (AnsweredBy C evmLib)
      (s.handle toLowerCase limits .timer) polled s' → s'.server.monitor.polls = [] →
        CaughtUp C evmLib s s' := by
  have hheads : OrderlyInv limits HeadsHeld s :=
    headsHeld_kept.holds (fun _ _ h => h) (fun _ _ _ _ _ _ _ => trivial) hrun
  have hlinked := hheads.monitor.window.linked
  obtain ⟨top, older, hcommon⟩ := exists_common holdest hhas
  have htop := common_le hlinked hcommon hlast
  obtain ⟨polled, s', kept, dropped, hpoll, hserver, hsplit, hbelow, hsent⟩ :=
    @timer_reach toLowerCase limits blockOf C s hheads.system hrunning htimer hidle
      hlinked (determines_of_reach hrun hC) evmLib hC last hlast hlt
  have hended : s'.server.monitor.polls = [] := by
    rw [hserver]
    rfl
  have hanswered : Reach (systemStep toLowerCase limits) (AnsweredBy C evmLib)
      (s.handle toLowerCase limits .timer) polled s' := hpoll.mono fun _ _ h => h.2
  refine ⟨⟨polled, s', hanswered, hended⟩, ?_⟩
  -- the chain leaves no choice
  intro polled' t hother hrest
  have hsame : s' = t := hanswered.eq_of_rest (fun _ _ _ h h' => h.unique h') hother
    (not_answeredBy hended) (not_answeredBy hrest)
  rw [← hsame]
  have htick : Reach (systemStep toLowerCase limits) (Orderly blockOf) System.init
      (es ++ [.timer]) (s.handle toLowerCase limits .timer) :=
    .step hrun (orderly_timer hidle) rfl
  obtain ⟨halive', hregistries⟩ := alive_of_answered (s := s.handle toLowerCase limits .timer)
    halive (accepted_of_reach htick) hreads hanswered
  have hledger : OrderlyInv limits LedgerInv s' :=
    ledgerInv_kept.holds (fun _ _ h => h) (fun _ _ _ _ _ _ _ => trivial)
      (htick.trans (hpoll.mono fun _ _ h => h.1))
  refine ⟨halive', hregistries, by rw [hserver]; rfl, ⟨dropped, ?_, hbelow⟩, ?_, ?_⟩
  · rw [hserver]
    exact hsplit
  · intro sub hsub
    rw [heldHeads, hsent sub hsub]
    exact hheads.holds.caughtUp hlinked hcommon (by omega) hsub
  · intro sub hsub f hf
    have hwindow := hledger.holds
    rw [hserver] at hwindow
    refine hwindow.caughtUp hcommon hsplit ?_ hf
    rw [hregistries]
    exact hsub

/-! ## Another chain on block 9 -/

/-- The hash of block `k` of the new chain, which leaves the old one after block 9. -/
def renamed (k : Nat) : String :=
  if k = 8 then "h8" else if k = 9 then "h9" else plainHash k

theorem renamed_ne_empty (k : Nat) : renamed k ≠ "" := by
  rw [renamed]
  split
  · decide
  · split
    · decide
    · intro hempty
      have hlength := congrArg String.length hempty
      simp [plainHash] at hlength

def plainNewChain : RpcChain where
  head := 14
  blockAt := fun k => plainBlock k (renamed k) (renamed (k - 1))
  numbered := fun _ _ => rfl
  linked := fun _ _ => rfl
  logged := by
    intro k _ log hlog
    rw [List.mem_singleton.mp hlog]
    exact ⟨renamed_ne_empty k, rfl⟩

/-- The blocks of both chains, by their hashes. -/
def plainBlockOf : String → Block :=
  blockIn (plainBranches ++ (List.range 15).map plainNewChain.blockAt)

/-- Blocks 10 and 11 are forked out; the client ends with block 12 of the new chain and
    holds no log of the old ones. -/
theorem clients_catch_up_plainNewChain :
    ∃ s polled s' heads logs,
      Reach plainSystemStep (Orderly plainBlockOf) System.init plainForkTen s ∧
      Reach plainSystemStep (AnsweredBy plainNewChain 0) (s.handle id ⟨1, 1⟩ .timer)
        polled s' ∧
      ("b", heads) ∈ s.server.registries.newHeadSubs ∧
      ("a", logs) ∈ s.server.registries.logsSubs ∧ CaughtUp plainNewChain 0 s s' := by
  have hcheck : checkRun plainSystemStep (Orderly plainBlockOf) System.init
      plainForkTen = true := by decide +kernel
  obtain ⟨s, hs⟩ := exists_reach hcheck
  have hmonitor : (s.server.monitor.run, s.server.monitor.timer, s.server.monitor.polls)
      = (true, true, []) :=
    hs.eval (f := fun s => (s.server.monitor.run, s.server.monitor.timer,
      s.server.monitor.polls)) (by decide +kernel)
  have hwindow : s.server.monitor.reversibleBlocks
      = [plainBlock 11 "h11b" "h10b", plainBlock 10 "h10b" "h9", plainBlock 9 "h9" "h8"] :=
    hs.eval (f := fun s => s.server.monitor.reversibleBlocks) (by decide +kernel)
  have hsubs : (InsertionMap.has s.server.registries.newHeadSubs "b",
      InsertionMap.has s.server.registries.logsSubs "a") = (true, true) :=
    hs.eval (f := fun s => (InsertionMap.has s.server.registries.newHeadSubs "b",
      InsertionMap.has s.server.registries.logsSubs "a")) (by decide +kernel)
  have halive : s.history.all (fun r => r.aborted.isNone) = true :=
    hs.eval (f := fun s => s.history.all fun r => r.aborted.isNone) (by decide +kernel)
  have hreads : s.server.registries.logsSubs.all
      (fun sub => !readsAddresses sub.2.filter) = true :=
    hs.eval (f := fun s => s.server.registries.logsSubs.all
      fun sub => !readsAddresses sub.2.filter) (by decide +kernel)
  obtain ⟨hrunning, hmonitor⟩ := Prod.mk.inj hmonitor
  obtain ⟨htimer, hidle⟩ := Prod.mk.inj hmonitor
  obtain ⟨hheads, hlogs⟩ := Prod.mk.inj hsubs
  obtain ⟨heads, hheads⟩ := InsertionMap.has_eq_true.mp hheads
  obtain ⟨logs, hlogs⟩ := InsertionMap.has_eq_true.mp hlogs
  have hC : ∀ k ≤ 14, plainBlockOf (plainNewChain.blockAt k).hash
      = plainNewChain.blockAt k := by decide +kernel
  obtain ⟨⟨polled, s', hpolled, hended⟩, hcaught⟩ :=
    clients_catch_up hs hrunning htimer hidle
      (fun r hr => Option.isNone_iff_eq_none.mp (List.all_eq_true.mp halive r hr))
      (fun sub hsub => by simpa using List.all_eq_true.mp hreads sub hsub)
      plainNewChain 0 hC (by rw [hwindow]; rfl) (by decide) (by rw [hwindow]; rfl)
      (by decide +kernel)
  exact ⟨s, polled, s', heads, logs, hs, hpolled, hheads, hlogs,
    hcaught polled s' hpolled hended⟩

end WsProxy

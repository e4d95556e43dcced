import EosEvmNode.WsProxy.System

/-! # Runs whose polls do not overlap

    What holds of the window and of what has been sent is proved one block event at
    a time: a block is appended to a linked run, the newest one is forked out, the
    oldest one removed, or the window is cleared because nobody is subscribed.
    `Kept` lists these obligations, and `Kept.holds` is the only induction. -/

namespace WsProxy

open Runs

/-! ## The monitor of such a run -/

/-- One poll at a time, and a linked run. -/
structure MonitorInv (m : BlockMonitor) : Prop where
  window : WindowInv m
  solo : Solo m

theorem monitorInv_init : MonitorInv BlockMonitor.init := ⟨windowInv_init, solo_init⟩

theorem MonitorInv.handle {blockOf : String → Block} {m : BlockMonitor}
    (h : MonitorInv m) {e : MonitorEvent} (hcontract : RpcContract blockOf m e)
    (hadm : NoOverlap m e) : MonitorInv (m.handle e).1 :=
  ⟨h.window.handle hcontract (h.solo.upToDate e), h.solo.handle hadm⟩

/-- A request starts or stops the monitor, or leaves it alone. -/
theorem Applied.monitor {limits : Limits} {st st' : Server} {op : ClientOp}
    {reply : Reply} (happ : Applied limits st op st' reply) :
    st'.monitor = st.monitor ∨ st'.monitor = st.monitor.start
      ∨ st'.monitor = st.monitor.stop := by
  have hstart : ∀ t : Server, (checkStartMonitor t).monitor = t.monitor
      ∨ (checkStartMonitor t).monitor = t.monitor.start := by
    intro t
    rw [checkStartMonitor]
    split
    · exact Or.inr rfl
    · exact Or.inl rfl
  have hstop : ∀ t : Server, (checkStopMonitor t).monitor = t.monitor
      ∨ (checkStopMonitor t).monitor = t.monitor.stop := by
    intro t
    rw [checkStopMonitor]
    split
    · exact Or.inr rfl
    · exact Or.inl rfl
  cases happ with
  | thrown e => exact Or.inl rfl
  | added kind subid client hop hws hroom =>
      rcases hstart _ with h | h
      · exact Or.inl h
      · exact Or.inr (Or.inl h)
  | deleted kind subid client hget hws =>
      rcases hstop _ with h | h
      · exact Or.inl h
      · exact Or.inr (Or.inr h)
  | disconnected =>
      rcases hstop _ with h | h
      · exact Or.inl h
      · exact Or.inr (Or.inr h)

theorem start_window (m : BlockMonitor) :
    m.start.reversibleBlocks = m.reversibleBlocks := by
  rw [BlockMonitor.start]
  split <;> rfl

theorem Applied.window {limits : Limits} {st st' : Server} {op : ClientOp}
    {reply : Reply} (happ : Applied limits st op st' reply) :
    st'.monitor.reversibleBlocks = st.monitor.reversibleBlocks := by
  rcases happ.monitor with h | h | h <;> rw [h]
  · exact start_window _
  · rfl

/-! ## The obligations -/

/-- What keeps a property of the window, the registries, the record and the
    history; `cond` is what is known of an appended or forked block. -/
structure Kept (toLowerCase : String → String) (limits : Limits)
    (cond : System → BlockEvent → Prop) (P : List Block → System → Prop) : Prop where
  init : P [] System.init
  monitor : ∀ w s m, P w s → P w (s.withMonitor m)
  client : ∀ w s op, SystemInv limits s → FreshId s (.client op) → P w s →
    P w (s.handle toLowerCase limits (.client op))
  clear : ∀ w s, s.server.registries.isEmpty = true → P w s → P [] s
  appended : ∀ block w s, SystemInv limits s → Linked (block :: w) →
    cond s (.appended block) → P w s → P (block :: w) (s.emit (.appended block))
  forked : ∀ block w s, SystemInv limits s → Linked (block :: w) →
    cond s (.forked block) → P (block :: w) s → P w (s.emit (.forked block))
  removed : ∀ block w s, SystemInv limits s → Linked (w ++ [block]) →
    P (w ++ [block]) s → P w (s.emit (.removed block))

/-- The property between two events. -/
structure OrderlyInv (limits : Limits) (P : List Block → System → Prop) (s : System) :
    Prop where
  system : SystemInv limits s
  monitor : MonitorInv s.server.monitor
  holds : P s.server.monitor.reversibleBlocks s

section Rule

variable {toLowerCase : String → String} {limits : Limits}
  {cond : System → BlockEvent → Prop} {P : List Block → System → Prop}
  {blockOf : String → Block} {s : System}

/-- Blocks are removed one by one. -/
theorem Kept.foldl_removed (h : Kept toLowerCase limits cond P) (rest : List Block) :
    ∀ (dropped : List Block) (s : System), SystemInv limits s →
      Linked (rest ++ dropped) → P (rest ++ dropped) s →
      P rest ((dropped.reverse.map .removed).foldl System.emit s) := by
  intro dropped
  induction dropped using List.reverseRecOn with
  | nil =>
      intro s _ _ hP
      rwa [List.append_nil] at hP
  | append_singleton dropped block ih =>
      intro s hs hlinked hP
      rw [← List.append_assoc] at hlinked hP
      rw [List.reverse_concat, List.map_cons, List.foldl_cons]
      exact ih (s.emit (.removed block)) (hs.emit _)
        (List.IsChain.left_of_append hlinked) (h.removed block _ s hs hlinked hP)

/-- What a completion emits keeps the property. -/
theorem Kept.complete (h : Kept toLowerCase limits cond P) (hs : OrderlyInv limits P s)
    {i : Nat} {a : Answer}
    (hcontract : RpcContract blockOf s.server.monitor (.answer i a))
    (hcond : ∀ e ∈ (s.server.monitor.complete i a).2,
      cond (s.withMonitor (s.server.monitor.complete i a).1) e) :
    P (s.server.monitor.complete i a).1.reversibleBlocks
      (s.handle toLowerCase limits (.answer i a)) := by
  obtain ⟨hsys, hmonitor, hP⟩ := hs
  rw [System.handle]
  -- once no subscription is left the window is cleared
  have hdone : ∀ (w : List Block) (t : System), t.server.registries = s.server.registries →
      P w t → P (if s.server.monitor.run then w else []) t := by
    intro w t ht hw
    split
    · exact hw
    · next hrun =>
        refine h.clear w t ?_ hw
        have hempty := hsys.registry.running
        rw [ht]
        cases hreg : s.server.registries.isEmpty with
        | true => rfl
        | false => rw [hreg] at hempty; exact absurd hempty hrun
  rcases complete_cases s.server.monitor i a with hc | ⟨p, o, hp, hres, hc⟩ <;>
    rw [hc] at hcond ⊢
  · exact h.monitor _ s _ hP
  · have hsys' : ∀ m : BlockMonitor, m.run = s.server.monitor.run →
        SystemInv limits (s.withMonitor m) := fun m hm => hsys.withMonitor hm
    have hrun : (s.server.monitor.after i o).run = s.server.monitor.run := by
      have hcr := complete_run s.server.monitor i a
      rwa [hc] at hcr
    cases hres with
    | waits p' hseen hasks => exact h.monitor _ s _ hP
    | appended block found haccepts =>
        refine h.appended block _ _ (hsys' _ hrun) ?_ (hcond _ List.mem_cons_self)
          (h.monitor _ s _ hP)
        exact hmonitor.window.append hp haccepts hcontract (hmonitor.solo.upToDate _)
    | forked block rest hwindow =>
        have hlinked := hmonitor.window.linked
        rw [hwindow] at hlinked hP
        exact h.forked block rest _ (hsys' _ hrun) hlinked (hcond _ List.mem_cons_self)
          (h.monitor _ s _ hP)
    | ended =>
        rw [show (BlockMonitor.after s.server.monitor i
          ⟨s.server.monitor.reversibleBlocks, [], .done⟩).reversibleBlocks = _
          from finish_window _]
        exact hdone _ _ rfl (h.monitor _ s _ hP)
    | pruned rest dropped hwindow =>
        have hlinked := hmonitor.window.linked
        rw [hwindow] at hlinked hP
        rw [show (BlockMonitor.after s.server.monitor i
          ⟨rest, dropped.reverse.map .removed, .done⟩).reversibleBlocks = _
          from finish_window _]
        refine hdone rest _ ?_ (h.foldl_removed rest dropped _ (hsys' _ hrun) hlinked
          (h.monitor _ s _ hP))
        rw [foldl_emit_server]
        rfl

theorem Kept.handle (h : Kept toLowerCase limits cond P) (hs : OrderlyInv limits P s)
    {e : SystemEvent} (horderly : Orderly blockOf s e)
    (hcond : ∀ i a, e = .answer i a → ∀ be ∈ (s.server.monitor.complete i a).2,
      cond (s.withMonitor (s.server.monitor.complete i a).1) be) :
    OrderlyInv limits P (s.handle toLowerCase limits e) := by
  obtain ⟨hfresh, hmon⟩ := horderly
  refine ⟨hs.system.handle hfresh, ?_, ?_⟩
  · -- the monitor, and then the property
    cases e with
    | client op =>
        have happ := applyOp_applied toLowerCase limits s.server op
        show MonitorInv (applyOp toLowerCase limits s.server op).1.monitor
        rcases happ.monitor with hm | hm | hm <;> rw [hm]
        · exact hs.monitor
        · have hcontract : RpcContract blockOf s.server.monitor .start := trivial
          exact hs.monitor.handle hcontract (fun he => by cases he)
        · have hcontract : RpcContract blockOf s.server.monitor .stop := trivial
          exact hs.monitor.handle hcontract (fun he => by cases he)
    | timer =>
        obtain ⟨hcontract, hadm⟩ := hmon .timer rfl
        exact hs.monitor.handle hcontract hadm
    | answer i a =>
        obtain ⟨hcontract, hadm⟩ := hmon (.answer i a) rfl
        rw [System.handle, foldl_emit_server]
        exact hs.monitor.handle hcontract hadm
  · cases e with
    | client op =>
        have happ := applyOp_applied toLowerCase limits s.server op
        rw [show (s.handle toLowerCase limits (.client op)).server.monitor.reversibleBlocks
          = _ from happ.window]
        exact h.client _ s op hs.system hfresh hs.holds
    | timer =>
        have hwindow : s.server.monitor.fire.reversibleBlocks
            = s.server.monitor.reversibleBlocks := by
          rw [BlockMonitor.fire]
          split <;> rfl
        show P s.server.monitor.fire.reversibleBlocks (s.withMonitor _)
        rw [hwindow]
        exact h.monitor _ s _ hs.holds
    | answer i a =>
        obtain ⟨hcontract, -⟩ := hmon (.answer i a) rfl
        have hmonitor : (s.handle toLowerCase limits (.answer i a)).server.monitor
            = (s.server.monitor.complete i a).1 := by
          rw [System.handle, foldl_emit_server]
          rfl
        rw [hmonitor]
        exact h.complete hs hcontract (hcond i a rfl)

/-- **The rule**: a property that is kept holds in every such run. -/
theorem Kept.holds (h : Kept toLowerCase limits cond P)
    {adm : System → SystemEvent → Prop} (hadm : ∀ s e, adm s e → Orderly blockOf s e)
    (hcond : ∀ s i a, OrderlyInv limits P s → adm s (.answer i a) →
      ∀ be ∈ (s.server.monitor.complete i a).2,
        cond (s.withMonitor (s.server.monitor.complete i a).1) be)
    {es : List SystemEvent}
    (hrun : Reach (systemStep toLowerCase limits) adm System.init es s) :
    OrderlyInv limits P s :=
  hrun.invariant (P := OrderlyInv limits P)
    ⟨systemInv_init limits, monitorInv_init, h.init⟩ fun t e t' ht ha hstep => by
      rw [← Except.ok.inj hstep]
      refine h.handle ht (hadm t e ha) ?_
      rintro i a rfl
      exact hcond t i a ht ha

end Rule

end WsProxy

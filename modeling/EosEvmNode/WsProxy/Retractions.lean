import EosEvmNode.WsProxy.OrderlyRuns

/-! # Retractions follow announcements

    A fork retracts logs by sending the recorded frames again, and transactions by
    matching the filters of the present subscriptions against the forked block.
    The first only retracts what was sent; the second also reaches subscriptions
    that were not there, or not reached, when the block was appended. -/

namespace WsProxy

open Runs

/-- The frame `f` is the retraction of one that was sent and has not been retracted
    since. -/
def Announced (f : Frame) : List Record → Prop
  | [] => False
  | r :: older =>
      (∃ g ∈ r.frames, g.isRetraction = false ∧ g.retract = f) ∨
        (f ∉ r.frames ∧ Announced f older)

instance decidableAnnounced (f : Frame) : ∀ history, Decidable (Announced f history)
  | [] => inferInstanceAs (Decidable False)
  | _ :: older =>
      have := decidableAnnounced f older
      inferInstanceAs (Decidable (_ ∨ _ ∧ _))

/-- Every retraction follows an announcement. -/
def RetractionsSound (history : List Record) : Prop :=
  ∀ r older, (r :: older) <:+ history →
    ∀ f ∈ r.frames, f.isRetraction = true → Announced f older

/-- The record of the last append of a block. -/
def lastAppend (block : Block) (history : List Record) : Option Record :=
  history.find? fun r => r.event = .appended block

/-- The block has been appended, and not been forked out since. -/
def Standing (block : Block) : List Record → Prop
  | [] => False
  | r :: older =>
      r.event = .appended block ∨ (r.event ≠ .forked block ∧ Standing block older)

/-- **The condition** on a forked block: a `minedTransactions` subscription that
    wants to know of one of its transactions was there when the block was appended,
    and no `logs` filter of that time raised an error on the logs of the block. -/
def ForkAnnounced (s : System) : BlockEvent → Prop
  | .forked block => ∀ sub ∈ s.server.registries.minedTransactionsSubs,
      (∃ tx ∈ block.transactions, txFilterMatch sub.2.filter tx true = true) →
      ∃ r ∈ lastAppend block s.history,
        InsertionMap.has r.registries.minedTransactionsSubs sub.1 = true ∧
          ∀ p ∈ logsPairs r.registries.logsSubs block.logs, raises p = false
  | _ => True

instance (s : System) (e : BlockEvent) : Decidable (ForkAnnounced s e) := by
  unfold ForkAnnounced
  cases e <;> infer_instance

/-- An orderly event that meets it. -/
def Attentive (blockOf : String → Block) (s : System) (e : SystemEvent) : Prop :=
  Orderly blockOf s e ∧ ∀ be ∈ s.emitted e, ForkAnnounced s be

instance (blockOf : String → Block) (s : System) (e : SystemEvent) :
    Decidable (Attentive blockOf s e) :=
  inferInstanceAs (Decidable (_ ∧ _))

/-! ## Frames -/

theorem txFilterMatch_of_removed {filter : Json} {tx : Transaction}
    (h : txFilterMatch filter tx true = true) : txFilterMatch filter tx false = true := by
  rw [txFilterMatch] at h ⊢
  rw [Bool.false_and, if_neg Bool.false_ne_true]
  rcases ite_eq_iff.mp h with ⟨-, hfalse⟩ | ⟨-, hmatch⟩
  · cases hfalse
  · exact hmatch

/-- Two log frames with the same retraction are the same. -/
theorem retract_inj {f g : Frame} {log log' : Log} (hf : f.result = .log log false)
    (hg : g.result = .log log' false) (h : f.retract = g.retract) : f = g := by
  rw [retract_of_log hf, retract_of_log hg] at h
  obtain ⟨ws, subid, block, result⟩ := f
  obtain ⟨ws', subid', block', result'⟩ := g
  obtain rfl : result = .log log false := hf
  obtain rfl : result' = .log log' false := hg
  simpa using h

/-- What was sent for an appended block whose logs raise no error. -/
theorem minedFrame_mem {r : Registries} {sent : LogsSent} {block : Block}
    {sub : SubId × Client} {tx : Transaction} (hsub : sub ∈ r.minedTransactionsSubs)
    (htx : tx ∈ block.transactions) (hmatch : txFilterMatch sub.2.filter tx false = true)
    (hraises : ∀ p ∈ logsPairs r.logsSubs block.logs, raises p = false) :
    minedFrame block false tx sub ∈ (handleBlockEvent r sent (.appended block)).frames := by
  have haborted : (logsLoop block (logsPairs r.logsSubs block.logs)).2 = none := by
    rw [logsLoop_aborted, Option.map_eq_none_iff, List.find?_eq_none]
    intro p hp
    rw [hraises p hp]
    exact Bool.false_ne_true
  refine List.mem_append_right _ ?_
  rw [haborted, if_neg (by simp)]
  exact mem_mined.mpr ⟨tx, htx, sub, hsub, hmatch, rfl⟩

/-! ## The invariant -/

structure SoundInv (window : List Block) (s : System) : Prop where
  recorded : ∀ n, ∀ f ∈ s.logsSent.at n, Announced f.retract s.history
  /-- Transactions of a block are retracted when it is forked out. -/
  forked : ∀ r ∈ s.history, ∀ f ∈ r.frames, ∀ tx hashOnly,
    f.result = .tx tx hashOnly true → r.event = .forked f.block
  announces : ∀ r ∈ s.history, ∀ block, r.event = .appended block →
    ∀ sub ∈ r.registries.minedTransactionsSubs, ∀ tx ∈ block.transactions,
      txFilterMatch sub.2.filter tx false = true →
      (∀ p ∈ logsPairs r.registries.logsSubs block.logs, raises p = false) →
      minedFrame block false tx sub ∈ r.frames
  standing : ∀ block ∈ window, Standing block s.history
  sound : RetractionsSound s.history

/-- A transaction of a standing block is announced where it was matched. -/
theorem announced_of_standing {block : Block} {tx : Transaction}
    {sub : SubId × Client} :
    ∀ {history : List Record},
      (∀ r ∈ history, ∀ f ∈ r.frames, ∀ tx hashOnly,
        f.result = .tx tx hashOnly true → r.event = .forked f.block) →
      (∀ r ∈ history, r.event = .appended block →
        sub ∈ r.registries.minedTransactionsSubs →
        (∀ p ∈ logsPairs r.registries.logsSubs block.logs, raises p = false) →
        minedFrame block false tx sub ∈ r.frames) →
      Standing block history →
      (∃ r ∈ lastAppend block history, sub ∈ r.registries.minedTransactionsSubs ∧
        ∀ p ∈ logsPairs r.registries.logsSubs block.logs, raises p = false) →
      Announced (minedFrame block true tx sub) history := by
  intro history
  induction history with
  | nil => intro _ _ hstanding _; exact hstanding.elim
  | cons r older ih =>
      intro hforked hannounces hstanding hlast
      by_cases hr : r.event = .appended block
      · rw [lastAppend, List.find?_cons_of_pos (by simpa using hr)] at hlast
        obtain ⟨x, hx, hsub, hraises⟩ := hlast
        obtain rfl := Option.some.inj hx
        exact Or.inl ⟨_, hannounces r List.mem_cons_self hr hsub hraises, rfl, rfl⟩
      · rw [lastAppend, List.find?_cons_of_neg (by simpa using hr)] at hlast
        rcases hstanding with hhere | ⟨hne, hstanding⟩
        · exact absurd hhere hr
        · refine Or.inr ⟨?_, ih (fun x hx => hforked x (List.mem_cons_of_mem _ hx))
            (fun x hx => hannounces x (List.mem_cons_of_mem _ hx)) hstanding hlast⟩
          intro hmem
          exact hne (hforked r List.mem_cons_self _ hmem _ _ rfl)

section Kept

variable {toLowerCase : String → String} {limits : Limits} {s : System}

/-- What the record keeps stays announced. -/
theorem SoundInv.recorded_emit {window : List Block} (h : SoundInv window s)
    (hs : SystemInv limits s) (e : BlockEvent) {n : Nat} {f : Frame}
    (hf : f ∈ (s.emit e).logsSent.at n) : Announced f.retract (s.emit e).history := by
  rcases mem_logsSent hf with ⟨hold, hkept⟩ | ⟨block, rfl, -, hnew⟩
  · refine Or.inr ⟨?_, h.recorded n f hold⟩
    intro hmem
    obtain ⟨hn, -, log, hlog⟩ := hs.recorded n f hold
    have hresult : f.retract.result = .log log true := by rw [retract_of_log hlog]
    generalize hg : f.retract = g at hmem hresult
    cases sentFor_of_mem hmem with
    | head block sub hsub => cases hresult
    | log block sub log hsub => cases hresult
    | mined block sub tx hsub => cases hresult
    | retracted block sub tx hsub htx hmatch => cases hresult
    | replayed block f' hf' =>
        obtain ⟨hn', -, log', hlog'⟩ := hs.recorded _ f' hf'
        obtain rfl := retract_inj hlog hlog' hg
        exact hkept block rfl (hn.symm.trans hn')
  · obtain ⟨sub, hsub, log, rfl⟩ := mem_logsLoop_subs hnew
    refine Or.inl ⟨_, ?_, rfl, rfl⟩
    exact List.mem_append_left _ (List.mem_append_right _ hnew)

theorem SoundInv.forked_emit {window : List Block} (h : SoundInv window s)
    (hs : SystemInv limits s) (e : BlockEvent) :
    ∀ r ∈ (s.emit e).history, ∀ f ∈ r.frames, ∀ tx hashOnly,
      f.result = .tx tx hashOnly true → r.event = .forked f.block := by
  intro r hr f hf tx hashOnly hresult
  rcases List.mem_cons.mp hr with rfl | hold
  · cases sentFor_of_mem hf with
    | head block sub hsub => cases hresult
    | log block sub log hsub => cases hresult
    | mined block sub tx hsub => cases hresult
    | retracted block sub tx hsub htx hmatch => rfl
    | replayed block g hg =>
        obtain ⟨log, hlog⟩ := hs.replayed hg
        rw [hlog] at hresult
        cases hresult
  · exact h.forked r hold f hf tx hashOnly hresult

theorem SoundInv.announces_emit {window : List Block} (h : SoundInv window s)
    (e : BlockEvent) :
    ∀ r ∈ (s.emit e).history, ∀ block, r.event = .appended block →
      ∀ sub ∈ r.registries.minedTransactionsSubs, ∀ tx ∈ block.transactions,
        txFilterMatch sub.2.filter tx false = true →
        (∀ p ∈ logsPairs r.registries.logsSubs block.logs, raises p = false) →
        minedFrame block false tx sub ∈ r.frames := by
  intro r hr block hevent sub hsub tx htx hmatch hraises
  rcases List.mem_cons.mp hr with rfl | hold
  · obtain rfl : e = .appended block := hevent
    have hmem : minedFrame block false tx sub
        ∈ (handleBlockEvent s.server.registries s.logsSent (.appended block)).frames :=
      minedFrame_mem hsub htx hmatch hraises
    exact hmem
  · exact h.announces r hold block hevent sub hsub tx htx hmatch hraises

/-- An event that is not the fork of a block leaves it standing. -/
theorem Standing.emit {block : Block} {e : BlockEvent} (h : Standing block s.history)
    (he : e ≠ .forked block) : Standing block (s.emit e).history :=
  Or.inr ⟨he, h⟩

/-- A new record, and the ones before it. -/
theorem RetractionsSound.cons {r : Record} {history : List Record}
    (h : RetractionsSound history)
    (hr : ∀ f ∈ r.frames, f.isRetraction = true → Announced f history) :
    RetractionsSound (r :: history) :=
  forall_suffix_cons h hr

theorem soundInv_kept : Kept toLowerCase limits ForkAnnounced SoundInv where
  init := by
    refine ⟨fun _ _ hf => (by cases hf), fun _ hr => (by cases hr), fun _ hr => (by cases hr),
      fun _ hb => (by cases hb), ?_⟩
    intro r older hsuffix
    exact absurd (List.suffix_nil.mp hsuffix) (List.cons_ne_nil _ _)
  monitor := fun _ _ _ h => ⟨h.recorded, h.forked, h.announces, h.standing, h.sound⟩
  client := fun _ _ _ _ _ h =>
    ⟨h.recorded, h.forked, h.announces, h.standing, h.sound⟩
  clear := fun _ _ _ h =>
    ⟨h.recorded, h.forked, h.announces, fun _ hb => (by cases hb), h.sound⟩
  appended := by
    intro block w s hs hlinked _ h
    refine ⟨fun n f => h.recorded_emit hs _, h.forked_emit hs _, h.announces_emit _, ?_,
      h.sound.cons ?_⟩
    · intro b hb
      rcases List.mem_cons.mp hb with rfl | hmem
      · exact Or.inl rfl
      · exact (h.standing b hmem).emit (fun he => by cases he)
    · intro f hf hretraction
      cases sentFor_of_mem hf with
      | _ => cases hretraction
  forked := by
    intro block w s hs hlinked hcond h
    refine ⟨fun n f => h.recorded_emit hs _, h.forked_emit hs _, h.announces_emit _, ?_,
      h.sound.cons ?_⟩
    · intro b hb
      refine (h.standing b (List.mem_cons_of_mem _ hb)).emit ?_
      intro he
      rw [BlockEvent.forked.inj he] at hlinked
      exact hlinked.not_mem hb
    · intro f hf _
      -- a retraction repeats a recorded log, or a transaction that was announced
      cases sentFor_of_mem hf with
      | replayed _ g hg => exact h.recorded _ g hg
      | retracted _ sub tx hsub htx hmatch =>
          obtain ⟨r, hr, hhas, hraises⟩ := hcond sub hsub ⟨tx, htx, hmatch⟩
          obtain ⟨client, hmem⟩ := InsertionMap.has_eq_true.mp hhas
          have hsame := (hs.same r (List.mem_of_find?_eq_some hr) .minedTransactions _
            hmem).2 .minedTransactions sub hsub rfl
          have hmatch' := txFilterMatch_of_removed hmatch
          exact announced_of_standing h.forked
            (fun x hx hevent hin => h.announces x hx block hevent sub hin tx htx hmatch')
            (h.standing block List.mem_cons_self) ⟨r, hr, hsame ▸ hmem, hraises⟩
  removed := by
    intro block w s hs _ h
    refine ⟨fun n f => h.recorded_emit hs _, h.forked_emit hs _, h.announces_emit _, ?_,
      h.sound.cons fun _ hf => by cases hf⟩
    intro b hb
    exact (h.standing b (List.mem_append_left _ hb)).emit (fun he => by cases he)

end Kept

/-- **Retractions are sound** in every run whose polls do not overlap and whose
    forks meet the condition. -/
theorem retractions_sound {toLowerCase : String → String} {limits : Limits}
    {blockOf : String → Block} {es : List SystemEvent} {s : System}
    (hrun : Reach (systemStep toLowerCase limits) (Attentive blockOf) System.init es s) :
    RetractionsSound s.history :=
  (soundInv_kept.holds (fun _ _ h => h.1)
    (fun _ _ _ _ hadm be hbe => hadm.2 be hbe) hrun).holds.sound

/-! ## A subscription that comes late -/

/-- A client that wants to know of retracted transactions. -/
def plainMinedSubscribe : SystemEvent :=
  .client (.subscribe 1 "a" (plainSubscribe
    [.str "minedTransactions", .obj [("includeRemoved", .bool true)]]))

/-- Another client follows the heads; the poll finds block 9. -/
def plainHeadsNine : List SystemEvent :=
  [.client (.subscribe 2 "b" (plainSubscribe [.str "newHeads"])),
    .timer, .answer 0 (.head (some 10)),
    .answer 0 (.ofBlock (plainBlock 9 "h9" "h8")), .answer 0 (.head (some 10))]

theorem retractions_sound_plain :
    ∃ s, Reach plainSystemStep (Attentive (blockIn plainBlocks)) System.init
        (plainMinedSubscribe :: plainHeadsNine ++ plainForkNine) s ∧
      RetractionsSound s.history := by
  have hcheck : checkRun plainSystemStep (Attentive (blockIn plainBlocks)) System.init
      (plainMinedSubscribe :: plainHeadsNine ++ plainForkNine) = true := by
    decide +kernel
  obtain ⟨s, hs⟩ := exists_reach hcheck
  exact ⟨s, hs, retractions_sound hs⟩

/-- Are the frames of the last event announced? -/
def lastAnnounced (s : System) : Bool :=
  match s.history with
  | [] => true
  | r :: older =>
      decide (∀ f ∈ r.frames, f.isRetraction = true → Announced f older)

/-- A subscription made after block 9 is sent the retraction of its transaction. -/
theorem not_sound_plainLate :
    ¬ ∀ (toLowerCase : String → String) (limits : Limits) (blockOf : String → Block)
      (es : List SystemEvent) (s : System),
      Reach (systemStep toLowerCase limits) (Orderly blockOf) System.init es s →
      RetractionsSound s.history := by
  intro h
  have hcheck : checkRun plainSystemStep (Orderly (blockIn plainBlocks)) System.init
      (plainHeadsNine ++ plainMinedSubscribe :: plainForkNine) = true := by
    decide +kernel
  obtain ⟨s, hs⟩ := exists_reach hcheck
  have hsound := h id ⟨1, 1⟩ (blockIn plainBlocks) _ s hs
  have hlast : lastAnnounced s = false := hs.eval (by decide +kernel)
  rw [lastAnnounced] at hlast
  split at hlast
  · cases hlast
  · next r older hhistory =>
      rw [RetractionsSound, hhistory] at hsound
      exact of_decide_eq_false hlast (hsound r older (List.suffix_refl _))

end WsProxy

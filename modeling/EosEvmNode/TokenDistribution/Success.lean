import EosEvmNode.TokenDistribution.Model

/-! # What success means

    The script says that the tokens are distributed when it leaves the loop.  The nonce
    it looks at is the one of the chain if it was read just before; otherwise it counts
    the batches pushed since, applied or not.  When the last batch is not followed by a
    query, success is true exactly when that batch has been applied.

    Nor does the script know who sent the transactions below the nonce where it starts:
    it takes them for transfers of an earlier run. -/

namespace TokenDistribution

open Runs

/-- The chain has reached the last nonce, and each transfer has been applied once. -/
structure Truthful (rows : List Row) (c : Chain) : Prop where
  nonce : startingNonce + rows.length ≤ c.nonce
  once : ∀ tx ∈ readAccounts rows, c.sent.count tx = 1

/-- What the sender has sent before is the beginning of the list. -/
def Continued (txs : List Transaction) (history : Chain) : Prop :=
  history.sent.take txs.length = txs.take history.sent.length

/-- The batch pushed last has been applied. -/
def State.LastApplied (s : State) : Prop :=
  ∀ actions ∈ s.pushed.getLast?, ∀ tx ∈ actions, tx ∈ s.chain.sent

instance (s : State) : Decidable s.LastApplied :=
  inferInstanceAs
    (Decidable (∀ actions ∈ s.pushed.getLast?, ∀ tx ∈ actions, tx ∈ s.chain.sent))

/-- When the clock ends the loop without a query, the last batch has been applied. -/
def Checked (txs : List Transaction) (s : State) : Event → Prop
  | .clock now =>
      now - s.lastQueryTime < queryTimeout →
        txs.length ≤ s.currentNonce - startingNonce → s.LastApplied
  | _ => True

instance (txs : List Transaction) (s : State) :
    ∀ a, Decidable (Checked txs s a)
  | .query _ => .isTrue trivial
  | .push => .isTrue trivial
  | .clock now =>
      inferInstanceAs (Decidable (now - s.lastQueryTime < queryTimeout →
        txs.length ≤ s.currentNonce - startingNonce → s.LastApplied))
  | .land _ => .isTrue trivial
  | .throw => .isTrue trivial

/-! ## Transfers and the chain -/

section Chains

variable {txs : List Transaction}

/-- In order means exactly once, as the nonces are those of the list. -/
theorem truthful_iff_begins {rows : List Row} {c : Chain} :
    Truthful rows c ↔ readAccounts rows <+: c.sent := by
  have hnumbered := readAccounts_numbered rows
  constructor
  · rintro ⟨hnonce, honce⟩
    have hlength : (readAccounts rows).length ≤ c.sent.length := by
      rw [readAccounts_length]
      exact Nat.le_of_add_le_add_left hnonce
    refine List.prefix_iff_eq_take.mpr (List.ext_getElem (by simp [hlength]) ?_)
    intro k hk _
    have hmem : (readAccounts rows)[k] ∈ c.sent := by
      refine List.count_pos_iff.mp ?_
      rw [honce _ (List.getElem_mem hk)]
      exact Nat.one_pos
    obtain ⟨hk', heq⟩ := c.numbered.getElem_of_mem hmem (hnumbered.nonce hk)
    rw [List.getElem_take]
    exact heq.symm
  · intro hbegins
    constructor
    · rw [← readAccounts_length rows]
      exact Nat.add_le_add_left hbegins.length_le _
    · intro tx htx
      exact List.count_eq_one_of_mem c.numbered.nodup (hbegins.subset htx)

/-- The chain goes on from its history with transfers, in order. -/
def Extends (txs : List Transaction) (history c : Chain) : Prop :=
  ∃ more, c.sent = history.sent ++ more ∧ more <+: txs.drop history.sent.length

theorem extends_refl (history : Chain) : Extends txs history history :=
  ⟨[], (List.append_nil _).symm, List.nil_prefix⟩

/-- A batch that is applied starts where the chain has got to. -/
theorem start_of_applied (htxs : Numbered txs) {c d : Chain} {i : Nat}
    (hi : i < txs.length) (happlied : d.sent = c.sent ++ slice txs i) :
    i = c.sent.length := by
  have hslice : slice txs i = txs[i] :: (txs.drop (i + 1)).take 19 := by
    rw [slice, List.drop_eq_getElem_cons hi]
    rfl
  have hnumbered : Numbered (c.sent ++ txs[i] :: (txs.drop (i + 1)).take 19) := by
    rw [← hslice, ← happlied]
    exact d.numbered
  have hnonce := hnumbered.nonce (k := c.sent.length) (by simp)
  rw [List.getElem_append_right (Nat.le_refl _)] at hnonce
  simp only [Nat.sub_self, List.getElem_cons_zero] at hnonce
  rw [htxs.nonce hi] at hnonce
  omega

/-- A batch that lands goes on where the chain has got to. -/
theorem Extends.apply (htxs : Numbered txs) {history c : Chain} {i : Nat}
    (hi : i < txs.length) (h : Extends txs history c) :
    Extends txs history (c.apply (slice txs i)) := by
  rcases apply_cases c (slice txs i) with hsame | happlied
  · rw [hsame]
    exact h
  · obtain ⟨more, hsent, rest, hrest⟩ := h
    have hstart := start_of_applied htxs hi happlied
    have hslice : slice txs i = rest.take batchSize := by
      rw [slice, hstart, hsent, List.length_append, ← List.drop_drop, ← hrest,
        List.drop_left]
    refine ⟨more ++ slice txs i, by rw [happlied, hsent, List.append_assoc], ?_⟩
    rw [hslice, ← hrest]
    exact (List.prefix_append_right_inj _).mpr (List.take_prefix _ _)

/-- The transfers have all been applied when the chain has got far enough and started
    with transfers. -/
theorem begins_iff {history c : Chain} (h : Extends txs history c) :
    txs <+: c.sent ↔ Continued txs history ∧ txs.length ≤ c.sent.length := by
  obtain ⟨more, hsent, hmore⟩ := h
  constructor
  · intro hbegins
    refine ⟨?_, hbegins.length_le⟩
    have htake : c.sent.take txs.length = txs := (List.prefix_iff_eq_take.mp hbegins).symm
    show history.sent.take txs.length = txs.take history.sent.length
    calc history.sent.take txs.length
        = (c.sent.take history.sent.length).take txs.length := by
          rw [hsent, List.take_left]
      _ = (c.sent.take txs.length).take history.sent.length := by
          rw [List.take_take, List.take_take, Nat.min_comm]
      _ = txs.take history.sent.length := by rw [htake]
  · rintro ⟨hcontinued, hlength⟩
    have hcontinued' : history.sent.take txs.length = txs.take history.sent.length :=
      hcontinued
    rcases Nat.le_total txs.length history.sent.length with hle | hle
    · -- the whole list had been sent before
      rw [List.take_of_length_le hle] at hcontinued'
      rw [hsent, ← hcontinued']
      exact (List.take_prefix _ _).trans (List.prefix_append _ _)
    · rw [List.take_of_length_le hle] at hcontinued'
      have hall : more = txs.drop history.sent.length := by
        refine hmore.eq_of_length_le ?_
        rw [hsent, List.length_append] at hlength
        rw [List.length_drop]
        omega
      have hsame : c.sent = txs := by
        rw [hsent, hall, hcontinued', List.length_take, Nat.min_eq_left hle,
          List.take_append_drop]
      exact hsame ▸ List.prefix_refl _

end Chains

/-! ## The invariant -/

/-- What holds of the script and the chain in every state. -/
structure Inv (txs : List Transaction) (history : Chain) (s : State) : Prop where
  chain : Extends txs history s.chain
  pushed : ∀ actions ∈ s.pushed, ∃ i, i < txs.length ∧ actions = slice txs i
  pushing : s.phase = .pushing → s.currentNonce - startingNonce < txs.length
  /-- What was pushed last ends at the nonce of the script. -/
  checking : s.phase = .checking → ∃ i, i < txs.length ∧
    s.pushed.getLast? = some (slice txs i) ∧
    s.currentNonce - startingNonce ≤ i + batchSize

section Steps

variable {txs : List Transaction} {history : Chain} {s s' : State}

theorem inv_init : Inv txs history (State.init history) where
  chain := extends_refl history
  pushed actions h := absurd h List.not_mem_nil
  pushing h := by cases h
  checking h := by cases h

/-- The condition of the loop. -/
theorem loop_cases (txs : List Transaction) (s : State) :
    (s.currentNonce - startingNonce < txs.length ∧
        s.loop txs = { s with phase := .pushing }) ∨
      (txs.length ≤ s.currentNonce - startingNonce ∧
        s.loop txs = { s with phase := .succeeded }) := by
  unfold State.loop
  by_cases h : s.currentNonce - startingNonce < txs.length
  · rw [if_pos h]
    exact Or.inl ⟨h, rfl⟩
  · rw [if_neg h]
    exact Or.inr ⟨Nat.le_of_not_lt h, rfl⟩

/-- The condition of the loop looks at the nonce only. -/
theorem inv_loop (hchain : Extends txs history s.chain)
    (hpushed : ∀ actions ∈ s.pushed, ∃ i, i < txs.length ∧ actions = slice txs i) :
    Inv txs history (s.loop txs) := by
  rcases loop_cases txs s with ⟨hnonce, heq⟩ | ⟨-, heq⟩
  · rw [heq]
    exact ⟨hchain, hpushed, fun _ => hnonce, fun h => by cases h⟩
  · rw [heq]
    exact ⟨hchain, hpushed, fun h => (by cases h), fun h => by cases h⟩

theorem query_cases {now : Int} (h : s.query txs now = .ok s') :
    s' = (s.resync.queriedAt now).loop txs ∨
      s' = { s.resync with phase := .confirming } := by
  unfold State.query at h
  cases hphase : s.phase with
  | starting =>
      rw [hphase] at h
      exact Or.inl (Except.ok.inj h).symm
  | querying =>
      rw [hphase] at h
      by_cases hend : s.resync.currentNonce - startingNonce = txs.length
      · exact Or.inr (Except.ok.inj ((if_pos hend).symm.trans h)).symm
      · exact Or.inl (Except.ok.inj ((if_neg hend).symm.trans h)).symm
  | confirming =>
      rw [hphase] at h
      exact Or.inl (Except.ok.inj h).symm
  | _ =>
      rw [hphase] at h
      cases h

theorem push_cases (h : s.push txs = .ok s') :
    s.phase = .pushing ∧
      s' = { s with
        pushed := s.pushed ++ [(buildBatch txs s.currentNonce).actions]
        currentNonce := (buildBatch txs s.currentNonce).currentNonce
        phase := .checking } := by
  unfold State.push at h
  cases hphase : s.phase with
  | pushing =>
      rw [hphase] at h
      exact ⟨rfl, (Except.ok.inj h).symm⟩
  | _ =>
      rw [hphase] at h
      cases h

theorem clock_cases {now : Int} (h : s.clock txs now = .ok s') :
    s.phase = .checking ∧
      (s' = { s with phase := .querying } ∨
        (now - s.lastQueryTime < queryTimeout ∧ s' = s.loop txs)) := by
  unfold State.clock at h
  cases hphase : s.phase with
  | checking =>
      rw [hphase] at h
      refine ⟨rfl, ?_⟩
      by_cases hdue : now - s.lastQueryTime ≥ queryTimeout
      · exact Or.inl (Except.ok.inj ((if_pos hdue).symm.trans h)).symm
      · exact Or.inr ⟨Int.lt_of_not_ge hdue,
          (Except.ok.inj ((if_neg hdue).symm.trans h)).symm⟩
  | _ =>
      rw [hphase] at h
      cases h

theorem land_cases {k : Nat} (h : s.land k = .ok s') :
    ∃ actions ∈ s.pushed, s' = { s with chain := s.chain.apply actions } := by
  unfold State.land at h
  cases hk : s.pushed[k]? with
  | none =>
      rw [hk] at h
      cases h
  | some actions =>
      rw [hk] at h
      exact ⟨actions, List.mem_of_getElem? hk, (Except.ok.inj h).symm⟩

/-- A batch is built inside the list, and ends at the nonce of the script. -/
theorem inv_push (h : Inv txs history s) (hs : s.push txs = .ok s') :
    Inv txs history s' := by
  obtain ⟨hphase, rfl⟩ := push_cases hs
  have hi := h.pushing hphase
  have hbatch := buildBatch_eq txs s.currentNonce
  constructor
  · exact h.chain
  · intro actions hactions
    rcases List.mem_append.mp hactions with hold | hnew
    · exact h.pushed actions hold
    · rw [List.mem_singleton.mp hnew, hbatch]
      exact ⟨_, hi, rfl⟩
  · intro hpushing
    cases hpushing
  · intro _
    refine ⟨s.currentNonce - startingNonce, hi, ?_, ?_⟩
    · show (s.pushed ++ [(buildBatch txs s.currentNonce).actions]).getLast? = _
      rw [List.getLast?_concat, hbatch]
    · show (buildBatch txs s.currentNonce).currentNonce - startingNonce ≤ _
      have hroom : (slice txs (s.currentNonce - startingNonce)).length ≤ batchSize :=
        List.length_take_le _ _
      rw [hbatch]
      show s.currentNonce + _ - startingNonce ≤ _
      omega

theorem inv_land (htxs : Numbered txs) (h : Inv txs history s) {k : Nat}
    (hs : s.land k = .ok s') : Inv txs history s' := by
  obtain ⟨actions, hmem, rfl⟩ := land_cases hs
  obtain ⟨i, hi, rfl⟩ := h.pushed actions hmem
  exact ⟨h.chain.apply htxs hi, h.pushed, h.pushing, h.checking⟩

theorem inv_step (htxs : Numbered txs) (h : Inv txs history s) {a : Event}
    (hs : step txs s a = .ok s') : Inv txs history s' := by
  cases a with
  | query now =>
      rcases query_cases hs with rfl | rfl
      · exact inv_loop h.chain h.pushed
      · exact ⟨h.chain, h.pushed, fun hphase => (by cases hphase),
          fun hphase => by cases hphase⟩
  | push => exact inv_push h hs
  | clock now =>
      rcases clock_cases hs with ⟨-, rfl | ⟨-, rfl⟩⟩
      · exact ⟨h.chain, h.pushed, fun hphase => (by cases hphase),
          fun hphase => by cases hphase⟩
      · exact inv_loop h.chain h.pushed
  | land k => exact inv_land htxs h hs
  | throw => cases hs

/-! ## The end of the loop -/

theorem mem_slice {i k : Nat} (hk : k < txs.length) (hle : i ≤ k)
    (hlt : k < i + batchSize) : txs[k] ∈ slice txs i := by
  refine List.mem_iff_getElem.mpr ⟨k - i, ?_, ?_⟩
  · rw [slice, List.length_take, List.length_drop]
    omega
  · simp [slice, Nat.add_sub_cancel' hle]

/-- When the script has counted to the end, the transfers have all been applied if the
    batch pushed last has. -/
theorem begins_iff_lastApplied (htxs : Numbered txs) (h : Inv txs history s)
    (hphase : s.phase = .checking) (hend : txs.length ≤ s.currentNonce - startingNonce) :
    txs <+: s.chain.sent ↔ Continued txs history ∧ s.LastApplied := by
  obtain ⟨i, hi, hlast, hroom⟩ := h.checking hphase
  constructor
  · intro hbegins
    refine ⟨((begins_iff h.chain).mp hbegins).1, fun actions hactions tx htx => ?_⟩
    obtain rfl := Option.some.inj (hlast.symm.trans hactions)
    exact hbegins.subset (List.drop_subset _ _ (List.take_subset _ _ htx))
  · rintro ⟨hcontinued, happlied⟩
    refine (begins_iff h.chain).mpr ⟨hcontinued, ?_⟩
    -- the last transfer of the list is in the last batch
    have hk : txs.length - 1 < txs.length := by omega
    have hmem := happlied _ hlast _ (mem_slice (i := i) hk (by omega) (by omega))
    obtain ⟨hlt, -⟩ := s.chain.numbered.getElem_of_mem hmem (htxs.nonce hk)
    omega

/-- A step that ends the loop. -/
theorem success_step (htxs : Numbered txs) (h : Inv txs history s) {a : Event}
    (hphase : s.phase ≠ .succeeded) (hs : step txs s a = .ok s')
    (hsuccess : s'.phase = .succeeded) :
    txs <+: s'.chain.sent ↔ Continued txs history ∧ Checked txs s a := by
  cases a with
  | query now =>
      rcases query_cases hs with rfl | rfl
      · rcases loop_cases txs (s.resync.queriedAt now) with ⟨-, heq⟩ | ⟨hend, heq⟩
        · rw [heq] at hsuccess
          cases hsuccess
        · have hlength : txs.length ≤ s.chain.sent.length := by
            have hnonce : txs.length ≤ startingNonce + s.chain.sent.length -
                startingNonce := hend
            omega
          rw [heq]
          show txs <+: s.chain.sent ↔ _
          rw [begins_iff h.chain]
          exact and_congr_right fun _ => iff_of_true hlength trivial
      · cases hsuccess
  | push =>
      obtain ⟨-, rfl⟩ := push_cases hs
      cases hsuccess
  | clock now =>
      obtain ⟨hchecking, rfl | ⟨hearly, rfl⟩⟩ := clock_cases hs
      · cases hsuccess
      · rcases loop_cases txs s with ⟨-, heq⟩ | ⟨hend, heq⟩
        · rw [heq] at hsuccess
          cases hsuccess
        · rw [heq]
          show txs <+: s.chain.sent ↔ _
          rw [begins_iff_lastApplied htxs h hchecking hend]
          refine and_congr_right fun _ => ⟨fun happlied _ _ => happlied, ?_⟩
          intro hchecked
          exact hchecked hearly hend
  | land k =>
      obtain ⟨actions, -, rfl⟩ := land_cases hs
      exact absurd hsuccess hphase
  | throw => cases hs

/-- What has been applied stays applied. -/
theorem sent_grows {a : Event} (hs : step txs s a = .ok s') :
    s.chain.sent <+: s'.chain.sent := by
  cases a with
  | query now =>
      rcases query_cases hs with rfl | rfl
      · exact List.prefix_refl _
      · exact List.prefix_refl _
  | push =>
      obtain ⟨-, rfl⟩ := push_cases hs
      exact List.prefix_refl _
  | clock now =>
      obtain ⟨-, rfl | ⟨-, rfl⟩⟩ := clock_cases hs
      · exact List.prefix_refl _
      · exact List.prefix_refl _
  | land k =>
      obtain ⟨actions, -, rfl⟩ := land_cases hs
      show s.chain.sent <+: (s.chain.apply actions).sent
      rcases apply_cases s.chain actions with hsame | happlied
      · have hsent : (s.chain.apply actions).sent = s.chain.sent := congrArg Chain.sent hsame
        exact hsent ▸ List.prefix_refl _
      · rw [happlied]
        exact List.prefix_append _ _
  | throw => cases hs

/-- A run that goes on from transfers and ends its loop on a batch that was applied. -/
theorem begins_of_succeeded (htxs : Numbered txs) (hcontinued : Continued txs history)
    {as : List Event} (h : Reach (step txs) (Checked txs) (State.init history) as s)
    (hsuccess : s.phase = .succeeded) : txs <+: s.chain.sent := by
  have hboth : Inv txs history s ∧ (s.phase = .succeeded → txs <+: s.chain.sent) := by
    refine h.invariant (P := fun s =>
      Inv txs history s ∧ (s.phase = .succeeded → txs <+: s.chain.sent)) ?_ ?_
    · exact ⟨inv_init, fun hphase => by cases hphase⟩
    · rintro t a t' ⟨hinv, hbegins⟩ hchecked hs
      refine ⟨inv_step htxs hinv hs, fun hsuccess => ?_⟩
      by_cases hphase : t.phase = .succeeded
      · exact (hbegins hphase).trans (sent_grows hs)
      · exact (success_step htxs hinv hphase hs hsuccess).mpr ⟨hcontinued, hchecked⟩
  exact hboth.2 hsuccess

theorem inv_of_reach (htxs : Numbered txs) {adm : State → Event → Prop}
    {as : List Event} (h : Reach (step txs) adm (State.init history) as s) :
    Inv txs history s :=
  h.invariant inv_init fun _ _ _ hinv _ hs => inv_step htxs hinv hs

end Steps

/-- **SUCCESS**: it is true in every run that goes on from transfers and ends its loop
    after a query or on a batch that was applied; and whenever the loop ends, success is
    true exactly then. -/
theorem success_truthful (rows : List Row) (history : Chain) :
    (Continued (readAccounts rows) history →
      ∀ as s, Reach (step (readAccounts rows)) (Checked (readAccounts rows))
          (State.init history) as s →
        s.phase = .succeeded → Truthful rows s.chain) ∧
    (∀ as s a s', Reach (step (readAccounts rows)) (fun _ _ => True)
          (State.init history) as s →
        s.phase ≠ .succeeded → step (readAccounts rows) s a = .ok s' →
        s'.phase = .succeeded →
      (Truthful rows s'.chain ↔
        Continued (readAccounts rows) history ∧ Checked (readAccounts rows) s a)) := by
  have htxs := readAccounts_numbered rows
  constructor
  · intro hcontinued as s h hsuccess
    exact truthful_iff_begins.mpr (begins_of_succeeded htxs hcontinued h hsuccess)
  · intro as s a s' h hphase hs hsuccess
    rw [truthful_iff_begins]
    exact success_step htxs (inv_of_reach htxs h) hphase hs hsuccess

/-! ## Two batches -/

/-- One account more than a batch has room for. -/
def manyRows : List Row := List.replicate 21 ⟨['0', 'x', 'a', '1'], 5⟩

/-- The first batch is lost, so that the second one is not applied either.  After the
    next query both are pushed again, and applied. -/
def resyncedRun : List Event :=
  [.query 0, .push, .clock 1000000, .push, .land 1, .clock 11000000, .query 12000000,
    .push, .land 2, .clock 13000000, .push, .land 3, .clock 14000000]

theorem success_truthful_manyRows :
    ∃ s, Reach (step (readAccounts manyRows)) (Checked (readAccounts manyRows))
        (State.init Chain.empty) resyncedRun s ∧
      s.pushed.map List.length = [20, 1, 20, 1] ∧ s.phase = .succeeded ∧
      Truthful manyRows s.chain := by
  have hcheck : checkRun (step (readAccounts manyRows)) (Checked (readAccounts manyRows))
      (State.init Chain.empty) resyncedRun = true := by
    decide +kernel
  obtain ⟨s, hs⟩ := exists_reach hcheck
  have hpushed : s.pushed.map List.length = [20, 1, 20, 1] :=
    hs.eval (f := fun s => s.pushed.map List.length) (by decide +kernel)
  have hphase : s.phase = .succeeded := hs.eval (f := State.phase) (by decide +kernel)
  exact ⟨s, hs, hpushed, hphase,
    (success_truthful manyRows Chain.empty).1 rfl resyncedRun s hs hphase⟩

/-! ## One account -/

def oneRow : List Row := [⟨['0', 'x', 'a', '1'], 5⟩]

/-- The batch is pushed and applied. -/
def appliedRun : List Event := [.query 0, .push, .land 0, .clock 1000000]

/-- The batch is pushed and not applied. -/
def failedRun : List Event := [.query 0, .push, .clock 1000000]

/-- One second after the push the script reports success, and nothing has been
    applied. -/
theorem success_untrue_oneRow :
    ¬ ∀ (rows : List Row) (history : Chain) (as : List Event) (s : State),
      Continued (readAccounts rows) history →
      Reach (step (readAccounts rows)) (fun _ _ => True) (State.init history) as s →
      s.phase = .succeeded → Truthful rows s.chain := by
  intro h
  have hcheck : checkRun (step (readAccounts oneRow)) (fun _ _ => True)
      (State.init Chain.empty) failedRun = true := by
    decide +kernel
  obtain ⟨s, hs⟩ := exists_reach hcheck
  have hphase : s.phase = .succeeded := hs.eval (f := State.phase) (by decide +kernel)
  have hnonce : s.chain.nonce = startingNonce :=
    hs.eval (f := fun s => s.chain.nonce) (by decide +kernel)
  have htruthful := (h oneRow Chain.empty failedRun s rfl hs hphase).nonce
  rw [hnonce] at htruthful
  exact absurd htruthful (by decide)

end TokenDistribution

import EosEvmNode.TokenDistribution.Success

/-! # Starting the script again

    The starting nonce "is used to ensure each transfer is idempotent": whoever starts
    the script again, while an earlier one is still running or after it ended with an
    exception, builds the same transactions with the same nonces.

    * SAFETY: any number of scripts, started at any time, their steps interleaved in any
      way and their batches landing in any order or never, take the chain forward through
      the list and nothing else.
    * PROGRESS: a script that is started on what they left, and whose own batches land
      before it reads the clock, distributes the rest.  The heart is that its count is
      then the nonce of the chain whenever it builds a batch. -/

namespace TokenDistribution

open Runs

/-! ## Several scripts on one chain -/

/-- The chain, and the scripts that have been started.  What a script knows of the chain
    is what is there when it takes a step. -/
structure Fleet where
  chain : Chain
  scripts : List State

def Fleet.start (history : Chain) : Fleet := ⟨history, []⟩

/-- The script, on the chain as it is now. -/
def State.onChain (s : State) (c : Chain) : State := { s with chain := c }

inductive Move where
  /-- The script is started once more. -/
  | launch
  /-- One script takes a step, or one of its batches lands.  After an exception a script
      takes no more steps, but its batches can still land. -/
  | run (i : Nat) (a : Event)
  deriving DecidableEq, Repr

def Fleet.run (txs : List Transaction) (f : Fleet) (i : Nat) (a : Event) :
    Except Failure Fleet :=
  match f.scripts[i]? with
  | none => .error .outOfPlace
  | some s =>
      (step txs (s.onChain f.chain) a).map fun s' => ⟨s'.chain, f.scripts.set i s'⟩

def Fleet.step (txs : List Transaction) (f : Fleet) : Move → Except Failure Fleet
  | .launch => .ok { f with scripts := f.scripts ++ [State.init f.chain] }
  | .run i a => f.run txs i a

/-- What holds of all of them, seen from the chain as it was before the first. -/
structure FleetInv (txs : List Transaction) (history : Chain) (f : Fleet) : Prop where
  chain : Extends txs history f.chain
  scripts : ∀ s ∈ f.scripts, Inv txs history (s.onChain f.chain)

section Safety

variable {txs : List Transaction} {history : Chain} {f f' : Fleet}

theorem run_cases {i : Nat} {a : Event} (h : f.run txs i a = .ok f') :
    ∃ s s', f.scripts[i]? = some s ∧ step txs (s.onChain f.chain) a = .ok s' ∧
      f' = ⟨s'.chain, f.scripts.set i s'⟩ := by
  unfold Fleet.run at h
  cases hi : f.scripts[i]? with
  | none =>
      rw [hi] at h
      cases h
  | some s =>
      rw [hi] at h
      obtain ⟨s', hs, rfl⟩ := map_ok h
      exact ⟨s, s', rfl, hs, rfl⟩

/-- A script says nothing of the chain beyond how it goes on. -/
theorem Inv.onChain {s : State} {c : Chain} (h : Inv txs history s)
    (hchain : Extends txs history c) : Inv txs history (s.onChain c) :=
  ⟨hchain, h.pushed, h.pushing, h.checking⟩

theorem fleetInv_start : FleetInv txs history (Fleet.start history) :=
  ⟨extends_refl history, fun _ hs => absurd hs List.not_mem_nil⟩

theorem fleetInv_step (htxs : Numbered txs) (h : FleetInv txs history f) {m : Move}
    (hm : f.step txs m = .ok f') : FleetInv txs history f' := by
  cases m with
  | launch =>
      rw [← Except.ok.inj hm]
      refine ⟨h.chain, fun s hs => ?_⟩
      rcases List.mem_append.mp hs with hold | hnew
      · exact h.scripts s hold
      · rw [List.mem_singleton.mp hnew]
        show Inv txs history ((State.init history).onChain f.chain)
        exact inv_init.onChain h.chain
  | run i a =>
      obtain ⟨s, s', hi, hs, rfl⟩ := run_cases hm
      have hinv := inv_step htxs (h.scripts s (List.mem_of_getElem? hi)) hs
      refine ⟨hinv.chain, fun t ht => ?_⟩
      rcases List.mem_or_eq_of_mem_set ht with hold | rfl
      · -- the other scripts find the chain as this one left it
        exact (h.scripts t hold).onChain hinv.chain
      · exact hinv

theorem fleetInv_of_reach (htxs : Numbered txs) {ms : List Move}
    (h : Reach (Fleet.step txs) (fun _ _ => True) (Fleet.start history) ms f) :
    FleetInv txs history f :=
  h.invariant fleetInv_start fun _ _ _ hinv _ hm => fleetInv_step htxs hinv hm

/-- A chain that goes on from the beginning of the list has a beginning of it. -/
theorem Continued.extends {c : Chain} (hcontinued : Continued txs history)
    (h : Extends txs history c) : Continued txs c := by
  obtain ⟨more, hsent, hmore⟩ := h
  have hcontinued' : history.sent.take txs.length = txs.take history.sent.length :=
    hcontinued
  show c.sent.take txs.length = txs.take c.sent.length
  rcases Nat.le_total txs.length history.sent.length with hle | hle
  · -- the whole list had been sent before
    rw [hsent, List.take_append_of_le_length hle, hcontinued', List.length_append,
      List.take_of_length_le hle, List.take_of_length_le (by omega)]
  · rw [List.take_of_length_le hle] at hcontinued'
    have hlength : c.sent.length ≤ txs.length := by
      have := hmore.length_le
      rw [List.length_drop] at this
      rw [hsent, List.length_append]
      omega
    have hbegins : c.sent <+: txs := by
      rw [hsent, ← List.take_append_drop history.sent.length txs, ← hcontinued']
      exact (List.prefix_append_right_inj _).mpr hmore
    rw [List.take_of_length_le hlength]
    exact List.prefix_iff_eq_take.mp hbegins

end Safety

/-- **IDEMPOTENCE**: whatever scripts are started, stopped and delayed, the chain goes
    forward through the list, no transfer is applied twice, and a script that ends its
    loop is right exactly when it has just read the nonce or its last batch has been
    applied, whoever sent the transfers. -/
theorem transfers_idempotent (rows : List Row) {history : Chain}
    (hcontinued : Continued (readAccounts rows) history) {ms : List Move} {f : Fleet}
    (h : Reach (Fleet.step (readAccounts rows)) (fun _ _ => True) (Fleet.start history)
      ms f) :
    Extends (readAccounts rows) history f.chain ∧
    Continued (readAccounts rows) f.chain ∧
    (∀ tx ∈ readAccounts rows, f.chain.sent.count tx ≤ 1) ∧
    ∀ (i : Nat) a (s s' : State), f.scripts[i]? = some s → s.phase ≠ .succeeded →
      step (readAccounts rows) (s.onChain f.chain) a = .ok s' →
      s'.phase = .succeeded →
      (Truthful rows s'.chain ↔ Checked (readAccounts rows) (s.onChain f.chain) a) := by
  have htxs := readAccounts_numbered rows
  have hinv := fleetInv_of_reach htxs h
  refine ⟨hinv.chain, hcontinued.extends hinv.chain, ?_, ?_⟩
  · intro tx _
    exact List.nodup_iff_count_le_one.mp f.chain.numbered.nodup tx
  · intro i a s s' hi hphase hs hsuccess
    have hscript := hinv.scripts s (List.mem_of_getElem? hi)
    rw [truthful_iff_begins, success_step htxs hscript hphase hs hsuccess]
    exact and_iff_right hcontinued

theorem continued_empty : Continued (readAccounts oneRow) Chain.empty := rfl

/-- Two scripts with the same list. -/
def twoScripts : List Move :=
  [.launch, .run 0 (.query 0), .run 0 .push, .launch, .run 1 (.query 0), .run 1 .push,
    .run 0 (.land 0), .run 1 (.land 0)]

/-- Both batches land, and the second changes nothing. -/
theorem transfers_idempotent_twoScripts :
    ∃ f, Reach (Fleet.step (readAccounts oneRow)) (fun _ _ => True)
        (Fleet.start Chain.empty) twoScripts f ∧
      f.chain.sent = readAccounts oneRow ∧ Continued (readAccounts oneRow) f.chain := by
  have hcheck : checkRun (Fleet.step (readAccounts oneRow)) (fun _ _ => True)
      (Fleet.start Chain.empty) twoScripts = true := by
    decide +kernel
  obtain ⟨f, hf⟩ := exists_reach hcheck
  exact ⟨f, hf, hf.eval (f := fun f => f.chain.sent) (by decide +kernel),
    (transfers_idempotent oneRow continued_empty hf).2.1⟩

/-! ## A chain that takes the batches -/

/-- The last batch lands before the clock is read, and nothing raises an exception. -/
def Prompt (s : State) : Event → Prop
  | .clock _ => s.LastApplied
  | .land k => s.phase = .checking ∧ ¬ s.LastApplied ∧ k + 1 = s.pushed.length
  | .throw => False
  | _ => True

instance (s : State) : ∀ a, Decidable (Prompt s a)
  | .query _ => .isTrue trivial
  | .push => .isTrue trivial
  | .clock _ => inferInstanceAs (Decidable s.LastApplied)
  | .land k => inferInstanceAs (Decidable
      (s.phase = .checking ∧ ¬ s.LastApplied ∧ k + 1 = s.pushed.length))
  | .throw => .isFalse id

/-- A script whose batches land: its count is the nonce of the chain, up to a batch that
    has just been pushed. -/
structure Solo (txs : List Transaction) (s : State) : Prop where
  continued : Continued txs s.chain
  pushing : s.phase = .pushing →
    s.chain.sent.length < txs.length ∧ s.currentNonce = s.chain.nonce
  checking : s.phase = .checking → ∃ i, i < txs.length ∧
    s.pushed.getLast? = some (slice txs i) ∧
    s.currentNonce = startingNonce + (i + (slice txs i).length) ∧
    (s.chain.sent.length = i ∨ s.chain.sent.length = i + (slice txs i).length)
  succeeded : s.phase = .succeeded → txs.length ≤ s.chain.sent.length

/-- How many steps are left at most.  Five of them take the chain forward by a batch: it is
    pushed, it lands, and the clock and the nonce, twice, are read. -/
def rank (txs : List Transaction) (s : State) : Nat :=
  match s.phase with
  | .starting => 5 * (txs.length - s.chain.sent.length) + 1
  | .pushing => 5 * (txs.length - s.chain.sent.length)
  | .checking =>
      if s.LastApplied then 5 * (txs.length - s.chain.sent.length) + 3
      else 5 * (txs.length - s.chain.sent.length) - 1
  | .querying => 5 * (txs.length - s.chain.sent.length) + 2
  | .confirming => 5 * (txs.length - s.chain.sent.length) + 1
  | .succeeded => 0

section Progress

variable {txs : List Transaction} {s s' : State}

/-- The next transaction is applied. -/
theorem pushtx_next {c : Chain} {tx : Transaction} (h : tx.nonce = c.nonce) :
    ∃ c', c.pushtx tx = some c' := by
  unfold Chain.pushtx
  rw [dif_pos h]
  exact ⟨_, rfl⟩

/-- The next transactions of the list are applied. -/
theorem foldlM_pushtx_next (htxs : Numbered txs) :
    ∀ (room : Nat) {i : Nat} {c : Chain}, c.sent.length = i →
      ∃ c', ((txs.drop i).take room).foldlM Chain.pushtx c = some c' := by
  intro room
  induction room with
  | zero => exact fun _ => ⟨_, rfl⟩
  | succ room ih =>
      intro i c hlength
      by_cases hi : i < txs.length
      · have hnonce : txs[i].nonce = c.nonce := by rw [htxs.nonce hi, Chain.nonce, hlength]
        obtain ⟨d, hpush⟩ := pushtx_next hnonce
        have hd : d.sent.length = i + 1 := by
          rw [pushtx_some hpush, List.length_append, hlength, List.length_singleton]
        obtain ⟨c', hrest⟩ := ih hd
        refine ⟨c', ?_⟩
        rw [List.drop_eq_getElem_cons hi, List.take_succ_cons, List.foldlM_cons, hpush]
        exact hrest
      · rw [List.drop_eq_nil_of_le (Nat.le_of_not_lt hi), List.take_nil]
        exact ⟨c, rfl⟩

/-- The batch that starts where the chain has got to is applied as a whole. -/
theorem apply_next (htxs : Numbered txs) {c : Chain} {i : Nat} (h : c.sent.length = i) :
    (c.apply (slice txs i)).sent = c.sent ++ slice txs i := by
  obtain ⟨c', hc⟩ := foldlM_pushtx_next htxs batchSize h
  have happly : c.apply (slice txs i) = c' := by
    show (List.foldlM Chain.pushtx c ((txs.drop i).take batchSize)).getD c = c'
    rw [hc]
    rfl
  rw [happly]
  exact foldlM_pushtx_some hc

theorem slice_length (txs : List Transaction) (i : Nat) :
    (slice txs i).length = min batchSize (txs.length - i) := by
  rw [slice, List.length_take, List.length_drop]

/-- A batch that has a transaction takes the chain forward. -/
theorem slice_length_pos {i : Nat} (hi : i < txs.length) : 0 < (slice txs i).length := by
  have hroom : 0 < batchSize := by decide
  rw [slice_length]
  omega

theorem slice_end_le {i : Nat} (hi : i < txs.length) :
    i + (slice txs i).length ≤ txs.length := by
  rw [slice_length]
  omega

/-- A batch is what the list has up to its end. -/
theorem slice_eq (txs : List Transaction) (i : Nat) :
    slice txs i = (txs.take (i + (slice txs i).length)).drop i := by
  rw [List.drop_take, Nat.add_sub_cancel_left, slice_length, slice, ← List.length_drop]
  exact List.take_eq_take_min

/-- Whether the last batch has landed can be seen from the length of the chain. -/
theorem lastApplied_iff (htxs : Numbered txs) (hcontinued : Continued txs s.chain) {i : Nat}
    (hi : i < txs.length) (hlast : s.pushed.getLast? = some (slice txs i))
    (hlength : s.chain.sent.length = i ∨
      s.chain.sent.length = i + (slice txs i).length) :
    s.LastApplied ↔ s.chain.sent.length = i + (slice txs i).length := by
  have hend := slice_end_le hi
  constructor
  · intro happlied
    refine hlength.resolve_left fun hbefore => ?_
    have hroom : i < i + batchSize := by
      show i < i + 20
      omega
    have hmem : txs[i] ∈ s.chain.sent :=
      happlied _ hlast _ (mem_slice hi (Nat.le_refl i) hroom)
    obtain ⟨hlt, -⟩ := s.chain.numbered.getElem_of_mem hmem (htxs.nonce hi)
    omega
  · intro hafter actions hactions tx htx
    obtain rfl := Option.some.inj (hlast.symm.trans hactions)
    have hcontinued' : s.chain.sent.take txs.length = txs.take s.chain.sent.length :=
      hcontinued
    refine List.take_subset txs.length _ ?_
    rw [hcontinued', hafter]
    rw [slice_eq] at htx
    exact List.drop_subset _ _ htx

/-- A chain that has not reached the end has more steps ahead than the batches need. -/
theorem query_lower {now : Int} (h : s.query txs now = .ok s') :
    5 * (txs.length - s.chain.sent.length) < rank txs s ∧
    (s' = (s.resync.queriedAt now).loop txs ∨
      s' = { s.resync with phase := .confirming } ∧
        5 * (txs.length - s.chain.sent.length) + 1 < rank txs s) := by
  unfold State.query at h
  unfold rank
  cases hphase : s.phase with
  | starting =>
      rw [hphase] at h
      exact ⟨Nat.lt_succ_self _, Or.inl (Except.ok.inj h).symm⟩
  | querying =>
      rw [hphase] at h
      refine ⟨by show _ < _ + 2; omega, ?_⟩
      by_cases hend : s.resync.currentNonce - startingNonce = txs.length
      · exact Or.inr ⟨(Except.ok.inj ((if_pos hend).symm.trans h)).symm, Nat.lt_succ_self _⟩
      · exact Or.inl (Except.ok.inj ((if_neg hend).symm.trans h)).symm
  | confirming =>
      rw [hphase] at h
      exact ⟨Nat.lt_succ_self _, Or.inl (Except.ok.inj h).symm⟩
  | _ =>
      rw [hphase] at h
      cases h

/-- The condition of the loop, at the nonce of the chain. -/
theorem solo_loop (hcontinued : Continued txs s.chain)
    (hnonce : s.currentNonce = s.chain.nonce) :
    Solo txs (s.loop txs) ∧
      rank txs (s.loop txs) ≤ 5 * (txs.length - s.chain.sent.length) := by
  have hsent : s.currentNonce - startingNonce = s.chain.sent.length := by
    rw [hnonce]
    exact Nat.add_sub_cancel_left _ _
  rcases loop_cases txs s with ⟨hbelow, heq⟩ | ⟨hend, heq⟩
  · rw [hsent] at hbelow
    rw [heq]
    exact ⟨⟨hcontinued, fun _ => ⟨hbelow, hnonce⟩, fun h => (by cases h),
      fun h => by cases h⟩, Nat.le_refl _⟩
  · rw [hsent] at hend
    rw [heq]
    exact ⟨⟨hcontinued, fun h => (by cases h), fun h => (by cases h), fun _ => hend⟩,
      Nat.zero_le _⟩

theorem solo_query (h : Solo txs s) {now : Int} (hs : s.query txs now = .ok s') :
    Solo txs s' ∧ rank txs s' < rank txs s := by
  obtain ⟨hlower, rfl | ⟨rfl, hconfirming⟩⟩ := query_lower hs
  · obtain ⟨hsolo, hrank⟩ :=
      solo_loop (s := s.resync.queriedAt now) h.continued rfl
    exact ⟨hsolo, Nat.lt_of_le_of_lt hrank hlower⟩
  · exact ⟨⟨h.continued, fun h => (by cases h), fun h => (by cases h),
      fun h => by cases h⟩, hconfirming⟩

theorem rank_pushing (hphase : s.phase = .pushing) :
    rank txs s = 5 * (txs.length - s.chain.sent.length) := by
  unfold rank
  rw [hphase]

theorem rank_pending (hphase : s.phase = .checking) (hpending : ¬ s.LastApplied) :
    rank txs s = 5 * (txs.length - s.chain.sent.length) - 1 := by
  unfold rank
  rw [hphase]
  exact if_neg hpending

theorem rank_applied (hphase : s.phase = .checking) (happlied : s.LastApplied) :
    rank txs s = 5 * (txs.length - s.chain.sent.length) + 3 := by
  unfold rank
  rw [hphase]
  exact if_pos happlied

/-- A batch is built where the chain has got to. -/
theorem solo_push (htxs : Numbered txs) (h : Solo txs s) (hs : s.push txs = .ok s') :
    Solo txs s' ∧ rank txs s' < rank txs s := by
  obtain ⟨hphase, hs'⟩ := push_cases hs
  obtain ⟨hi, hnonce⟩ := h.pushing hphase
  have hbatch := buildBatch_eq txs s.currentNonce
  have hstart : s.currentNonce - startingNonce = s.chain.sent.length := by
    rw [hnonce]
    exact Nat.add_sub_cancel_left _ _
  rw [hstart] at hbatch
  have hphase' : s'.phase = .checking := by rw [hs']
  have hchain' : s'.chain = s.chain := by rw [hs']
  have hlast' : s'.pushed.getLast? = some (slice txs s.chain.sent.length) := by
    rw [hs', hbatch]
    exact List.getLast?_concat
  have hnonce' : s'.currentNonce =
      startingNonce + (s.chain.sent.length + (slice txs s.chain.sent.length).length) := by
    rw [hs', hbatch, ← Nat.add_assoc]
    exact congrArg (· + _) hnonce
  have hcontinued' : Continued txs s'.chain := hchain' ▸ h.continued
  have hlength' : s'.chain.sent.length = s.chain.sent.length := by rw [hchain']
  have hpos := slice_length_pos hi
  constructor
  · refine ⟨hcontinued', fun h => ?_, fun _ => ?_, fun h => ?_⟩
    · exact absurd (hphase'.symm.trans h) (by decide)
    · exact ⟨_, hi, hlast', hnonce', Or.inl hlength'⟩
    · exact absurd (hphase'.symm.trans h) (by decide)
  · have hpending : ¬ s'.LastApplied := by
      intro happlied
      have hlanded :=
        (lastApplied_iff htxs hcontinued' hi hlast' (Or.inl hlength')).mp happlied
      omega
    rw [rank_pending hphase' hpending, rank_pushing hphase, hlength']
    omega

/-- The batch has landed: the count is right when it is compared. -/
theorem solo_clock (htxs : Numbered txs) (h : Solo txs s) (happlied : s.LastApplied)
    {now : Int} (hs : s.clock txs now = .ok s') :
    Solo txs s' ∧ rank txs s' < rank txs s := by
  obtain ⟨hphase, hcases⟩ := clock_cases hs
  rw [rank_applied hphase happlied]
  rcases hcases with rfl | ⟨-, rfl⟩
  · exact ⟨⟨h.continued, fun h => (by cases h), fun h => (by cases h),
      fun h => by cases h⟩, Nat.lt_succ_self _⟩
  · obtain ⟨i, hi, hlast, hnonce, hlength⟩ := h.checking hphase
    have hlanded := (lastApplied_iff htxs h.continued hi hlast hlength).mp happlied
    rw [← hlanded] at hnonce
    obtain ⟨hsolo, hlower⟩ := solo_loop h.continued hnonce
    exact ⟨hsolo, by omega⟩

/-- What is not there yet is the batch that starts where the chain has got to. -/
theorem start_of_pending (htxs : Numbered txs) (h : Solo txs s)
    (hphase : s.phase = .checking) (hpending : ¬ s.LastApplied) :
    s.chain.sent.length < txs.length ∧
      s.pushed.getLast? = some (slice txs s.chain.sent.length) ∧
      s.currentNonce = startingNonce +
        (s.chain.sent.length + (slice txs s.chain.sent.length).length) := by
  obtain ⟨i, hi, hlast, hnonce, hlength⟩ := h.checking hphase
  obtain rfl : s.chain.sent.length = i := by
    refine hlength.resolve_right fun hafter => hpending ?_
    exact (lastApplied_iff htxs h.continued hi hlast hlength).mpr hafter
  exact ⟨hi, hlast, hnonce⟩

theorem solo_land (htxs : Numbered txs) (h : Solo txs s) {k : Nat}
    (hprompt : Prompt s (.land k)) (hs : s.land k = .ok s') :
    Solo txs s' ∧ rank txs s' < rank txs s := by
  obtain ⟨hphase, hpending, hk⟩ := hprompt
  obtain ⟨hi, hlast, hnonce⟩ := start_of_pending htxs h hphase hpending
  have hbatch : s.pushed[k]? = some (slice txs s.chain.sent.length) := by
    rw [← hlast, List.getLast?_eq_getElem?, ← hk, Nat.add_sub_cancel]
  have hs' : s' = { s with chain := s.chain.apply (slice txs s.chain.sent.length) } := by
    unfold State.land at hs
    rw [hbatch] at hs
    exact (Except.ok.inj hs).symm
  have hphase' : s'.phase = .checking := by rw [hs', hphase]
  have hlast' : s'.pushed.getLast? = some (slice txs s.chain.sent.length) := by
    rw [hs', hlast]
  have hcontinued' : Continued txs s'.chain := by
    rw [hs']
    exact h.continued.extends ((extends_refl s.chain).apply htxs hi)
  have hlength' : s'.chain.sent.length =
      s.chain.sent.length + (slice txs s.chain.sent.length).length := by
    rw [hs']
    show (s.chain.apply _).sent.length = _
    rw [apply_next htxs rfl, List.length_append]
  have hpos := slice_length_pos hi
  have hend := slice_end_le hi
  constructor
  · refine ⟨hcontinued', fun h => ?_, fun _ => ?_, fun h => ?_⟩
    · exact absurd (hphase'.symm.trans h) (by decide)
    · exact ⟨_, hi, hlast', by rw [hs']; exact hnonce, Or.inr hlength'⟩
    · exact absurd (hphase'.symm.trans h) (by decide)
  · have happlied : s'.LastApplied :=
      (lastApplied_iff htxs hcontinued' hi hlast' (Or.inr hlength')).mpr hlength'
    rw [rank_applied hphase' happlied, rank_pending hphase hpending]
    omega

/-- Every step of such a script brings it nearer to the end. -/
theorem solo_step (htxs : Numbered txs) (h : Solo txs s) {a : Event} (hprompt : Prompt s a)
    (hs : step txs s a = .ok s') : Solo txs s' ∧ rank txs s' < rank txs s := by
  cases a with
  | query now => exact solo_query h hs
  | push => exact solo_push htxs h hs
  | clock now => exact solo_clock htxs h hprompt hs
  | land k => exact solo_land htxs h hprompt hs
  | throw => exact hprompt.elim

theorem solo_init {history : Chain} (hcontinued : Continued txs history) :
    Solo txs (State.init history) :=
  ⟨hcontinued, fun h => (by cases h), fun h => (by cases h), fun h => by cases h⟩

theorem query_enabled (txs : List Transaction)
    (hphase : s.phase = .starting ∨ s.phase = .querying ∨ s.phase = .confirming) :
    ∃ s', s.query txs 0 = .ok s' := by
  unfold State.query
  rcases hphase with hphase | hphase | hphase
  · rw [hphase]
    exact ⟨_, rfl⟩
  · rw [hphase]
    by_cases hend : s.resync.currentNonce - startingNonce = txs.length
    · exact ⟨_, if_pos hend⟩
    · exact ⟨_, if_neg hend⟩
  · rw [hphase]
    exact ⟨_, rfl⟩

/-- A script that has not left its loop goes on. -/
theorem solo_enabled (htxs : Numbered txs) (h : Solo txs s) (hphase : s.phase ≠ .succeeded) :
    ∃ a s', Prompt s a ∧ step txs s a = .ok s' := by
  cases hs : s.phase with
  | starting =>
      obtain ⟨s', hs'⟩ := query_enabled txs (Or.inl hs)
      exact ⟨.query 0, s', trivial, hs'⟩
  | pushing =>
      have hpush : ∃ s', s.push txs = .ok s' := by
        unfold State.push
        rw [hs]
        exact ⟨_, rfl⟩
      obtain ⟨s', hs'⟩ := hpush
      exact ⟨.push, s', trivial, hs'⟩
  | checking =>
      by_cases happlied : s.LastApplied
      · refine ⟨.clock s.lastQueryTime, s.loop txs, happlied, ?_⟩
        show s.clock txs s.lastQueryTime = _
        unfold State.clock
        rw [hs]
        refine if_neg ?_
        rw [Int.sub_self]
        decide
      · obtain ⟨-, hlast, -⟩ := start_of_pending htxs h hs happlied
        rw [List.getLast?_eq_getElem?] at hlast
        have hpushed : 0 < s.pushed.length := by
          obtain ⟨hlt, -⟩ := List.getElem?_eq_some_iff.mp hlast
          omega
        have hland : ∃ s', s.land (s.pushed.length - 1) = .ok s' := by
          unfold State.land
          rw [hlast]
          exact ⟨_, rfl⟩
        obtain ⟨s', hs'⟩ := hland
        exact ⟨.land (s.pushed.length - 1), s',
          ⟨hs, happlied, Nat.sub_add_cancel hpushed⟩, hs'⟩
  | querying =>
      obtain ⟨s', hs'⟩ := query_enabled txs (Or.inr (Or.inl hs))
      exact ⟨.query 0, s', trivial, hs'⟩
  | confirming =>
      obtain ⟨s', hs'⟩ := query_enabled txs (Or.inr (Or.inr hs))
      exact ⟨.query 0, s', trivial, hs'⟩
  | succeeded => exact absurd hs hphase

end Progress

/-- **PROGRESS**: started on a chain that any number of scripts have left behind, a
    script whose batches land goes on until it leaves its loop, after at most five steps
    for each transfer that is missing, and then every transfer has been applied, once.
    No clock that it may read changes that. -/
theorem restart_completes (rows : List Row) {history : Chain}
    (hcontinued : Continued (readAccounts rows) history) {ms : List Move} {f : Fleet}
    (hf : Reach (Fleet.step (readAccounts rows)) (fun _ _ => True) (Fleet.start history)
      ms f) {as : List Event} {s : State}
    (h : Reach (step (readAccounts rows)) Prompt (State.init f.chain) as s) :
    as.length ≤ 5 * (rows.length - f.chain.sent.length) + 1 ∧
    (s.phase = .succeeded → Truthful rows s.chain) ∧
    (s.phase ≠ .succeeded → ∃ a s', Prompt s a ∧ step (readAccounts rows) s a = .ok s') := by
  have htxs := readAccounts_numbered rows
  have hbegun : Continued (readAccounts rows) f.chain :=
    hcontinued.extends (fleetInv_of_reach htxs hf).chain
  obtain ⟨hsolo, hbound⟩ := h.length_le (rank (readAccounts rows)) (solo_init hbegun)
    fun _ _ _ hsolo hprompt hs => solo_step htxs hsolo hprompt hs
  have hinit : rank (readAccounts rows) (State.init f.chain) =
      5 * (rows.length - f.chain.sent.length) + 1 := by
    rw [← readAccounts_length rows]
    rfl
  refine ⟨by omega, fun hsuccess => ?_, solo_enabled htxs hsolo⟩
  rw [truthful_iff_begins, begins_iff (extends_refl s.chain)]
  exact ⟨hsolo.continued, hsolo.succeeded hsuccess⟩

theorem eq_empty {c : Chain} (h : c.sent = []) : c = Chain.empty := by
  obtain ⟨sent, hnumbered⟩ := c
  obtain rfl : sent = [] := h
  rfl

/-- A script has pushed its batch and gone. -/
def leftBehind : List Move := [.launch, .run 0 (.query 0), .run 0 .push]

/-- The next one pushes the same batch, and it lands. -/
theorem restart_completes_oneRow :
    ∃ f s, Reach (Fleet.step (readAccounts oneRow)) (fun _ _ => True)
        (Fleet.start Chain.empty) leftBehind f ∧
      Reach (step (readAccounts oneRow)) Prompt (State.init f.chain) appliedRun s ∧
      appliedRun.length ≤ 6 ∧ s.phase = .succeeded ∧ Truthful oneRow s.chain := by
  have hcheck : checkRun (Fleet.step (readAccounts oneRow)) (fun _ _ => True)
      (Fleet.start Chain.empty) leftBehind = true := by
    decide +kernel
  obtain ⟨f, hf⟩ := exists_reach hcheck
  have hsent : f.chain.sent = [] :=
    hf.eval (f := fun f => f.chain.sent) (by decide +kernel)
  have hchain : f.chain = Chain.empty := eq_empty hsent
  have hrun : checkRun (step (readAccounts oneRow)) Prompt (State.init Chain.empty)
      appliedRun = true := by
    decide +kernel
  rw [← hchain] at hrun
  obtain ⟨s, hs⟩ := exists_reach hrun
  have hphase : s.phase = .succeeded := by
    rw [hchain] at hs
    exact hs.eval (f := State.phase) (by decide +kernel)
  obtain ⟨hbound, hsuccess, -⟩ := restart_completes oneRow continued_empty hf hs
  rw [hsent] at hbound
  exact ⟨f, s, hf, hs, hbound, hphase, hsuccess hphase⟩

end TokenDistribution

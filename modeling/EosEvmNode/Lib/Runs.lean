import Mathlib.Data.List.Basic
import Mathlib.Logic.Relation

/-! # Runs of a step function that may fail

    A component is a state type, an input type and a step function into
    `Except`.  `feed` runs it over a list of inputs and stops at the first
    failure; `Reach` is the same run as a relation, with a side condition
    `adm` on every input, which is what an environment promises.

    The rules below are the only way the developments on top use runs: an
    invariant is proved for one step and holds of every reachable state. -/

namespace Runs

variable {σ τ α β ε : Type}

/-- A call that succeeds hands its result on. -/
theorem ok_bind (a : α) (f : α → Except ε β) : (Except.ok a >>= f) = f a := rfl

/-- What a successful bind computed on the way. -/
theorem bind_ok {x : Except ε α} {f : α → Except ε β} {r : β}
    (h : (x >>= f) = .ok r) : ∃ a, x = .ok a ∧ f a = .ok r := by
  cases x with
  | error e => cases h
  | ok a => exact ⟨a, rfl, h⟩

/-- What was mapped when a map succeeds. -/
theorem map_ok {x : Except ε α} {f : α → β} {r : β} (h : x.map f = .ok r) :
    ∃ a, x = .ok a ∧ f a = r := by
  cases x with
  | error e => cases h
  | ok a => exact ⟨a, rfl, Except.ok.inj h⟩

/-- A failure that neither part of a bind raises is not raised. -/
theorem bind_ne_error {x : Except ε α} {f : α → Except ε β} {err : ε}
    (hx : x ≠ .error err) (hf : ∀ a, x = .ok a → f a ≠ .error err) :
    (x >>= f) ≠ .error err := by
  cases x with
  | error e =>
      intro h
      have he : e = err := Except.error.inj h
      exact hx (he ▸ rfl)
  | ok a => exact hf a rfl

/-- A failure no call raises is not raised by a loop over calls. -/
theorem foldlM_ne_error {f : σ → α → Except ε σ} {err : ε}
    (hf : ∀ s a, f s a ≠ .error err) :
    ∀ (as : List α) (s : σ), as.foldlM f s ≠ .error err := by
  intro as
  induction as with
  | nil => intro s h; cases h
  | cons a as ih =>
      intro s
      rw [List.foldlM_cons]
      exact bind_ne_error (hf s a) (fun s' _ => ih s')

/-- A change of state that the step function carries along is carried along by
    a loop. -/
theorem foldlM_map {f : σ → α → Except ε σ} {g : σ → σ}
    (hf : ∀ s a, f (g s) a = (f s a).map g) :
    ∀ (as : List α) (s : σ), as.foldlM f (g s) = (as.foldlM f s).map g := by
  intro as
  induction as with
  | nil => intro s; rfl
  | cons a as ih =>
      intro s
      rw [List.foldlM_cons, List.foldlM_cons, hf]
      cases f s a with
      | error e => rfl
      | ok s' => exact ih s'

/-- Run the step function over the inputs, in order. -/
def feed (step : σ → α → Except ε σ) (s : σ) (as : List α) : Except ε σ :=
  as.foldlM step s

@[simp] theorem feed_nil (step : σ → α → Except ε σ) (s : σ) :
    feed step s [] = .ok s := rfl

theorem feed_cons (step : σ → α → Except ε σ) (s : σ) (a : α) (as : List α) :
    feed step s (a :: as) = step s a >>= fun s' => feed step s' as := by
  rw [feed, List.foldlM_cons]
  rfl

/-- A run over two batches is a run over the first, then over the second. -/
theorem feed_append (step : σ → α → Except ε σ) (s : σ) (as bs : List α) :
    feed step s (as ++ bs) = feed step s as >>= fun s' => feed step s' bs := by
  rw [feed, List.foldlM_append]
  rfl

/-- Splitting a successful run at its last input. -/
theorem feed_concat_ok {step : σ → α → Except ε σ} {s s' : σ} {as : List α}
    {a : α} :
    feed step s (as ++ [a]) = .ok s' ↔
      ∃ t, feed step s as = .ok t ∧ step t a = .ok s' := by
  rw [feed_append]
  constructor
  · intro h
    obtain ⟨t, ht, hs⟩ := bind_ok h
    rw [feed_cons] at hs
    obtain ⟨u, hu, hs'⟩ := bind_ok hs
    have hus : u = s' := Except.ok.inj hs'
    exact ⟨t, ht, hus ▸ hu⟩
  · rintro ⟨t, ht, hs⟩
    rw [ht]
    show feed step t [a] = .ok s'
    rw [feed_cons, hs]
    rfl

/-- The states reached from `init` by admissible inputs, none of which made
    the step function fail. -/
inductive Reach (step : σ → α → Except ε σ) (adm : σ → α → Prop) (init : σ) :
    List α → σ → Prop where
  | start : Reach step adm init [] init
  | step {as : List α} {s s' : σ} {a : α} :
      Reach step adm init as s → adm s a → step s a = .ok s' →
      Reach step adm init (as ++ [a]) s'

variable {step : σ → α → Except ε σ} {adm : σ → α → Prop} {init : σ}

/-- **The invariant rule**: what holds initially and is preserved by every
    admissible step holds in every reachable state. -/
theorem Reach.invariant {P : σ → Prop} (h0 : P init)
    (hstep : ∀ s a s', P s → adm s a → step s a = .ok s' → P s')
    {as : List α} {s : σ} (h : Reach step adm init as s) : P s := by
  induction h with
  | start => exact h0
  | step _ hadm hs ih => exact hstep _ _ _ ih hadm hs

/-- A reachable state is the result of feeding its inputs. -/
theorem Reach.feed_eq {as : List α} {s : σ} (h : Reach step adm init as s) :
    feed step init as = .ok s := by
  induction h with
  | start => rfl
  | step _ _ hs ih => exact feed_concat_ok.mpr ⟨_, ih, hs⟩

/-- What a run computes, by evaluation. -/
theorem Reach.eval {f : σ → β} {b : β} {as : List α} {s : σ}
    (h : Reach step adm init as s) (hf : (feed step init as).map f = .ok b) :
    f s = b := by
  rw [h.feed_eq] at hf
  exact Except.ok.inj hf

/-- The inputs determine the state. -/
theorem Reach.unique {adm' : σ → α → Prop} {as : List α} {s s' : σ}
    (h : Reach step adm init as s) (h' : Reach step adm' init as s') : s = s' :=
  Except.ok.inj (h.feed_eq.symm.trans h'.feed_eq)

/-- The last step of a run. -/
theorem Reach.last {as : List α} {a : α} {s' : σ}
    (h : Reach step adm init (as ++ [a]) s') :
    ∃ s, Reach step adm init as s ∧ adm s a ∧ step s a = .ok s' := by
  generalize hbs : as ++ [a] = bs at h
  cases h with
  | start => exact absurd hbs (by simp)
  | step hreach hadm hs =>
      obtain ⟨rfl, ha⟩ := List.append_inj' hbs rfl
      obtain rfl := List.singleton_inj.mp ha
      exact ⟨_, hreach, hadm, hs⟩

/-- Runs compose. -/
theorem Reach.trans {as bs : List α} {s t : σ} (h : Reach step adm init as s)
    (h' : Reach step adm s bs t) : Reach step adm init (as ++ bs) t := by
  induction h' with
  | start => rwa [List.append_nil]
  | step _ hadm hs ih =>
      rw [← List.append_assoc]
      exact Reach.step ih hadm hs

/-- A stronger environment only has runs of the weaker one. -/
theorem Reach.mono {adm' : σ → α → Prop} (hadm : ∀ s a, adm s a → adm' s a)
    {as : List α} {s : σ} (h : Reach step adm init as s) :
    Reach step adm' init as s := by
  induction h with
  | start => exact .start
  | step _ ha hs ih => exact Reach.step ih (hadm _ _ ha) hs

/-- The inputs of a run are the delivered ones. -/
theorem Reach.delivered {as : List α} {s : σ} (h : Reach step adm init as s) :
    Reach step (fun _ a => a ∈ as) init as s := by
  induction h with
  | start => exact .start
  | step _ _ hs ih =>
      refine .step (ih.mono ?_) (List.mem_append_right _ List.mem_cons_self) hs
      intro _ x hx
      exact List.mem_append_left _ hx

/-- A run, without its inputs. -/
theorem Reach.reflTransGen {as : List α} {s : σ} (h : Reach step adm init as s) :
    Relation.ReflTransGen (fun s s' => ∃ a, adm s a ∧ step s a = .ok s') init s := by
  induction h with
  | start => exact .refl
  | step _ hadm hs ih => exact ih.tail ⟨_, hadm, hs⟩

/-- **Runs without a choice come to rest in one state**: where no state admits two
    inputs, a state that admits none is the end of every run that goes on to such a
    state. -/
theorem Reach.eq_of_rest (hone : ∀ s a b, adm s a → adm s b → a = b) {as bs : List α}
    {s t : σ} (h : Reach step adm init as s) (h' : Reach step adm init bs t)
    (hs : ∀ a, ¬ adm s a) (ht : ∀ a, ¬ adm t a) : s = t := by
  have hunique : Relator.RightUnique (fun s s' => ∃ a, adm s a ∧ step s a = .ok s') := by
    rintro u v w ⟨a, ha, hv⟩ ⟨b, hb, hw⟩
    rw [hone u a b ha hb, hw] at hv
    exact (Except.ok.inj hv).symm
  have hrest : ∀ {u v : σ}, (∀ a, ¬ adm u a) →
      Relation.ReflTransGen (fun s s' => ∃ a, adm s a ∧ step s a = .ok s') u v → u = v := by
    intro u v hu hreach
    rcases hreach.cases_head with heq | ⟨w, ⟨a, ha, -⟩, -⟩
    · exact heq
    · exact absurd ha (hu a)
  rcases Relation.ReflTransGen.total_of_right_unique hunique h.reflTransGen h'.reflTransGen
    with hst | hts
  · exact hrest hs hst
  · exact (hrest ht hts).symm

/-- **The ranking rule**: where every admissible step from an invariant keeps it and
    lowers a rank, a run is no longer than the rank it started with. -/
theorem Reach.length_le {P : σ → Prop} (rank : σ → Nat) (h0 : P init)
    (hstep : ∀ s a s', P s → adm s a → step s a = .ok s' → P s' ∧ rank s' < rank s)
    {as : List α} {s : σ} (h : Reach step adm init as s) :
    P s ∧ as.length + rank s ≤ rank init := by
  induction h with
  | start => exact ⟨h0, Nat.le_of_eq (Nat.zero_add _)⟩
  | step _ hadm hs ih =>
      obtain ⟨hP, hlower⟩ := hstep _ _ _ ih.1 hadm hs
      have hbound := ih.2
      refine ⟨hP, ?_⟩
      rw [List.length_append, List.length_singleton]
      omega

/-- **The simulation rule**: where every admissible step of one machine is matched by
    an admissible step of another one, or by none, its runs are matched by runs. -/
theorem Reach.simulate {ε' : Type} {step' : τ → β → Except ε' τ} {adm' : τ → β → Prop}
    {init' : τ} {R : σ → τ → Prop} (h0 : R init init')
    (hstep : ∀ s t a s', R s t → adm s a → step s a = .ok s' →
      R s' t ∨ ∃ b t', adm' t b ∧ step' t b = .ok t' ∧ R s' t')
    {as : List α} {s : σ} (h : Reach step adm init as s) :
    ∃ bs t, Reach step' adm' init' bs t ∧ R s t := by
  induction h with
  | start => exact ⟨[], init', .start, h0⟩
  | step _ hadm hs ih =>
      obtain ⟨bs, t, hrun, hR⟩ := ih
      rcases hstep _ t _ _ hR hadm hs with hsame | ⟨b, t', hb, ht, hnext⟩
      · exact ⟨bs, t, hrun, hsame⟩
      · exact ⟨bs ++ [b], t', hrun.step hb ht, hnext⟩

/-- The inputs are admissible where they arrive, as long as the machine has
    accepted those before them. -/
def Offered (step : σ → α → Except ε σ) (adm : σ → α → Prop) :
    σ → List α → Prop
  | _, [] => True
  | s, a :: as => adm s a ∧ ∀ s', step s a = .ok s' → Offered step adm s' as

/-- One more input is offered: it is admissible if the machine accepts those before
    it. -/
theorem Offered.concat {as : List α} {a : α} :
    ∀ {s : σ}, Offered step adm s as →
      (∀ s', feed step s as = .ok s' → adm s' a) → Offered step adm s (as ++ [a]) := by
  induction as with
  | nil => exact fun _ hlast => ⟨hlast _ rfl, fun _ _ => trivial⟩
  | cons b as ih =>
      rintro s ⟨hadm, hrest⟩ hlast
      refine ⟨hadm, fun s' hs => ih (hrest s' hs) ?_⟩
      intro t ht
      refine hlast t ?_
      rw [feed_cons, hs]
      exact ht

/-- **The progress rule**: where an invariant makes every admissible step
    succeed and is preserved, admissible inputs are accepted. -/
theorem Offered.total {P : σ → Prop}
    (hstep : ∀ s a, P s → adm s a → ∃ s', step s a = .ok s' ∧ P s') :
    ∀ {as : List α} {s : σ}, P s → Offered step adm s as →
      ∃ s', feed step s as = .ok s' ∧ P s' := by
  intro as
  induction as with
  | nil => intro s hs _; exact ⟨s, rfl, hs⟩
  | cons a as ih =>
      rintro s hs ⟨hadm, hrest⟩
      obtain ⟨t, ht, hP⟩ := hstep s a hs hadm
      obtain ⟨s', hs', hP'⟩ := ih hP (hrest t ht)
      refine ⟨s', ?_, hP'⟩
      rw [feed_cons, ht]
      exact hs'

/-- Does the machine accept these inputs, all of them admissible? -/
def checkRun (step : σ → α → Except ε σ) (adm : σ → α → Prop)
    [∀ s a, Decidable (adm s a)] : σ → List α → Bool
  | _, [] => true
  | s, a :: as =>
      decide (adm s a) &&
        match step s a with
        | .ok s' => checkRun step adm s' as
        | .error _ => false

/-- An accepted list of inputs is a run. -/
theorem exists_reach [∀ s a, Decidable (adm s a)] :
    ∀ {as : List α} {s : σ}, checkRun step adm s as = true →
      ∃ t, Reach step adm s as t := by
  intro as
  induction as with
  | nil => intro s _; exact ⟨s, .start⟩
  | cons a as ih =>
      intro s h
      rw [checkRun, Bool.and_eq_true, decide_eq_true_eq] at h
      obtain ⟨hadm, h⟩ := h
      cases hs : step s a with
      | error e => rw [hs] at h; cases h
      | ok s' =>
          rw [hs] at h
          obtain ⟨t, ht⟩ := ih h
          have hfirst : Reach step adm s ([] ++ [a]) s' := .step .start hadm hs
          exact ⟨t, hfirst.trans ht⟩

/-- An accepted list of inputs is a run over its first part, then over the rest. -/
theorem exists_reach_append [∀ s a, Decidable (adm s a)] {bs : List α} :
    ∀ {as : List α} {s : σ}, checkRun step adm s (as ++ bs) = true →
      ∃ t u, Reach step adm s as t ∧ Reach step adm t bs u := by
  intro as
  induction as with
  | nil =>
      intro s h
      obtain ⟨u, hu⟩ := exists_reach h
      exact ⟨s, u, .start, hu⟩
  | cons a as ih =>
      intro s h
      rw [List.cons_append, checkRun, Bool.and_eq_true, decide_eq_true_eq] at h
      obtain ⟨hadm, h⟩ := h
      cases hs : step s a with
      | error e => rw [hs] at h; cases h
      | ok s' =>
          rw [hs] at h
          obtain ⟨t, u, ht, hu⟩ := ih h
          have hfirst : Reach step adm s ([] ++ [a]) s' := .step .start hadm hs
          exact ⟨t, u, hfirst.trans ht, hu⟩

/-- Inputs that pass the check are offered. -/
theorem offered_of_checkRun [∀ s a, Decidable (adm s a)] :
    ∀ {as : List α} {s : σ}, checkRun step adm s as = true →
      Offered step adm s as := by
  intro as
  induction as with
  | nil => intro s _; exact trivial
  | cons a as ih =>
      intro s h
      rw [checkRun, Bool.and_eq_true, decide_eq_true_eq] at h
      refine ⟨h.1, ?_⟩
      intro s' hs
      rw [hs] at h
      exact ih h.2

end Runs

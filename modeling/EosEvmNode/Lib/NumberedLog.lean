import Mathlib.Data.List.Chain
import Mathlib.Data.List.Nodup

/-! # Logs of numbered entries

    A writer publishes numbered entries and may go back: an entry takes the place of
    every earlier one with its number or a higher one.  A reader keeps what has not
    been replaced.  Logs and views are kept newest first.

    When the numbers of a log go up by one at most, its view is a run of consecutive
    numbers, and what was published last under a number up to the newest one is in
    it. -/

namespace NumberedLog

variable {α : Type} {num : α → Nat}

/-- What a reader of the log holds. -/
def view (num : α → Nat) : List α → List α
  | [] => []
  | x :: older => x :: (view num older).filter (fun y => num y < num x)

@[simp] theorem view_nil : view num [] = [] := rfl

theorem view_cons (x : α) (older : List α) :
    view num (x :: older) = x :: (view num older).filter (fun y => num y < num x) :=
  rfl

theorem mem_view_cons {x y : α} {older : List α} :
    y ∈ view num (x :: older) ↔ y = x ∨ (y ∈ view num older ∧ num y < num x) := by
  rw [view_cons, List.mem_cons, List.mem_filter, decide_eq_true_eq]

/-- The newest entry is held. -/
theorem head?_view (log : List α) : (view num log).head? = log.head? := by
  cases log with
  | nil => rfl
  | cons x older => rfl

/-- What is held has been published. -/
theorem mem_of_mem_view {log : List α} {y : α} (h : y ∈ view num log) : y ∈ log := by
  induction log with
  | nil => cases h
  | cons x older ih =>
      rcases mem_view_cons.mp h with rfl | ⟨hold, -⟩
      · exact List.mem_cons_self
      · exact List.mem_cons_of_mem _ (ih hold)

/-- The numbers fall from each entry to every older one. -/
theorem pairwise_view (log : List α) :
    (view num log).Pairwise (fun x y => num y < num x) := by
  induction log with
  | nil => exact List.Pairwise.nil
  | cons x older ih =>
      rw [view_cons, List.pairwise_cons]
      constructor
      · intro y hy
        simpa using (List.mem_filter.mp hy).2
      · exact ih.filter _

/-- A number is held once. -/
theorem eq_of_num {log : List α} {x y : α} (hx : x ∈ view num log)
    (hy : y ∈ view num log) (hnum : num x = num y) : x = y := by
  refine List.inj_on_of_nodup_map (f := num) ?_ hx hy hnum
  refine List.pairwise_map.mpr ((pairwise_view log).imp ?_)
  intro a b hab
  omega

/-- **What is held** is what no later entry has replaced. -/
theorem mem_view_iff {y : α} : ∀ {log : List α},
    y ∈ view num log ↔
      ∃ newer older, log = newer ++ y :: older ∧ ∀ z ∈ newer, num y < num z := by
  intro log
  induction log with
  | nil => simp
  | cons x rest ih =>
      rw [mem_view_cons]
      constructor
      · rintro (rfl | ⟨hrest, hlt⟩)
        · exact ⟨[], rest, rfl, fun z hz => (by cases hz)⟩
        · obtain ⟨newer, older, rfl, hnewer⟩ := ih.mp hrest
          refine ⟨x :: newer, older, rfl, ?_⟩
          intro z hz
          rcases List.mem_cons.mp hz with rfl | hz
          · exact hlt
          · exact hnewer z hz
      · rintro ⟨newer, older, hlog, hnewer⟩
        cases newer with
        | nil => exact Or.inl (List.cons.inj hlog).1.symm
        | cons z newer =>
            obtain ⟨rfl, rfl⟩ := List.cons.inj hlog
            exact Or.inr ⟨ih.mpr ⟨newer, older, rfl,
              fun w hw => hnewer w (List.mem_cons_of_mem _ hw)⟩,
              hnewer x List.mem_cons_self⟩

/-- Entries above a number leave what is held up to it alone. -/
theorem mem_view_append {log : List α} {y : α} {newer : List α}
    (hnewer : ∀ z ∈ newer, num y < num z) :
    y ∈ view num (newer ++ log) ↔ y ∈ view num log := by
  induction newer with
  | nil => rfl
  | cons x newer ih =>
      have hlt := hnewer x List.mem_cons_self
      rw [List.cons_append, mem_view_cons,
        ih (fun z hz => hnewer z (List.mem_cons_of_mem _ hz))]
      constructor
      · rintro (rfl | ⟨hy, -⟩)
        · omega
        · exact hy
      · exact fun hy => Or.inr ⟨hy, hlt⟩

/-- The newest entries are held as long as their numbers fall. -/
theorem mem_view_of_falling {l older : List α}
    (h : l.Pairwise (fun x y => num y < num x)) {y : α} (hy : y ∈ l) :
    y ∈ view num (l ++ older) := by
  induction l with
  | nil => cases hy
  | cons x l ih =>
      obtain ⟨hx, hl⟩ := List.pairwise_cons.mp h
      rw [List.cons_append, mem_view_cons]
      rcases List.mem_cons.mp hy with rfl | hmem
      · exact Or.inl rfl
      · exact Or.inr ⟨ih hl hmem, hx y hmem⟩

/-- What is held is one of the newest entries, or was held before and is below all of
    them. -/
theorem mem_view_append_cases {l older : List α} {y : α}
    (h : y ∈ view num (l ++ older)) :
    y ∈ l ∨ (y ∈ view num older ∧ ∀ z ∈ l, num y < num z) := by
  induction l with
  | nil => exact Or.inr ⟨h, fun _ hz => by cases hz⟩
  | cons x l ih =>
      rw [List.cons_append, mem_view_cons] at h
      rcases h with rfl | ⟨hheld, hlt⟩
      · exact Or.inl List.mem_cons_self
      · rcases ih hheld with hmem | ⟨hold, hbelow⟩
        · exact Or.inl (List.mem_cons_of_mem _ hmem)
        · refine Or.inr ⟨hold, ?_⟩
          intro z hz
          rcases List.mem_cons.mp hz with rfl | hmem
          · exact hlt
          · exact hbelow z hmem

/-! ## Logs without gaps -/

/-- The numbers go up by one at most. -/
def Gapless (num : α → Nat) (log : List α) : Prop :=
  log.IsChain (fun later earlier => num later ≤ num earlier + 1)

/-- Cutting falling numbers leaves the older entries. -/
theorem filter_suffix {l : List α} (h : l.Pairwise (fun x y => num y < num x)) (n : Nat) :
    l.filter (fun y => num y < n) <:+ l := by
  induction l with
  | nil => exact List.suffix_refl _
  | cons y l ih =>
      obtain ⟨hlt, htail⟩ := List.pairwise_cons.mp h
      by_cases hy : num y < n
      · have hall : (y :: l).filter (fun y => num y < n) = y :: l := by
          rw [List.filter_eq_self]
          intro z hz
          rw [decide_eq_true_eq]
          rcases List.mem_cons.mp hz with rfl | hz
          · exact hy
          · exact Nat.lt_trans (hlt z hz) hy
        exact ⟨[], hall⟩
      · rw [List.filter_cons_of_neg (by simpa using hy)]
        exact (ih htail).trans (List.suffix_cons _ _)

/-- A run of consecutive numbers that reaches up to below `n` is cut just below
    `n`. -/
theorem head?_filter {n : Nat} : ∀ {l : List α},
    l.IsChain (fun y z => num y = num z + 1) → (∀ y ∈ l.head?, n ≤ num y + 1) →
    ∀ z ∈ (l.filter (fun y => num y < n)).head?, n = num z + 1 := by
  intro l
  induction l with
  | nil => exact fun _ _ z hz => (by cases hz)
  | cons y l ih =>
      intro hchain hle z hz
      have hn : n ≤ num y + 1 := hle y rfl
      obtain ⟨hstep, htail⟩ := List.isChain_cons.mp hchain
      by_cases hlt : num y < n
      · rw [List.filter_cons_of_pos (by simpa using hlt)] at hz
        obtain rfl := Option.some.inj hz
        omega
      · rw [List.filter_cons_of_neg (by simpa using hlt)] at hz
        refine ih htail ?_ z hz
        intro w hw
        have := hstep w hw
        omega

/-- **The view of a log without gaps** is a run of consecutive numbers. -/
theorem Gapless.view_consecutive : ∀ {log : List α}, Gapless num log →
    (view num log).IsChain (fun x y => num x = num y + 1) := by
  intro log
  induction log with
  | nil => exact fun _ => List.isChain_nil
  | cons x older ih =>
      intro h
      obtain ⟨hstep, hold⟩ := List.isChain_cons.mp h
      rw [view_cons, List.isChain_cons]
      refine ⟨?_, (ih hold).suffix (filter_suffix (pairwise_view older) _)⟩
      refine head?_filter (ih hold) ?_
      intro y hy
      rw [head?_view] at hy
      exact hstep y hy

/-- Of the entries under a number that is not above the newest one, the last is
    held. -/
theorem Gapless.mem_view_of_find? {k : Nat} {x : α} : ∀ {log : List α},
    Gapless num log → (∀ y ∈ log.head?, k ≤ num y) →
    log.find? (fun y => num y = k) = some x → x ∈ view num log := by
  intro log
  induction log with
  | nil => exact fun _ _ h => (by cases h)
  | cons y older ih =>
      intro h hle hfind
      have hky : k ≤ num y := hle y rfl
      obtain ⟨hstep, hold⟩ := List.isChain_cons.mp h
      by_cases heq : num y = k
      · rw [List.find?_cons_of_pos (by simpa using heq)] at hfind
        obtain rfl := Option.some.inj hfind
        exact List.mem_cons_self
      · rw [List.find?_cons_of_neg (by simpa using heq)] at hfind
        have hx : num x = k := by simpa using List.find?_some hfind
        refine mem_view_cons.mpr (Or.inr ⟨ih hold ?_ hfind, by omega⟩)
        intro z hz
        have := hstep z hz
        omega

/-- What is held is what was published last under its number. -/
theorem find?_of_mem_view {log : List α} {x : α} (h : x ∈ view num log) :
    log.find? (fun y => num y = num x) = some x := by
  obtain ⟨newer, older, rfl, hnewer⟩ := mem_view_iff.mp h
  have hnone : newer.find? (fun y => num y = num x) = none := by
    rw [List.find?_eq_none]
    intro y hy
    have := hnewer y hy
    simp only [decide_eq_true_eq]
    omega
  rw [List.find?_append, hnone, Option.none_or]
  exact List.find?_cons_of_pos (by simp)

/-- **Neighbours in the view**: what relates every entry of the log to the one
    published last before it under the number before relates neighbours. -/
theorem Gapless.isChain_view {R : α → α → Prop} : ∀ {log : List α},
    Gapless num log →
    (∀ x older, (x :: older) <:+ log → ∀ y, num x = num y + 1 →
      older.find? (fun z => num z = num y) = some y → R x y) →
    (view num log).IsChain R := by
  intro log
  induction log with
  | nil => exact fun _ _ => List.isChain_nil
  | cons x older ih =>
      intro h hR
      have hold : Gapless num older := (List.isChain_cons.mp h).2
      have hcons := h.view_consecutive
      rw [view_cons, List.isChain_cons] at hcons ⊢
      constructor
      · intro y hy
        have hmem := (List.mem_filter.mp (List.mem_of_head? hy)).1
        exact hR x older (List.suffix_refl _) y (hcons.1 y hy) (find?_of_mem_view hmem)
      · refine (ih hold ?_).suffix (filter_suffix (pairwise_view older) _)
        exact fun z zs hz => hR z zs (hz.trans (List.suffix_cons _ _))

end NumberedLog

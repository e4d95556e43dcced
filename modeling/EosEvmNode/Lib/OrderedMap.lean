import Mathlib.Data.List.Induction
import Mathlib.Data.List.Pairwise
import Mathlib.Order.Lattice
import Mathlib.Tactic.Common

/-! # Ordered maps

    A map as the list of its entries in key order, with the one operation
    `std::map::operator[]` followed by an assignment: the value of a key is
    replaced or a new entry is put in its place.  The first laws hold for any list
    of entries, in order or not.  A map filled by a series of assignments
    (`assignAll`) is in key order and holds the entries that no later assignment
    to the same key has replaced (`lastOfKeys`). -/

namespace OrderedMap

variable {κ α : Type} [LinearOrder κ]

/-- `m[k] = v`. -/
def assign (k : κ) (v : α) : List (κ × α) → List (κ × α)
  | [] => [(k, v)]
  | (k', v') :: rest =>
      if k < k' then (k, v) :: (k', v') :: rest
      else if k = k' then (k, v) :: rest
      else (k', v') :: assign k v rest

theorem mem_assign_self (k : κ) (v : α) :
    ∀ m : List (κ × α), (k, v) ∈ assign k v m := by
  intro m
  induction m with
  | nil => exact List.mem_singleton_self _
  | cons entry rest ih =>
      obtain ⟨k', v'⟩ := entry
      rw [assign]
      by_cases hlt : k < k'
      · rw [if_pos hlt]
        exact List.mem_cons_self
      · rw [if_neg hlt]
        by_cases heq : k = k'
        · rw [if_pos heq]
          exact List.mem_cons_self
        · rw [if_neg heq]
          exact List.mem_cons_of_mem _ ih

/-- Entries of other keys stay. -/
theorem mem_assign_of_ne {k k' : κ} {v v' : α} (hne : k' ≠ k) :
    ∀ {m : List (κ × α)}, (k', v') ∈ m → (k', v') ∈ assign k v m := by
  intro m
  induction m with
  | nil => intro h; cases h
  | cons entry rest ih =>
      intro h
      obtain ⟨k₁, v₁⟩ := entry
      rw [assign]
      by_cases hlt : k < k₁
      · rw [if_pos hlt]
        exact List.mem_cons_of_mem _ h
      · rw [if_neg hlt]
        rcases List.mem_cons.mp h with heq | hmem
        · obtain ⟨rfl, rfl⟩ := Prod.mk.inj heq
          rw [if_neg (Ne.symm hne)]
          exact List.mem_cons_self
        · by_cases heq : k = k₁
          · rw [if_pos heq]
            exact List.mem_cons_of_mem _ hmem
          · rw [if_neg heq]
            exact List.mem_cons_of_mem _ (ih hmem)

/-- Nothing else comes in. -/
theorem eq_or_mem_of_mem_assign {k : κ} {v : α} {entry : κ × α} :
    ∀ {m : List (κ × α)}, entry ∈ assign k v m → entry = (k, v) ∨ entry ∈ m := by
  intro m
  induction m with
  | nil =>
      intro h
      exact Or.inl (List.mem_singleton.mp h)
  | cons first rest ih =>
      intro h
      obtain ⟨k₁, v₁⟩ := first
      rw [assign] at h
      by_cases hlt : k < k₁
      · rw [if_pos hlt] at h
        exact List.mem_cons.mp h
      · rw [if_neg hlt] at h
        by_cases heq : k = k₁
        · rw [if_pos heq] at h
          rcases List.mem_cons.mp h with h | h
          · exact Or.inl h
          · exact Or.inr (List.mem_cons_of_mem _ h)
        · rw [if_neg heq] at h
          rcases List.mem_cons.mp h with rfl | h
          · exact Or.inr List.mem_cons_self
          · rcases ih h with h | h
            · exact Or.inl h
            · exact Or.inr (List.mem_cons_of_mem _ h)

/-- The last assignment to a key counts. -/
theorem assign_assign_self (k : κ) (v v' : α) :
    ∀ m : List (κ × α), assign k v (assign k v' m) = assign k v m := by
  intro m
  induction m with
  | nil => simp [assign]
  | cons entry rest ih =>
      obtain ⟨k₁, v₁⟩ := entry
      rw [assign, assign]
      by_cases hlt : k < k₁
      · simp [hlt, assign]
      · by_cases heq : k = k₁
        · subst heq
          simp [assign]
        · simp [hlt, heq, assign, ih]

/-- Assignments to different keys can be exchanged. -/
theorem assign_comm {k k' : κ} (hne : k ≠ k') (v v' : α) :
    ∀ m : List (κ × α),
      assign k v (assign k' v' m) = assign k' v' (assign k v m) := by
  intro m
  induction m with
  | nil =>
      rcases lt_or_gt_of_ne hne with hlt | hlt
      · simp [assign, hlt, not_lt_of_gt hlt, hne.symm]
      · simp [assign, hlt, not_lt_of_gt hlt, hne]
  | cons entry rest ih =>
      obtain ⟨k₁, v₁⟩ := entry
      -- the three keys can be ordered in any way
      grind [assign]

/-! ## A series of assignments -/

/-- The entries are in key order, each key once. -/
def Ordered (m : List (κ × α)) : Prop := m.Pairwise (fun x y => x.1 < y.1)

theorem Ordered.assign {k : κ} {v : α} :
    ∀ {m : List (κ × α)}, Ordered m → Ordered (assign k v m) := by
  intro m
  induction m with
  | nil => intro _; exact List.pairwise_singleton _ _
  | cons entry rest ih =>
      intro h
      obtain ⟨k', v'⟩ := entry
      obtain ⟨hlt, hrest⟩ := List.pairwise_cons.mp h
      rw [OrderedMap.assign]
      by_cases hk : k < k'
      · rw [if_pos hk]
        refine List.pairwise_cons.mpr ⟨?_, h⟩
        intro x hx
        rcases List.mem_cons.mp hx with rfl | hmem
        · exact hk
        · exact lt_trans hk (hlt x hmem)
      · rw [if_neg hk]
        by_cases heq : k = k'
        · rw [if_pos heq]
          exact List.pairwise_cons.mpr ⟨heq ▸ hlt, hrest⟩
        · rw [if_neg heq]
          refine List.pairwise_cons.mpr ⟨?_, ih hrest⟩
          intro x hx
          rcases eq_or_mem_of_mem_assign hx with rfl | hmem
          · exact lt_of_le_of_ne (not_lt.mp hk) (Ne.symm heq)
          · exact hlt x hmem

/-- An assignment takes the place of the old entry of its key. -/
theorem Ordered.assign_perm {k : κ} {v : α} :
    ∀ {m : List (κ × α)}, Ordered m →
      (OrderedMap.assign k v m).Perm (m.filter (fun x => x.1 ≠ k) ++ [(k, v)]) := by
  intro m
  induction m with
  | nil => intro _; exact List.Perm.refl _
  | cons entry rest ih =>
      intro h
      obtain ⟨k', v'⟩ := entry
      obtain ⟨hlt, hrest⟩ := List.pairwise_cons.mp h
      rw [OrderedMap.assign]
      by_cases hk : k < k'
      · -- every key is above `k`
        have hall : ((k', v') :: rest).filter (fun x => x.1 ≠ k)
            = (k', v') :: rest := by
          refine List.filter_eq_self.mpr ?_
          intro x hx
          rcases List.mem_cons.mp hx with rfl | hmem
          · simpa using ne_of_gt hk
          · simpa using ne_of_gt (lt_trans hk (hlt x hmem))
        rw [if_pos hk, hall]
        exact (List.perm_append_singleton _ _).symm
      · rw [if_neg hk]
        by_cases heq : k = k'
        · subst heq
          -- the only entry with that key is replaced
          have hall : rest.filter (fun x => x.1 ≠ k) = rest := by
            refine List.filter_eq_self.mpr ?_
            intro x hx
            simpa using ne_of_gt (hlt x hx)
          rw [if_pos rfl, List.filter_cons_of_neg (by simp), hall]
          exact (List.perm_append_singleton _ _).symm
        · -- the entry lies further on
          have hne : k' ≠ k := Ne.symm heq
          rw [if_neg heq, List.filter_cons_of_pos (by simpa using hne)]
          exact (ih hrest).cons _

/-- The map filled by assigning the entries one after the other. -/
def assignAll (entries : List (κ × α)) : List (κ × α) :=
  entries.foldl (fun m entry => assign entry.1 entry.2 m) []

/-- The entries without those whose key is assigned again later. -/
def lastOfKeys (entries : List (κ × α)) : List (κ × α) :=
  entries.pwFilter (fun x y => x.1 ≠ y.1)

theorem assignAll_concat (entries : List (κ × α)) (entry : κ × α) :
    assignAll (entries ++ [entry]) = assign entry.1 entry.2 (assignAll entries) := by
  rw [assignAll, List.foldl_append]
  rfl

theorem assignAll_ordered (entries : List (κ × α)) : Ordered (assignAll entries) := by
  induction entries using List.reverseRecOn with
  | nil => exact List.Pairwise.nil
  | append_singleton entries entry ih =>
      rw [assignAll_concat]
      exact ih.assign

/-- A later entry is either of another key or replaces the first. -/
theorem forall_mem_lastOfKeys {x : κ × α} {entries : List (κ × α)} :
    (∀ y ∈ lastOfKeys entries, x.1 ≠ y.1) ↔ ∀ y ∈ entries, x.1 ≠ y.1 := by
  refine List.forall_mem_pwFilter (fun {a b c} hac => ?_) x entries
  by_cases hab : a.1 = b.1
  · exact Or.inr (hab ▸ hac)
  · exact Or.inl hab

theorem lastOfKeys_cons (x : κ × α) (entries : List (κ × α)) :
    lastOfKeys (x :: entries)
      = if ∀ y ∈ entries, x.1 ≠ y.1 then x :: lastOfKeys entries
        else lastOfKeys entries := by
  by_cases h : ∀ y ∈ entries, x.1 ≠ y.1
  · rw [if_pos h]
    exact List.pwFilter_cons_of_pos (forall_mem_lastOfKeys.mpr h)
  · rw [if_neg h]
    exact List.pwFilter_cons_of_neg (fun hall => h (forall_mem_lastOfKeys.mp hall))

theorem lastOfKeys_concat (entry : κ × α) :
    ∀ entries : List (κ × α), lastOfKeys (entries ++ [entry])
      = (lastOfKeys entries).filter (fun x => x.1 ≠ entry.1) ++ [entry] := by
  intro entries
  induction entries with
  | nil => rfl
  | cons x entries ih =>
      rw [List.cons_append, lastOfKeys_cons, lastOfKeys_cons, ih]
      have hsplit : (∀ y ∈ entries ++ [entry], x.1 ≠ y.1) ↔
          (∀ y ∈ entries, x.1 ≠ y.1) ∧ x.1 ≠ entry.1 := by
        simp [or_imp, forall_and]
      by_cases hlater : ∀ y ∈ entries, x.1 ≠ y.1
      · by_cases hlast : x.1 ≠ entry.1
        · rw [if_pos (hsplit.mpr ⟨hlater, hlast⟩), if_pos hlater,
            List.filter_cons_of_pos (by simpa using hlast), List.cons_append]
        · rw [if_neg (fun h => hlast (hsplit.mp h).2), if_pos hlater,
            List.filter_cons_of_neg (by simpa using hlast)]
      · rw [if_neg (fun h => hlater (hsplit.mp h).1), if_neg hlater]

/-- **What a series of assignments leaves**: the last entry of every key. -/
theorem assignAll_perm (entries : List (κ × α)) :
    (assignAll entries).Perm (lastOfKeys entries) := by
  induction entries using List.reverseRecOn with
  | nil => exact List.Perm.refl _
  | append_singleton entries entry ih =>
      rw [assignAll_concat, lastOfKeys_concat]
      exact ((assignAll_ordered entries).assign_perm).trans
        ((ih.filter _).append_right _)

/-- Nothing of a kind is replaced when its entries share their key with no later
    entry, and only then. -/
theorem filter_lastOfKeys_eq_iff {p : κ × α → Bool} :
    ∀ {entries : List (κ × α)},
      (lastOfKeys entries).filter p = entries.filter p ↔
        entries.Pairwise (fun x y => p x = true → x.1 ≠ y.1) := by
  intro entries
  induction entries with
  | nil => exact iff_of_true rfl List.Pairwise.nil
  | cons x entries ih =>
      rw [lastOfKeys_cons, List.pairwise_cons, ← ih]
      by_cases hlater : ∀ y ∈ entries, x.1 ≠ y.1
      · -- the first entry is kept, and counts if it is of the kind
        rw [if_pos hlater]
        have hx : ∀ y ∈ entries, p x = true → x.1 ≠ y.1 :=
          fun y hy _ => hlater y hy
        by_cases hp : p x = true
        · rw [List.filter_cons_of_pos hp, List.filter_cons_of_pos hp]
          exact ⟨fun h => ⟨hx, (List.cons.inj h).2⟩, fun h => by rw [h.2]⟩
        · rw [List.filter_cons_of_neg hp, List.filter_cons_of_neg hp]
          exact ⟨fun h => ⟨hx, h⟩, fun h => h.2⟩
      · rw [if_neg hlater]
        by_cases hp : p x = true
        · rw [List.filter_cons_of_pos hp]
          constructor
          · -- the replaced entry is missing
            intro h
            have hsub : (lastOfKeys entries).Sublist entries :=
              List.pwFilter_sublist entries
            have hle := (hsub.filter p).length_le
            rw [h, List.length_cons] at hle
            omega
          · rintro ⟨hx, -⟩
            exact absurd (fun y hy => hx y hy hp) hlater
        · rw [List.filter_cons_of_neg hp]
          exact ⟨fun h => ⟨fun y _ hpx => absurd hpx hp, h⟩, fun h => h.2⟩

/-- Under one key the last entry is left. -/
theorem filter_key_lastOfKeys (k : κ) (entries : List (κ × α)) :
    (lastOfKeys entries).filter (fun x => x.1 = k)
      = (entries.filter (fun x => x.1 = k)).getLast?.toList := by
  induction entries using List.reverseRecOn with
  | nil => rfl
  | append_singleton entries entry ih =>
      rw [lastOfKeys_concat, List.filter_append, List.filter_append, List.filter_filter]
      by_cases hk : entry.1 = k
      · -- the last entry has the key, and the others of its key are dropped
        rw [List.filter_cons_of_pos (by simpa using hk), List.filter_nil,
          List.getLast?_concat, Option.toList_some]
        have hnone : (lastOfKeys entries).filter
            (fun x => decide (x.1 = k) && decide (x.1 ≠ entry.1)) = [] := by
          rw [List.filter_eq_nil_iff]
          intro x _
          simp [hk]
        rw [hnone]
        rfl
      · rw [List.filter_cons_of_neg (by simpa using hk), List.filter_nil,
          List.append_nil, List.append_nil, ← ih]
        refine List.filter_congr ?_
        intro x _
        by_cases hx : x.1 = k
        · simp [hx, Ne.symm hk]
        · simp [hx]

end OrderedMap

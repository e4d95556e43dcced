import Mathlib.Data.List.Basic
import Mathlib.Data.List.Nodup

/-! # Maps in insertion order

    A map kept as the list of its entries, in the order in which their keys were
    first set: a new key goes to the end, a known one keeps its place. -/

namespace InsertionMap

variable {κ ν : Type} [DecidableEq κ]

/-- The value of a key. -/
def get (m : List (κ × ν)) (k : κ) : Option ν :=
  (m.find? (fun p => p.1 = k)).map Prod.snd

def has (m : List (κ × ν)) (k : κ) : Bool :=
  m.any (fun p => p.1 = k)

def set (m : List (κ × ν)) (k : κ) (v : ν) : List (κ × ν) :=
  if has m k then m.map (fun p => if p.1 = k then (k, v) else p)
  else m ++ [(k, v)]

def delete (m : List (κ × ν)) (k : κ) : List (κ × ν) :=
  m.filter (fun p => p.1 ≠ k)

theorem has_eq_true {m : List (κ × ν)} {k : κ} :
    has m k = true ↔ ∃ v, (k, v) ∈ m := by
  rw [has, List.any_eq_true]
  constructor
  · rintro ⟨⟨k', v⟩, hmem, hk⟩
    obtain rfl : k' = k := by simpa using hk
    exact ⟨v, hmem⟩
  · rintro ⟨v, hmem⟩
    exact ⟨(k, v), hmem, by simp⟩

/-- A new key goes to the end. -/
theorem set_of_new {m : List (κ × ν)} {k : κ} (h : has m k = false) (v : ν) :
    set m k v = m ++ [(k, v)] := by
  rw [set, h]
  rfl

/-- Setting a key adds no other entry. -/
theorem mem_of_mem_set {m : List (κ × ν)} {k : κ} {v : ν} {p : κ × ν}
    (h : p ∈ set m k v) : p ∈ m ∨ p = (k, v) := by
  rw [set] at h
  split at h
  · obtain ⟨q, hq, rfl⟩ := List.mem_map.mp h
    split
    · exact Or.inr rfl
    · exact Or.inl hq
  · rcases List.mem_append.mp h with hold | hnew
    · exact Or.inl hold
    · exact Or.inr (List.mem_singleton.mp hnew)

theorem mem_of_get {m : List (κ × ν)} {k : κ} {v : ν} (h : get m k = some v) :
    (k, v) ∈ m := by
  obtain ⟨⟨k', v'⟩, hfind, rfl⟩ := Option.map_eq_some_iff.mp h
  obtain rfl : k' = k := by simpa using List.find?_some hfind
  exact List.mem_of_find?_eq_some hfind

/-- With one entry for each key, an entry is what its key is looked up to. -/
theorem get_of_mem {m : List (κ × ν)} (hm : (m.map Prod.fst).Nodup) {k : κ} {v : ν}
    (h : (k, v) ∈ m) : get m k = some v := by
  cases hget : get m k with
  | none =>
      rw [get, Option.map_eq_none_iff, List.find?_eq_none] at hget
      have := hget (k, v) h
      simp at this
  | some v' =>
      have hmem := mem_of_get hget
      have heq := List.inj_on_of_nodup_map hm hmem h rfl
      rw [(Prod.mk.inj heq).2]

/-- With one entry for each key, a key selects its entry. -/
theorem filter_of_mem {m : List (κ × ν)} (hm : (m.map Prod.fst).Nodup) {p : κ × ν}
    (h : p ∈ m) : m.filter (fun q => q.1 = p.1) = [p] := by
  induction m with
  | nil => cases h
  | cons q rest ih =>
      rw [List.map_cons, List.nodup_cons] at hm
      obtain ⟨hq, hrest⟩ := hm
      rcases List.mem_cons.mp h with rfl | hmem
      · rw [List.filter_cons_of_pos (by simp), List.filter_eq_nil_iff.mpr]
        intro r hr heq
        exact hq (of_decide_eq_true heq ▸ List.mem_map_of_mem hr)
      · have hne : q.1 ≠ p.1 := fun heq => hq (heq ▸ List.mem_map_of_mem hmem)
        rw [List.filter_cons_of_neg (by simpa using hne), ih hrest hmem]

theorem get_eq_none {m : List (κ × ν)} {k : κ} :
    get m k = none ↔ has m k = false := by
  rw [get, Option.map_eq_none_iff, List.find?_eq_none, has, List.any_eq_false]

theorem mem_delete {m : List (κ × ν)} {k : κ} {p : κ × ν} :
    p ∈ delete m k ↔ p ∈ m ∧ p.1 ≠ k := by
  rw [delete, List.mem_filter, decide_eq_true_eq]

theorem get_delete_self (m : List (κ × ν)) (k : κ) : get (delete m k) k = none := by
  rw [get_eq_none, has, List.any_eq_false]
  intro p hp
  simpa using (mem_delete.mp hp).2

theorem get_delete_ne (m : List (κ × ν)) {k k' : κ} (h : k' ≠ k) :
    get (delete m k) k' = get m k' := by
  induction m with
  | nil => rfl
  | cons p m ih =>
      rw [delete, List.filter_cons]
      by_cases hp : p.1 = k
      · rw [if_neg (by simp [hp])]
        have hne : ¬ p.1 = k' := fun heq => h (heq.symm.trans hp)
        rw [show List.filter (fun p => decide (p.1 ≠ k)) m = delete m k from rfl, ih,
          get, get, List.find?_cons_of_neg (by simpa using hne)]
      · rw [if_pos (by simpa using hp)]
        by_cases hk : p.1 = k'
        · rw [get, get, List.find?_cons_of_pos (by simpa using hk),
            List.find?_cons_of_pos (by simpa using hk)]
        · rw [get, get, List.find?_cons_of_neg (by simpa using hk),
            List.find?_cons_of_neg (by simpa using hk)]
          exact ih

theorem get_set_self (m : List (κ × ν)) (k : κ) (v : ν) : get (set m k v) k = some v := by
  unfold set
  by_cases hk : has m k = true
  · rw [if_pos hk]
    obtain ⟨w, hw⟩ := has_eq_true.mp hk
    induction m with
    | nil => cases hw
    | cons p m ih =>
        rw [List.map_cons]
        by_cases hp : p.1 = k
        · rw [if_pos hp, get, List.find?_cons_of_pos (by simp)]
          rfl
        · rw [if_neg hp, get, List.find?_cons_of_neg (by simpa using hp)]
          rcases List.mem_cons.mp hw with rfl | hmem
          · exact absurd rfl hp
          · exact ih (has_eq_true.mpr ⟨w, hmem⟩) hmem
  · rw [if_neg hk, get, List.find?_append]
    have hnone : m.find? (fun p => decide (p.1 = k)) = none := by
      rw [← Option.map_eq_none_iff (f := Prod.snd)]
      exact get_eq_none.mpr (by simpa using hk)
    rw [hnone, Option.none_or, List.find?_cons_of_pos (by simp)]
    rfl

theorem get_set_ne (m : List (κ × ν)) {k k' : κ} (h : k' ≠ k) (v : ν) :
    get (set m k v) k' = get m k' := by
  unfold set
  by_cases hk : has m k = true
  · rw [if_pos hk]
    clear hk
    induction m with
    | nil => rfl
    | cons p m ih =>
        rw [List.map_cons]
        by_cases hp : p.1 = k
        · have hne : ¬ k = k' := fun heq => h heq.symm
          have hpne : ¬ p.1 = k' := fun heq => h (heq.symm.trans hp)
          rw [if_pos hp, get, get, List.find?_cons_of_neg (by simpa using hne),
            List.find?_cons_of_neg (by simpa using hpne)]
          exact ih
        · rw [if_neg hp]
          by_cases hk' : p.1 = k'
          · rw [get, get, List.find?_cons_of_pos (by simpa using hk'),
              List.find?_cons_of_pos (by simpa using hk')]
          · rw [get, get, List.find?_cons_of_neg (by simpa using hk'),
              List.find?_cons_of_neg (by simpa using hk')]
            exact ih
  · rw [if_neg hk, get, get, List.find?_append]
    have hne : ¬ k = k' := fun heq => h heq.symm
    rw [List.find?_cons_of_neg (by simpa using hne), List.find?_nil, Option.or_none]

end InsertionMap

import Mathlib.Data.List.TakeWhile
import Mathlib.Tactic.Common

/-! # Binary search for an upper bound

    `upperBound p l` is the search `std::upper_bound` makes: it halves a range
    known to contain the answer, asking `p` (is the searched value below this
    element?) of the middle element.  On a range where `p` flips once, from
    `false` to `true`, the result is the position of the first `true`. -/

namespace UpperBound

variable {α : Type}

/-- One search, over the `len` elements at the front of the list.  `fuel`
    bounds the number of halvings. -/
def search (p : α → Bool) : Nat → List α → Nat → Nat
  | 0, _, _ => 0
  | fuel + 1, l, len =>
      match len with
      | 0 => 0
      | len' + 1 =>
          let half := (len' + 1) / 2
          match l.drop half with
          | [] => 0
          | middle :: rest =>
              if p middle then search p fuel l half
              else (half + 1) + search p fuel rest (len' - half)

/-- The position `std::upper_bound` returns, counted from the front. -/
def upperBound (p : α → Bool) (l : List α) : Nat :=
  search p l.length l l.length

/-- `p` is false on a front part of the list and true on the rest. -/
def Partitioned (p : α → Bool) (l : List α) : Prop :=
  l.Pairwise (fun x y => p x = true → p y = true)

/-- Where `p` holds of the first element of a partitioned list, it holds of
    none of the elements a search could stop behind. -/
theorem takeWhile_eq_take {p : α → Bool} {l : List α} {half : Nat}
    {middle : α} {rest : List α} (hpart : Partitioned p l)
    (hd : l.drop half = middle :: rest) :
    l.takeWhile (fun x => !p x) =
      if p middle then (l.take half).takeWhile (fun x => !p x)
      else l.take half ++ middle :: rest.takeWhile (fun x => !p x) := by
  have hl : l = l.take half ++ middle :: rest := by
    rw [← hd, List.take_append_drop]
  have hpart' := hpart
  rw [Partitioned, hl, List.pairwise_append] at hpart'
  obtain ⟨-, hright, hcross⟩ := hpart'
  by_cases hp : p middle = true
  · rw [if_pos hp]
    conv_lhs => rw [hl]
    rw [List.takeWhile_append]
    by_cases hall : ((l.take half).takeWhile (fun x => !p x)).length
        = (l.take half).length
    · rw [if_pos hall, List.takeWhile_cons, hp]
      have hpre : (l.take half).takeWhile (fun x => !p x) <+: l.take half :=
        List.takeWhile_prefix _
      rw [List.IsPrefix.eq_of_length hpre hall]
      simp
    · rw [if_neg hall]
  · have hpf : p middle = false := by simpa using hp
    -- an element before the middle one cannot satisfy `p` already
    have hbefore : ∀ x ∈ l.take half, (!p x) = true := by
      intro x hx
      cases hpx : p x with
      | false => rfl
      | true => exact absurd (hcross x hx middle List.mem_cons_self hpx) hp
    rw [if_neg hp]
    conv_lhs => rw [hl]
    rw [List.takeWhile_append_of_pos hbefore, List.takeWhile_cons, hpf]
    rfl

theorem Partitioned.sublist {p : α → Bool} {l l' : List α}
    (h : Partitioned p l) (hsub : l'.Sublist l) : Partitioned p l' :=
  List.Pairwise.sublist hsub h

/-- On a partitioned range with enough fuel, the search stops exactly behind
    the elements of which `p` is false. -/
theorem search_eq (p : α → Bool) :
    ∀ (fuel : Nat) (l : List α) (len : Nat), len ≤ fuel → len ≤ l.length →
      Partitioned p (l.take len) →
      search p fuel l len = ((l.take len).takeWhile (fun x => !p x)).length := by
  intro fuel
  induction fuel with
  | zero =>
      intro l len hfuel _ _
      have hlen : len = 0 := by omega
      subst hlen
      rfl
  | succ fuel ih =>
      intro l len hfuel hlen hpart
      cases len with
      | zero => rfl
      | succ len' =>
          have hhalf : (len' + 1) / 2 < len' + 1 := by omega
          rw [search]
          cases hd : l.drop ((len' + 1) / 2) with
          | nil =>
              have := congrArg List.length hd
              rw [List.length_drop, List.length_nil] at this
              omega
          | cons middle rest =>
              have hdt : (l.take (len' + 1)).drop ((len' + 1) / 2)
                  = middle :: rest.take (len' - (len' + 1) / 2) := by
                rw [List.drop_take, hd,
                  show len' + 1 - (len' + 1) / 2
                    = (len' - (len' + 1) / 2) + 1 by omega]
                rfl
              have htt : (l.take (len' + 1)).take ((len' + 1) / 2)
                  = l.take ((len' + 1) / 2) := by
                rw [List.take_take, Nat.min_eq_left (by omega)]
              have hsplit := takeWhile_eq_take hpart hdt
              have hrestlen : len' - (len' + 1) / 2 ≤ rest.length := by
                have := congrArg List.length hd
                rw [List.length_drop, List.length_cons] at this
                omega
              rw [hsplit, htt]
              simp only
              by_cases hp : p middle = true
              · -- the middle element is above: the search goes on in front of it
                rw [if_pos hp, if_pos hp]
                refine ih l _ (by omega) (by omega) ?_
                refine hpart.sublist ?_
                rw [← htt]
                exact List.take_sublist _ _
              · -- the middle element is not above: the search goes on behind it
                rw [if_neg hp, if_neg hp]
                have hrec := ih rest (len' - (len' + 1) / 2) (by omega) hrestlen
                  (hpart.sublist (by
                    have hs : (rest.take (len' - (len' + 1) / 2)).Sublist
                        ((l.take (len' + 1)).drop ((len' + 1) / 2)) := by
                      rw [hdt]
                      exact List.sublist_cons_self _ _
                    exact hs.trans (List.drop_sublist _ _)))
                rw [hrec, List.length_append, List.length_cons, List.length_take,
                  Nat.min_eq_left (by omega)]
                omega

/-- **The search finds the partition point**. -/
theorem upperBound_eq {p : α → Bool} {l : List α} (h : Partitioned p l) :
    upperBound p l = (l.takeWhile (fun x => !p x)).length := by
  rw [upperBound, search_eq p l.length l l.length (Nat.le_refl _)
    (Nat.le_refl _) (by rwa [List.take_length]), List.take_length]

/-- The element just before the upper bound, if there is one. -/
def lastBelow (p : α → Bool) (l : List α) : Option α :=
  (l.take (upperBound p l)).getLast?

theorem lastBelow_mem {p : α → Bool} {l : List α} {x : α}
    (h : lastBelow p l = some x) : x ∈ l :=
  List.mem_of_mem_take (List.mem_of_getLast? h)

/-- On a partitioned range the element before the upper bound is the last one
    of which `p` is false. -/
theorem lastBelow_eq_find? {p : α → Bool} {l : List α} (h : Partitioned p l) :
    lastBelow p l = l.reverse.find? (fun x => !p x) := by
  rw [lastBelow, upperBound_eq h]
  have htake : l.take (l.takeWhile (fun x => !p x)).length
      = l.takeWhile (fun x => !p x) :=
    (List.prefix_iff_eq_take.mp (List.takeWhile_prefix _)).symm
  rw [htake]
  -- `p` holds behind the partition point and nowhere before it
  have hdrop : ∀ x ∈ l.dropWhile (fun x => !p x), p x = true := by
    cases hdw : l.dropWhile (fun x => !p x) with
    | nil => intro x hx; cases hx
    | cons y ys =>
        have hy : p y = true := by
          have := List.head?_dropWhile_not (fun x => !p x) l
          rw [hdw] at this
          simpa using this
        have hpart := h.sublist (List.dropWhile_sublist (fun x => !p x))
        rw [hdw, Partitioned, List.pairwise_cons] at hpart
        intro x hx
        rcases List.mem_cons.mp hx with heq | hmem
        · rw [heq]; exact hy
        · exact hpart.1 x hmem hy
  have hall : ∀ x ∈ l.takeWhile (fun x => !p x), (!p x) = true := by
    intro x hx
    exact List.mem_takeWhile_imp (p := fun x => !p x) hx
  conv_rhs => rw [← List.takeWhile_append_dropWhile (p := fun x => !p x) (l := l)]
  rw [List.reverse_append, List.find?_append]
  have hnone : (l.dropWhile (fun x => !p x)).reverse.find? (fun x => !p x)
      = none := by
    rw [List.find?_eq_none]
    intro x hx
    rw [hdrop x (List.mem_reverse.mp hx)]
    simp
  rw [hnone, Option.none_or]
  cases hrev : (l.takeWhile (fun x => !p x)).reverse with
  | nil =>
      rw [List.reverse_eq_nil_iff] at hrev
      rw [hrev]
      rfl
  | cons y ys =>
      have hmem : y ∈ l.takeWhile (fun x => !p x) :=
        List.mem_reverse.mp (hrev ▸ List.mem_cons_self)
      rw [List.find?_cons, hall y hmem, List.getLast?_eq_head?_reverse, hrev]
      rfl

end UpperBound

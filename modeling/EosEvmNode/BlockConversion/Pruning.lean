import EosEvmNode.BlockConversion.Adding

/-! # Dropping irreversible blocks — the LIB entry and the two pop loops

    When the cache holds a native block at or below the reported LIB, the last
    one of them (`libEntry`) fixes the EVM LIB: the EVM block before the one it
    belongs to.  Both lists then lose their oldest blocks up to that number. -/

namespace BlockConversion

open Channels Silkworm Engine Runs

variable {Tx : Type}

/-- The loop `while (p(front())) pop_front()` on a list kept newest first: what
    it pops satisfies `p`, and what is left does not end in such an element. -/
theorem rdropWhile_split {α : Type} (p : α → Bool) (l : List α) :
    ∃ dropped, l = l.rdropWhile p ++ dropped ∧ (∀ x ∈ dropped, p x = true) ∧
      ∀ x ∈ (l.rdropWhile p).getLast?, p x = false := by
  refine ⟨l.rtakeWhile p, ?_, ?_, ?_⟩
  · exact List.rdropWhile_append_rtakeWhile.symm
  · intro x hx
    exact List.mem_rtakeWhile_imp hx
  · intro x hx
    obtain ⟨hne, rfl⟩ := List.mem_getLast?_eq_getLast hx
    simpa using List.rdropWhile_last_not p l hne

/-- An element that fails `p` keeps the loop from emptying the list. -/
theorem rdropWhile_ne_nil {α : Type} {p : α → Bool} {l : List α} {x : α}
    (hx : x ∈ l) (hp : p x = false) : l.rdropWhile p ≠ [] := by
  intro hnil
  rw [List.rdropWhile_eq_nil_iff] at hnil
  rw [hnil x hx] at hp
  cases hp

/-! ## The LIB entry -/

theorem libEntry_mem {natives : List NativeBlock} {lib : Nat} {it : NativeBlock}
    (h : libEntry natives lib = some it) : it ∈ natives :=
  List.mem_reverse.mp (UpperBound.lastBelow_mem h)

/-- With native numbers in order the entry is the newest block at or below the
    LIB. -/
theorem libEntry_eq_find? {natives : List NativeBlock} (lib : Nat)
    (h : natives.Pairwise (fun x y => y.blockNum ≤ x.blockNum)) :
    libEntry natives lib = natives.find? (fun nb => nb.blockNum ≤ lib) := by
  have hpart : UpperBound.Partitioned
      (fun nb : NativeBlock => decide (lib < nb.blockNum)) natives.reverse := by
    rw [UpperBound.Partitioned, List.pairwise_reverse]
    refine h.imp ?_
    intro x y hle hlt
    have hlt : lib < y.blockNum := by simpa using hlt
    simpa using Nat.lt_of_lt_of_le hlt hle
  rw [libEntry, UpperBound.lastBelow_eq_find? hpart, List.reverse_reverse]
  congr 1
  funext nb
  rw [← decide_not]
  simp only [Nat.not_lt]

/-- The subtraction does not wrap below EVM number `2^32`. -/
theorem evmLibOf_eq {E : Env Tx} {it : NativeBlock} (hpos : 0 < E.evmNum it)
    (hlt : E.evmNum it ≤ 2 ^ 32) : evmLibOf E it = E.evmNum it - 1 := by
  rw [evmLibOf]
  omega

/-- Wrapped or not, the EVM LIB lies below the EVM block of the entry. -/
theorem evmLibOf_lt {E : Env Tx} {it : NativeBlock} (hpos : 0 < E.evmNum it) :
    evmLibOf E it < E.evmNum it := by
  rw [evmLibOf]
  omega

/-! ## The two loops -/

/-- What the removal of irreversible blocks does when there is a LIB entry. -/
structure Pruned (E : Env Tx) (s s' : State Tx) (it : NativeBlock)
    (oldNatives : List NativeBlock) (oldEvms : List (Block Tx)) : Prop where
  natives : s.nativeBlocks = s'.nativeBlocks ++ oldNatives
  evms : s.evmBlocks = s'.evmBlocks ++ oldEvms
  evmLib : s'.evmLib = evmLibOf E it
  published : s'.published = s.published
  parameters : s'.consensusParameters = s.consensusParameters
  natives_below : ∀ nb ∈ oldNatives, E.evmNum nb < evmLibOf E it
  evms_below : ∀ e ∈ oldEvms, e.header.number < evmLibOf E it
  natives_front : ∀ nb ∈ s'.nativeBlocks.getLast?, evmLibOf E it ≤ E.evmNum nb
  evms_front : ∀ e ∈ s'.evmBlocks.getLast?, evmLibOf E it ≤ e.header.number
  natives_ne : s'.nativeBlocks ≠ []
  evms_ne : s'.evmBlocks ≠ []

/-- A native block at or above the EVM LIB stays. -/
theorem Pruned.mem_of_le {E : Env Tx} {s s' : State Tx} {it x : NativeBlock}
    {oldNatives : List NativeBlock} {oldEvms : List (Block Tx)}
    (hp : Pruned E s s' it oldNatives oldEvms) (hx : x ∈ s.nativeBlocks)
    (hle : evmLibOf E it ≤ E.evmNum x) : x ∈ s'.nativeBlocks := by
  rw [hp.natives] at hx
  rcases List.mem_append.mp hx with hkept | hold
  · exact hkept
  · have := hp.natives_below x hold
    omega

theorem removeIrreversible_ok {E : Env Tx} {s s' : State Tx} {lib : Nat}
    (h : removeIrreversible E s lib = .ok s') :
    (libEntry s.nativeBlocks lib = none ∧ s' = s) ∨
    ∃ it oldNatives oldEvms, libEntry s.nativeBlocks lib = some it ∧
      Pruned E s s' it oldNatives oldEvms := by
  rw [removeIrreversible] at h
  cases hlib : libEntry s.nativeBlocks lib with
  | none =>
      rw [hlib] at h
      exact Or.inl ⟨rfl, (Except.ok.inj h).symm⟩
  | some it =>
      rw [hlib] at h
      simp only at h
      obtain ⟨oldNatives, hnat, hnatold, hnatfront⟩ := rdropWhile_split
        (fun nb => decide (E.evmNum nb < evmLibOf E it)) s.nativeBlocks
      obtain ⟨oldEvms, hevm, hevmold, hevmfront⟩ := rdropWhile_split
        (fun e : Block Tx => decide (e.header.number < evmLibOf E it)) s.evmBlocks
      -- the call returns only when something is left in both lists
      cases hn : s.nativeBlocks.rdropWhile
          (fun nb => decide (E.evmNum nb < evmLibOf E it)) with
      | nil => rw [hn] at h; cases h
      | cons nb nbs =>
          cases he : s.evmBlocks.rdropWhile
              (fun e => decide (e.header.number < evmLibOf E it)) with
          | nil => rw [hn, he] at h; cases h
          | cons e es =>
              rw [hn, he] at h
              rw [hn] at hnat hnatfront
              rw [he] at hevm hevmfront
              have hs' := Except.ok.inj h
              subst hs'
              refine Or.inr ⟨it, oldNatives, oldEvms, rfl, hnat, hevm, rfl, rfl, rfl,
                ?_, ?_, ?_, ?_, List.cons_ne_nil _ _, List.cons_ne_nil _ _⟩
              · intro x hx
                simpa using hnatold x hx
              · intro x hx
                simpa using hevmold x hx
              · intro x hx
                simpa using hnatfront x hx
              · intro x hx
                simpa using hevmfront x hx

/-- **The loops never empty a list** that holds the LIB entry's EVM block or a
    later one. -/
theorem removeIrreversible_total {E : Env Tx} {s : State Tx} {lib : Nat}
    (h : ∀ it, libEntry s.nativeBlocks lib = some it →
      0 < E.evmNum it ∧ ∃ e ∈ s.evmBlocks, E.evmNum it ≤ e.header.number) :
    ∃ s', removeIrreversible E s lib = .ok s' := by
  rw [removeIrreversible]
  cases hlib : libEntry s.nativeBlocks lib with
  | none => exact ⟨s, rfl⟩
  | some it =>
      obtain ⟨hpos, e, he, hle⟩ := h it hlib
      have hlt := evmLibOf_lt hpos
      have hnat : s.nativeBlocks.rdropWhile
          (fun nb => decide (E.evmNum nb < evmLibOf E it)) ≠ [] :=
        rdropWhile_ne_nil (libEntry_mem hlib) (by simp; omega)
      have hevm : s.evmBlocks.rdropWhile
          (fun e => decide (e.header.number < evmLibOf E it)) ≠ [] :=
        rdropWhile_ne_nil he (by simp; omega)
      obtain ⟨nb, nbs, hn⟩ := List.exists_cons_of_ne_nil hnat
      obtain ⟨e', es, he'⟩ := List.exists_cons_of_ne_nil hevm
      simp only [hn, he']
      exact ⟨_, rfl⟩

end BlockConversion

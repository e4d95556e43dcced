import EosEvmNode.HttpProxy.Access

/-! # Single requests and batches

    What the script decides on a decoded body, without the steps of the script: a
    single request is looked up in the lists, and a batch is passed on when each of its
    elements passes the tests of the loop. -/

namespace HttpProxy

open Channels

def Value.fields : Value → List (Bytes × Value)
  | .object fields => fields
  | _ => []

def Value.method (v : Value) : Value := fieldOf (text "method") v.fields

def Value.version (v : Value) : Value := fieldOf (text "jsonrpc") v.fields

def Value.isTable : Value → Bool
  | .array _ => true
  | .object _ => true
  | _ => false

/-- Tables and strings. -/
def Value.indexable : Value → Bool
  | .string _ => true
  | v => v.isTable

/-- The body is taken for a batch. -/
def IsBatch (v : Value) : Prop := empty v.method = true ∨ empty v.version = true

/-- An element passes the tests of the loop. -/
structure Tested (c : Vars) (v : Value) : Prop where
  method : empty v.method = false
  version : empty v.version = false
  write : listed c.writeCalls v.method = true →
    v.method.is (text "eth_gasPrice") = true

/-- The method is in one of the three lists. -/
def Vars.Lists (c : Vars) (method : Value) : Prop :=
  listed c.readCalls method = true ∨ listed c.writeCalls method = true ∨
    listed c.testCalls method = true

/-- What a single request must have. -/
structure Answered (c : Vars) (v : Value) : Prop where
  version : v.version.is (text "2.0") = true
  method : c.Lists v.method

section Tests

variable {L : Lua} {c : Vars} {v : Value}

/-- What can be indexed has a value for every key, be it nil. -/
theorem index_of_indexable (h : v.indexable = true) (key : Bytes) :
    v.index key = .ok (fieldOf key v.fields) := by
  cases v with
  | array elements => rfl
  | object fields => rfl
  | string s => rfl
  | _ => cases h

theorem index_of_not_indexable (h : v.indexable = false) (key : Bytes) :
    v.index key = .error .index := by
  cases v with
  | array elements => cases h
  | object fields => cases h
  | string s => cases h
  | _ => rfl

/-- Only objects have a method. -/
theorem indexable_of_method (h : empty v.method = false) : v.indexable = true := by
  cases v with
  | object fields => rfl
  | _ => cases h

theorem indexable_of_isTable (h : v.isTable = true) : v.indexable = true := by
  cases v with
  | array elements => rfl
  | object fields => rfl
  | _ => cases h

theorem elements_of_not_isTable (h : v.isTable = false) : v.elements = [] := by
  cases v with
  | array elements => cases h
  | object fields => cases h
  | _ => rfl

/-- The tests on an element that can be indexed. -/
theorem testElement_of_indexable (h : v.indexable = true) :
    testElement c v =
      if empty v.method || empty v.version then .ok (some (.exit httpBadRequest))
      else if listed c.writeCalls v.method && !v.method.is (text "eth_gasPrice") then
        .ok (some (.exit httpBadRequest))
      else .ok none := by
  unfold testElement
  rw [index_of_indexable h, index_of_indexable h]
  rfl

theorem testElement_of_tested (h : Tested c v) : testElement c v = .ok none := by
  rw [testElement_of_indexable (indexable_of_method h.method), h.method, h.version]
  rw [if_neg (by simp), if_neg]
  intro hwrite
  obtain ⟨hlisted, hother⟩ := Bool.and_eq_true_iff.mp hwrite
  rw [h.write hlisted] at hother
  cases hother

/-- An element that can be indexed and fails a test is answered 400. -/
theorem testElement_of_not_tested (hindex : v.indexable = true) (h : ¬ Tested c v) :
    testElement c v = .ok (some (.exit httpBadRequest)) := by
  rw [testElement_of_indexable hindex]
  by_cases hempty : (empty v.method || empty v.version) = true
  · rw [if_pos hempty]
  · rw [if_neg hempty, if_pos]
    obtain ⟨hmethod, hversion⟩ := Bool.or_eq_false_iff.mp (Bool.eq_false_iff.mpr hempty)
    by_contra hwrite
    refine h ⟨hmethod, hversion, fun hlisted => ?_⟩
    rw [hlisted, Bool.true_and] at hwrite
    simpa using hwrite

theorem testElement_of_not_indexable (h : v.indexable = false) :
    testElement c v = .error .index := by
  unfold testElement
  rw [index_of_not_indexable h]
  rfl

/-- The loop leaves elements that pass behind. -/
theorem testBatch_append {before after : List Value} (h : ∀ w ∈ before, Tested c w) :
    testBatch c (before ++ after) = testBatch c after := by
  induction before with
  | nil => rfl
  | cons w before ih =>
      rw [List.cons_append, testBatch, testElement_of_tested (h w (List.mem_cons_self ..))]
      exact ih fun u hu => h u (List.mem_cons_of_mem _ hu)

theorem testBatch_of_tested {vs : List Value} (h : ∀ w ∈ vs, Tested c w) :
    testBatch c vs = .ok (.proxy .test) := by
  have hloop : testBatch c (vs ++ []) = testBatch c [] := testBatch_append h
  rw [List.append_nil] at hloop
  rw [hloop]
  rfl

/-- The loop ends at the first element that does not pass. -/
theorem testBatch_stops {before after : List Value} {w : Value}
    (hbefore : ∀ u ∈ before, Tested c u) (hw : ¬ Tested c w) :
    testBatch c (before ++ w :: after) =
      if w.indexable then .ok (.exit httpBadRequest) else .error .index := by
  rw [testBatch_append hbefore, testBatch]
  cases hindex : w.indexable with
  | true =>
      rw [testElement_of_not_tested hindex hw]
      rfl
  | false =>
      rw [testElement_of_not_indexable hindex]
      rfl

/-- All elements pass, or one is the first that does not. -/
theorem tested_or_first (c : Vars) (vs : List Value) :
    (∀ w ∈ vs, Tested c w) ∨
      ∃ before w after, vs = before ++ w :: after ∧ (∀ u ∈ before, Tested c u) ∧
        ¬ Tested c w := by
  induction vs with
  | nil => exact Or.inl fun w hw => absurd hw List.not_mem_nil
  | cons v vs ih =>
      by_cases hv : Tested c v
      · rcases ih with hall | ⟨before, w, after, rfl, hbefore, hw⟩
        · exact Or.inl (List.forall_mem_cons.mpr ⟨hv, hall⟩)
        · exact Or.inr ⟨v :: before, w, after, rfl,
            List.forall_mem_cons.mpr ⟨hv, hbefore⟩, hw⟩
      · exact Or.inr ⟨[], v, vs, rfl, fun u hu => absurd hu List.not_mem_nil, hv⟩

/-- A single request is answered 500 or 403, or has what it must have and is passed
    on. -/
theorem single_cases (c : Vars) (v : Value) :
    (¬ Answered c v ∧ respond (testSingle c v.method v.version) =
        .exit httpInternalServerError) ∨
      (¬ Answered c v ∧ respond (testSingle c v.method v.version) =
        .exit httpForbidden) ∨
      (Answered c v ∧ ∃ upstream,
        respond (testSingle c v.method v.version) = .proxy upstream) := by
  unfold testSingle
  by_cases hversion : v.version.is (text "2.0") = true
  · rw [hversion, Bool.not_true, if_neg Bool.false_ne_true]
    right
    by_cases hread : listed c.readCalls v.method = true
    · rw [if_pos hread]
      exact Or.inr ⟨⟨hversion, Or.inl hread⟩, .read, rfl⟩
    rw [if_neg hread]
    by_cases hwrite : listed c.writeCalls v.method = true
    · rw [if_pos hwrite]
      exact Or.inr ⟨⟨hversion, Or.inr (Or.inl hwrite)⟩, .write, rfl⟩
    rw [if_neg hwrite]
    by_cases htest : listed c.testCalls v.method = true
    · rw [if_pos htest]
      exact Or.inr ⟨⟨hversion, Or.inr (Or.inr htest)⟩, .test, rfl⟩
    rw [if_neg htest]
    refine Or.inl ⟨?_, rfl⟩
    rintro ⟨-, h | h | h⟩
    · exact hread h
    · exact hwrite h
    · exact htest h
  · rw [Bool.eq_false_iff.mpr hversion, Bool.not_false, if_pos rfl]
    refine Or.inl ⟨fun h => hversion h.version, ?_⟩
    -- the version is put into a message, and that can fail
    cases hconcat : concat v.version with
    | error e => rfl
    | ok u => rfl

theorem iterate_of_isTable (h : v.isTable = true) :
    L.iterate v = .ok (L.pairs v.elements) := by
  cases v with
  | array elements => rfl
  | object fields => rfl
  | _ => cases h

theorem iterate_of_not_isTable (h : v.isTable = false) :
    L.iterate v = .error .argument := by
  cases v with
  | array elements => cases h
  | object fields => cases h
  | _ => rfl

/-- The two ways a body is taken. -/
theorem verdict_of_indexable (h : v.indexable = true) :
    L.verdict c v = respond
      (if empty v.method || empty v.version then L.iterate v >>= testBatch c
      else testSingle c v.method v.version) := by
  unfold Lua.verdict Lua.access
  rw [index_of_indexable h, index_of_indexable h]
  rfl

/-- A batch that is a table goes through the loop. -/
theorem verdict_of_isBatch (hbatch : IsBatch v) (htable : v.isTable = true) :
    L.verdict c v = respond (testBatch c (L.pairs v.elements)) := by
  rw [verdict_of_indexable (indexable_of_isTable htable),
    if_pos (Bool.or_eq_true_iff.mpr hbatch), iterate_of_isTable htable]
  rfl

/-- What is no table fails, as it has no elements to go through. -/
theorem verdict_of_not_isTable (htable : v.isTable = false) :
    L.verdict c v = .exit httpInternalServerError := by
  have hmethod : empty v.method = true := by
    cases v with
    | object fields => cases htable
    | _ => rfl
  cases hindex : v.indexable with
  | true =>
      rw [verdict_of_indexable hindex, hmethod, Bool.true_or, if_pos rfl,
        iterate_of_not_isTable htable]
      rfl
  | false =>
      unfold Lua.verdict Lua.access
      rw [index_of_not_indexable hindex]
      rfl

theorem verdict_of_not_isBatch (h : ¬ IsBatch v) :
    L.verdict c v = respond (testSingle c v.method v.version) := by
  have hcond : ¬ (empty v.method || empty v.version) = true := fun hor =>
    h (Bool.or_eq_true_iff.mp hor)
  have hmethod : empty v.method = false :=
    (Bool.or_eq_false_iff.mp (Bool.eq_false_iff.mpr hcond)).1
  rw [verdict_of_indexable (indexable_of_method hmethod), if_neg hcond]

/-- A single request is passed on when it has what it must have. -/
theorem single_iff :
    (∃ upstream, respond (testSingle c v.method v.version) = .proxy upstream) ↔
      Answered c v := by
  constructor
  · rintro ⟨upstream, h⟩
    rcases single_cases c v with ⟨-, hexit⟩ | ⟨-, hexit⟩ | ⟨hanswered, -⟩
    · rw [hexit] at h
      cases h
    · rw [hexit] at h
      cases h
    · exact hanswered
  · intro hanswered
    rcases single_cases c v with ⟨hnot, -⟩ | ⟨hnot, -⟩ | ⟨-, hproxy⟩
    · exact absurd hanswered hnot
    · exact absurd hanswered hnot
    · exact hproxy

/-- A batch is passed on when it is a table and the loop goes through it, in whatever
    order. -/
theorem batch_iff (hL : L.Lawful) (hbatch : IsBatch v) :
    (∃ upstream, L.verdict c v = .proxy upstream) ↔
      v.isTable = true ∧ ∀ w ∈ v.elements, Tested c w := by
  cases htable : v.isTable with
  | false =>
      rw [verdict_of_not_isTable htable]
      constructor
      · rintro ⟨upstream, h⟩
        cases h
      · rintro ⟨h, -⟩
        cases h
  | true =>
      rw [verdict_of_isBatch hbatch htable]
      have hmem : ∀ w, w ∈ L.pairs v.elements ↔ w ∈ v.elements := fun w =>
        (hL.pairs_perm v.elements).mem_iff
      constructor
      · rintro ⟨upstream, h⟩
        refine ⟨rfl, fun w hw => ?_⟩
        rcases tested_or_first c (L.pairs v.elements) with
          hall | ⟨before, u, after, heq, hbefore, hu⟩
        · exact hall w ((hmem w).mpr hw)
        · rw [heq, testBatch_stops hbefore hu] at h
          cases hindex : u.indexable with
          | true =>
              rw [hindex, if_pos rfl] at h
              cases h
          | false =>
              rw [hindex, if_neg Bool.false_ne_true] at h
              cases h
      · rintro ⟨-, hall⟩
        refine ⟨.test, ?_⟩
        rw [testBatch_of_tested fun w hw => hall w ((hmem w).mp hw)]
        rfl

end Tests

end HttpProxy

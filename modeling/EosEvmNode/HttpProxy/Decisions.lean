import EosEvmNode.HttpProxy.Verdicts

/-! # The access policy

    What the script decides, said without its steps: which decoded bodies go to which
    upstream, which are forbidden, and what the errors are.

    The policy does not mention the order in which `pairs` goes through a batch, so no
    request is let through in one order and refused in another.  The order can still
    show in the error: the script answers 400 at an element that fails a test, and 500
    at one that it cannot index, whichever comes first. -/

namespace HttpProxy

open Channels

/-- The upstream of the first list that has the method. -/
def Vars.firstList (c : Vars) (method : Value) : Option Upstream :=
  if listed c.readCalls method then some .read
  else if listed c.writeCalls method then some .write
  else if listed c.testCalls method then some .test
  else none

/-- **The policy**: a single request goes where the first list sends it, a batch that
    passes the tests to the test endpoint. -/
inductive Vars.Sends (c : Vars) (v : Value) : Upstream → Prop where
  | single {upstream : Upstream} : ¬ IsBatch v → v.version.is (text "2.0") = true →
      c.firstList v.method = some upstream → c.Sends v upstream
  | batch : IsBatch v → v.isTable = true → (∀ w ∈ v.elements, Tested c w) →
      c.Sends v .test

/-- The elements of a batch that fail the tests fail them in one way. -/
def OneError (c : Vars) (v : Value) : Prop :=
  (∀ w ∈ v.elements, ¬ Tested c w → w.indexable = true) ∨
    ∀ w ∈ v.elements, ¬ Tested c w → w.indexable = false

section Single

variable {L : Lua} {c : Vars} {v : Value}

/-- A single request, by its version and the lists. -/
theorem respond_single (c : Vars) (v : Value) :
    respond (testSingle c v.method v.version) =
      if v.version.is (text "2.0") then
        ((c.firstList v.method).map Decision.proxy).getD (.exit httpForbidden)
      else .exit httpInternalServerError := by
  unfold testSingle Vars.firstList
  by_cases hversion : v.version.is (text "2.0") = true
  · rw [hversion, Bool.not_true, if_neg Bool.false_ne_true, if_pos rfl]
    by_cases hread : listed c.readCalls v.method = true
    · rw [if_pos hread, if_pos hread]
      rfl
    rw [if_neg hread, if_neg hread]
    by_cases hwrite : listed c.writeCalls v.method = true
    · rw [if_pos hwrite, if_pos hwrite]
      rfl
    rw [if_neg hwrite, if_neg hwrite]
    by_cases htest : listed c.testCalls v.method = true
    · rw [if_pos htest, if_pos htest]
      rfl
    rw [if_neg htest, if_neg htest]
    rfl
  · rw [Bool.eq_false_iff.mpr hversion, Bool.not_false, if_pos rfl,
      if_neg Bool.false_ne_true]
    -- the version is put into a message, and that can fail
    cases concat v.version with
    | error e => rfl
    | ok u => rfl

theorem single_proxy_iff {upstream : Upstream} :
    respond (testSingle c v.method v.version) = .proxy upstream ↔
      v.version.is (text "2.0") = true ∧ c.firstList v.method = some upstream := by
  rw [respond_single]
  by_cases hversion : v.version.is (text "2.0") = true
  · rw [if_pos hversion]
    cases hlist : c.firstList v.method with
    | none => exact ⟨fun h => (by cases h), fun h => by cases h.2⟩
    | some u =>
        constructor
        · intro h
          exact ⟨hversion, congrArg some (Decision.proxy.inj h)⟩
        · rintro ⟨-, h⟩
          exact congrArg Decision.proxy (Option.some.inj h)
  · rw [if_neg hversion]
    exact ⟨fun h => (by cases h), fun h => absurd h.1 hversion⟩

theorem single_forbidden_iff :
    respond (testSingle c v.method v.version) = .exit httpForbidden ↔
      v.version.is (text "2.0") = true ∧ c.firstList v.method = none := by
  rw [respond_single]
  by_cases hversion : v.version.is (text "2.0") = true
  · rw [if_pos hversion]
    cases hlist : c.firstList v.method with
    | none => exact ⟨fun _ => ⟨hversion, rfl⟩, fun _ => rfl⟩
    | some u => exact ⟨fun h => (by cases h), fun h => by cases h.2⟩
  · rw [if_neg hversion]
    exact ⟨fun h => (by cases h), fun h => absurd h.1 hversion⟩

end Single

/-! ## Batches -/

section Batch

variable {L L' : Lua} {c : Vars} {v : Value}

/-- A batch goes to the test endpoint, or ends at the first element that fails. -/
theorem batch_cases (c : Vars) (vs : List Value) :
    ((∀ w ∈ vs, Tested c w) ∧ respond (testBatch c vs) = .proxy .test) ∨
      ∃ w ∈ vs, ¬ Tested c w ∧ respond (testBatch c vs) =
        .exit (if w.indexable then httpBadRequest else httpInternalServerError) := by
  rcases tested_or_first c vs with hall | ⟨before, w, after, rfl, hbefore, hw⟩
  · rw [testBatch_of_tested hall]
    exact Or.inl ⟨hall, rfl⟩
  · refine Or.inr ⟨w, List.mem_append_right _ (List.mem_cons_self ..), hw, ?_⟩
    rw [testBatch_stops hbefore hw]
    cases w.indexable with
    | true => rfl
    | false => rfl

/-- The loop begins with an element that fails. -/
theorem respond_batch_cons {w : Value} {vs : List Value} (hw : ¬ Tested c w) :
    respond (testBatch c (w :: vs)) =
      .exit (if w.indexable then httpBadRequest else httpInternalServerError) := by
  have hstops : testBatch c ([] ++ w :: vs) =
      if w.indexable then .ok (.exit httpBadRequest) else .error .index :=
    testBatch_stops (fun u hu => absurd hu List.not_mem_nil) hw
  rw [List.nil_append] at hstops
  rw [hstops]
  cases w.indexable with
  | true => rfl
  | false => rfl

/-- **The verdict follows the policy**, in whatever order `pairs` takes a batch. -/
theorem verdict_proxy_iff (hL : L.Lawful) {upstream : Upstream} :
    L.verdict c v = .proxy upstream ↔ c.Sends v upstream := by
  by_cases hbatch : IsBatch v
  · constructor
    · intro h
      obtain ⟨htable, hall⟩ := (batch_iff hL hbatch).mp ⟨upstream, h⟩
      rw [verdict_of_isBatch hbatch htable] at h
      rcases batch_cases c (L.pairs v.elements) with ⟨-, htest⟩ | ⟨w, -, -, hexit⟩
      · obtain rfl := Decision.proxy.inj (htest.symm.trans h)
        exact .batch hbatch htable hall
      · rw [hexit] at h
        cases h
    · intro h
      cases h with
      | single hsingle _ _ => exact absurd hbatch hsingle
      | batch _ htable hall =>
          have hpairs : ∀ w ∈ L.pairs v.elements, Tested c w := fun w hw =>
            hall w ((hL.pairs_perm v.elements).mem_iff.mp hw)
          rw [verdict_of_isBatch hbatch htable, testBatch_of_tested hpairs]
          rfl
  · rw [verdict_of_not_isBatch hbatch, single_proxy_iff]
    constructor
    · rintro ⟨hversion, hlist⟩
      exact .single hbatch hversion hlist
    · intro h
      cases h with
      | single _ hversion hlist => exact ⟨hversion, hlist⟩
      | batch h _ _ => exact absurd h hbatch

/-- Only single requests are forbidden. -/
theorem verdict_forbidden_iff :
    L.verdict c v = .exit httpForbidden ↔
      ¬ IsBatch v ∧ v.version.is (text "2.0") = true ∧ c.firstList v.method = none := by
  by_cases hbatch : IsBatch v
  · refine iff_of_false (fun h => ?_) (fun h => h.1 hbatch)
    cases htable : v.isTable with
    | false =>
        rw [verdict_of_not_isTable htable] at h
        exact absurd h (by decide)
    | true =>
        rw [verdict_of_isBatch hbatch htable] at h
        rcases batch_cases c (L.pairs v.elements) with ⟨-, htest⟩ | ⟨w, -, -, hexit⟩
        · rw [htest] at h
          cases h
        · rw [hexit] at h
          cases hindex : w.indexable with
          | true =>
              rw [hindex, if_pos rfl] at h
              exact absurd h (by decide)
          | false =>
              rw [hindex, if_neg Bool.false_ne_true] at h
              exact absurd h (by decide)
  · rw [verdict_of_not_isBatch hbatch, single_forbidden_iff]
    exact ⟨fun h => ⟨hbatch, h⟩, fun h => h.2⟩

/-- The statuses of the script. -/
def IsStatus (status : Nat) : Prop :=
  status = httpBadRequest ∨ status = httpForbidden ∨ status = httpInternalServerError

theorem verdict_exit {status : Nat} (h : L.verdict c v = .exit status) :
    IsStatus status := by
  by_cases hbatch : IsBatch v
  · cases htable : v.isTable with
    | false =>
        rw [verdict_of_not_isTable htable] at h
        exact Or.inr (Or.inr (Decision.exit.inj h).symm)
    | true =>
        rw [verdict_of_isBatch hbatch htable] at h
        rcases batch_cases c (L.pairs v.elements) with ⟨-, htest⟩ | ⟨w, -, -, hexit⟩
        · rw [htest] at h
          cases h
        · rw [hexit] at h
          obtain rfl := Decision.exit.inj h
          cases w.indexable with
          | true => exact Or.inl rfl
          | false => exact Or.inr (Or.inr rfl)
  · rw [verdict_of_not_isBatch hbatch, respond_single] at h
    by_cases hversion : v.version.is (text "2.0") = true
    · rw [if_pos hversion] at h
      cases hlist : c.firstList v.method with
      | none =>
          rw [hlist] at h
          exact Or.inr (Or.inl (Decision.exit.inj h).symm)
      | some upstream =>
          rw [hlist] at h
          cases h
    · rw [if_neg hversion] at h
      exact Or.inr (Or.inr (Decision.exit.inj h).symm)

/-! ## The order of a batch -/

open Classical in
/-- The same decoder, and another order of one table. -/
noncomputable def Lua.reorder (L : Lua) (vs vs' : List Value) : Lua where
  decode := L.decode
  pairs us := if us = vs then vs' else us

theorem reorder_pairs_self (L : Lua) (vs vs' : List Value) :
    (L.reorder vs vs').pairs vs = vs' := if_pos rfl

theorem reorder_lawful (hL : L.Lawful) {vs vs' : List Value} (h : vs'.Perm vs) :
    (L.reorder vs vs').Lawful where
  pairs_perm us := by
    unfold Lua.reorder
    by_cases hus : us = vs
    · simp only [hus, if_true]
      exact h
    · simp only [hus, if_false]
      exact List.Perm.refl _
  decode_nil := hL.decode_nil
  element := hL.element
  extend := hL.extend

/-- Some order takes a given element that fails first. -/
theorem exists_first (hL : L.Lawful) (hbatch : IsBatch v) {w : Value}
    (hw : w ∈ v.elements) (hnot : ¬ Tested c w) :
    ∃ L' : Lua, L'.Lawful ∧ L'.decode = L.decode ∧ L'.verdict c v =
      .exit (if w.indexable then httpBadRequest else httpInternalServerError) := by
  obtain ⟨before, after, hsplit⟩ := List.append_of_mem hw
  have htable : v.isTable = true := by
    cases htable : v.isTable with
    | true => rfl
    | false =>
        rw [elements_of_not_isTable htable] at hw
        exact absurd hw List.not_mem_nil
  have hperm : (w :: (before ++ after)).Perm v.elements := by
    rw [hsplit]
    exact List.perm_middle.symm
  refine ⟨L.reorder v.elements (w :: (before ++ after)), reorder_lawful hL hperm, rfl, ?_⟩
  rw [verdict_of_isBatch hbatch htable, reorder_pairs_self, respond_batch_cons hnot]

/-- Elements that fail in one way only give one answer in every order. -/
theorem respond_batch_perm {vs vs' : List Value} (hperm : vs'.Perm vs)
    (hone : (∀ w ∈ vs, ¬ Tested c w → w.indexable = true) ∨
      ∀ w ∈ vs, ¬ Tested c w → w.indexable = false) :
    respond (testBatch c vs') = respond (testBatch c vs) := by
  rcases batch_cases c vs with ⟨hall, htest⟩ | ⟨w, hw, hnot, hexit⟩
  · rw [testBatch_of_tested fun u hu => hall u (hperm.mem_iff.mp hu), htest]
    rfl
  · rcases batch_cases c vs' with ⟨hall, -⟩ | ⟨u, hu, hnot', hexit'⟩
    · exact absurd (hall w (hperm.mem_iff.mpr hw)) hnot
    · have hu := hperm.mem_iff.mp hu
      rw [hexit, hexit']
      rcases hone with hindex | hindex
      · rw [hindex w hw hnot, hindex u hu hnot']
      · rw [hindex w hw hnot, hindex u hu hnot']

/-- **When the order shows**: in the error of a batch with elements that fail in both
    ways, and nowhere else. -/
theorem verdict_ordered_iff (hL : L.Lawful) :
    (∀ L' : Lua, L'.Lawful → L'.decode = L.decode → L'.verdict c v = L.verdict c v) ↔
      (IsBatch v → OneError c v) := by
  constructor
  · intro hsame hbatch
    by_contra hboth
    obtain ⟨hone, htwo⟩ := not_or.mp hboth
    push Not at hone htwo
    obtain ⟨w, hw, hnot, hindex⟩ := hone
    obtain ⟨u, hu, hnot', hindex'⟩ := htwo
    obtain ⟨L₁, hL₁, hdecode₁, h₁⟩ := exists_first hL hbatch hw hnot
    obtain ⟨L₂, hL₂, hdecode₂, h₂⟩ := exists_first hL hbatch hu hnot'
    rw [hsame L₁ hL₁ hdecode₁, if_neg hindex] at h₁
    rw [hsame L₂ hL₂ hdecode₂, if_pos (by simpa using hindex'), h₁] at h₂
    exact absurd h₂ (by decide)
  · intro hone L' hL' _
    by_cases hbatch : IsBatch v
    · cases htable : v.isTable with
      | false => rw [verdict_of_not_isTable htable, verdict_of_not_isTable htable]
      | true =>
          rw [verdict_of_isBatch hbatch htable, verdict_of_isBatch hbatch htable]
          rw [respond_batch_perm (hL'.pairs_perm v.elements) (hone hbatch),
            respond_batch_perm (hL.pairs_perm v.elements) (hone hbatch)]
    · rw [verdict_of_not_isBatch hbatch, verdict_of_not_isBatch hbatch]

end Batch

/-! ## Requests -/

/-- The answer to a request without a value: 500 when `io.open` is called with nil. -/
def Handed.unread : Handed → Nat
  | .memory [] => httpInternalServerError
  | _ => httpBadRequest

section Requests

variable {L L' : Lua} {c : Vars} {handed : Handed}

theorem decision_of_not_receives (h : ∀ v, ¬ L.Receives handed v) :
    L.decision c handed = .exit handed.unread := by
  have hnone : ∀ body, handed.received = some body → L.decode body = none := by
    intro body hbody
    cases hdecode : L.decode body with
    | none => rfl
    | some v => exact absurd ⟨body, hbody, hdecode⟩ (h v)
  cases handed with
  | memory body =>
      cases body with
      | nil => rfl
      | cons first rest =>
          show respond (L.decide c (some (first :: rest))) = _
          rw [decide_of_decode_none (hnone _ rfl)]
          rfl
  | file content =>
      cases content with
      | none => rfl
      | some content =>
          show respond (L.decide c (readLine content)) = _
          cases hline : readLine content with
          | none => rfl
          | some line =>
              rw [decide_of_decode_none (hnone line hline)]
              rfl

/-- What is true of the verdict on what is received is true of the decision. -/
theorem decision_iff {decision : Decision} (hunread : ∀ status, decision = .exit status →
      status ≠ handed.unread) :
    L.decision c handed = decision ↔
      ∃ v, L.Receives handed v ∧ L.verdict c v = decision := by
  constructor
  · intro h
    by_cases hreceives : ∃ v, L.Receives handed v
    · obtain ⟨v, hv⟩ := hreceives
      exact ⟨v, hv, (decision_of_receives hv).symm.trans h⟩
    · rw [decision_of_not_receives fun v hv => hreceives ⟨v, hv⟩] at h
      exact absurd rfl (hunread _ h.symm)
  · rintro ⟨v, hv, hverdict⟩
    exact (decision_of_receives hv).trans hverdict

theorem unread_ne_forbidden (handed : Handed) : httpForbidden ≠ handed.unread := by
  unfold Handed.unread
  split
  · decide
  · decide

/-- The order does not matter to what is not received. -/
theorem receives_congr (h : L'.decode = L.decode) {v : Value} :
    L'.Receives handed v ↔ L.Receives handed v := by
  unfold Lua.Receives
  rw [h]

theorem receives_unique {v w : Value} (hv : L.Receives handed v)
    (hw : L.Receives handed w) : v = w := by
  obtain ⟨body, hbody, hdecode⟩ := hv
  obtain ⟨body', hbody', hdecode'⟩ := hw
  obtain rfl := Option.some.inj (hbody.symm.trans hbody')
  exact Option.some.inj (hdecode.symm.trans hdecode')

end Requests

/-- **THE ACCESS POLICY**: what reaches which upstream, what is forbidden, and that
    there is no other answer than an error; and the order in which a batch is gone
    through shows in nothing but the error of a batch whose elements fail in both
    ways. -/
theorem access_policy {L : Lua} (hL : L.Lawful) (c : Vars) (handed : Handed) :
    (∀ upstream, L.decision c handed = .proxy upstream ↔
      ∃ v, L.Receives handed v ∧ c.Sends v upstream) ∧
    (L.decision c handed = .exit httpForbidden ↔
      ∃ v, L.Receives handed v ∧ ¬ IsBatch v ∧ v.version.is (text "2.0") = true ∧
        c.firstList v.method = none) ∧
    (∀ status, L.decision c handed = .exit status → IsStatus status) ∧
    ((∀ L' : Lua, L'.Lawful → L'.decode = L.decode →
        L'.decision c handed = L.decision c handed) ↔
      ∀ v, L.Receives handed v → IsBatch v → OneError c v) := by
  refine ⟨fun upstream => ?_, ?_, fun status h => ?_, ?_⟩
  · rw [decision_iff fun status h => by cases h]
    exact exists_congr fun v => and_congr_right fun _ => verdict_proxy_iff hL
  · rw [decision_iff fun status h => Decision.exit.inj h ▸ unread_ne_forbidden handed]
    exact exists_congr fun v => and_congr_right fun _ => verdict_forbidden_iff
  · by_cases hreceives : ∃ v, L.Receives handed v
    · obtain ⟨v, hv⟩ := hreceives
      exact verdict_exit ((decision_of_receives hv).symm.trans h)
    · rw [decision_of_not_receives fun v hv => hreceives ⟨v, hv⟩] at h
      rw [← Decision.exit.inj h]
      unfold Handed.unread
      split
      · exact Or.inr (Or.inr rfl)
      · exact Or.inl rfl
  · by_cases hreceives : ∃ v, L.Receives handed v
    · obtain ⟨v, hv⟩ := hreceives
      have hordered := verdict_ordered_iff (c := c) (v := v) hL
      constructor
      · intro hsame w hw
        obtain rfl := receives_unique hv hw
        refine hordered.mp fun L' hL' hdecode => ?_
        rw [← decision_of_receives ((receives_congr hdecode).mpr hv), hsame L' hL' hdecode,
          decision_of_receives hv]
      · intro hone L' hL' hdecode
        rw [decision_of_receives ((receives_congr hdecode).mpr hv), decision_of_receives hv]
        exact hordered.mpr (hone v hv) L' hL' hdecode
    · refine iff_of_true (fun L' _ hdecode => ?_) fun v hv => absurd ⟨v, hv⟩ hreceives
      rw [decision_of_not_receives fun v hv => hreceives ⟨v, hv⟩,
        decision_of_not_receives fun v hv =>
          hreceives ⟨v, (receives_congr hdecode).mp hv⟩]

/-! ## A batch with two errors -/

/-- A number, and an object without a method. -/
def mixedBatch : Value := .array [.number (text "7"), .object []]

def mixedText : Bytes := text "[7,{}]"

def mixedTexts : List (Bytes × Value) :=
  [(mixedText, mixedBatch), (text "7", .number (text "7")), (text "{}", .object [])]

def mixedLua : Lua := listLua mixedTexts

theorem mixedLua_lawful : mixedLua.Lawful := by
  refine listLua_lawful (by decide +kernel) (by decide +kernel) (by decide +kernel) ?_
  simp [mixedTexts, mixedBatch, Value.elements]

/-- The number comes first here, and the answer is 500; another order answers 400. -/
theorem access_policy_mixed :
    mixedLua.decision nginxVars (.memory mixedText) = .exit httpInternalServerError ∧
    ¬ ∀ L' : Lua, L'.Lawful → L'.decode = mixedLua.decode →
      L'.decision nginxVars (.memory mixedText) =
        mixedLua.decision nginxVars (.memory mixedText) := by
  have hreceives : mixedLua.Receives (.memory mixedText) mixedBatch :=
    mixedLua_lawful.sent (listLua_of_mem (by decide +kernel) (List.mem_cons_self ..))
  refine ⟨by decide +kernel, fun hsame => ?_⟩
  rcases (access_policy mixedLua_lawful nginxVars (.memory mixedText)).2.2.2.mp hsame
    mixedBatch hreceives (Or.inl rfl) with hindex | hindex
  · have hnumber := hindex (.number (text "7")) (List.mem_cons_self ..)
      (fun h => by cases h.method)
    cases hnumber
  · have hobject := hindex (.object []) (List.mem_cons_of_mem _ (List.mem_cons_self ..))
      (fun h => by cases h.method)
    cases hobject

end HttpProxy

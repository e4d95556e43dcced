import EosEvmNode.HttpProxy.Verdicts

/-! # Batches against single requests

    The loop over a batch tests less than the script tests on a single request: it
    looks at neither the version nor the three lists.  So a batch is held to what holds
    for its elements exactly when the tests of the loop stop it, or each of its elements
    would be answered anyway. -/

namespace HttpProxy

open Channels

section Alone

variable {L : Lua} {c : Vars} {v : Value}

/-- An element that passes the loop is a single request of its own. -/
theorem Tested.not_isBatch (h : Tested c v) : ¬ IsBatch v := by
  rintro (hmethod | hversion)
  · rw [h.method] at hmethod
    cases hmethod
  · rw [h.version] at hversion
    cases hversion

/-- An element that passes the loop is let through alone when it has what a single
    request must have. -/
theorem letThrough_alone {alone : Handed} (hreceives : L.Receives alone v)
    (htested : Tested c v) : L.LetThrough c alone ↔ Answered c v := by
  unfold Lua.LetThrough
  rw [decision_of_receives hreceives, verdict_of_not_isBatch htested.not_isBatch]
  exact single_iff

end Alone

/-- A batch that is let through consists of requests that are let through alone, each
    with a method of the lists. -/
def NoLaxer (L : Lua) (c : Vars) (handed : Handed) (v : Value) : Prop :=
  L.LetThrough c handed → ∀ w ∈ v.elements,
    (∀ alone, L.Receives alone w → L.LetThrough c alone) ∧ c.Lists w.method

/-- An element fails the tests of the loop, or they all have what a single request must
    have. -/
def StrictBatch (c : Vars) (v : Value) : Prop :=
  (∃ w ∈ v.elements, ¬ Tested c w) ∨ ∀ w ∈ v.elements, Answered c w

theorem noLaxer_iff {L : Lua} {c : Vars} (hL : L.Lawful) {handed : Handed} {v : Value}
    (hreceives : L.Receives handed v) (hbatch : IsBatch v) :
    NoLaxer L c handed v ↔ StrictBatch c v := by
  have hthrough : L.LetThrough c handed ↔
      v.isTable = true ∧ ∀ w ∈ v.elements, Tested c w := by
    unfold Lua.LetThrough
    rw [decision_of_receives hreceives]
    exact batch_iff hL hbatch
  constructor
  · intro h
    by_cases htested : ∀ w ∈ v.elements, Tested c w
    · refine Or.inr fun w hw => ?_
      have htable : v.isTable = true := by
        by_contra hne
        rw [elements_of_not_isTable (Bool.eq_false_iff.mpr hne)] at hw
        exact List.not_mem_nil hw
      obtain ⟨body, -, hdecode⟩ := hreceives
      obtain ⟨alone, halone⟩ := hL.element body v hdecode w hw
      have hsent := hL.sent halone
      exact (letThrough_alone hsent (htested w hw)).mp
        ((h (hthrough.mpr ⟨htable, htested⟩) w hw).1 _ hsent)
    · exact Or.inl (by simpa using htested)
  · intro hstrict hlet w hw
    obtain ⟨-, htested⟩ := hthrough.mp hlet
    rcases hstrict with ⟨u, hu, hnot⟩ | hanswered
    · exact absurd (htested u hu) hnot
    · have hw' := hanswered w hw
      exact ⟨fun alone halone => (letThrough_alone halone (htested w hw)).mpr hw',
        hw'.method⟩

/-- **BATCHES AND SINGLE REQUESTS**: which batches are treated no more laxly than their
    elements; a single request that is let through has a method of the lists. -/
theorem batches_no_laxer {L : Lua} (hL : L.Lawful) :
    (∀ c handed v, L.Receives handed v → IsBatch v →
      (NoLaxer L c handed v ↔ StrictBatch c v)) ∧
    (∀ c handed v, L.Receives handed v → ¬ IsBatch v → L.LetThrough c handed →
      c.Lists v.method) := by
  constructor
  · intro c handed v hreceives hbatch
    exact noLaxer_iff hL hreceives hbatch
  · intro c handed v hreceives hsingle hlet
    unfold Lua.LetThrough at hlet
    rw [decision_of_receives hreceives, verdict_of_not_isBatch hsingle] at hlet
    exact (single_iff.mp hlet).method

/-! ## A batch for an administrator -/

/-- `[{"jsonrpc":"2.0","method":"admin_peers"}]`. -/
def adminBatchText : Bytes := text "[" ++ requestText "2.0" "admin_peers" ++ text "]"

def adminBatch : Value := .array [request "2.0" "admin_peers"]

/-- The texts of the batch and of its parts. -/
def adminTexts : List (Bytes × Value) :=
  [(adminBatchText, adminBatch),
    (requestText "2.0" "admin_peers", request "2.0" "admin_peers"),
    (quoted "2.0", .string (text "2.0")),
    (quoted "admin_peers", .string (text "admin_peers"))]

def adminLua : Lua := listLua adminTexts

theorem adminTexts_nodup : (adminTexts.map Prod.fst).Nodup := by decide +kernel

theorem adminLua_lawful : adminLua.Lawful := by
  refine listLua_lawful adminTexts_nodup (by decide +kernel) (by decide +kernel) ?_
  simp [adminTexts, adminBatch, request, Value.elements]

theorem adminLua_receives {body : Bytes} {v : Value} (h : (body, v) ∈ adminTexts) :
    adminLua.Receives (.memory body) v :=
  adminLua_lawful.sent (listLua_of_mem adminTexts_nodup h)

theorem adminBatch_receives : adminLua.Receives (.memory adminBatchText) adminBatch :=
  adminLua_receives (by simp [adminTexts])

theorem adminBatch_isBatch : IsBatch adminBatch := Or.inl rfl

/-- The batch reaches an upstream; its one request does not, and its method is in none
    of the lists. -/
theorem admin_batch_let_through :
    adminLua.Lawful ∧ adminLua.Receives (.memory adminBatchText) adminBatch ∧
    IsBatch adminBatch ∧
    adminLua.decision nginxVars (.memory adminBatchText) = .proxy .test ∧
    adminLua.decision nginxVars (.memory (requestText "2.0" "admin_peers")) =
      .exit httpForbidden ∧
    ¬ nginxVars.Lists (request "2.0" "admin_peers").method ∧
    ¬ NoLaxer adminLua nginxVars (.memory adminBatchText) adminBatch := by
  have hbatch : adminLua.decision nginxVars (.memory adminBatchText) = .proxy .test := by
    decide +kernel
  have hlists : ¬ nginxVars.Lists (request "2.0" "admin_peers").method := by
    rintro (hread | hwrite | htest)
    · exact absurd hread (by decide +kernel)
    · exact absurd hwrite (by decide +kernel)
    · exact absurd htest (by decide +kernel)
  refine ⟨adminLua_lawful, adminBatch_receives, adminBatch_isBatch, hbatch,
    by decide +kernel, hlists, fun h => ?_⟩
  exact hlists (h ⟨.test, hbatch⟩ (request "2.0" "admin_peers")
    (List.mem_cons_self ..)).2

/-- The theorem for the batch above. -/
theorem batches_no_laxer_admin :
    NoLaxer adminLua nginxVars (.memory adminBatchText) adminBatch ↔
      StrictBatch nginxVars adminBatch :=
  (batches_no_laxer adminLua_lawful).1 nginxVars _ _ adminBatch_receives
    adminBatch_isBatch

end HttpProxy

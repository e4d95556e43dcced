import EosEvmNode.HttpProxy.Verdicts
import Mathlib.Data.List.TakeWhile

/-! # Bodies in memory and bodies in a file

    A body in memory is read whole; of a body in a temporary file the script reads the
    first line.  Nginx forwards the same bytes either way.  The decisions agree on a body
    of one line, and on a body of several lines where the rest is white space, or where
    the first line and the whole are both refused. -/

namespace HttpProxy

open Channels

/-- What `file:read()` gives of a body. -/
def firstLine (body : Bytes) : Bytes := body.takeWhile (· ≠ lineFeed)

/-- A line goes on as long as there is no line feed. -/
theorem inside_line {line : Bytes} (h : lineFeed ∉ line) :
    ∀ byte ∈ line, decide (byte ≠ lineFeed) = true := by
  intro byte hbyte
  refine decide_eq_true ?_
  rintro rfl
  exact h hbyte

theorem firstLine_eq {body : Bytes} (h : lineFeed ∉ body) : firstLine body = body :=
  List.takeWhile_eq_self_iff.mpr (inside_line h)

/-- A line feed ends the first line. -/
theorem eq_firstLine_append {body : Bytes} (h : lineFeed ∈ body) :
    ∃ rest, body = firstLine body ++ lineFeed :: rest := by
  obtain ⟨line, rest, rfl, hline⟩ := List.eq_append_cons_of_mem h
  refine ⟨rest, ?_⟩
  have hfirst : firstLine (line ++ lineFeed :: rest) = line := by
    unfold firstLine
    rw [List.takeWhile_append_of_pos (inside_line hline),
      List.takeWhile_cons_of_neg (by simp), List.append_nil]
  rw [hfirst]

/-- The loop over a batch comes to an element that is answered 400. -/
structure Stopped (L : Lua) (c : Vars) (v : Value) : Prop where
  batch : IsBatch v
  table : v.isTable = true
  element : ∃ before w after, L.pairs v.elements = before ++ w :: after ∧
    (∀ u ∈ before, Tested c u) ∧ w.indexable = true ∧ ¬ Tested c w

/-- A text that does not decode, or decodes to a batch that is answered 400. -/
def Refused (L : Lua) (c : Vars) (bodyData : Bytes) : Prop :=
  ∀ v, L.decode bodyData = some v → Stopped L c v

section Refusals

variable {L : Lua} {c : Vars} {v : Value}

/-- A single request is not answered 400. -/
theorem single_ne_badRequest (c : Vars) (v : Value) :
    respond (testSingle c v.method v.version) ≠ .exit httpBadRequest := by
  intro h
  rcases single_cases c v with ⟨-, hexit⟩ | ⟨-, hexit⟩ | ⟨-, upstream, hproxy⟩
  · rw [hexit] at h
    cases h
  · rw [hexit] at h
    cases h
  · rw [hproxy] at h
    cases h

theorem verdict_of_stopped (h : Stopped L c v) :
    L.verdict c v = .exit httpBadRequest := by
  obtain ⟨before, w, after, heq, hbefore, hindex, hw⟩ := h.element
  rw [verdict_of_isBatch h.batch h.table, heq, testBatch_stops hbefore hw, if_pos hindex]
  rfl

theorem verdict_badRequest_iff :
    L.verdict c v = .exit httpBadRequest ↔ Stopped L c v := by
  refine ⟨fun h => ?_, verdict_of_stopped⟩
  by_cases hbatch : IsBatch v
  · cases htable : v.isTable with
    | false =>
        rw [verdict_of_not_isTable htable] at h
        cases h
    | true =>
        rw [verdict_of_isBatch hbatch htable] at h
        rcases tested_or_first c (L.pairs v.elements) with
          hall | ⟨before, w, after, heq, hbefore, hw⟩
        · rw [testBatch_of_tested hall] at h
          cases h
        · rw [heq, testBatch_stops hbefore hw] at h
          cases hindex : w.indexable with
          | true => exact ⟨hbatch, htable, before, w, after, heq, hbefore, hindex, hw⟩
          | false =>
              rw [hindex, if_neg Bool.false_ne_true] at h
              cases h
  · rw [verdict_of_not_isBatch hbatch] at h
    exact absurd h (single_ne_badRequest _ _)

/-- The answer to a text that decodes. -/
theorem respond_of_decode {bodyData : Bytes} (h : L.decode bodyData = some v) :
    respond (L.decide c (some bodyData)) = L.verdict c v := by
  rw [decide_of_decode h]
  rfl

theorem respond_of_decode_none {bodyData : Bytes} (h : L.decode bodyData = none) :
    respond (L.decide c (some bodyData)) = .exit httpBadRequest := by
  rw [decide_of_decode_none h]
  rfl

/-- A text is refused when the script answers it 400. -/
theorem decide_badRequest_iff {bodyData : Bytes} :
    respond (L.decide c (some bodyData)) = .exit httpBadRequest ↔
      Refused L c bodyData := by
  cases hdecode : L.decode bodyData with
  | none =>
      refine ⟨fun _ v hv => ?_, fun _ => respond_of_decode_none hdecode⟩
      rw [hdecode] at hv
      cases hv
  | some v =>
      rw [respond_of_decode hdecode, verdict_badRequest_iff]
      constructor
      · intro hstopped w hw
        rw [hdecode] at hw
        exact Option.some.inj hw ▸ hstopped
      · intro hrefused
        exact hrefused v hdecode

/-- A body in memory is read whole. -/
theorem decision_memory {body : Bytes} (h : body ≠ []) :
    L.decision c (.memory body) = respond (L.decide c (some body)) := by
  cases body with
  | nil => exact absurd rfl h
  | cons first rest => rfl

/-- Of a body in a file the first line is read. -/
theorem decision_file {body : Bytes} (h : body ≠ []) :
    L.decision c (.file (some body)) = respond (L.decide c (some (firstLine body))) := by
  cases body with
  | nil => exact absurd rfl h
  | cons first rest => rfl

/-- The first line and the whole are taken alike: both decode, and then to the same
    value, or both are refused. -/
theorem decide_firstLine_iff (hL : L.Lawful) {body : Bytes} (h : lineFeed ∈ body) :
    respond (L.decide c (some body)) = respond (L.decide c (some (firstLine body))) ↔
      (L.decode (firstLine body) ≠ none ∧ L.decode body ≠ none) ∨
        (Refused L c (firstLine body) ∧ Refused L c body) := by
  obtain ⟨rest, hbody⟩ := eq_firstLine_append h
  rw [← decide_badRequest_iff, ← decide_badRequest_iff]
  cases hline : L.decode (firstLine body) with
  | none =>
      rw [respond_of_decode_none hline]
      simp
  | some v =>
      cases hwhole : L.decode body with
      | none =>
          rw [respond_of_decode_none hwhole]
          simp [eq_comm]
      | some w =>
          have hsame : w = v := by
            rw [hbody] at hwhole
            exact hL.extend _ _ _ _ hline hwhole
          rw [respond_of_decode hline, respond_of_decode hwhole, hsame]
          simp

end Refusals

/-- **IN MEMORY OR IN A FILE**: the bodies on which the decision is the same. -/
theorem buffered_decision_iff {L : Lua} (hL : L.Lawful) :
    ∀ c body, L.decision c (.memory body) = L.decision c (.file (some body)) ↔
      body ≠ [] ∧ (lineFeed ∉ body ∨
        (L.decode (firstLine body) ≠ none ∧ L.decode body ≠ none) ∨
        (Refused L c (firstLine body) ∧ Refused L c body)) := by
  intro c body
  by_cases hempty : body = []
  · subst hempty
    constructor
    · intro h
      have hstatus : httpInternalServerError = httpBadRequest := Decision.exit.inj h
      exact absurd hstatus (by decide)
    · rintro ⟨hne, -⟩
      exact absurd rfl hne
  rw [decision_memory hempty, decision_file hempty, and_iff_right hempty]
  by_cases hfeed : lineFeed ∈ body
  · rw [decide_firstLine_iff hL hfeed]
    exact (or_iff_right (not_not_intro hfeed)).symm
  · rw [firstLine_eq hfeed]
    exact iff_of_true rfl (Or.inl hfeed)

/-! ## A request on two lines, and two requests -/

/-- A request with a line feed between its fields. -/
def splitText : Bytes :=
  text "\x7b\"jsonrpc\":\"2.0\"," ++ lineFeed :: text "\"method\":\"eth_chainId\"\x7d"

/-- A request, and another one on the next line. -/
def twoRequests : Bytes :=
  requestText "2.0" "eth_chainId" ++ lineFeed :: requestText "2.0" "admin_peers"

/-- The texts among these and their parts that are texts of a value. -/
def chainIdTexts : List (Bytes × Value) :=
  [(splitText, request "2.0" "eth_chainId"),
    (requestText "2.0" "eth_chainId", request "2.0" "eth_chainId"),
    (requestText "2.0" "admin_peers", request "2.0" "admin_peers"),
    (quoted "2.0", .string (text "2.0")),
    (quoted "eth_chainId", .string (text "eth_chainId")),
    (quoted "admin_peers", .string (text "admin_peers"))]

def chainIdLua : Lua := listLua chainIdTexts

theorem chainIdLua_lawful : chainIdLua.Lawful := by
  refine listLua_lawful (by decide +kernel) (by decide +kernel) (by decide +kernel) ?_
  simp [chainIdTexts, request, Value.elements]

/-- What is passed on in memory is refused in a file, and what is refused in memory is
    passed on in a file. -/
theorem buffered_decisions_differ :
    chainIdLua.Lawful ∧
    chainIdLua.decision nginxVars (.memory splitText) = .proxy .read ∧
    chainIdLua.decision nginxVars (.file (some splitText)) = .exit httpBadRequest ∧
    chainIdLua.decision nginxVars (.memory twoRequests) = .exit httpBadRequest ∧
    chainIdLua.decision nginxVars (.file (some twoRequests)) = .proxy .read := by
  refine ⟨chainIdLua_lawful, ?_, ?_, ?_, ?_⟩
  · decide +kernel
  · decide +kernel
  · decide +kernel
  · decide +kernel

/-- The theorem for the decoder above. -/
theorem buffered_decision_iff_chainId :
    chainIdLua.decision nginxVars (.memory twoRequests) =
        chainIdLua.decision nginxVars (.file (some twoRequests)) ↔
      twoRequests ≠ [] ∧ (lineFeed ∉ twoRequests ∨
        (chainIdLua.decode (firstLine twoRequests) ≠ none ∧
          chainIdLua.decode twoRequests ≠ none) ∨
        (Refused chainIdLua nginxVars (firstLine twoRequests) ∧
          Refused chainIdLua nginxVars twoRequests)) :=
  buffered_decision_iff chainIdLua_lawful nginxVars twoRequests

end HttpProxy

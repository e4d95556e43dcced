import EosEvmNode.Channels
import EosEvmNode.Lib.Runs

/-! # The access script — `eth-jsonrpc-access.lua`

    The script runs before nginx passes a request on.  It decodes the body and chooses
    an upstream, or ends the request with a status.  A body with a method and a version
    is a single request; any other is taken for a batch, whose elements are tested one
    by one.

    Two things are not the script's own: `cjson.decode`, and the order in which `pairs`
    goes through a table. -/

namespace HttpProxy

open Channels Runs

/-- A text of the script as bytes. -/
def text (s : String) : Bytes := s.toUTF8.toList

/-- A value of the script.  `cjson.decode` returns one without nil, and an object has
    each key once. -/
inductive Value where
  | nil
  | null
  | bool (b : Bool)
  | number (digits : Bytes)
  | string (s : Bytes)
  | array (elements : List Value)
  | object (fields : List (Bytes × Value))

/-- How the script itself fails. -/
inductive LuaError where
  /-- A value that is neither a table nor a string is indexed. -/
  | index
  /-- A library function is called with a value of another type. -/
  | argument
  /-- A value that is neither a string nor a number is concatenated. -/
  | concat
  deriving DecidableEq, Repr

/-- The value under a key of an object. -/
def fieldOf (key : Bytes) (fields : List (Bytes × Value)) : Value :=
  match fields.find? (fun field => field.1 = key) with
  | none => .nil
  | some field => field.2

/-- `v[key]`.  Indexing a string looks into the string library, which has none of the
    keys the script uses. -/
def Value.index (key : Bytes) : Value → Except LuaError Value
  | .array _ => .ok .nil
  | .object fields => .ok (fieldOf key fields)
  | .string _ => .ok .nil
  | _ => .error .index

/-- The values of a table. -/
def Value.elements : Value → List Value
  | .array elements => elements
  | .object fields => fields.map Prod.snd
  | _ => []

/-- `cjson.decode`, `none` where it throws, and the order of `pairs`. -/
structure Lua where
  decode : Bytes → Option Value
  pairs : List Value → List Value

def lineFeed : UInt8 := 10

/-- What the script relies on: `pairs` visits every value once; no text is empty; the
    elements of a table have texts of their own; and what a text decodes to is not
    changed by a line feed and more behind it, unless that makes it invalid. -/
structure Lua.Lawful (L : Lua) : Prop where
  pairs_perm : ∀ vs, (L.pairs vs).Perm vs
  decode_nil : L.decode [] = none
  element : ∀ body v, L.decode body = some v → ∀ w ∈ v.elements,
    ∃ body', L.decode body' = some w
  extend : ∀ line rest v w, L.decode line = some v →
    L.decode (line ++ lineFeed :: rest) = some w → w = v

/-- `pairs(v)`, as the values it yields. -/
def Lua.iterate (L : Lua) : Value → Except LuaError (List Value)
  | .array elements => .ok (L.pairs elements)
  | .object fields => .ok (L.pairs (fields.map Prod.snd))
  | _ => .error .argument

/-! ## The configuration -/

def empty : Value → Bool
  | .nil => true
  | .string [] => true
  | _ => false

/-- `string.gmatch(s, "([^,]+)")`. -/
def split (s : Bytes) : List Bytes :=
  (s.splitOn 44).filter fun piece => !piece.isEmpty

/-- `v == val` for one of the strings. -/
def contains (calls : List Bytes) : Value → Bool
  | .string s => calls.any fun call => call = s
  | _ => false

/-- The variables set in `nginx.conf`. -/
structure Vars where
  jsonrpcReadCalls : Option Bytes
  jsonrpcWriteCalls : Option Bytes
  jsonrpcTestCalls : Option Bytes

def parseCalls : Option Bytes → Option (List Bytes)
  | none => none
  | some [] => none
  | some s => some (split s)

def Vars.readCalls (c : Vars) : Option (List Bytes) := parseCalls c.jsonrpcReadCalls

def Vars.writeCalls (c : Vars) : Option (List Bytes) := parseCalls c.jsonrpcWriteCalls

def Vars.testCalls (c : Vars) : Option (List Bytes) := parseCalls c.jsonrpcTestCalls

/-- `calls ~= nil` and the method is one of them. -/
def listed (calls : Option (List Bytes)) (method : Value) : Bool :=
  match calls with
  | none => false
  | some calls => contains calls method

/-! ## The decision -/

inductive Upstream where
  | read
  | write
  | test
  deriving DecidableEq, Repr

/-- `ngx.var.proxy` is set, or `ngx.exit` is called. -/
inductive Decision where
  | proxy (upstream : Upstream)
  | exit (status : Nat)
  deriving DecidableEq, Repr

def httpBadRequest : Nat := 400

def httpForbidden : Nat := 403

def httpInternalServerError : Nat := 500

def Value.is (s : Bytes) : Value → Bool
  | .string t => t = s
  | _ => false

/-- The text of a log message with the version in it. -/
def concat : Value → Except LuaError Unit
  | .string _ => .ok ()
  | .number _ => .ok ()
  | _ => .error .concat

/-- The tests on one element of a batch; `none` when it passes. -/
def testElement (c : Vars) (v : Value) : Except LuaError (Option Decision) := do
  let method ← v.index (text "method")
  let version ← v.index (text "jsonrpc")
  if empty method || empty version then .ok (some (.exit httpBadRequest))
  else if listed c.writeCalls method && !method.is (text "eth_gasPrice") then
    .ok (some (.exit httpBadRequest))
  else .ok none

/-- The loop over the elements of a batch. -/
def testBatch (c : Vars) : List Value → Except LuaError Decision
  | [] => .ok (.proxy .test)
  | v :: vs => do
      match ← testElement c v with
      | some decision => .ok decision
      | none => testBatch c vs

/-- A single request. -/
def testSingle (c : Vars) (method version : Value) : Except LuaError Decision :=
  if !version.is (text "2.0") then do
    let _ ← concat version
    .ok (.exit httpInternalServerError)
  else if listed c.readCalls method then .ok (.proxy .read)
  else if listed c.writeCalls method then .ok (.proxy .write)
  else if listed c.testCalls method then .ok (.proxy .test)
  else .ok (.exit httpForbidden)

/-- From the decoded body on. -/
def Lua.access (L : Lua) (c : Vars) (body : Value) : Except LuaError Decision := do
  let method ← body.index (text "method")
  let version ← body.index (text "jsonrpc")
  if empty method || empty version then do
    let values ← L.iterate body
    testBatch c values
  else testSingle c method version

/-- How nginx hands a body over: in memory, or in a temporary file, `none` when the
    file cannot be opened. -/
inductive Handed where
  | memory (body : Bytes)
  | file (content : Option Bytes)

/-- `ngx.req.get_body_data`. -/
def Handed.getBodyData : Handed → Option Bytes
  | .memory [] => none
  | .memory body => some body
  | .file _ => none

/-- `file:read()`: the next line without its end, or nil at the end of the file. -/
def readLine : Bytes → Option Bytes
  | [] => none
  | content => some (content.takeWhile (· ≠ lineFeed))

/-- From the text of the body on; `cjson.decode` throws on nil. -/
def Lua.decide (L : Lua) (c : Vars) (bodyData : Option Bytes) :
    Except LuaError Decision :=
  match bodyData.bind L.decode with
  | none => .ok (.exit httpBadRequest)
  | some body => L.access c body

def Lua.script (L : Lua) (c : Vars) (handed : Handed) : Except LuaError Decision :=
  match handed.getBodyData with
  | some bodyData => L.decide c (some bodyData)
  | none =>
      match handed with
      -- there is no file: `io.open` is called with nil
      | .memory _ => .error .argument
      | .file none => .ok (.exit httpBadRequest)
      | .file (some content) => L.decide c (readLine content)

/-- What nginx does with the outcome; an error of the script ends the request. -/
def respond : Except LuaError Decision → Decision
  | .ok decision => decision
  | .error _ => .exit httpInternalServerError

/-- The decision on a request. -/
def Lua.decision (L : Lua) (c : Vars) (handed : Handed) : Decision :=
  respond (L.script c handed)

/-- The decision on a decoded body. -/
def Lua.verdict (L : Lua) (c : Vars) (body : Value) : Decision :=
  respond (L.access c body)

/-! ## What the script reads -/

/-- The text that is decoded, if there is one. -/
def Handed.received : Handed → Option Bytes
  | .memory [] => none
  | .memory body => some body
  | .file none => none
  | .file (some content) => readLine content

/-- The text handed over decodes to this value. -/
def Lua.Receives (L : Lua) (handed : Handed) (v : Value) : Prop :=
  ∃ body, handed.received = some body ∧ L.decode body = some v

/-- The request reaches an upstream. -/
def Lua.LetThrough (L : Lua) (c : Vars) (handed : Handed) : Prop :=
  ∃ upstream, L.decision c handed = .proxy upstream

section Reading

variable {L : Lua} {c : Vars}

theorem decide_of_decode {bodyData : Bytes} {v : Value} (h : L.decode bodyData = some v) :
    L.decide c (some bodyData) = L.access c v := by
  unfold Lua.decide
  rw [Option.bind_some, h]

theorem decide_of_decode_none {bodyData : Bytes} (h : L.decode bodyData = none) :
    L.decide c (some bodyData) = .ok (.exit httpBadRequest) := by
  unfold Lua.decide
  rw [Option.bind_some, h]

theorem decision_of_receives {handed : Handed} {v : Value} (h : L.Receives handed v) :
    L.decision c handed = L.verdict c v := by
  obtain ⟨body, hreceived, hdecode⟩ := h
  have hscript : L.script c handed = L.decide c (some body) := by
    cases handed with
    | memory data =>
        cases data with
        | nil => cases hreceived
        | cons first rest =>
            obtain rfl := Option.some.inj hreceived
            rfl
    | file content =>
        cases content with
        | none => cases hreceived
        | some content =>
            show L.decide c (readLine content) = _
            rw [show readLine content = some body from hreceived]
  rw [Lua.decision, hscript, decide_of_decode hdecode]
  rfl

/-- What has a text can be sent. -/
theorem Lua.Lawful.sent (hL : L.Lawful) {body : Bytes} {v : Value}
    (h : L.decode body = some v) : L.Receives (.memory body) v := by
  refine ⟨body, ?_, h⟩
  cases body with
  | nil =>
      rw [hL.decode_nil] at h
      cases h
  | cons first rest => rfl

end Reading

/-! ## A decoder for a few texts -/

/-- It knows the texts of a list, and takes tables in their order. -/
def listLua (texts : List (Bytes × Value)) : Lua where
  decode body := (texts.find? fun entry => entry.1 = body).map Prod.snd
  pairs vs := vs

section Texts

variable {texts : List (Bytes × Value)} {body : Bytes} {v : Value}

theorem mem_of_listLua (h : (listLua texts).decode body = some v) : (body, v) ∈ texts := by
  obtain ⟨entry, hfind, rfl⟩ := Option.map_eq_some_iff.mp h
  have hkey : entry.1 = body := by simpa using List.find?_some hfind
  rw [← hkey]
  exact List.mem_of_find?_eq_some hfind

theorem listLua_of_mem (hnodup : (texts.map Prod.fst).Nodup) (h : (body, v) ∈ texts) :
    (listLua texts).decode body = some v := by
  induction texts with
  | nil => cases h
  | cons entry texts ih =>
      obtain ⟨hnew, hrest⟩ := List.nodup_cons.mp hnodup
      show (List.find? (fun entry => decide (entry.1 = body)) (entry :: texts)).map _ = _
      rcases List.mem_cons.mp h with rfl | hmem
      · rw [List.find?_cons_of_pos (by simp)]
        rfl
      · have hne : entry.1 ≠ body := by
          rintro rfl
          exact hnew (List.mem_map.mpr ⟨_, hmem, rfl⟩)
        rw [List.find?_cons_of_neg (by simpa using hne)]
        exact ih hrest hmem

/-- No text is empty or goes on another in a new line, and the elements of what is
    known are known. -/
theorem listLua_lawful (hnodup : (texts.map Prod.fst).Nodup)
    (hempty : [] ∉ texts.map Prod.fst)
    (hapart : ∀ line ∈ texts.map Prod.fst, ∀ body ∈ texts.map Prod.fst,
      ¬ (line ++ [lineFeed]) <+: body)
    (helements : ∀ entry ∈ texts, ∀ w ∈ entry.2.elements, w ∈ texts.map Prod.snd) :
    (listLua texts).Lawful where
  pairs_perm vs := List.Perm.refl vs
  decode_nil := by
    cases hdecode : (listLua texts).decode [] with
    | none => rfl
    | some v => exact absurd (List.mem_map_of_mem (mem_of_listLua hdecode)) hempty
  element body v hdecode w hw := by
    obtain ⟨⟨body', w'⟩, hmem, rfl⟩ :=
      List.mem_map.mp (helements _ (mem_of_listLua hdecode) w hw)
    exact ⟨body', listLua_of_mem hnodup hmem⟩
  extend line rest v w hline hbody := by
    refine absurd ?_ (hapart line (List.mem_map_of_mem (mem_of_listLua hline)) _
      (List.mem_map_of_mem (mem_of_listLua hbody)))
    exact ⟨rest, by simp⟩

end Texts

/-- The text of a request without parameters. -/
def requestText (version method : String) : Bytes :=
  text ("\x7b\"jsonrpc\":\"" ++ version ++ "\",\"method\":\"" ++ method ++ "\"\x7d")

def request (version method : String) : Value :=
  .object [(text "jsonrpc", .string (text version)),
    (text "method", .string (text method))]

def quoted (s : String) : Bytes := text ("\"" ++ s ++ "\"")

/-- Some of the methods in the lists of `nginx.conf`. -/
def nginxVars : Vars where
  jsonrpcReadCalls := some (text "net_version,eth_blockNumber,eth_chainId")
  jsonrpcWriteCalls := some (text "eth_sendRawTransaction,eth_gasPrice")
  jsonrpcTestCalls := some (text "eth_getLogs,trace_block")

end HttpProxy

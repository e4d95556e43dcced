import Mathlib.Tactic.Common

/-! # The values of the websocket proxy

    `eos-evm-ws-proxy` is written in JavaScript.  What its clients send is parsed
    JSON, and what it reads of a value is the type, an own property, and the
    equality of strings. -/

namespace WsProxy

/-- A parsed JSON value.  The fields of an object are kept as `JSON.parse` leaves
    them, one for each key; nothing here depends on the value of a number, so it
    is its text. -/
inductive Json where
  | null
  | bool (b : Bool)
  | num (text : String)
  | str (s : String)
  | arr (elements : List Json)
  | obj (fields : List (String × Json))
  deriving Inhabited, Repr

/-- What is thrown: an `Error` with its message, or an error of the language. -/
inductive JsError where
  | error (message : String)
  | typeError
  | referenceError
  deriving DecidableEq, Repr

namespace Json

/-- The own property of a parsed value. -/
def own (key : String) : Json → Option Json
  | .obj fields => fields.lookup key
  | _ => none

/-- A value may carry a property of the name `hasOwnProperty` itself, which is
    never callable. -/
def hasOwnProperty (j : Json) (key : String) : Except JsError Bool :=
  if (j.own "hasOwnProperty").isSome then .error .typeError
  else .ok (j.own key).isSome

def isPlainObject : Json → Bool
  | .obj _ => true
  | _ => false

def isString : Json → Bool
  | .str _ => true
  | _ => false

def isArray : Json → Bool
  | .arr _ => true
  | _ => false

def isBoolean : Json → Bool
  | .bool _ => true
  | _ => false

/-- Is the own property, if there is one, a value of this type? -/
def ownIs (j : Json) (key : String) (type : Json → Bool) : Bool :=
  (j.own key).all type

mutual

/-- The text of a value as a string. -/
def toText : Json → String
  | .null => "null"
  | .bool b => if b then "true" else "false"
  | .num text => text
  | .str s => s
  | .arr elements => joinText elements
  | .obj _ => "[object Object]"

/-- The elements of an array, separated by commas; a null leaves nothing. -/
def joinText : List Json → String
  | [] => ""
  | .null :: [] => ""
  | element :: [] => toText element
  | .null :: rest => "," ++ joinText rest
  | element :: rest => toText element ++ "," ++ joinText rest

end

/-- `j == name` for a name that is no number: arrays and objects are compared by
    their text. -/
def looseEq (j : Json) (name : String) : Bool :=
  match j with
  | .str _ => j.toText = name
  | .arr _ => j.toText = name
  | .obj _ => j.toText = name
  | _ => false

/-- Set an own property that is there. -/
def setOwn (key : String) (value : Json) : Json → Json
  | .obj fields => .obj (fields.map fun p => if p.1 = key then (key, value) else p)
  | j => j

/-- Replace an own string property. -/
def mapOwnString (f : String → String) (key : String) : Json → Json
  | .obj fields => .obj (fields.map fun p =>
      match p with
      | (k, .str s) => if k = key then (k, .str (f s)) else (k, .str s)
      | p => p)
  | j => j

end Json

end WsProxy

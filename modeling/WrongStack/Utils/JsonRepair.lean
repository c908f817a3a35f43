import WrongStack.Lib.Number
import WrongStack.Lib.JsonParse

/-!
# `safeParse`

`core/src/utils/safe-json.ts`. `JSON.parse` is a parameter.
-/

namespace WrongStack.Utils

open Lib

def maxBytes : Nat := 5000000

/-- The limit is one of code units. -/
def safeParse (parse : JsString → Option Json) (input : JsString) : Option Json :=
  if maxBytes < input.length then none else parse input

end WrongStack.Utils

/-!
# Validating against a JSON schema

`validateAgainstSchema` (`core/src/utils/json-schema-validate.ts`). The names of required properties and
of declared ones are not those of `Object.prototype`.
-/

namespace WrongStack.Utils

open Lib Json

structure ValidationError where
  path : JsString
  message : JsString
  deriving DecidableEq

/-- The keywords that the validator reads. -/
inductive JSONSchema
  | mk (enum : Option (List Json)) (type : Option JsString) (required : List JsString)
      (properties : List (JsString × JSONSchema)) (items : Option JSONSchema)

mutual

/-- The keys of an object may stand in any order. -/
def deepEqual : Json → Json → Bool
  | .null, .null => true
  | .bool a, .bool b => a == b
  | .num a, .num b => a == b
  | .str a, .str b => a == b
  | .arr as, .arr bs => deepEqualItems as bs
  | .obj as, .obj bs => as.length == bs.length && deepEqualFields as bs
  | _, _ => false

def deepEqualItems : List Json → List Json → Bool
  | [], [] => true
  | a :: as, b :: bs => deepEqual a b && deepEqualItems as bs
  | _, _ => false

def deepEqualFields : List (JsString × Json) → List (JsString × Json) → Bool
  | [], _ => true
  | (key, a) :: as, bs =>
      (match (Json.obj bs).get? key with
        | some b => deepEqual a b
        | none => false) && deepEqualFields as bs

end

/-- `Number.isInteger` -/
def isInteger (text : JsString) : Bool :=
  let d := Decimal.parse text
  decide (0 ≤ d.exponent) || d.mantissa % Nat.pow 10 (-d.exponent).toNat == 0

def describeType : Json → String
  | .null => "null"
  | .bool _ => "boolean"
  | .num _ => "number"
  | .str _ => "string"
  | .arr _ => "array"
  | .obj _ => "object"

def checkType (value : Json) (type : JsString) : Bool :=
  if type = js "integer" then
    match value with
    | .num text => isInteger text
    | _ => false
  else if (["string", "number", "boolean", "null", "array", "object"].map js).contains type then
    type == js (describeType value)
  else true

def joinPath (parent key : JsString) : JsString := if parent.isEmpty then key else parent ++ js "." ++ key

def MAX_SCHEMA_DEPTH : Nat := 64

def orRoot (path : JsString) : JsString := if path.isEmpty then js "<root>" else path

/-- Properties of an object and items of an array are walked at the next depth. -/
def nested (walk : Json → JSONSchema → JsString → List ValidationError) (value : Json)
    (type : Option JsString) (required : List JsString) (properties : List (JsString × JSONSchema))
    (items : Option JSONSchema) (path : JsString) : List ValidationError :=
  match value with
  | .obj fields =>
      if type = some (js "object") then
        (required.filter fun req => ((Json.obj fields).get? req).isNone).map
            (fun req => ⟨joinPath path req, js "required property missing"⟩) ++
          properties.flatMap fun p =>
            match (Json.obj fields).get? p.1 with
            | some v => walk v p.2 (joinPath path p.1)
            | none => []
      else []
  | .arr vs =>
      match items with
      | some items =>
          if type = some (js "array") then
            vs.zipIdx.flatMap fun p => walk p.1 items (path ++ js s!"[{p.2}]")
          else []
      | none => []
  | _ => []

/-- The checks after that of `enum`. -/
def checked (walk : Json → JSONSchema → JsString → List ValidationError) (value : Json)
    (type : Option JsString) (required : List JsString) (properties : List (JsString × JSONSchema))
    (items : Option JSONSchema) (path : JsString) : List ValidationError :=
  if type.all (checkType value) then nested walk value type required properties items path
  else [⟨orRoot path, js "expected " ++ type.getD [] ++ js s!", got {describeType value}"⟩]

/-- `walk`, with the depths that are left. -/
def walkSchema : Nat → Json → JSONSchema → JsString → List ValidationError
  | 0, _, _, path =>
      [⟨orRoot path, js s!"schema nesting exceeds maximum depth ({MAX_SCHEMA_DEPTH})"⟩]
  | depth + 1, value, .mk enum type required properties items, path =>
      match enum with
      | some values =>
          if values.any (deepEqual · value) then
            checked (walkSchema depth) value type required properties items path
          else
            [⟨orRoot path, js "expected one of " ++ (Json.arr values).stringify ++ js ", got " ++
              value.stringify⟩]
      | none => checked (walkSchema depth) value type required properties items path

def validateAgainstSchema (value : Json) (schema : JSONSchema) : List ValidationError :=
  walkSchema (MAX_SCHEMA_DEPTH + 1) value schema []

example : validateAgainstSchema (.obj [(js "n", .num (js "1.5"))])
    (.mk none (some (js "object")) [js "path"] [(js "n", .mk none (some (js "integer")) [] [] none)] none) =
    [⟨js "path", js "required property missing"⟩, ⟨js "n", js "expected integer, got number"⟩] := by
  decide +kernel

end WrongStack.Utils

/-!
# Truncated tool arguments

`completePartialObject` (`core/src/utils/json-repair.ts`) and what reads arguments through it: `safeJsonOrRaw`
(`core/src/core/streaming-response-builder.ts`) and `parseToolInput` (`providers/src/_tool-input.ts`). `JSON.parse` is
a parameter.
-/

namespace WrongStack.Utils

open Lib Json

/-! ## The scan -/

namespace JsonRepair

structure Scan where
  index : Nat := 0
  /-- The containers that are open, innermost first. -/
  stack : List CodeUnit := []
  inString : Bool := false
  escaped : Bool := false
  sawKey : Bool := false
  prevSig : Option CodeUnit := none
  contentEnd : Nat := 0
  stringBraceDepth : Nat := 0

namespace Scan

def inside (q : Scan) (ch : CodeUnit) : Scan :=
  let q := { q with contentEnd := q.index + 1, index := q.index + 1 }
  if q.escaped then { q with escaped := false }
  else if ch = unit '\\' then { q with escaped := true }
  else if ch = unit '"' then { q with inString := false, prevSig := some (unit '"'), stringBraceDepth := 0 }
  else if ch = unit '\x7b' then { q with stringBraceDepth := q.stringBraceDepth + 1 }
  else if ch = unit '\x7d' then { q with stringBraceDepth := q.stringBraceDepth - 1 }
  else q

def outside (q : Scan) (ch : CodeUnit) : Scan :=
  if JsonParse.isWhitespace ch then { q with index := q.index + 1 }
  else
    let q := { q with contentEnd := q.index + 1, index := q.index + 1, prevSig := some ch }
    if ch = unit '"' then { q with inString := true, sawKey := true, stringBraceDepth := 0 }
    else if ch = unit '\x7b' || ch = unit '[' then { q with stack := ch :: q.stack }
    else if ch = unit '\x7d' || ch = unit ']' then { q with stack := q.stack.tail }
    else q

def step (q : Scan) (ch : CodeUnit) : Scan := if q.inString then q.inside ch else q.outside ch

end Scan

def closer (bracket : CodeUnit) : CodeUnit := if bracket = unit '\x7b' then unit '\x7d' else unit ']'

def VALID_ESCAPE : JsString := js "\"\\/bfnrtu"

/-- The backslash before the last code unit must itself be unescaped. -/
def endsWithInvalidEscape (str : JsString) : Bool :=
  match str.reverse with
  | last :: rest =>
      rest.head? == some (unit '\\') && !VALID_ESCAPE.contains last &&
        (rest.takeWhile (· == unit '\\')).length % 2 == 1
  | [] => false

def isCloser (c : CodeUnit) : Bool := c == unit '\x7d' || c == unit ']'

/-- The replacement of `/:(\s*)([}\]])/g`, with the white space since a colon. -/
def fillEmptyFrom : Option JsString → JsString → JsString
  | none, [] => []
  | some spaces, [] => unit ':' :: spaces
  | none, c :: rest =>
      if c = unit ':' then fillEmptyFrom (some []) rest else c :: fillEmptyFrom none rest
  | some spaces, c :: rest =>
      if isSpace c then fillEmptyFrom (some (spaces ++ [c])) rest
      else if isCloser c then js ":null" ++ c :: fillEmptyFrom none rest
      else if c = unit ':' then unit ':' :: spaces ++ fillEmptyFrom (some []) rest
      else unit ':' :: spaces ++ c :: fillEmptyFrom none rest

def fillEmpty (s : JsString) : JsString := fillEmptyFrom none s

end JsonRepair

open JsonRepair

/-- The text up to the last significant code unit, with what an open string or a missing value still needs. -/
def completed (s : JsString) (q : Scan) : JsString :=
  let result := s.take q.contentEnd
  if q.inString then
    (if q.escaped then result.dropLast
      else if endsWithInvalidEscape result then result.dropLast.dropLast
      else result) ++ List.replicate q.stringBraceDepth (unit '\x7d') ++ [unit '"']
  else if q.prevSig = some (unit ':') then result ++ js "null"
  else result

section
variable (parse : JsString → Option Json)

def repairTruncated (s : JsString) : JsString :=
  let q := s.foldl Scan.step {}
  if !q.sawKey && !q.inString then s
  else
    let result := completed s q ++ q.stack.map closer
    if (parse result).isSome then result
    else
      let patched := fillEmpty result
      if (parse patched).isSome then patched else result

def completePartialObject (s : JsString) : JsString :=
  if !(js "\x7b").isPrefixOf (JsString.trim s) then s
  else if (parse s).isSome then s
  else repairTruncated parse s

/-! ## Readers of arguments -/

def safeJsonOrRaw (s : JsString) : Json :=
  if s.isEmpty then .obj []
  else
    match parse s with
    | some v => v
    | none =>
        let repaired := completePartialObject parse s
        (parse repaired).getD (.obj [(js "_raw", .str repaired)])

def asObject : Option Json → Option Fields
  | some (.obj fields) => some fields
  | _ => none

/-- A JSON string that holds the text of an object. -/
def unwrapped (raw : JsString) : Option Fields :=
  let trimmed := JsString.trim raw
  if (js "\"").isPrefixOf trimmed && (js "\"").isSuffixOf trimmed then
    match safeParse parse raw with
    | some (.str inner) => asObject (safeParse parse inner)
    | _ => none
  else none

/-- A parsed string that holds the text of an object. -/
def embedded (parsed : Option Json) : Option Fields :=
  match parsed with
  | some (.str s) =>
      let innerTrimmed := JsString.trim s
      if (js "\x7b").isPrefixOf innerTrimmed && (js "\x7d").isSuffixOf innerTrimmed then
        asObject (safeParse parse innerTrimmed)
      else none
  | _ => none

/-- The sentinel, which prefers the parsed value. -/
def wrapRaw (raw : JsString) : Option Json → Fields
  | none | some .null => [(js "__raw", .str raw)]
  | some v => [(js "__raw", v)]

def parseToolInput (raw : JsString) : Fields :=
  if raw.isEmpty then []
  else
    match asObject (safeParse parse raw) with
    | some fields => fields
    | none =>
        let parsed := safeParse parse (completePartialObject parse raw)
        match asObject parsed with
        | some fields => fields
        | none => ((unwrapped parse raw).or (embedded parse parsed)).getD (wrapRaw raw parsed)

end

example : completePartialObject (JsonParse.parse id) (js "\x7b\"a\":[1,\x7b\"b\":\"x\x7by") =
    js "\x7b\"a\":[1,\x7b\"b\":\"x\x7by\x7d\"\x7d]\x7d" := by decide +kernel

end WrongStack.Utils

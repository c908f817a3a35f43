import WrongStack.Config.Lemmas.Cells

/-!
# Deep merge with options

`deepMerge` (`core/src/utils/deep-merge.ts`) with all its options but the hook for logging. The trees are what
`JSON.parse` makes; where the key guard is off, an object that is being filled can lose its prototype.
-/

namespace WrongStack.DeepMerge

open Lib Json Config

inductive ConflictResolution
  | preferBase | preferPatch
  deriving DecidableEq

inductive ArrayMode
  | replace | concatPrimitives
  deriving DecidableEq

structure DeepMergeOptions where
  conflictResolution : ConflictResolution := .preferPatch
  arrayMode : ArrayMode := .replace
  protectProto : Bool := true
  deriving DecidableEq

def PROTO : JsString := js "__proto__"

def isArray : Json → Bool
  | .arr _ => true
  | _ => false

/-- A value of the result, with the properties that its prototype shows if it is an object. -/
structure Merged where
  value : Json
  inherited : Fields := []

/-- The object that is being filled. -/
structure Target where
  own : Fields
  inherited : Fields := []

namespace Target

variable (out : Target)

/-- `out[k]`, as far as it is an object or an array: `Object.prototype` has functions, and is itself the
`__proto__` of a new object. -/
def read (k : JsString) : Option Json :=
  match lookup out.own k with
  | some v => some v
  | none => if k = PROTO then some (.obj []) else lookup out.inherited k

/-- The assignment meets the setter of `Object.prototype` and not a property of the object. -/
def setsPrototype (k : JsString) : Bool := decide (k = PROTO) && (lookup out.own k).isNone

/-- The properties of the new prototype. A primitive value changes nothing. -/
def prototype (m : Merged) : Fields :=
  match m.value with
  | .obj fields => fields ++ m.inherited
  | .arr items => items.zipIdx.map fun v => (js (toString v.2), v.1)
  | .null => []
  | _ => out.inherited

/-- `out[k] = v` -/
def assign (k : JsString) (m : Merged) : Target :=
  if out.setsPrototype k then { out with inherited := out.prototype m }
  else { out with own := setField out.own k m.value }

end Target

namespace DeepMergeOptions

variable (options : DeepMergeOptions)

def prefer (base patch : Json) : Json :=
  match options.conflictResolution with
  | .preferPatch => patch
  | .preferBase => base

def mergeArrays (base patch : List Json) : Json :=
  if options.arrayMode = .concatPrimitives && isPrimitiveArray base && isPrimitiveArray patch then
    .arr (dedupe (base ++ patch))
  else options.prefer (.arr base) (.arr patch)

def skips (k : JsString) : Bool := options.protectProto && FORBIDDEN_PROTO_KEYS.contains k

/-- What the patch has at a key that is not skipped. -/
def offered (patch : Fields) (k : JsString) : Option Json := if options.skips k then none else lookup patch k

end DeepMergeOptions

mutual

def merge (options : DeepMergeOptions) (base : Json) : Json → Merged
  | .obj patch =>
      match base with
      | .obj fields =>
          let out := mergeEntries options { own := fields } patch
          { value := .obj out.own, inherited := out.inherited }
      | _ => { value := options.prefer base (.obj patch) }
  | .arr patch =>
      match base with
      | .arr items => { value := options.mergeArrays items patch }
      | _ => { value := options.prefer base (.arr patch) }
  | patch => { value := options.prefer base patch }

/-- The loop over the entries of the patch. -/
def mergeEntries (options : DeepMergeOptions) (out : Target) : List (JsString × Json) → Target
  | [] => out
  | (k, v) :: patch =>
      mergeEntries options
        (if options.skips k then out
          else out.assign k (match out.read k with
            | some existing =>
                if existing.isObject && v.isObject || isArray existing && isArray v then merge options existing v
                else { value := v }
            | none => { value := v }))
        patch

end

def deepMerge (options : DeepMergeOptions) (base patch : Json) : Json := (merge options base patch).value

/-! ## The documented contract -/

/-- A step into an object or an array. -/
inductive Step
  | key (k : JsString)
  | index (i : Nat)
  deriving DecidableEq

/-- The value one step further. -/
def child : Json → Step → Option Json
  | .obj fields, .key k => lookup fields k
  | .arr items, .index i => items[i]?
  | _, _ => none

def follow : List Step → Option Json → Option Json
  | [], v => v
  | s :: path, v => follow path (v.bind fun v => child v s)

/-- What the two sides have at a path on which objects meet objects all the way. A key of the patch that is
skipped counts as missing. -/
def sides (options : DeepMergeOptions) : List JsString → Json → Json → Option (Option Json × Option Json)
  | [], base, patch => some (some base, some patch)
  | k :: path, .obj base, .obj patch =>
      match lookup base k, options.offered patch k with
      | some b, some p => sides options path b p
      | b, p => if path = [] then some (b, p) else none
  | _ :: _, _, _ => none

/-- Two values that are not both objects. -/
def collided (options : DeepMergeOptions) : Json → Json → Json
  | .arr base, .arr patch =>
      if options.arrayMode = .concatPrimitives ∧ isPrimitiveArray base ∧ isPrimitiveArray patch then
        .arr (dedupe (base ++ patch))
      else options.prefer (.arr base) (.arr patch)
  | base, patch => options.prefer base patch

/-- What the result has to have where the sides have these values. That an object has no other keys than
the two sides is said by the paths one key longer. -/
def Obeys (options : DeepMergeOptions) (result : Option Json) : Option Json → Option Json → Prop
  | some (.obj _), some (.obj _) => ∃ fields, result = some (.obj fields)
  | some base, some patch => result = some (collided options base patch)
  | none, patch => result = patch
  | base, none => result = base

/-- No forbidden key that only the patch has is in the result, at any depth. -/
def Guarded (base patch result : Option Json) : Prop :=
  ∀ path k, k ∈ FORBIDDEN_PROTO_KEYS → follow (path ++ [.key k]) base = none →
    (follow (path ++ [.key k]) patch).isSome → follow (path ++ [.key k]) result = none

structure Contract (options : DeepMergeOptions) (base patch result : Json) : Prop where
  at_path : ∀ path b p, sides options path base patch = some (b, p) → Obeys options (at? path result) b p
  guarded : options.protectProto → Guarded (some base) (some patch) (some result)

/-! ## When it is met -/

def BothObjects (base patch : Json) : Prop := base.isObject ∧ patch.isObject

def BothArrays (base patch : Json) : Prop := isArray base ∧ isArray patch

/-- Every forbidden key in a value of the patch is also in what the base has in its place. -/
def Harmless (base : Option Json) (patch : Json) : Prop :=
  ∀ path k, k ∈ FORBIDDEN_PROTO_KEYS → (follow (path ++ [.key k]) (some patch)).isSome →
    (follow (path ++ [.key k]) base).isSome

/-- With the guard off, an object that is merged into another one brings no `__proto__` of its own. -/
def Plain (options : DeepMergeOptions) (base patch : Json) : Prop :=
  options.protectProto = false → ∀ path b p,
    sides options path base patch = some (some (.obj b), some (.obj p)) → lookup b PROTO = none →
      lookup p PROTO = none

structure Mergeable (options : DeepMergeOptions) (base patch : Json) : Prop where
  /-- Under `prefer-base`, the values that meet below the root are objects, arrays or equal. -/
  preferred : options.conflictResolution = .preferBase → ∀ k path b p,
    sides options (k :: path) base patch = some (some b, some p) → BothObjects b p ∨ BothArrays b p ∨ b = p
  /-- With the guard on, a value of the patch that is taken whole has no forbidden key of its own. -/
  guarded : options.protectProto → ∀ path b p, sides options path base patch = some (b, some p) →
    b = none ∨ options.conflictResolution = .preferPatch → (∀ b', b = some b' → ¬ BothObjects b' p) → Harmless b p
  prototypes : Plain options base patch

end WrongStack.DeepMerge

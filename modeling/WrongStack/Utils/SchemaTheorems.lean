import WrongStack.Utils.JsonRepair

/-!
# The walker of the schema validator

`validateAgainstSchema` (`core/src/utils/json-schema-validate.ts`) with what its `in` and its reads of properties see
besides an object's own properties: what the object inherits.
-/

namespace WrongStack.SchemaWalk

open Lib Json Utils

/-- What a property may hold: a JSON value, or something inherited. -/
inductive JsValue
  | json (v : Json)
  /-- A method of `Object.prototype`. -/
  | method
  /-- `Object.prototype` -/
  | prototype
  /-- `Array.prototype` -/
  | arrayPrototype

def PROTO : JsString := js "__proto__"

/-- The properties of `Object.prototype`. -/
def inheritedNames : List JsString :=
  ["constructor", "__defineGetter__", "__defineSetter__", "hasOwnProperty", "__lookupGetter__", "__lookupSetter__",
    "isPrototypeOf", "propertyIsEnumerable", "toString", "valueOf", "__proto__", "toLocaleString"].map js

namespace JsValue

/-- `value[key]`, or `none` for `undefined`. The methods of an array are left out: they differ from every JSON value
as `undefined` does. -/
def property (value : JsValue) (key : JsString) : Option JsValue :=
  match value with
  | json (.obj fields) =>
      match lookup fields key with
      | some v => some (json v)
      | none =>
          if key = PROTO then some prototype
          else if inheritedNames.contains key then some method
          else none
  | json (.arr items) =>
      if key = js "length" then some (json (.num (js (toString items.length))))
      else if key = PROTO then some arrayPrototype
      else ((List.range items.length).find? fun i => js (toString i) == key).bind fun i => items[i]?.map json
  | prototype =>
      if key = PROTO then some (json .null)
      else if inheritedNames.contains key then some method
      else none
  | _ => none

/-- `key in value` -/
def hasProperty (value : JsValue) (key : JsString) : Bool := (value.property key).isSome

/-- `JSON.stringify` in a template. -/
def stringify : JsValue → JsString
  | json v => v.stringify
  | method => js "undefined"
  | prototype => js "\x7b\x7d"
  | arrayPrototype => js "[]"

end JsValue

open JsValue

mutual

def deepEqual : Json → JsValue → Bool
  | .null, json .null => true
  | .bool a, json (.bool b) => a == b
  | .num a, json (.num b) => a == b
  | .str a, json (.str b) => a == b
  | .arr as, json (.arr bs) => as.length == bs.length && deepEqualItems as bs
  -- an array and an object are compared by their keys
  | .arr as, json (.obj bs) => as.length == bs.length && deepEqualIndices 0 as (json (.obj bs))
  | .obj as, json (.arr bs) => as.length == bs.length && deepEqualFields as (json (.arr bs))
  | .obj as, json (.obj bs) => as.length == bs.length && deepEqualFields as (json (.obj bs))
  | .arr as, prototype => as.isEmpty
  | .arr as, arrayPrototype => as.isEmpty
  | .obj as, prototype => as.isEmpty
  | .obj as, arrayPrototype => as.isEmpty
  | _, _ => false

def deepEqualItems : List Json → List Json → Bool
  | [], _ => true
  | _ :: _, [] => false
  | a :: as, b :: bs => deepEqual a (json b) && deepEqualItems as bs

/-- The items from the index `i` on, each against the property of its index. -/
def deepEqualIndices (i : Nat) : List Json → JsValue → Bool
  | [], _ => true
  | a :: as, b =>
      (match b.property (js (toString i)) with
        | some w => deepEqual a w
        | none => false) && deepEqualIndices (i + 1) as b

def deepEqualFields : Fields → JsValue → Bool
  | [], _ => true
  | (key, a) :: as, b =>
      (match b.property key with
        | some w => deepEqual a w
        | none => false) && deepEqualFields as b

end

def isPlainObject : JsValue → Bool
  | json (.obj _) | prototype => true
  | _ => false

def describeType : JsValue → String
  | json v => Utils.describeType v
  | method => "function"
  | prototype => "object"
  | arrayPrototype => "array"

def checkType (value : JsValue) (type : JsString) : Bool :=
  if type = js "integer" then
    match value with
    | json (.num text) => isInteger text
    | _ => false
  else if (["string", "number", "boolean", "null", "array", "object"].map js).contains type then
    type == js (describeType value)
  else true

/-- Properties of an object and items of an array are walked at the next depth. -/
def nested (walk : JsValue → JSONSchema → JsString → List ValidationError) (value : JsValue) (type : Option JsString)
    (required : List JsString) (properties : List (JsString × JSONSchema)) (items : Option JSONSchema)
    (path : JsString) : List ValidationError :=
  (if type = some (js "object") ∧ isPlainObject value then
    (required.filter fun req => !value.hasProperty req).map
        (fun req => ⟨joinPath path req, js "required property missing"⟩) ++
      properties.flatMap fun p =>
        match value.property p.1 with
        | some w => walk w p.2 (joinPath path p.1)
        | none => []
  else []) ++
  match value, items with
  | json (.arr vs), some items =>
      if type = some (js "array") then
        vs.zipIdx.flatMap fun p => walk (json p.1) items (path ++ js s!"[{p.2}]")
      else []
  | _, _ => []

/-- The checks after that of `enum`. -/
def checked (walk : JsValue → JSONSchema → JsString → List ValidationError) (value : JsValue) (type : Option JsString)
    (required : List JsString) (properties : List (JsString × JSONSchema)) (items : Option JSONSchema)
    (path : JsString) : List ValidationError :=
  if type.all (checkType value) then nested walk value type required properties items path
  else [⟨orRoot path, js "expected " ++ type.getD [] ++ js s!", got {describeType value}"⟩]

/-- `walk`, with the depths that are left. -/
def walk : Nat → JsValue → JSONSchema → JsString → List ValidationError
  | 0, _, _, path => [⟨orRoot path, js s!"schema nesting exceeds maximum depth ({MAX_SCHEMA_DEPTH})"⟩]
  | depth + 1, value, .mk enum type required properties items, path =>
      match enum with
      | some values =>
          if values.any (deepEqual · value) then checked (walk depth) value type required properties items path
          else
            [⟨orRoot path, js "expected one of " ++ (Json.arr values).stringify ++ js ", got " ++ value.stringify⟩]
      | none => checked (walk depth) value type required properties items path

def validateAgainstSchema (value : Json) (schema : JSONSchema) : List ValidationError :=
  walk (MAX_SCHEMA_DEPTH + 1) (json value) schema []

end WrongStack.SchemaWalk

/-!
# What the schema validator accepts

JSON Schema as a relation between values and schemas, and the walker against it.
-/

namespace WrongStack.SchemaWalk

open Lib Json Utils JsValue

/-! ## JSON Schema -/

/-- Equality of JSON values: the keys of an object have no order. -/
inductive JsonEq : Json → Json → Prop
  | null : JsonEq .null .null
  | bool {b} : JsonEq (.bool b) (.bool b)
  | num {text} : JsonEq (.num text) (.num text)
  | str {s} : JsonEq (.str s) (.str s)
  | arr {as bs} (items : List.Forall₂ JsonEq as bs) : JsonEq (.arr as) (.arr bs)
  | obj {as bs : Fields} (keys : ∀ key, key ∈ as.map Prod.fst ↔ key ∈ bs.map Prod.fst)
      (values : ∀ key a b, lookup as key = some a → lookup bs key = some b → JsonEq a b) : JsonEq (.obj as) (.obj bs)

/-- What a type name says. Names other than these seven say nothing. -/
structure HasType (v : Json) (type : JsString) : Prop where
  integer : type = js "integer" → ∃ text, ∃ n : ℤ, v = .num text ∧
    ((Decimal.parse text).mantissa * 10 ^ (Decimal.parse text).exponent : ℚ) = n
  number : type = js "number" → ∃ text, v = .num text
  string : type = js "string" → ∃ s, v = .str s
  boolean : type = js "boolean" → ∃ b, v = .bool b
  null : type = js "null" → v = .null
  array : type = js "array" → ∃ items, v = .arr items
  object : type = js "object" → ∃ fields, v = .obj fields

/-- The value is valid. Under JSON Schema every keyword says what it says by itself; `tied` is the reading in which
`required` and `properties` need the type `object` beside them, and `items` the type `array`. -/
inductive Valid (tied : Bool) : Json → JSONSchema → Prop
  | mk {v enum type required properties items}
      (henum : ∀ values, enum = some values → ∃ e ∈ values, JsonEq e v)
      (htype : ∀ t, type = some t → HasType v t)
      (hrequired : ∀ fields, v = .obj fields → (tied = true → type = some (js "object")) →
        ∀ key ∈ required, (lookup fields key).isSome)
      (hproperties : ∀ fields p w, v = .obj fields → (tied = true → type = some (js "object")) → p ∈ properties →
        lookup fields p.1 = some w → Valid tied w p.2)
      (hitems : ∀ vs s w, v = .arr vs → (tied = true → type = some (js "array")) → items = some s → w ∈ vs →
        Valid tied w s) :
      Valid tied v (.mk enum type required properties items)

mutual

/-- How deep schemas stand in the schema. -/
def nesting : JSONSchema → Nat
  | .mk _ _ _ properties items => max (nestingProperties properties) (nestingItems items)

def nestingProperties : List (JsString × JSONSchema) → Nat
  | [] => 0
  | (_, s) :: properties => max (nesting s + 1) (nestingProperties properties)

def nestingItems : Option JSONSchema → Nat
  | none => 0
  | some s => nesting s + 1

end

/-! ## What is left open -/

mutual

/-- No array is compared with an object that has as many keys as it has items, and no key `__proto__` with an object
that does not have it. -/
def comparable : Json → Json → Bool
  | .arr as, .arr bs => comparableItems as bs
  | .obj as, .obj bs => comparableFields as bs
  | .arr as, .obj bs => as.length != bs.length
  | .obj as, .arr bs => as.length != bs.length
  | _, _ => true

def comparableItems : List Json → List Json → Bool
  | a :: as, b :: bs => comparable a b && comparableItems as bs
  | _, _ => true

def comparableFields : Fields → Fields → Bool
  | [], _ => true
  | (key, a) :: as, bs =>
      (match lookup bs key with
        | some b => comparable a b
        | none => key != PROTO) && comparableFields as bs

end

/-- The walker looks for no inherited property that the value does not have itself, and compares only what is
comparable. -/
inductive Clear : Json → JSONSchema → Prop
  | mk {v enum type required properties items}
      (henum : ∀ values e, enum = some values → e ∈ values → e.distinct = true ∧ comparable e v = true)
      (hrequired : ∀ fields key, v = .obj fields → type = some (js "object") → key ∈ required → key ∈ inheritedNames →
        (lookup fields key).isSome)
      (hnames : ∀ fields p, v = .obj fields → type = some (js "object") → p ∈ properties → p.1 ∈ inheritedNames →
        (lookup fields p.1).isSome)
      (hproperties : ∀ fields p w, v = .obj fields → type = some (js "object") → p ∈ properties →
        lookup fields p.1 = some w → Clear w p.2)
      (hitems : ∀ vs s w, v = .arr vs → type = some (js "array") → items = some s → w ∈ vs → Clear w s) :
      Clear v (.mk enum type required properties items)

/-! ## Equality -/

variable {v a b : Json} {as bs : List Json} {fs gs : Fields} {key : JsString}

theorem property_own {w : Json} (h : lookup fs key = some w) : (json (.obj fs)).property key = some (json w) := by
  simp only [JsValue.property, h]

theorem property_none (h : lookup fs key = none) (hkey : key ∉ inheritedNames) :
    (json (.obj fs)).property key = none := by
  have hproto : key ≠ PROTO := by
    rintro rfl
    exact hkey (by decide +kernel)
  simp only [JsValue.property, h, if_neg hproto]
  exact if_neg (by simpa using hkey)

/-- A missing key is as unequal as an inherited method. -/
theorem deepEqual_missing (h : lookup gs key = none) (hkey : key ≠ PROTO) (a : Json) :
    (match (json (.obj gs)).property key with
      | some w => deepEqual a w
      | none => false) = false := by
  simp only [JsValue.property, h, if_neg hkey]
  by_cases hname : inheritedNames.contains key = true
  · rw [if_pos hname]
    cases a <;> rfl
  · rw [if_neg hname]

/-- Fields without repetition that are as many as others and among them have all their keys. -/
theorem keys_iff (hf : (fs.map Prod.fst).Nodup) (hlength : fs.length = gs.length)
    (hsub : ∀ key ∈ fs.map Prod.fst, key ∈ gs.map Prod.fst) (key : JsString) :
    key ∈ fs.map Prod.fst ↔ key ∈ gs.map Prod.fst := by
  have hperm : List.Perm (fs.map Prod.fst) (gs.map Prod.fst) :=
    (List.subperm_of_subset hf hsub).perm_of_length_le (by simp [hlength])
  exact hperm.mem_iff

mutual

theorem deepEqual_iff (a b : Json) (ha : a.distinct = true) (hb : b.distinct = true) (hab : comparable a b = true) :
    deepEqual a (json b) = true ↔ JsonEq a b := by
  match a, b with
  | .null, b => cases b <;> first | exact iff_of_true rfl .null | exact iff_of_false Bool.false_ne_true nofun
  | .bool x, b =>
      cases b with
      | bool y =>
          simp only [deepEqual, beq_iff_eq]
          exact ⟨fun h => h ▸ .bool, fun h => by cases h; rfl⟩
      | _ => exact iff_of_false Bool.false_ne_true nofun
  | .num x, b =>
      cases b with
      | num y =>
          simp only [deepEqual, beq_iff_eq]
          exact ⟨fun h => h ▸ .num, fun h => by cases h; rfl⟩
      | _ => exact iff_of_false Bool.false_ne_true nofun
  | .str x, b =>
      cases b with
      | str y =>
          simp only [deepEqual, beq_iff_eq]
          exact ⟨fun h => h ▸ .str, fun h => by cases h; rfl⟩
      | _ => exact iff_of_false Bool.false_ne_true nofun
  | .arr as, .arr bs =>
      have hitems := deepEqualItems_iff as bs ha hb hab
      simp only [deepEqual, Bool.and_eq_true, beq_iff_eq]
      constructor
      · rintro ⟨hlength, h⟩
        exact .arr ((hitems hlength).mp h)
      · intro h
        cases h with
        | arr h => exact ⟨h.length_eq, (hitems h.length_eq).mpr h⟩
  | .arr as, .obj gs =>
      have hlength : as.length ≠ gs.length := by simpa [comparable] using hab
      refine iff_of_false ?_ nofun
      simp [deepEqual, hlength]
  | .obj fs, .arr bs =>
      have hlength : fs.length ≠ bs.length := by simpa [comparable] using hab
      refine iff_of_false ?_ nofun
      simp [deepEqual, hlength]
  | .obj fs, .obj gs =>
      obtain ⟨hnodup, -⟩ := distinct_obj.mp ha
      obtain ⟨hnodup', -⟩ := distinct_obj.mp hb
      have hfields := deepEqualFields_iff fs gs (by simpa [distinct] using (Bool.and_eq_true_iff.mp ha).2) hb hab
      simp only [deepEqual, Bool.and_eq_true, beq_iff_eq, hfields]
      constructor
      · rintro ⟨hlength, h⟩
        refine .obj (keys_iff hnodup hlength fun key hkey => ?_) fun key a b hka hkb => ?_
        · obtain ⟨p, hp, rfl⟩ := List.mem_map.mp hkey
          obtain ⟨b, hb', -⟩ := h p hp
          by_contra hnot
          rw [lookup_eq_none.mpr hnot] at hb'
          cases hb'
        · obtain ⟨b', hb', heq⟩ := h (key, a) (mem_of_lookup hka)
          rw [hkb] at hb'
          cases hb'
          exact heq
      · intro h
        cases h with
        | obj hkeys hvalues =>
            refine ⟨?_, fun p hp => ?_⟩
            · have hperm := (List.perm_ext_iff_of_nodup hnodup hnodup').mpr hkeys
              simpa using hperm.length_eq
            · have hkey := (hkeys p.1).mp (List.mem_map_of_mem hp)
              cases hlookup : lookup gs p.1 with
              | none => exact absurd hkey (lookup_eq_none.mp hlookup)
              | some b => exact ⟨b, rfl, hvalues p.1 p.2 b (lookup_of_mem hnodup hp) hlookup⟩
  | .arr _, .null | .arr _, .bool _ | .arr _, .num _ | .arr _, .str _ => exact iff_of_false Bool.false_ne_true nofun
  | .obj _, .null | .obj _, .bool _ | .obj _, .num _ | .obj _, .str _ => exact iff_of_false Bool.false_ne_true nofun

theorem deepEqualItems_iff (as bs : List Json) (ha : distinctItems as = true) (hb : distinctItems bs = true)
    (hab : comparableItems as bs = true) (hlength : as.length = bs.length) :
    deepEqualItems as bs = true ↔ List.Forall₂ JsonEq as bs := by
  match as, bs with
  | [], [] => exact iff_of_true rfl .nil
  | a :: as, b :: bs =>
      simp only [distinctItems, comparableItems, Bool.and_eq_true] at ha hb hab
      rw [deepEqualItems, Bool.and_eq_true, deepEqual_iff a b ha.1 hb.1 hab.1,
        deepEqualItems_iff as bs ha.2 hb.2 hab.2 (by simpa using hlength), List.forall₂_cons]
  | [], _ :: _ | _ :: _, [] => cases hlength

theorem deepEqualFields_iff (fs gs : Fields) (ha : distinctFields fs = true) (hb : (Json.obj gs).distinct = true)
    (hab : comparableFields fs gs = true) : deepEqualFields fs (json (.obj gs)) = true ↔
      ∀ p ∈ fs, ∃ b, lookup gs p.1 = some b ∧ JsonEq p.2 b := by
  match fs with
  | [] => exact iff_of_true rfl fun _ h => absurd h List.not_mem_nil
  | (key, a) :: fs =>
      simp only [distinctFields, comparableFields, Bool.and_eq_true] at ha hab
      rw [deepEqualFields, Bool.and_eq_true, deepEqualFields_iff fs gs ha.2 hb hab.2, List.forall_mem_cons]
      refine and_congr_left fun _ => ?_
      cases hlookup : lookup gs key with
      | some b =>
          rw [property_own hlookup]
          have hcomparable : comparable a b = true := by simpa [hlookup] using hab.1
          have hdistinct : b.distinct = true := (distinct_obj.mp hb).2 (key, b) (mem_of_lookup hlookup)
          simp only [deepEqual_iff a b ha.1 hdistinct hcomparable, Option.some.injEq, exists_eq_left']
      | none =>
          have hkey : key ≠ PROTO := by simpa [hlookup] using hab.1
          have hmissing := deepEqual_missing hlookup hkey a
          exact iff_of_false (fun h => Bool.false_ne_true (hmissing.symm.trans h)) fun ⟨b, hb, _⟩ => nomatch hb

end

/-! ## Types -/

theorem isInteger_iff (text : JsString) : isInteger text = true ↔
    ∃ n : ℤ, ((Decimal.parse text).mantissa * 10 ^ (Decimal.parse text).exponent : ℚ) = n := by
  generalize hd : Decimal.parse text = d
  obtain ⟨m, e⟩ := d
  have hinteger : isInteger text = (decide (0 ≤ e) || m % Nat.pow 10 (-e).toNat == 0) := by
    unfold isInteger
    rw [hd]
  rw [hinteger, Bool.or_eq_true, decide_eq_true_eq, beq_iff_eq]
  by_cases he : 0 ≤ e
  · obtain ⟨k, rfl⟩ := Int.eq_ofNat_of_zero_le he
    exact iff_of_true (.inl he) ⟨m * 10 ^ k, by push_cast; rw [zpow_natCast]⟩
  · obtain ⟨k, rfl⟩ : ∃ k : ℕ, e = -k := ⟨(-e).toNat, by omega⟩
    have hpow : ((10 : ℚ) ^ k) ≠ 0 := by positivity
    have hk : (-(-(k : ℤ))).toNat = k := by omega
    rw [hk, or_iff_right he]
    have hdvd : m % (Nat.pow 10 k : ℕ) = 0 ↔ ∃ n : ℤ, m = n * 10 ^ k := by
      rw [← Int.dvd_iff_emod_eq_zero, show ((Nat.pow 10 k : ℕ) : ℤ) = 10 ^ k from Nat.cast_pow 10 k]
      constructor
      · rintro ⟨n, rfl⟩
        exact ⟨n, Int.mul_comm _ _⟩
      · rintro ⟨n, rfl⟩
        exact ⟨n, Int.mul_comm _ _⟩
    rw [hdvd]
    refine exists_congr fun n => ?_
    rw [zpow_neg, zpow_natCast, ← div_eq_mul_inv, div_eq_iff hpow]
    exact_mod_cast Iff.rfl

theorem hasType_iff {t : JsString} (ht : t ∈ ["string", "number", "boolean", "null", "array", "object"].map js) :
    HasType v t ↔ t = js (Utils.describeType v) := by
  constructor
  · intro h
    simp only [List.map_cons, List.map_nil, List.mem_cons, List.not_mem_nil, or_false] at ht
    rcases ht with rfl | rfl | rfl | rfl | rfl | rfl
    · obtain ⟨s, rfl⟩ := h.string rfl
      rfl
    · obtain ⟨text, rfl⟩ := h.number rfl
      rfl
    · obtain ⟨b, rfl⟩ := h.boolean rfl
      rfl
    · obtain rfl := h.null rfl
      rfl
    · obtain ⟨items, rfl⟩ := h.array rfl
      rfl
    · obtain ⟨fields, rfl⟩ := h.object rfl
      rfl
  · rintro rfl
    cases v <;> constructor <;> intro h <;>
      simp only [Utils.describeType] at h <;>
      first
      | exact absurd h (by decide +kernel)
      | exact ⟨_, rfl⟩
      | rfl

theorem checkType_iff (v : Json) (t : JsString) : checkType (json v) t = true ↔ HasType v t := by
  unfold checkType
  by_cases hinteger : t = js "integer"
  · rw [if_pos hinteger]
    subst hinteger
    have hother {other : JsString} {P : Prop} (h : js "integer" = other) (hne : js "integer" ≠ other) : P := absurd h hne
    constructor
    · intro h
      split at h
      · rename_i text heq
        cases heq
        obtain ⟨n, hn⟩ := (isInteger_iff text).mp h
        exact ⟨fun _ => ⟨text, n, rfl, hn⟩, (hother · (by decide +kernel)), (hother · (by decide +kernel)),
          (hother · (by decide +kernel)), (hother · (by decide +kernel)), (hother · (by decide +kernel)),
          (hother · (by decide +kernel))⟩
      · cases h
    · intro h
      obtain ⟨text, n, rfl, hn⟩ := h.integer rfl
      exact (isInteger_iff text).mpr ⟨n, hn⟩
  · rw [if_neg hinteger]
    by_cases hknown : t ∈ ["string", "number", "boolean", "null", "array", "object"].map js
    · rw [if_pos (by simpa using hknown), hasType_iff hknown, beq_iff_eq]
      rfl
    · rw [if_neg (by simpa using hknown)]
      have hother {other : JsString} {P : Prop} (h : t = other)
          (hmem : other ∈ ["string", "number", "boolean", "null", "array", "object"].map js) : P :=
        absurd (h ▸ hmem) hknown
      exact iff_of_true rfl ⟨fun h => absurd h hinteger, (hother · (by decide +kernel)), (hother · (by decide +kernel)),
        (hother · (by decide +kernel)), (hother · (by decide +kernel)), (hother · (by decide +kernel)),
        (hother · (by decide +kernel))⟩

/-! ## The walker -/

theorem nesting_property {properties : List (JsString × JSONSchema)} {p : JsString × JSONSchema} (h : p ∈ properties) :
    nesting p.2 < nestingProperties properties := by
  induction properties with
  | nil => cases h
  | cons q properties ih =>
      rw [nestingProperties]
      rcases List.mem_cons.mp h with rfl | h
      · omega
      · have := ih h
        omega

theorem hasProperty_iff (h : key ∈ inheritedNames → (lookup fs key).isSome) :
    (json (.obj fs)).hasProperty key = true ↔ (lookup fs key).isSome := by
  unfold JsValue.hasProperty
  cases hlookup : lookup fs key with
  | some w => simp [property_own hlookup]
  | none =>
      have hkey : key ∉ inheritedNames := fun hmem => by simpa [hlookup] using h hmem
      simp [property_none hlookup hkey]

theorem nested_obj {depth : Nat} {type : Option JsString} {required : List JsString}
    {properties : List (JsString × JSONSchema)} {items : Option JSONSchema} {path : JsString}
    (hrequired : type = some (js "object") → ∀ key ∈ required, key ∈ inheritedNames → (lookup fs key).isSome)
    (hnames : type = some (js "object") → ∀ p ∈ properties, p.1 ∈ inheritedNames → (lookup fs p.1).isSome)
    (ih : type = some (js "object") → ∀ p ∈ properties, ∀ w, lookup fs p.1 = some w → ∀ path,
      walk depth (json w) p.2 path = [] ↔ Valid true w p.2) :
    nested (walk depth) (json (.obj fs)) type required properties items path = [] ↔
      (type = some (js "object") → (∀ key ∈ required, (lookup fs key).isSome) ∧
        ∀ p ∈ properties, ∀ w, lookup fs p.1 = some w → Valid true w p.2) := by
  unfold nested
  by_cases htype : type = some (js "object")
  · rw [if_pos ⟨htype, rfl⟩]
    simp only [List.append_nil, List.append_eq_nil_iff, List.map_eq_nil_iff, List.filter_eq_nil_iff, Bool.not_eq_true',
      Bool.not_eq_false, List.flatMap_eq_nil_iff, htype, true_implies]
    refine and_congr (forall₂_congr fun key hkey => hasProperty_iff (hrequired htype key hkey))
      (forall₂_congr fun p hp => ?_)
    cases hlookup : lookup fs p.1 with
    | some w =>
        simp only [property_own hlookup, Option.some.injEq, forall_eq']
        exact ih htype p hp w hlookup _
    | none =>
        have hkey : p.1 ∉ inheritedNames := fun hmem => by simpa [hlookup] using hnames htype p hp hmem
        simp [property_none hlookup hkey]
  · rw [if_neg fun h => htype h.1]
    exact iff_of_true rfl fun h => absurd h htype

theorem nested_arr {depth : Nat} {type : Option JsString} {required : List JsString}
    {properties : List (JsString × JSONSchema)} {items : Option JSONSchema} {path : JsString}
    (ih : type = some (js "array") → ∀ s, items = some s → ∀ w ∈ as, ∀ path,
      walk depth (json w) s path = [] ↔ Valid true w s) :
    nested (walk depth) (json (.arr as)) type required properties items path = [] ↔
      (type = some (js "array") → ∀ s, items = some s → ∀ w ∈ as, Valid true w s) := by
  unfold nested
  rw [if_neg (fun h => by cases h.2), List.nil_append]
  cases items with
  | none => simp
  | some s =>
      simp only
      by_cases htype : type = some (js "array")
      · rw [if_pos htype]
        simp only [List.flatMap_eq_nil_iff, htype, true_implies, Option.some.injEq, forall_eq']
        constructor
        · intro h w hw
          obtain ⟨i, hi, rfl⟩ := List.getElem_of_mem hw
          exact (ih htype s rfl _ hw _).mp (h (as[i], i) (List.mk_mem_zipIdx_iff_getElem?.mpr (by simp)))
        · intro h p hp
          have hw : p.1 ∈ as := by
            obtain ⟨w, i⟩ := p
            exact List.mem_of_getElem? (List.mk_mem_zipIdx_iff_getElem?.mp hp)
          exact (ih htype s rfl _ hw _).mpr (h p.1 hw)
      · rw [if_neg htype]
        exact iff_of_true rfl fun h => absurd h htype

theorem walk_iff (depth : Nat) (v : Json) (s : JSONSchema) (path : JsString) (hdepth : nesting s < depth)
    (hv : v.distinct = true) (hclear : Clear v s) : walk depth (json v) s path = [] ↔ Valid true v s := by
  induction depth generalizing v s path with
  | zero => omega
  | succ depth ih =>
      cases hclear with
      | @mk v enum type required properties items henum hrequired hnames hproperties hitems =>
          rw [nesting] at hdepth
          have hproperty {p : JsString × JSONSchema} (hp : p ∈ properties) : nesting p.2 < depth := by
            have := nesting_property hp
            omega
          have hitem {s : JSONSchema} (hs : items = some s) : nesting s < depth := by
            rw [hs, nestingItems] at hdepth
            omega
          have hnested : nested (walk depth) (json v) type required properties items path = [] ↔
              (∀ fields, v = .obj fields → type = some (js "object") → (∀ key ∈ required, (lookup fields key).isSome) ∧
                ∀ p ∈ properties, ∀ w, lookup fields p.1 = some w → Valid true w p.2) ∧
              ∀ vs, v = .arr vs → type = some (js "array") → ∀ s, items = some s → ∀ w ∈ vs, Valid true w s := by
            cases v with
            | obj fields =>
                have hdistinct := (distinct_obj.mp hv).2
                rw [nested_obj (fun ht key hkey => hrequired fields key rfl ht hkey)
                  (fun ht p hp => hnames fields p rfl ht hp)
                  fun ht p hp w hw path => ih w p.2 path (hproperty hp) (hdistinct _ (mem_of_lookup hw))
                    (hproperties fields p w rfl ht hp hw)]
                simp
            | arr vs =>
                have hdistinct : ∀ w ∈ vs, w.distinct = true := distinct_arr.mp hv
                rw [nested_arr fun ht s hs w hw path => ih w s path (hitem hs) (hdistinct w hw)
                  (hitems vs s w rfl ht hs hw)]
                simp
            | _ => simp [nested, isPlainObject]
          have hchecked : checked (walk depth) (json v) type required properties items path = [] ↔
              (∀ t, type = some t → HasType v t) ∧ nested (walk depth) (json v) type required properties items path = [] := by
            unfold checked
            cases type with
            | none => simp
            | some t =>
                simp only [Option.all_some, Option.some.injEq, forall_eq', ← checkType_iff]
                by_cases ht : checkType (json v) t = true <;> simp [ht]
          have hwalk : walk (depth + 1) (json v) (.mk enum type required properties items) path = [] ↔
              (∀ values, enum = some values → ∃ e ∈ values, JsonEq e v) ∧
                checked (walk depth) (json v) type required properties items path = [] := by
            unfold walk
            cases enum with
            | none => simp
            | some values =>
                have hany : values.any (deepEqual · (json v)) = true ↔ ∃ e ∈ values, JsonEq e v := by
                  rw [List.any_eq_true]
                  refine exists_congr fun e => and_congr_right fun he => ?_
                  obtain ⟨hdistinct, hcomparable⟩ := henum values e rfl he
                  exact deepEqual_iff e v hdistinct hv hcomparable
                simp only [Option.some.injEq, forall_eq', ← hany]
                by_cases hvalues : values.any (deepEqual · (json v)) = true <;> simp [hvalues]
          rw [hwalk, hchecked, hnested]
          constructor
          · rintro ⟨henum, htype, hobj, harr⟩
            exact .mk henum htype (fun fields hf ht => (hobj fields hf (ht rfl)).1)
              (fun fields p w hf ht hp hw => (hobj fields hf (ht rfl)).2 p hp w hw)
              fun vs s w hvs ht hs hw => harr vs hvs (ht rfl) s hs w hw
          · intro h
            cases h with
            | mk henum htype hreq hprops hits =>
                exact ⟨henum, htype, fun fields hf ht => ⟨hreq fields hf fun _ => ht,
                  fun p hp w hw => hprops fields p w hf (fun _ => ht) hp hw⟩,
                  fun vs hvs ht s hs w hw => hits vs s w hvs (fun _ => ht) hs hw⟩

/-- The validator decides its reading of the schemas that nest no deeper than its limit. -/
theorem validateAgainstSchema_iff (v : Parsed) (s : JSONSchema) (hdepth : nesting s ≤ MAX_SCHEMA_DEPTH)
    (hclear : Clear v.1 s) : validateAgainstSchema v.1 s = [] ↔ Valid true v.1 s :=
  walk_iff (MAX_SCHEMA_DEPTH + 1) v.1 s [] (Nat.lt_succ_of_le hdepth) v.2 hclear

/-- A schema of an object with a required integer. -/
def oneInteger : JSONSchema :=
  .mk none (some (js "object")) [js "n"] [(js "n", .mk none (some (js "integer")) [] [] none)] none

def oneField : Parsed := ⟨.obj [(js "n", .num (js "7"))], by decide +kernel⟩

theorem clear_leaf {v : Json} {type : Option JsString} : Clear v (.mk none type [] [] none) := by
  refine .mk ?_ ?_ ?_ ?_ ?_
  · rintro _ _ ⟨⟩
  · intro _ _ _ _ h
    cases h
  · intro _ _ _ _ h
    cases h
  · intro _ _ _ _ _ h
    cases h
  · intro _ _ _ _ _ h
    cases h

theorem clear_oneField : Clear oneField.1 oneInteger := by
  have hname : js "n" ∉ inheritedNames := by decide +kernel
  refine .mk ?_ ?_ ?_ ?_ ?_
  · rintro _ _ ⟨⟩
  · intro _ key _ _ hkey hmem
    obtain rfl := List.mem_singleton.mp hkey
    exact absurd hmem hname
  · intro _ p _ _ hp hmem
    obtain rfl := List.mem_singleton.mp hp
    exact absurd hmem hname
  · intro _ p _ _ _ hp _
    obtain rfl := List.mem_singleton.mp hp
    exact clear_leaf
  · intro _ _ _ h
    cases h

theorem validateAgainstSchema_oneField :
    validateAgainstSchema oneField.1 oneInteger = [] ↔ Valid true oneField.1 oneInteger :=
  validateAgainstSchema_iff oneField oneInteger (by decide +kernel) clear_oneField

/-- Without a type beside it, `required` is not looked at. -/
theorem required_without_type :
    nesting (.mk none none [js "n"] [] none) ≤ MAX_SCHEMA_DEPTH ∧
      validateAgainstSchema (.obj []) (.mk none none [js "n"] [] none) = [] ∧
      ¬Valid false (.obj []) (.mk none none [js "n"] [] none) := by
  refine ⟨by decide +kernel, by decide +kernel, fun h => ?_⟩
  cases h with
  | mk henum htype hrequired hproperties hitems =>
      have h := hrequired [] rfl (fun h => nomatch h) (js "n") (List.mem_singleton.mpr rfl)
      cases h

end WrongStack.SchemaWalk

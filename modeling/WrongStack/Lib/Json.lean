import WrongStack.Lib.JsString

/-!
# JSON values

What `JSON.parse` returns. The fields of an object are listed in its own order, and a number is
given by the text that `JSON.stringify` prints for it.
-/

namespace WrongStack.Lib

inductive Json
  | null
  | bool (b : Bool)
  | num (text : JsString)
  | str (s : JsString)
  | arr (items : List Json)
  | obj (fields : List (JsString × Json))

namespace Json

def get? : Json → JsString → Option Json
  | obj fields, key => (fields.find? (·.1 == key)).map Prod.snd
  | _, _ => none

/-- A property that is read only if it is a string. -/
def getString (v : Json) (key : JsString) : Option JsString :=
  match v.get? key with
  | some (str s) => some s
  | _ => none

def truthy : Json → Bool
  | null => false
  | bool b => b
  | num text => text != js "0"
  | str s => !s.isEmpty
  | arr _ | obj _ => true

/-! ## `JSON.stringify` -/

def hexDigit (n : Nat) : CodeUnit := if n < 10 then unit '0' + n.toUInt16 else unit 'a' + (n - 10).toUInt16

/-- `\u` and four digits. -/
def unicodeEscape (c : CodeUnit) : JsString :=
  let n := c.toNat
  js "\\u" ++ [hexDigit (n / 4096), hexDigit (n / 256 % 16), hexDigit (n / 16 % 16), hexDigit (n % 16)]

def escapeUnit (c : CodeUnit) : JsString :=
  if c = unit '"' then js "\\\""
  else if c = unit '\\' then js "\\\\"
  else if c = 8 then js "\\b"
  else if c = 9 then js "\\t"
  else if c = 10 then js "\\n"
  else if c = 12 then js "\\f"
  else if c = 13 then js "\\r"
  else if c < 32 then unicodeEscape c
  else [c]

/-- Surrogates that are not in a pair are escaped. -/
def escape : JsString → JsString
  | hi :: lo :: rest =>
      if 0xD800 ≤ hi && hi < 0xDC00 && 0xDC00 ≤ lo && lo < 0xE000 then hi :: lo :: escape rest
      else if 0xD800 ≤ hi && hi < 0xE000 then unicodeEscape hi ++ escape (lo :: rest)
      else escapeUnit hi ++ escape (lo :: rest)
  | [c] => if 0xD800 ≤ c && c < 0xE000 then unicodeEscape c else escapeUnit c
  | [] => []

def quote (s : JsString) : JsString := unit '"' :: escape s ++ [unit '"']

mutual

def stringify : Json → JsString
  | null => js "null"
  | bool b => if b then js "true" else js "false"
  | num text => text
  | str s => quote s
  | arr items => unit '[' :: JsString.join (js ",") (stringifyItems items) ++ [unit ']']
  | obj fields => unit '\x7b' :: JsString.join (js ",") (stringifyFields fields) ++ [unit '\x7d']

def stringifyItems : List Json → List JsString
  | [] => []
  | v :: vs => stringify v :: stringifyItems vs

def stringifyFields : List (JsString × Json) → List JsString
  | [] => []
  | (key, v) :: vs => (quote key ++ unit ':' :: stringify v) :: stringifyFields vs

end

end Json

end WrongStack.Lib

/-!
# Paths into JSON values

Reading along a path of keys, and writing a field of an object. `Parsed` is a value as `JSON.parse`
makes it: no object has a key twice.
-/

namespace WrongStack.Lib.Json

abbrev Fields := List (JsString × Json)

variable {v w : Json} {fields : Fields} {key k : JsString} {ks : List JsString}

def lookup (fields : Fields) (key : JsString) : Option Json := (fields.find? (·.1 == key)).map Prod.snd

def setField : Fields → JsString → Json → Fields
  | [], key, v => [(key, v)]
  | f :: fields, key, v => if f.1 = key then (key, v) :: fields else f :: setField fields key v

/-- The value at the end of a path. -/
def at? : List JsString → Json → Option Json
  | [], v => some v
  | key :: ks, v => (v.get? key).bind (at? ks)

/-- A property is written; a primitive value has none. -/
def assign (v : Json) (key : JsString) (x : Json) : Json :=
  match v with
  | obj fields => obj (setField fields key x)
  | _ => v

mutual

def distinct : Json → Bool
  | arr items => distinctItems items
  | obj fields => decide (fields.map Prod.fst).Nodup && distinctFields fields
  | _ => true

def distinctItems : List Json → Bool
  | [] => true
  | v :: vs => distinct v && distinctItems vs

def distinctFields : List (JsString × Json) → Bool
  | [] => true
  | (_, v) :: vs => distinct v && distinctFields vs

end

abbrev Parsed := {v : Json // v.distinct = true}

abbrev ParsedObject := {fields : Fields // (obj fields).distinct = true}

def isObject : Json → Bool
  | obj _ => true
  | _ => false

/-! ## Lookups -/

@[simp] theorem get?_obj : (obj fields).get? key = lookup fields key := rfl

@[simp] theorem lookup_nil : lookup [] key = none := rfl

theorem lookup_cons : lookup ((k, v) :: fields) key = if k = key then some v else lookup fields key := by
  unfold lookup
  rw [List.find?_cons]
  by_cases h : k = key
  · simp [h]
  · rw [if_neg h, beq_eq_false_iff_ne.mpr h]

theorem lookup_eq_none : lookup fields key = none ↔ key ∉ fields.map Prod.fst := by
  rw [lookup, Option.map_eq_none_iff, List.find?_eq_none]
  simp only [beq_iff_eq, List.mem_map, not_exists, not_and]

theorem lookup_setField :
    lookup (setField fields key v) k = if key = k then some v else lookup fields k := by
  induction fields with
  | nil => rw [setField, lookup_cons]
  | cons f fields ih =>
      rw [setField]
      split
      · rename_i hf
        subst hf
        rw [lookup_cons, lookup_cons]
        split <;> rfl
      · rename_i hf
        rw [lookup_cons, lookup_cons, ih]
        split
        · rename_i hk
          rw [if_neg fun h => hf (hk.trans h.symm)]
        · rfl

theorem get?_assign :
    (v.assign key w).get? k = if key = k ∧ v.isObject = true then some w else v.get? k := by
  cases v with
  | obj fields =>
      change lookup (setField fields key w) k = _
      rw [lookup_setField]
      simp [isObject]
  | _ => simp [assign, isObject]

@[simp] theorem isObject_assign : (v.assign key w).isObject = v.isObject := by
  cases v <;> rfl

theorem at?_assign (hk : key ≠ k) : (v.assign key w).at? (k :: ks) = v.at? (k :: ks) := by
  rw [at?, get?_assign, if_neg fun h => hk h.1]
  rfl

theorem distinctFields_iff : distinctFields fields = true ↔ ∀ f ∈ fields, f.2.distinct = true := by
  induction fields with
  | nil => simp [distinctFields]
  | cons f fields ih => simp only [distinctFields, Bool.and_eq_true, ih, List.forall_mem_cons]

theorem distinct_obj : (obj fields).distinct = true ↔
    (fields.map Prod.fst).Nodup ∧ ∀ f ∈ fields, f.2.distinct = true := by
  rw [distinct, Bool.and_eq_true, decide_eq_true_eq, distinctFields_iff]

theorem distinct_arr {items : List Json} : (arr items).distinct = true ↔ ∀ v ∈ items, v.distinct = true := by
  rw [distinct]
  induction items with
  | nil => simp [distinctItems]
  | cons v items ih => simp only [distinctItems, Bool.and_eq_true, ih, List.forall_mem_cons]

theorem distinct_filter (p : JsString × Json → Bool) (h : (obj fields).distinct = true) :
    (obj (fields.filter p)).distinct = true := by
  rw [distinct_obj] at h ⊢
  exact ⟨h.1.sublist (List.filter_sublist.map Prod.fst), fun f hf => h.2 f (List.mem_of_mem_filter hf)⟩

theorem distinct_mapValues (g : JsString → Json → Json)
    (hg : ∀ k v, v.distinct = true → (g k v).distinct = true) (h : (obj fields).distinct = true) :
    (obj (fields.map fun f => (f.1, g f.1 f.2))).distinct = true := by
  rw [distinct_obj] at h ⊢
  refine ⟨?_, fun f hf => ?_⟩
  · rw [List.map_map]
    exact h.1
  · obtain ⟨f', hf', rfl⟩ := List.mem_map.mp hf
    exact hg _ _ (h.2 f' hf')

theorem lookup_mapValues (g : JsString → Json → Json) :
    lookup (fields.map fun f => (f.1, g f.1 f.2)) k = (lookup fields k).map (g k) := by
  induction fields with
  | nil => rfl
  | cons f fields ih =>
      rw [List.map_cons, lookup_cons, lookup_cons, ih]
      split
      · rename_i hk
        rw [hk]
        rfl
      · rfl

theorem lookup_filter (p : JsString → Bool) :
    lookup (fields.filter fun f => p f.1) k = if p k then lookup fields k else none := by
  induction fields with
  | nil => simp
  | cons f fields ih =>
      obtain ⟨key, v⟩ := f
      rw [List.filter_cons, lookup_cons]
      by_cases hkey : key = k
      · subst hkey
        cases hp : p key with
        | true => simp only [if_true, lookup_cons]
        | false =>
            simp only [Bool.false_eq_true, if_false]
            rw [ih, hp]
            rfl
      · rw [if_neg hkey, ← ih]
        split
        · rw [lookup_cons, if_neg hkey]
        · rfl

theorem mem_of_lookup (h : lookup fields k = some v) : (k, v) ∈ fields := by
  obtain ⟨f, hf, rfl⟩ := Option.map_eq_some_iff.mp h
  have hkey := List.find?_some hf
  simp only [beq_iff_eq] at hkey
  exact hkey ▸ List.mem_of_find?_eq_some hf

theorem lookup_of_mem (hnodup : (fields.map Prod.fst).Nodup) (h : (k, v) ∈ fields) : lookup fields k = some v := by
  induction fields with
  | nil => cases h
  | cons f fields ih =>
      obtain ⟨key, w⟩ := f
      rw [List.map_cons, List.nodup_cons] at hnodup
      rw [lookup_cons]
      cases h with
      | head => rw [if_pos rfl]
      | tail _ h =>
          have hne : key ≠ k := by
            rintro rfl
            exact hnodup.1 (List.mem_map.mpr ⟨(key, v), h, rfl⟩)
          rw [if_neg hne]
          exact ih hnodup.2 h

end WrongStack.Lib.Json

/-!
# The strings of a JSON value

A value is traversed with the place of each string: the indices on the way to it, innermost first, and the key of the
field that holds it (none for the value itself and for the items of arrays).
-/

namespace WrongStack.Lib.Json

structure StringAt where
  path : List Nat
  key : Option JsString
  text : JsString
  deriving DecidableEq

mutual

def strings (path : List Nat) (key : Option JsString) : Json → List StringAt
  | str s => [⟨path, key, s⟩]
  | arr items => itemStrings path 0 items
  | obj fields => fieldStrings path 0 fields
  | _ => []

def itemStrings (path : List Nat) (i : Nat) : List Json → List StringAt
  | [] => []
  | v :: vs => strings (i :: path) none v ++ itemStrings path (i + 1) vs

def fieldStrings (path : List Nat) (i : Nat) : List (JsString × Json) → List StringAt
  | [] => []
  | (k, v) :: fs => strings (i :: path) (some k) v ++ fieldStrings path (i + 1) fs

end

mutual

/-- Every string is replaced, the rest stays. -/
def mapStrings (t : StringAt → JsString) (path : List Nat) (key : Option JsString) : Json → Json
  | str s => str (t ⟨path, key, s⟩)
  | arr items => arr (mapItems t path 0 items)
  | obj fields => obj (mapFields t path 0 fields)
  | v => v

def mapItems (t : StringAt → JsString) (path : List Nat) (i : Nat) : List Json → List Json
  | [] => []
  | v :: vs => mapStrings t (i :: path) none v :: mapItems t path (i + 1) vs

def mapFields (t : StringAt → JsString) (path : List Nat) (i : Nat) :
    List (JsString × Json) → List (JsString × Json)
  | [] => []
  | (k, v) :: fs => (k, mapStrings t (i :: path) (some k) v) :: mapFields t path (i + 1) fs

end

variable {t u : StringAt → JsString}

/-! ## The strings of a mapped value -/

mutual

theorem strings_mapStrings (t : StringAt → JsString) (path : List Nat) (key : Option JsString) (v : Json) :
    strings path key (mapStrings t path key v) = (strings path key v).map fun l => { l with text := t l } := by
  cases v with
  | arr items => exact itemStrings_mapItems t path 0 items
  | obj fields => exact fieldStrings_mapFields t path 0 fields
  | _ => rfl

theorem itemStrings_mapItems (t : StringAt → JsString) (path : List Nat) (i : Nat) (vs : List Json) :
    itemStrings path i (mapItems t path i vs) =
      (itemStrings path i vs).map fun l => { l with text := t l } := by
  cases vs with
  | nil => rfl
  | cons v vs =>
      simp only [mapItems, itemStrings, List.map_append]
      rw [strings_mapStrings t (i :: path) none v, itemStrings_mapItems t path (i + 1) vs]

theorem fieldStrings_mapFields (t : StringAt → JsString) (path : List Nat) (i : Nat) (fs : List (JsString × Json)) :
    fieldStrings path i (mapFields t path i fs) =
      (fieldStrings path i fs).map fun l => { l with text := t l } := by
  cases fs with
  | nil => rfl
  | cons f fs =>
      simp only [mapFields, fieldStrings, List.map_append]
      rw [strings_mapStrings t (i :: path) (some f.1) f.2, fieldStrings_mapFields t path (i + 1) fs]

end

/-! ## Two maps one after the other -/

mutual

theorem mapStrings_mapStrings (t u : StringAt → JsString) (path : List Nat) (key : Option JsString) (v : Json) :
    mapStrings u path key (mapStrings t path key v) = mapStrings (fun l => u { l with text := t l }) path key v := by
  cases v with
  | arr items => exact congrArg arr (mapItems_mapItems t u path 0 items)
  | obj fields => exact congrArg obj (mapFields_mapFields t u path 0 fields)
  | _ => rfl

theorem mapItems_mapItems (t u : StringAt → JsString) (path : List Nat) (i : Nat) (vs : List Json) :
    mapItems u path i (mapItems t path i vs) = mapItems (fun l => u { l with text := t l }) path i vs := by
  cases vs with
  | nil => rfl
  | cons v vs =>
      simp only [mapItems]
      rw [mapStrings_mapStrings t u (i :: path) none v, mapItems_mapItems t u path (i + 1) vs]

theorem mapFields_mapFields (t u : StringAt → JsString) (path : List Nat) (i : Nat) (fs : List (JsString × Json)) :
    mapFields u path i (mapFields t path i fs) = mapFields (fun l => u { l with text := t l }) path i fs := by
  cases fs with
  | nil => rfl
  | cons f fs =>
      simp only [mapFields]
      rw [mapStrings_mapStrings t u (i :: path) (some f.1) f.2, mapFields_mapFields t u path (i + 1) fs]

end

/-! ## Maps that change nothing -/

mutual

theorem mapStrings_text (path : List Nat) (key : Option JsString) (v : Json) :
    mapStrings StringAt.text path key v = v := by
  cases v with
  | arr items => exact congrArg arr (mapItems_text path 0 items)
  | obj fields => exact congrArg obj (mapFields_text path 0 fields)
  | _ => rfl

theorem mapItems_text (path : List Nat) (i : Nat) (vs : List Json) : mapItems StringAt.text path i vs = vs := by
  cases vs with
  | nil => rfl
  | cons v vs => rw [mapItems, mapStrings_text (i :: path) none v, mapItems_text path (i + 1) vs]

theorem mapFields_text (path : List Nat) (i : Nat) (fs : List (JsString × Json)) :
    mapFields StringAt.text path i fs = fs := by
  cases fs with
  | nil => rfl
  | cons f fs => rw [mapFields, mapStrings_text (i :: path) (some f.1) f.2, mapFields_text path (i + 1) fs]

end

/-! ## Maps that agree -/

mutual

theorem mapStrings_eq_iff (t u : StringAt → JsString) (path : List Nat) (key : Option JsString) (v : Json) :
    mapStrings t path key v = mapStrings u path key v ↔ ∀ l ∈ strings path key v, t l = u l := by
  cases v with
  | str s => simp [mapStrings, strings]
  | arr items => simpa [mapStrings, strings] using mapItems_eq_iff t u path 0 items
  | obj fields => simpa [mapStrings, strings] using mapFields_eq_iff t u path 0 fields
  | _ => simp [mapStrings, strings]

theorem mapItems_eq_iff (t u : StringAt → JsString) (path : List Nat) (i : Nat) (vs : List Json) :
    mapItems t path i vs = mapItems u path i vs ↔ ∀ l ∈ itemStrings path i vs, t l = u l := by
  cases vs with
  | nil => simp [mapItems, itemStrings]
  | cons v vs =>
      simp only [mapItems, itemStrings, List.cons.injEq, List.mem_append, or_imp, forall_and]
      rw [mapStrings_eq_iff t u (i :: path) none v, mapItems_eq_iff t u path (i + 1) vs]

theorem mapFields_eq_iff (t u : StringAt → JsString) (path : List Nat) (i : Nat) (fs : List (JsString × Json)) :
    mapFields t path i fs = mapFields u path i fs ↔ ∀ l ∈ fieldStrings path i fs, t l = u l := by
  cases fs with
  | nil => simp [mapFields, fieldStrings]
  | cons f fs =>
      simp only [mapFields, fieldStrings, List.cons.injEq, Prod.mk.injEq, true_and, List.mem_append, or_imp,
        forall_and]
      rw [mapStrings_eq_iff t u (i :: path) (some f.1) f.2, mapFields_eq_iff t u path (i + 1) fs]

end

end WrongStack.Lib.Json

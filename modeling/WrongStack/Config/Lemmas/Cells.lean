import WrongStack.Config.ConfigLoader

/-!
# What a layer does to a path

A layer acts on each path on its own: it leaves the path alone, cuts it off with a value that is no
object, or merges a value at its end.
-/

namespace WrongStack.Config

open Lib Json

variable {v w base patch : Json} {fields out : Fields} {k : JsString} {ks : List JsString}
  {e : Option Json}

/-- The value at the end of a path, merged onto what is there. -/
def mergeCell (e : Option Json) (v : Json) : Json :=
  match e with
  | some e => deepMerge e v
  | none => v

/-- What a layer has along a path. -/
inductive Along
  | absent | blocked | found (v : Json)

def along : List JsString → Json → Along
  | [], v => .found v
  | k :: ks, .obj fields =>
      match lookup fields k with
      | some v => along ks v
      | none => .absent
  | _ :: _, _ => .blocked

def Along.apply (e : Option Json) : Along → Option Json
  | .absent => e
  | .blocked => none
  | .found v => some (mergeCell e v)

/-! ## Merging -/

theorem mergeFields_cons : mergeFields out ((k, v) :: fields) =
    mergeFields (if FORBIDDEN_PROTO_KEYS.contains k then out
      else setField out k (mergeCell (lookup out k) v)) fields := by
  rw [mergeFields]
  cases lookup out k <;> rfl

theorem lookup_mergeFields (hnd : (fields.map Prod.fst).Nodup) (hk : k ∉ FORBIDDEN_PROTO_KEYS) :
    lookup (mergeFields out fields) k = match lookup fields k with
      | some v => some (mergeCell (lookup out k) v)
      | none => lookup out k := by
  induction fields generalizing out with
  | nil => rfl
  | cons f fields ih =>
      obtain ⟨key, v⟩ := f
      obtain ⟨hnot, hnd⟩ := List.nodup_cons.mp hnd
      rw [mergeFields_cons, ih hnd, lookup_cons]
      by_cases hkey : key = k
      · subst hkey
        have hforb : FORBIDDEN_PROTO_KEYS.contains key = false := by
          rwa [← Bool.not_eq_true, List.contains_iff_mem]
        rw [lookup_eq_none.mpr hnot, hforb, if_pos rfl]
        simp only [Bool.false_eq_true, if_false, lookup_setField, if_true]
      · have hsame : lookup (if FORBIDDEN_PROTO_KEYS.contains key then out
            else setField out key (mergeCell (lookup out key) v)) k = lookup out k := by
          split
          · rfl
          · rw [lookup_setField, if_neg hkey]
        rw [hsame, if_neg hkey]

theorem get?_deepMerge (hnd : (fields.map Prod.fst).Nodup) (hk : k ∉ FORBIDDEN_PROTO_KEYS) :
    (deepMerge base (.obj fields)).get? k = match lookup fields k with
      | some v => some (mergeCell (base.get? k) v)
      | none => base.get? k := by
  cases base with
  | obj baseFields =>
      rw [deepMerge]
      exact lookup_mergeFields hnd hk
  | _ =>
      rw [deepMerge]
      · change lookup fields k = _
        cases lookup fields k <;> rfl
      · simp

theorem at?_eq_apply (v : Json) : ∀ ks, at? ks v = (along ks v).apply none
  | [] => rfl
  | k :: ks => by
      cases v with
      | obj fields =>
          rw [at?, along, get?_obj]
          cases lookup fields k with
          | none => rfl
          | some w => exact at?_eq_apply w ks
      | _ => rfl

theorem at?_deepMerge (hd : patch.distinct = true) (hks : ∀ k ∈ ks, k ∉ FORBIDDEN_PROTO_KEYS) :
    at? ks (deepMerge base patch) = (along ks patch).apply (at? ks base) := by
  induction ks generalizing base patch with
  | nil => rfl
  | cons k ks ih =>
      cases patch with
      | obj fields =>
          obtain ⟨hnd, hvalues⟩ := distinct_obj.mp hd
          rw [at?, get?_deepMerge hnd (hks k List.mem_cons_self), along]
          cases hl : lookup fields k with
          | none => rfl
          | some v =>
              have hv := hvalues _ (mem_of_lookup hl)
              rw [at?]
              cases base.get? k with
              | none => exact at?_eq_apply v ks
              | some e => exact ih hv fun k hk => hks k (List.mem_cons_of_mem _ hk)
      | arr items =>
          have hget : (deepMerge base (.arr items)).get? k = none := by
            cases base with
            | arr baseItems =>
                rw [deepMerge]
                split <;> rfl
            | _ => rfl
          rw [at?, hget]
          rfl
      | _ => rfl

theorem isObject_deepMerge (base patch : Json) : (deepMerge base patch).isObject = patch.isObject := by
  cases patch with
  | obj fields => cases base <;> rfl
  | arr items =>
      cases base with
      | arr baseItems =>
          rw [deepMerge]
          split <;> rfl
      | _ => rfl
  | _ => rfl

end WrongStack.Config

/-!
# Two loads side by side

The cell at the end of a path in two loads, one with an in-project layer and one without. Each relation
between the two cells is one that the layers to come keep.
-/

namespace WrongStack.Config

open Lib Json

variable {v w : Json} {x y e : Option Json} {a : Along} {items patch : List Json}

/-! ## Lists of primitives -/

/-- What a list holds. A string counts as its only entry. -/
def entries : Option Json → List Json
  | some (.arr items) => items
  | some (.str s) => [.str s]
  | _ => []

def isPrimList : Option Json → Bool
  | some (.arr items) => isPrimitiveArray items
  | _ => false

theorem isPrimList_iff : isPrimList e = true ↔ ∃ items, e = some (.arr items) ∧ isPrimitiveArray items := by
  match e with
  | some (.arr items) => simp [isPrimList]
  | some .null | some (.bool _) | some (.num _) | some (.str _) | some (.obj _) | none => simp [isPrimList]

theorem eq_of_sameValue (h : sameValue v w = true) : v = w := by
  cases v <;> cases w <;> simp_all [sameValue]

theorem mem_dedupe : v ∈ dedupe items ↔ v ∈ items := by
  have key : ∀ (l out : List Json), v ∈ l.foldl (fun out v =>
      if out.any (sameValue v) then out else out ++ [v]) out ↔ v ∈ out ∨ v ∈ l := by
    intro l
    induction l with
    | nil => simp
    | cons x l ih =>
        intro out
        rw [List.foldl_cons, ih]
        split
        · rename_i hany
          obtain ⟨y, hy, hsame⟩ := List.any_eq_true.mp hany
          have hx : x ∈ out := eq_of_sameValue hsame ▸ hy
          rw [List.mem_cons]
          refine ⟨fun h => h.imp_right .inr, fun h => ?_⟩
          rcases h with h | rfl | h
          · exact .inl h
          · exact .inl hx
          · exact .inr h
        · rw [List.mem_append, List.mem_singleton, List.mem_cons, or_assoc]
  exact (key items []).trans (by simp)

theorem isPrimitiveArray_dedupe (h : isPrimitiveArray items = true) :
    isPrimitiveArray (dedupe items) = true := by
  rw [isPrimitiveArray, List.all_eq_true] at h ⊢
  exact fun v hv => h v (mem_dedupe.mp hv)

theorem isPrimitiveArray_append (h : isPrimitiveArray items = true) (h' : isPrimitiveArray patch = true) :
    isPrimitiveArray (items ++ patch) = true := by
  rw [isPrimitiveArray, List.all_append, Bool.and_eq_true]
  exact ⟨h, h'⟩

theorem mergeCell_lists (h : isPrimitiveArray items = true) (h' : isPrimitiveArray patch = true) :
    mergeCell (some (.arr items)) (.arr patch) = .arr (dedupe (items ++ patch)) := by
  rw [mergeCell, deepMerge, if_pos]
  rw [h, h']
  rfl

/-- On anything else a list of primitives replaces what is there. -/
theorem mergeCell_list (h : isPrimList e = false) : mergeCell e (.arr items) = .arr items := by
  match e with
  | some (.arr base) =>
      rw [mergeCell, deepMerge, if_neg]
      rw [Bool.and_eq_true, not_and]
      exact fun hbase => absurd (h.symm.trans hbase) (by simp)
  | none | some .null | some (.bool _) | some (.num _) | some (.str _) | some (.obj _) => rfl

theorem isObject_mergeCell (e : Option Json) (v : Json) : (mergeCell e v).isObject = v.isObject := by
  cases e with
  | none => rfl
  | some w => exact isObject_deepMerge w v

/-- So does a value that is neither an object nor a list of primitives. -/
theorem mergeCell_replaces (ho : v.isObject = false) (hl : isPrimList (some v) = false) :
    mergeCell e v = v := by
  match e, v with
  | none, _ => rfl
  | some _, .obj _ => simp [isObject] at ho
  | some (.arr base), .arr items =>
      rw [mergeCell, deepMerge, if_neg]
      rw [Bool.and_eq_true, not_and]
      exact fun _ hitems => absurd (hl.symm.trans hitems) (by simp)
  | some .null, .arr _ | some (.bool _), .arr _ | some (.num _), .arr _ | some (.str _), .arr _
  | some (.obj _), .arr _ => rfl
  | some _, .null | some _, .bool _ | some _, .num _ | some _, .str _ => rfl

/-- Entries outside a list of primitives are replaced by whatever is merged onto them. -/
theorem mergeCell_over (h : isPrimList e = false) (hne : entries e ≠ []) : mergeCell e v = v := by
  cases e with
  | none => simp [entries] at hne
  | some e =>
      cases e with
      | arr items =>
          cases v with
          | arr items' => exact mergeCell_list h
          | _ => rfl
      | str text => cases v <;> rfl
      | _ => simp [entries] at hne

theorem isObject_iff : v.isObject = true ↔ ∃ fields, v = .obj fields := by
  cases v <;> simp [isObject]

/-! ## Nothing more than without the layer -/

inductive Narrowed : Option Json → Option Json → Prop
  | gone (y : Option Json) : Narrowed none y
  | same (x : Option Json) : Narrowed x x
  | lists {xs ys : List Json} (hx : isPrimitiveArray xs) (hy : isPrimitiveArray ys) (h : xs ⊆ ys) :
      Narrowed (some (.arr xs)) (some (.arr ys))
  | objects (f g : Fields) : Narrowed (some (.obj f)) (some (.obj g))

theorem Narrowed.entries (h : Narrowed x y) : entries x ⊆ entries y := by
  cases h with
  | gone y => exact List.nil_subset _
  | same x => exact fun _ h => h
  | lists _ _ h => exact h
  | objects f g => exact List.nil_subset _

theorem Narrowed.apply (h : Narrowed x y) (a : Along) : Narrowed (a.apply x) (a.apply y) := by
  cases a with
  | absent => exact h
  | blocked => exact .gone none
  | found v =>
      change Narrowed (some (mergeCell x v)) (some (mergeCell y v))
      by_cases ho : v.isObject = true
      · obtain ⟨f, hf⟩ := isObject_iff.mp ((isObject_mergeCell x v).trans ho)
        obtain ⟨g, hg⟩ := isObject_iff.mp ((isObject_mergeCell y v).trans ho)
        rw [hf, hg]
        exact .objects f g
      · by_cases hl : isPrimList (some v) = true
        · obtain ⟨vs, hvs, hv⟩ := isPrimList_iff.mp hl
          obtain rfl := Option.some.inj hvs
          cases h with
          | gone y =>
              by_cases hy : isPrimList y = true
              · obtain ⟨ys, rfl, hy⟩ := isPrimList_iff.mp hy
                rw [mergeCell_lists hy hv]
                refine .lists hv (isPrimitiveArray_dedupe (isPrimitiveArray_append hy hv)) fun z hz => ?_
                exact mem_dedupe.mpr (List.mem_append_right _ hz)
              · have heq : mergeCell y (.arr vs) = .arr vs := mergeCell_list (by simpa using hy)
                rw [heq]
                exact .same _
          | same x => exact .same _
          | lists hx hy hsub =>
              rw [mergeCell_lists hx hv, mergeCell_lists hy hv]
              refine .lists (isPrimitiveArray_dedupe (isPrimitiveArray_append hx hv))
                (isPrimitiveArray_dedupe (isPrimitiveArray_append hy hv)) fun z hz => ?_
              rw [mem_dedupe, List.mem_append] at hz ⊢
              exact hz.imp_left fun h => hsub h
          | objects f g => exact .same _
        · rw [mergeCell_replaces (by simpa using ho) (by simpa using hl),
            mergeCell_replaces (by simpa using ho) (by simpa using hl)]
          exact .same _

/-! ## Nothing less than without the layer -/

/-- The entries of `y` are in `x`, and stay so when a list is concatenated to both. -/
structure Kept (x y : Option Json) : Prop where
  entries : entries y ⊆ entries x
  lists : isPrimList y = true → Config.entries y ≠ [] → isPrimList x = true

theorem Kept.refl (x : Option Json) : Kept x x := ⟨fun _ h => h, fun h _ => h⟩

theorem kept_nothing (h : entries e = []) (x : Option Json) : Kept x e :=
  ⟨h ▸ List.nil_subset _, fun _ hne => absurd h hne⟩

theorem Kept.apply (h : Kept x y) (a : Along) : Kept (a.apply x) (a.apply y) := by
  cases a with
  | absent => exact h
  | blocked => exact .refl none
  | found v =>
      change Kept (some (mergeCell x v)) (some (mergeCell y v))
      by_cases ho : v.isObject = true
      · obtain ⟨g, hg⟩ := isObject_iff.mp ((isObject_mergeCell y v).trans ho)
        rw [hg]
        exact ⟨List.nil_subset _, fun h => absurd h (by simp [isPrimList])⟩
      · by_cases hl : isPrimList (some v) = true
        · obtain ⟨vs, hvs, hv⟩ := isPrimList_iff.mp hl
          obtain rfl := Option.some.inj hvs
          have hx : ∃ xs, mergeCell x (.arr vs) = .arr xs ∧ isPrimitiveArray xs ∧ vs ⊆ xs ∧
              (isPrimList x = true → Config.entries x ⊆ xs) := by
            by_cases hx : isPrimList x = true
            · obtain ⟨xs, rfl, hx⟩ := isPrimList_iff.mp hx
              refine ⟨_, mergeCell_lists hx hv, isPrimitiveArray_dedupe (isPrimitiveArray_append hx hv), ?_, ?_⟩
              · exact fun z hz => mem_dedupe.mpr (List.mem_append_right _ hz)
              · exact fun _ z hz => mem_dedupe.mpr (List.mem_append_left _ hz)
            · exact ⟨vs, mergeCell_list (by simpa using hx), hv, fun _ h => h, fun h => absurd h hx⟩
          obtain ⟨xs, heq, hprim, hvs, hold⟩ := hx
          rw [heq]
          refine ⟨fun z hz => ?_, fun _ _ => hprim⟩
          by_cases hy : isPrimList y = true
          · obtain ⟨ys, rfl, hy'⟩ := isPrimList_iff.mp hy
            rw [mergeCell_lists hy' hv] at hz
            rcases List.mem_append.mp (mem_dedupe.mp hz) with hz | hz
            · exact hold (h.lists hy (List.ne_nil_of_mem hz)) (h.entries hz)
            · exact hvs hz
          · rw [mergeCell_list (by simpa using hy)] at hz
            exact hvs hz
        · rw [mergeCell_replaces (by simpa using ho) (by simpa using hl),
            mergeCell_replaces (by simpa using ho) (by simpa using hl)]
          exact .refl _

end WrongStack.Config

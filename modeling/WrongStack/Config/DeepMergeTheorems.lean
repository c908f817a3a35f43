import WrongStack.Config.DeepMerge

/-!
# The contract of the deep merge

An object of the result is read key by key, a path of the result from key to key.
-/

namespace WrongStack.DeepMerge

open Lib Json Config

variable {options : DeepMergeOptions} {out : Target} {k : JsString} {v base patch : Json} {fields entries : Fields}
  {b p : Option Json} {path : List JsString}

/-! ## One object -/

/-- What an entry of the patch becomes over the value that is read. -/
def nested (options : DeepMergeOptions) (existing : Option Json) (v : Json) : Merged :=
  match existing with
  | some existing =>
      if existing.isObject && v.isObject || isArray existing && isArray v then merge options existing v
      else { value := v }
  | none => { value := v }

/-- What the result has where the sides have these values. -/
def landed (options : DeepMergeOptions) : Option Json → Option Json → Option Json
  | some b, some p => some (nested options (some b) p).value
  | none, p => p
  | b, none => b

theorem mergeEntries_cons : mergeEntries options out ((k, v) :: entries) =
    mergeEntries options
      (if options.skips k then out else out.assign k (nested options (out.read k) v)) entries := by
  rw [mergeEntries]
  cases out.read k <;> rfl

theorem lookup_assign {m : Merged} {key : JsString} : lookup (out.assign key m).own k =
    if key = k ∧ out.setsPrototype key = false then some m.value else lookup out.own k := by
  unfold Target.assign
  cases hsets : out.setsPrototype key with
  | true => simp
  | false =>
      simp only [Bool.false_eq_true, if_false, and_true]
      rw [lookup_setField]

theorem lookup_step {key : JsString} (hkey : key ≠ k) :
    lookup (if options.skips key then out else out.assign key (nested options (out.read key) v)).own k =
      lookup out.own k := by
  split
  · rfl
  · rw [lookup_assign, if_neg fun h => hkey h.1]

theorem offered_cons {key : JsString} : options.offered ((key, v) :: entries) k =
    if key = k ∧ options.skips k = false then some v else options.offered entries k := by
  unfold DeepMergeOptions.offered
  rw [lookup_cons]
  cases options.skips k <;> simp

theorem lookup_mergeEntries_absent (h : options.offered entries k = none) :
    lookup (mergeEntries options out entries).own k = lookup out.own k := by
  induction entries generalizing out with
  | nil => rfl
  | cons e entries ih =>
      obtain ⟨key, v⟩ := e
      rw [offered_cons] at h
      split at h
      · cases h
      · rename_i hkey
        rw [mergeEntries_cons, ih h]
        by_cases hk : key = k
        · subst hk
          have hskips : options.skips key = true := by simpa using hkey
          rw [if_pos hskips]
        · exact lookup_step hk

theorem offered_eq_none_of_not_mem (h : k ∉ entries.map Prod.fst) : options.offered entries k = none := by
  unfold DeepMergeOptions.offered
  rw [lookup_eq_none.mpr h]
  split <;> rfl

/-- A key that the object has keeps its place, and its value is merged or replaced. -/
theorem lookup_mergeEntries_present {e : Json} (hnd : (entries.map Prod.fst).Nodup)
    (h : options.offered entries k = some v) (hown : lookup out.own k = some e) :
    lookup (mergeEntries options out entries).own k = some (nested options (some e) v).value := by
  induction entries generalizing out with
  | nil => simp [DeepMergeOptions.offered] at h
  | cons f entries ih =>
      obtain ⟨key, w⟩ := f
      obtain ⟨hnot, hnd⟩ := List.nodup_cons.mp hnd
      rw [mergeEntries_cons]
      rw [offered_cons] at h
      split at h
      · rename_i hkey
        obtain ⟨rfl, hskips⟩ := hkey
        cases h
        have hread : out.read key = some e := by
          rw [Target.read, hown]
        have hsets : out.setsPrototype key = false := by
          simp [Target.setsPrototype, hown]
        rw [lookup_mergeEntries_absent (offered_eq_none_of_not_mem hnot), if_neg (by simp [hskips]), lookup_assign,
          if_pos ⟨rfl, hsets⟩, hread]
      · rename_i hkey
        have hk : key ≠ k := by
          rintro rfl
          have hin : options.offered entries key = none := offered_eq_none_of_not_mem hnot
          rw [hin] at h
          cases h
        exact ih hnd h ((lookup_step hk).trans hown)

/-- What goes to the setter never becomes a property. -/
theorem lookup_mergeEntries_proto (hown : lookup out.own PROTO = none) :
    lookup (mergeEntries options out entries).own PROTO = none := by
  induction entries generalizing out with
  | nil => exact hown
  | cons f entries ih =>
      obtain ⟨key, w⟩ := f
      rw [mergeEntries_cons]
      apply ih
      by_cases hk : key = PROTO
      · subst hk
        have hsets : out.setsPrototype PROTO = true := by
          simp [Target.setsPrototype, hown]
        split
        · exact hown
        · rw [lookup_assign, if_neg (by simp [hsets]), hown]
      · exact (lookup_step hk).trans hown

/-- The setter is not met. -/
def Calm (options : DeepMergeOptions) (own entries : Fields) : Prop :=
  lookup own PROTO = none → options.offered entries PROTO = none

/-- A key that only the patch has takes the patch's value. -/
theorem lookup_mergeEntries_new (hnd : (entries.map Prod.fst).Nodup) (hcalm : Calm options out.own entries)
    (hinherited : out.inherited = []) (h : options.offered entries k = some v) (hown : lookup out.own k = none) :
    lookup (mergeEntries options out entries).own k = some v := by
  induction entries generalizing out with
  | nil => simp [DeepMergeOptions.offered] at h
  | cons f entries ih =>
      obtain ⟨key, w⟩ := f
      obtain ⟨hnot, hnd⟩ := List.nodup_cons.mp hnd
      have hproto : options.skips key = false → out.setsPrototype key = false := by
        intro hskips
        by_contra hsets
        simp only [Target.setsPrototype, Bool.not_eq_false, Bool.and_eq_true, decide_eq_true_eq,
          Option.isNone_iff_eq_none] at hsets
        obtain ⟨rfl, hnone⟩ := hsets
        have hoffered := hcalm hnone
        rw [offered_cons, if_pos ⟨rfl, hskips⟩] at hoffered
        cases hoffered
      rw [mergeEntries_cons]
      rw [offered_cons] at h
      split at h
      · rename_i hkey
        obtain ⟨rfl, hskips⟩ := hkey
        cases h
        have hsets := hproto hskips
        have hne : key ≠ PROTO := by
          rintro rfl
          simp [Target.setsPrototype, hown] at hsets
        have hread : out.read key = none := by
          rw [Target.read, hown, hinherited]
          simp [hne]
        rw [lookup_mergeEntries_absent (offered_eq_none_of_not_mem hnot), if_neg (by simp [hskips]), lookup_assign,
          if_pos ⟨rfl, hsets⟩, hread]
        rfl
      · have hk : key ≠ k := by
          rintro rfl
          rw [offered_eq_none_of_not_mem hnot] at h
          cases h
        refine ih hnd ?_ ?_ h ((lookup_step hk).trans hown)
        · intro hnone
          split at hnone
          · have hoffered := hcalm hnone
            rw [offered_cons] at hoffered
            split at hoffered
            · cases hoffered
            · exact hoffered
          · rename_i hskips
            have hskips : options.skips key = false := by simpa using hskips
            rw [lookup_assign] at hnone
            split at hnone
            · cases hnone
            · have hoffered := hcalm hnone
              rw [offered_cons] at hoffered
              split at hoffered
              · cases hoffered
              · exact hoffered
        · split
          · exact hinherited
          · rename_i hskips
            rw [Target.assign, hproto (by simpa using hskips)]
            exact hinherited

theorem lookup_merged (hnd : (entries.map Prod.fst).Nodup)
    (hcalm : lookup fields k = none → (options.offered entries k).isSome → Calm options fields entries) :
    lookup (mergeEntries options { own := fields } entries).own k =
      landed options (lookup fields k) (options.offered entries k) := by
  cases hp : options.offered entries k with
  | none =>
      rw [lookup_mergeEntries_absent hp]
      cases lookup fields k <;> rfl
  | some p =>
      cases hb : lookup fields k with
      | some b => exact lookup_mergeEntries_present hnd hp hb
      | none => exact lookup_mergeEntries_new hnd (hcalm hb (by rw [hp]; rfl)) rfl hp hb

/-! ## Two values that meet -/

theorem isObject_iff_obj : v.isObject = true ↔ ∃ fields, v = .obj fields := by
  cases v <;> simp [isObject]

theorem isArray_iff_arr : isArray v = true ↔ ∃ items, v = .arr items := by
  cases v <;> simp [isArray]

theorem deepMerge_obj : deepMerge options (.obj fields) (.obj entries) =
    .obj (mergeEntries options { own := fields } entries).own := by
  rw [deepMerge, merge]

theorem mergeArrays_eq (xs ys : List Json) : options.mergeArrays xs ys = collided options (.arr xs) (.arr ys) := by
  simp only [DeepMergeOptions.mergeArrays, collided, Bool.and_eq_true, decide_eq_true_eq, and_assoc]

theorem deepMerge_collided (h : ¬ BothObjects base patch) : deepMerge options base patch = collided options base patch := by
  cases patch with
  | obj entries =>
      cases base with
      | obj fields => exact absurd ⟨rfl, rfl⟩ h
      | _ =>
          rw [deepMerge, merge, collided]
          all_goals simp
  | arr ys =>
      cases base with
      | arr xs =>
          rw [deepMerge, merge]
          exact mergeArrays_eq xs ys
      | _ =>
          rw [deepMerge, merge, collided]
          all_goals simp
  | _ =>
      rw [deepMerge, merge, collided]
      all_goals simp

theorem nested_objects (h : BothObjects base patch) :
    (nested options (some base) patch).value = deepMerge options base patch := by
  simp only [nested, deepMerge, h.1, h.2, Bool.and_self, Bool.true_or, if_true]

theorem nested_arrays (h : BothArrays base patch) :
    (nested options (some base) patch).value = deepMerge options base patch := by
  simp only [nested, deepMerge, h.1, h.2, Bool.and_self, Bool.or_true, if_true]

theorem nested_other (ho : ¬ BothObjects base patch) (ha : ¬ BothArrays base patch) :
    (nested options (some base) patch).value = patch := by
  unfold BothObjects at ho
  unfold BothArrays at ha
  simp only [nested, Bool.or_eq_true, Bool.and_eq_true]
  rw [if_neg]
  exact fun h => h.elim ho ha

/-- Under `prefer-patch` two values that are not both arrays collide to the patch's. -/
theorem collided_other (ha : ¬ BothArrays base patch) : collided options base patch = options.prefer base patch := by
  cases base with
  | arr xs =>
      cases patch with
      | arr ys => exact absurd ⟨rfl, rfl⟩ ha
      | _ => rw [collided]; simp
  | _ => rw [collided]; simp

/-! ## The merge of the config loader -/

def CONFIG_OPTIONS : DeepMergeOptions := { arrayMode := .concatPrimitives }

theorem config_other (ho : ¬ BothObjects base patch) (ha : ¬ BothArrays base patch) :
    Config.deepMerge base patch = patch := by
  cases patch with
  | obj entries =>
      cases base with
      | obj fields => exact absurd ⟨rfl, rfl⟩ ho
      | _ => rw [Config.deepMerge]; simp
  | arr ys =>
      cases base with
      | arr xs => exact absurd ⟨rfl, rfl⟩ ha
      | _ => rw [Config.deepMerge]; simp
  | _ => rw [Config.deepMerge] <;> simp

theorem ne_proto (h : CONFIG_OPTIONS.skips k = false) : k ≠ PROTO := by
  rintro rfl
  revert h
  decide +kernel

mutual
/-- The loader's merge is the one with the keys guarded and lists of primitives joined. -/
theorem merge_config (base patch : Json) :
    merge CONFIG_OPTIONS base patch = { value := Config.deepMerge base patch, inherited := [] } := by
  match patch with
  | .obj entries =>
      cases base with
      | obj fields => rw [merge, Config.deepMerge, mergeEntries_config]
      | _ =>
          rw [merge, Config.deepMerge] <;> simp [DeepMergeOptions.prefer, CONFIG_OPTIONS]
  | .arr ys =>
      cases base with
      | arr xs =>
          rw [merge, Config.deepMerge]
          simp [DeepMergeOptions.mergeArrays, DeepMergeOptions.prefer, CONFIG_OPTIONS]
      | _ =>
          rw [merge, Config.deepMerge] <;> simp [DeepMergeOptions.prefer, CONFIG_OPTIONS]
  | .null => rw [merge, Config.deepMerge] <;> simp [DeepMergeOptions.prefer, CONFIG_OPTIONS]
  | .bool b => rw [merge, Config.deepMerge] <;> simp [DeepMergeOptions.prefer, CONFIG_OPTIONS]
  | .num text => rw [merge, Config.deepMerge] <;> simp [DeepMergeOptions.prefer, CONFIG_OPTIONS]
  | .str text => rw [merge, Config.deepMerge] <;> simp [DeepMergeOptions.prefer, CONFIG_OPTIONS]

theorem mergeEntries_config (fields : Fields) (entries : List (JsString × Json)) :
    mergeEntries CONFIG_OPTIONS { own := fields } entries = { own := mergeFields fields entries } := by
  match entries with
  | [] => rfl
  | (k, v) :: entries =>
      rw [mergeEntries_cons, mergeFields_cons, ← mergeEntries_config _ entries]
      cases hskips : CONFIG_OPTIONS.skips k with
      | true =>
          have hforbidden : FORBIDDEN_PROTO_KEYS.contains k = true := hskips
          rw [if_pos rfl, if_pos hforbidden]
      | false =>
          have hallowed : ¬ FORBIDDEN_PROTO_KEYS.contains k = true := by
            rw [show FORBIDDEN_PROTO_KEYS.contains k = false from hskips]
            simp
          have hread : Target.read { own := fields } k = lookup fields k := by
            rw [Target.read]
            cases lookup fields k with
            | none => simp [ne_proto hskips]
            | some e => rfl
          have hvalue : (nested CONFIG_OPTIONS (lookup fields k) v).value = mergeCell (lookup fields k) v := by
            cases lookup fields k with
            | none => rfl
            | some e =>
                rw [mergeCell]
                by_cases ho : BothObjects e v
                · rw [nested_objects ho, deepMerge, merge_config e v]
                · by_cases ha : BothArrays e v
                  · rw [nested_arrays ha, deepMerge, merge_config e v]
                  · rw [nested_other ho ha, config_other ho ha]
          have hsets : Target.setsPrototype { own := fields } k = false := by
            simp [Target.setsPrototype, ne_proto hskips]
          simp only [Bool.false_eq_true, if_false, if_neg hallowed, hread, Target.assign, hsets, hvalue]
end

theorem sides_nil : sides options [] base patch = some (some base, some patch) := rfl

theorem sides_cons_both {x y : Json} (hx : lookup fields k = some x) (hy : options.offered entries k = some y) :
    sides options (k :: path) (.obj fields) (.obj entries) = sides options path x y := by
  rw [sides, hx, hy]

theorem sides_cons_edge (h : lookup fields k = none ∨ options.offered entries k = none) :
    sides options (k :: path) (.obj fields) (.obj entries) =
      if path = [] then some (lookup fields k, options.offered entries k) else none := by
  rw [sides]
  rcases h with h | h
  · rw [h]
  · rw [h]
    cases lookup fields k <;> rfl

/-- A path with more than no steps comes from two objects. -/
theorem objects_of_sides (h : sides options (k :: path) base patch = some (b, p)) :
    ∃ fields entries, base = .obj fields ∧ patch = .obj entries := by
  cases base with
  | obj fields =>
      cases patch with
      | obj entries => exact ⟨fields, entries, rfl, rfl⟩
      | _ => exact absurd h.symm (Option.some_ne_none _)
  | _ => exact absurd h.symm (Option.some_ne_none _)

theorem Plain.child (h : Plain options (.obj fields) (.obj entries)) {x y : Json} (hx : lookup fields k = some x)
    (hy : options.offered entries k = some y) : Plain options x y := by
  intro hoff path b p hsides
  refine h hoff (k :: path) b p ?_
  rw [sides_cons_both hx hy]
  exact hsides

theorem Plain.calm (h : Plain options (.obj fields) (.obj entries)) : Calm options fields entries := by
  intro hnone
  unfold DeepMergeOptions.offered
  cases hprotect : options.protectProto with
  | true =>
      rw [if_pos]
      rw [DeepMergeOptions.skips, hprotect]
      decide +kernel
  | false =>
      have hentries := h hprotect [] fields entries rfl hnone
      rw [hentries]
      split <;> rfl

theorem lookup_of_offered (h : options.offered entries k = some v) : lookup entries k = some v := by
  unfold DeepMergeOptions.offered at h
  split at h
  · cases h
  · exact h

theorem at?_deepMerge (hd : patch.distinct = true) (hplain : b = none → Plain options base patch)
    (h : sides options (k :: path) base patch = some (b, p)) :
    at? (k :: path) (deepMerge options base patch) = landed options b p := by
  induction path generalizing k base patch with
  | nil =>
      obtain ⟨fields, entries, rfl, rfl⟩ := objects_of_sides h
      obtain ⟨hnd, -⟩ := distinct_obj.mp hd
      have hsides : lookup fields k = b ∧ options.offered entries k = p := by
        cases hb : lookup fields k with
        | none =>
            rw [sides_cons_edge (Or.inl hb), if_pos rfl, hb] at h
            simpa using h
        | some x =>
            cases hp : options.offered entries k with
            | none =>
                rw [sides_cons_edge (Or.inr hp), if_pos rfl, hb, hp] at h
                simpa using h
            | some y =>
                rw [sides_cons_both hb hp] at h
                simpa [sides_nil] using h
      obtain ⟨rfl, rfl⟩ := hsides
      rw [deepMerge_obj, at?, get?_obj, lookup_merged hnd fun hb _ => (hplain hb).calm]
      cases landed options (lookup fields k) (options.offered entries k) <;> rfl
  | cons k' path ih =>
      obtain ⟨fields, entries, rfl, rfl⟩ := objects_of_sides h
      obtain ⟨hnd, hvalues⟩ := distinct_obj.mp hd
      cases hb : lookup fields k with
      | none => simp [sides_cons_edge (Or.inl hb)] at h
      | some x =>
          cases hp : options.offered entries k with
          | none => simp [sides_cons_edge (Or.inr hp)] at h
          | some y =>
              rw [sides_cons_both hb hp] at h
              have hobjects : BothObjects x y := by
                obtain ⟨f, e, rfl, rfl⟩ := objects_of_sides h
                exact ⟨rfl, rfl⟩
              rw [deepMerge_obj, at?, get?_obj, lookup_mergeEntries_present hnd hp hb, nested_objects hobjects]
              exact ih (hvalues _ (mem_of_lookup (lookup_of_offered hp))) (fun hnone => (hplain hnone).child hb hp) h

theorem at?_sides (h : sides options path base patch = some (b, p)) :
    at? path base = b ∧ ∀ y, p = some y → at? path patch = some y := by
  induction path generalizing base patch with
  | nil =>
      simp only [sides_nil, Option.some.injEq, Prod.mk.injEq] at h
      obtain ⟨rfl, rfl⟩ := h
      exact ⟨rfl, fun y hy => hy⟩
  | cons k path ih =>
      obtain ⟨fields, entries, rfl, rfl⟩ := objects_of_sides h
      by_cases hedge : lookup fields k = none ∨ options.offered entries k = none
      · rw [sides_cons_edge hedge] at h
        split at h
        · rename_i hpath
          subst hpath
          simp only [Option.some.injEq, Prod.mk.injEq] at h
          obtain ⟨rfl, rfl⟩ := h
          constructor
          · rw [at?, get?_obj]
            cases lookup fields k <;> rfl
          · intro y hy
            rw [at?, get?_obj, lookup_of_offered hy]
            rfl
        · cases h
      · rw [not_or] at hedge
        obtain ⟨x, hx⟩ := Option.ne_none_iff_exists'.mp hedge.1
        obtain ⟨y, hy⟩ := Option.ne_none_iff_exists'.mp hedge.2
        rw [sides_cons_both hx hy] at h
        rw [at?, at?, get?_obj, get?_obj, hx, lookup_of_offered hy]
        exact ih h

theorem sides_concat (h : sides options path base patch = some (some (.obj fields), some (.obj entries))) :
    sides options (path ++ [k]) base patch = some (lookup fields k, options.offered entries k) := by
  induction path generalizing base patch with
  | nil =>
      simp only [sides_nil, Option.some.injEq, Prod.mk.injEq] at h
      obtain ⟨rfl, rfl⟩ := h
      by_cases hedge : lookup fields k = none ∨ options.offered entries k = none
      · exact sides_cons_edge hedge
      · rw [not_or] at hedge
        obtain ⟨x, hx⟩ := Option.ne_none_iff_exists'.mp hedge.1
        obtain ⟨y, hy⟩ := Option.ne_none_iff_exists'.mp hedge.2
        rw [List.nil_append, sides_cons_both hx hy, hx, hy, sides_nil]
  | cons key path ih =>
      obtain ⟨f, e, rfl, rfl⟩ := objects_of_sides h
      by_cases hedge : lookup f key = none ∨ options.offered e key = none
      · rw [sides_cons_edge hedge] at h
        split at h
        · simp only [Option.some.injEq, Prod.mk.injEq] at h
          rw [h.1, h.2] at hedge
          simp at hedge
        · cases h
      · rw [not_or] at hedge
        obtain ⟨x, hx⟩ := Option.ne_none_iff_exists'.mp hedge.1
        obtain ⟨y, hy⟩ := Option.ne_none_iff_exists'.mp hedge.2
        rw [sides_cons_both hx hy] at h
        rw [List.cons_append, sides_cons_both hx hy]
        exact ih h

/-- Where two objects meet, the result has their merge. -/
theorem at?_objects {x y : Json} (hd : patch.distinct = true)
    (h : sides options path base patch = some (some x, some y)) (hxy : BothObjects x y) :
    at? path (deepMerge options base patch) = some (deepMerge options x y) := by
  cases path with
  | nil =>
      simp only [sides_nil, Option.some.injEq, Prod.mk.injEq] at h
      obtain ⟨rfl, rfl⟩ := h
      rfl
  | cons k path =>
      rw [at?_deepMerge hd (by simp) h, landed, nested_objects hxy]

theorem at?_concat : at? (path ++ [k]) v = (at? path v).bind fun w => w.get? k := by
  induction path generalizing v with
  | nil =>
      rw [List.nil_append, at?, at?, Option.bind_some]
      cases v.get? k <;> rfl
  | cons key path ih =>
      rw [List.cons_append, at?, at?]
      cases v.get? key with
      | none => rfl
      | some w => exact ih

/-! ## Forbidden keys -/

theorem follow_none (steps : List Step) : follow steps none = none := by
  induction steps with
  | nil => rfl
  | cons s steps ih => exact ih

theorem follow_append (steps steps' : List Step) (e : Option Json) :
    follow (steps ++ steps') e = follow steps' (follow steps e) := by
  induction steps generalizing e with
  | nil => rfl
  | cons s steps ih => exact ih _

theorem child_key : child v (.key k) = v.get? k := by
  cases v <;> rfl

theorem follow_keys : follow (path.map .key) (some v) = at? path v := by
  induction path generalizing v with
  | nil => rfl
  | cons k path ih =>
      rw [List.map_cons, follow, Option.bind_some, child_key, at?]
      cases v.get? k with
      | none => exact follow_none _
      | some w => exact ih

theorem follow_primitive (steps : List Step) (h : isPrimitive v = true) :
    follow (steps ++ [.key k]) (some v) = none := by
  have hchild : ∀ s, child v s = none := by
    intro s
    cases v <;> first | rfl | cases h
  cases steps with
  | nil =>
      rw [List.nil_append, follow, Option.bind_some, hchild]
      rfl
  | cons s steps =>
      rw [List.cons_append, follow, Option.bind_some, hchild]
      exact follow_none _

/-- There is no key inside an array of primitives. -/
theorem follow_primitives {items : List Json} (steps : List Step) (h : isPrimitiveArray items = true) :
    follow (steps ++ [.key k]) (some (.arr items)) = none := by
  cases steps with
  | nil => rfl
  | cons s steps =>
      rw [List.cons_append, follow, Option.bind_some]
      cases s with
      | key key => exact follow_none _
      | index i =>
          rw [child]
          cases hi : items[i]? with
          | none => exact follow_none _
          | some x =>
              apply follow_primitive
              rw [isPrimitiveArray, List.all_eq_true] at h
              exact h x (List.mem_of_getElem? hi)

/-- Two values collide to one of them, or to an array of primitives. -/
theorem collided_cases (options : DeepMergeOptions) (base patch : Json) : collided options base patch = options.prefer base patch ∨
    ∃ xs ys, base = .arr xs ∧ patch = .arr ys ∧ isPrimitiveArray xs = true ∧ isPrimitiveArray ys = true ∧
      collided options base patch = .arr (dedupe (xs ++ ys)) := by
  by_cases ha : BothArrays base patch
  · obtain ⟨xs, rfl⟩ := isArray_iff_arr.mp ha.1
    obtain ⟨ys, rfl⟩ := isArray_iff_arr.mp ha.2
    rw [collided]
    split
    · rename_i h
      exact Or.inr ⟨xs, ys, rfl, rfl, h.2.1, h.2.2, rfl⟩
    · exact Or.inl rfl
  · exact Or.inl (collided_other ha)

theorem guarded_collided (hharm : options.conflictResolution = .preferPatch → Harmless (some base) patch) :
    Guarded (some base) (some patch) (some (collided options base patch)) := by
  intro steps k hk hbase hpatch
  cases hres : options.conflictResolution with
  | preferPatch =>
      have hsome := hharm hres steps k hk hpatch
      rw [hbase] at hsome
      cases hsome
  | preferBase =>
      rcases collided_cases options base patch with heq | ⟨xs, ys, rfl, rfl, hxs, hys, heq⟩
      · rw [heq, DeepMergeOptions.prefer, hres]
        exact hbase
      · rw [heq]
        exact follow_primitives steps (isPrimitiveArray_dedupe (isPrimitiveArray_append hxs hys))

theorem guarded_nested (hobjects : ¬ BothObjects base patch)
    (hpref : options.conflictResolution = .preferBase → BothObjects base patch ∨ BothArrays base patch ∨ base = patch)
    (hharm : options.conflictResolution = .preferPatch → Harmless (some base) patch) :
    Guarded (some base) (some patch) (some (nested options (some base) patch).value) := by
  by_cases harrays : BothArrays base patch
  · rw [nested_arrays harrays, deepMerge_collided hobjects]
    exact guarded_collided hharm
  · rw [nested_other hobjects harrays]
    intro steps k hk hbase hpatch
    cases hres : options.conflictResolution with
    | preferPatch =>
        have hsome := hharm hres steps k hk hpatch
        rw [hbase] at hsome
        cases hsome
    | preferBase =>
        rcases hpref hres with h | h | rfl
        · exact absurd h hobjects
        · exact absurd h harrays
        · exact hbase

theorem Mergeable.child (h : Mergeable options (.obj fields) (.obj entries)) {x y : Json}
    (hx : lookup fields k = some x) (hy : options.offered entries k = some y) : Mergeable options x y where
  preferred hres key path b p hsides := h.preferred hres k (key :: path) b p ((sides_cons_both hx hy).trans hsides)
  guarded hprotect path b p hsides := h.guarded hprotect (k :: path) b p ((sides_cons_both hx hy).trans hsides)
  prototypes := h.prototypes.child hx hy

theorem offered_forbidden (hprotect : options.protectProto = true) (hk : k ∈ FORBIDDEN_PROTO_KEYS) :
    options.offered entries k = none := by
  rw [DeepMergeOptions.offered, if_pos]
  rw [DeepMergeOptions.skips, hprotect, List.contains_iff_mem.mpr hk]
  rfl

theorem guarded_deepMerge (hd : patch.distinct = true) (hprotect : options.protectProto = true)
    (h : Mergeable options base patch) :
    Guarded (some base) (some patch) (some (deepMerge options base patch)) := by
  intro steps k hk hbase hpatch
  induction steps generalizing base patch with
  | nil =>
      by_cases hobjects : BothObjects base patch
      · obtain ⟨fields, rfl⟩ := isObject_iff_obj.mp hobjects.1
        obtain ⟨entries, rfl⟩ := isObject_iff_obj.mp hobjects.2
        rw [deepMerge_obj]
        exact (lookup_mergeEntries_absent (offered_forbidden hprotect hk)).trans hbase
      · rw [deepMerge_collided hobjects]
        refine guarded_collided (fun hres => ?_) [] k hk hbase hpatch
        exact h.guarded hprotect [] _ _ rfl (Or.inr hres) fun b' hb' => (Option.some.inj hb') ▸ hobjects
  | cons s steps ih =>
      by_cases hobjects : BothObjects base patch
      · obtain ⟨fields, rfl⟩ := isObject_iff_obj.mp hobjects.1
        obtain ⟨entries, rfl⟩ := isObject_iff_obj.mp hobjects.2
        obtain ⟨hnd, hvalues⟩ := distinct_obj.mp hd
        cases s with
        | index i =>
            rw [List.cons_append, follow, Option.bind_some, child, follow_none] at hpatch
            · cases hpatch
            · simp
            · simp
        | key key =>
            rw [List.cons_append, follow, Option.bind_some, child_key] at hbase hpatch ⊢
            rw [get?_obj] at hbase hpatch
            rw [deepMerge_obj, get?_obj, lookup_merged hnd fun _ _ => h.prototypes.calm]
            cases hx : lookup fields key with
            | none =>
                cases hy : options.offered entries key with
                | none => exact follow_none _
                | some y =>
                    have hsides : sides options [key] (.obj fields) (.obj entries) = some (none, some y) := by
                      rw [sides_cons_edge (Or.inl hx), if_pos rfl, hx, hy]
                    have hharm := h.guarded hprotect [key] none y hsides (Or.inl rfl) (by simp)
                    rw [lookup_of_offered hy] at hpatch
                    have hsome := hharm steps k hk hpatch
                    rw [follow_none] at hsome
                    cases hsome
            | some x =>
                rw [hx] at hbase
                cases hy : options.offered entries key with
                | none => exact hbase
                | some y =>
                    rw [lookup_of_offered hy] at hpatch
                    rw [landed]
                    by_cases hxy : BothObjects x y
                    · rw [nested_objects hxy]
                      exact ih (hvalues _ (mem_of_lookup (lookup_of_offered hy))) (h.child hx hy) hbase hpatch
                    · have hsides : sides options [key] (.obj fields) (.obj entries) = some (some x, some y) :=
                        sides_cons_both hx hy
                      refine guarded_nested hxy (fun hres => h.preferred hres key [] x y hsides) (fun hres => ?_)
                        steps k hk hbase hpatch
                      exact h.guarded hprotect [key] _ _ hsides (Or.inr hres) fun b' hb' => (Option.some.inj hb') ▸ hxy
      · rw [deepMerge_collided hobjects]
        refine guarded_collided (fun hres => ?_) (s :: steps) k hk hbase hpatch
        exact h.guarded hprotect [] _ _ rfl (Or.inr hres) fun b' hb' => (Option.some.inj hb') ▸ hobjects

/-! ## The contract -/

theorem obeys_objects {x y : Json} {result : Option Json} (h : BothObjects x y) :
    Obeys options result (some x) (some y) ↔ ∃ fields, result = some (.obj fields) := by
  obtain ⟨f, rfl⟩ := isObject_iff_obj.mp h.1
  obtain ⟨e, rfl⟩ := isObject_iff_obj.mp h.2
  rfl

theorem obeys_collided {x y : Json} {result : Option Json} (h : ¬ BothObjects x y) :
    Obeys options result (some x) (some y) ↔ result = some (collided options x y) := by
  cases x with
  | obj f =>
      cases y with
      | obj e => exact absurd ⟨rfl, rfl⟩ h
      | _ => rw [Obeys]; simp
  | _ => rw [Obeys]; simp

theorem obeys_deepMerge {x y : Json} : Obeys options (some (deepMerge options x y)) (some x) (some y) := by
  by_cases h : BothObjects x y
  · rw [obeys_objects h]
    obtain ⟨f, rfl⟩ := isObject_iff_obj.mp h.1
    obtain ⟨e, rfl⟩ := isObject_iff_obj.mp h.2
    exact ⟨_, congrArg some deepMerge_obj⟩
  · rw [obeys_collided h, deepMerge_collided h]

theorem obeys_nested {x y : Json}
    (hpref : options.conflictResolution = .preferBase → BothObjects x y ∨ BothArrays x y ∨ x = y) :
    Obeys options (some (nested options (some x) y).value) (some x) (some y) := by
  by_cases ho : BothObjects x y
  · rw [nested_objects ho]
    exact obeys_deepMerge
  · by_cases ha : BothArrays x y
    · rw [nested_arrays ha]
      exact obeys_deepMerge
    · rw [obeys_collided ho, nested_other ho ha, collided_other ha]
      cases hres : options.conflictResolution with
      | preferPatch => rw [DeepMergeOptions.prefer, hres]
      | preferBase =>
          rcases hpref hres with h | h | rfl
          · exact absurd h ho
          · exact absurd h ha
          · rw [DeepMergeOptions.prefer, hres]

theorem contract_of_mergeable (hd : patch.distinct = true) (h : Mergeable options base patch) :
    Contract options base patch (deepMerge options base patch) where
  at_path path b p hsides := by
    cases path with
    | nil =>
        simp only [sides_nil, Option.some.injEq, Prod.mk.injEq] at hsides
        obtain ⟨rfl, rfl⟩ := hsides
        exact obeys_deepMerge
    | cons k path =>
        rw [at?_deepMerge hd (fun _ => h.prototypes) hsides]
        cases b with
        | none => cases p <;> rfl
        | some x =>
            cases p with
            | none => cases x <;> rfl
            | some y => exact obeys_nested fun hres => h.preferred hres k path x y hsides
  guarded hprotect := guarded_deepMerge hd hprotect h

theorem plain_of_contract (hd : patch.distinct = true) (h : Contract options base patch (deepMerge options base patch)) :
    Plain options base patch := by
  intro hoff path fields entries hsides hnone
  by_contra hsome
  obtain ⟨v, hv⟩ := Option.ne_none_iff_exists'.mp hsome
  have hoffered : options.offered entries PROTO = some v := by
    rw [DeepMergeOptions.offered, if_neg, hv]
    simp [DeepMergeOptions.skips, hoff]
  have hobeys := h.at_path (path ++ [PROTO]) none (some v) (by rw [sides_concat hsides, hnone, hoffered])
  have hat : at? (path ++ [PROTO]) (deepMerge options base patch) = some v := hobeys
  rw [at?_concat, at?_objects hd hsides ⟨rfl, rfl⟩, deepMerge_obj, Option.bind_some, get?_obj,
    lookup_mergeEntries_proto hnone] at hat
  cases hat

/-- What collides to the patch's value is the patch's value, where that holds a key. -/
theorem collided_patch (hres : options.conflictResolution = .preferPatch) {steps : List Step}
    (hpatch : (follow (steps ++ [.key k]) (some patch)).isSome) : collided options base patch = patch := by
  rcases collided_cases options base patch with heq | ⟨xs, ys, rfl, rfl, -, hys, -⟩
  · rw [heq, DeepMergeOptions.prefer, hres]
  · rw [follow_primitives steps hys] at hpatch
    cases hpatch

theorem mergeable_of_contract (hd : patch.distinct = true)
    (h : Contract options base patch (deepMerge options base patch)) : Mergeable options base patch where
  preferred hres k path x y hsides := by
    by_cases ho : BothObjects x y
    · exact Or.inl ho
    · by_cases ha : BothArrays x y
      · exact Or.inr (Or.inl ha)
      · have hobeys := (obeys_collided ho).mp (h.at_path (k :: path) _ _ hsides)
        rw [at?_deepMerge hd (by simp) hsides, landed, nested_other ho ha, collided_other ha,
          DeepMergeOptions.prefer, hres] at hobeys
        exact Or.inr (Or.inr (Option.some.inj hobeys).symm)
  guarded hprotect path b p hsides htaken hobjects := by
    intro steps k hk hpatch
    by_contra hnone
    rw [Option.not_isSome_iff_eq_none] at hnone
    obtain ⟨hb, hp⟩ := at?_sides hsides
    have hat : at? path (deepMerge options base patch) = some p := by
      have hobeys := h.at_path path b (some p) hsides
      cases b with
      | none => exact hobeys
      | some x =>
          have hres : options.conflictResolution = .preferPatch := htaken.resolve_left (by simp)
          rw [obeys_collided (hobjects x rfl), collided_patch hres hpatch] at hobeys
          exact hobeys
    have hclean := h.guarded hprotect (path.map .key ++ steps) k hk
    simp only [List.append_assoc, follow_append (path.map .key), follow_keys, hb, hp p rfl, hat] at hclean
    rw [hclean hnone hpatch] at hpatch
    cases hpatch
  prototypes := plain_of_contract hd h

/-- **The merge meets its contract exactly on the trees whose values below the root do not collide under
`prefer-base`, whose values taken whole have no forbidden key, and that bring no `__proto__` of their own
where the guard is off.** -/
theorem deepMerge_contract_iff (options : DeepMergeOptions) (base patch : Parsed) :
    Contract options base.1 patch.1 (deepMerge options base.1 patch.1) ↔ Mergeable options base.1 patch.1 :=
  ⟨mergeable_of_contract patch.2, contract_of_mergeable patch.2⟩

/-- The nested value of the patch wins under `prefer-base`. -/
theorem nested_scalar_overwritten : ¬ ∀ (options : DeepMergeOptions) (base patch : Parsed),
    Contract options base.1 patch.1 (deepMerge options base.1 patch.1) := by
  intro h
  have hpath := (h { conflictResolution := .preferBase } ⟨.obj [(js "a", .bool true)], by decide +kernel⟩
    ⟨.obj [(js "a", .bool false)], by decide +kernel⟩).at_path [js "a"] (some (.bool true)) (some (.bool false)) rfl
  have hvalue : some (Json.bool false) = some (Json.bool true) := hpath
  simp at hvalue

end WrongStack.DeepMerge

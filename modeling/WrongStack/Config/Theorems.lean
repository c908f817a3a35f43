import WrongStack.Config.Lemmas.Agreement

/-!
# What is left of an in-project config

Nothing of the denied keys and of the lists that widen what an agent may do, and everything of the two
paths that the law speaks of besides.
-/

namespace WrongStack.Config

open Lib Json

variable {inProject fields : Fields} {v : Json} {k : JsString} {e : Option Json} {keys : List String}

theorem lookup_dropKeys :
    lookup (dropKeys keys fields) k = if (keys.map js).contains k then none else lookup fields k := by
  rw [dropKeys, lookup_filter fun key => !(keys.map js).contains key]
  cases (keys.map js).contains k <;> rfl

theorem distinct_stripExec (h : v.distinct = true) : (stripExec v).distinct = true := by
  cases v with
  | obj exec => exact distinct_filter _ h
  | _ => exact h

theorem distinct_stripTools (h : v.distinct = true) : (stripTools v).distinct = true := by
  cases v with
  | obj tools =>
      refine distinct_mapValues (fun k v => if k = js "exec" then stripExec v else v) (fun k v hv => ?_) h
      split
      · exact distinct_stripExec hv
      · exact hv
  | _ => exact h

theorem distinct_stripSkills (h : v.distinct = true) : (stripSkills v).distinct = true := by
  cases v with
  | obj skills => exact distinct_filter _ h
  | _ => exact h

theorem distinct_strip (h : (Json.obj inProject).distinct = true) :
    (Json.obj (stripUnsafeInProjectFields inProject)).distinct = true := by
  refine distinct_mapValues stripValue (fun k v hv => ?_) (distinct_filter _ h)
  unfold stripValue
  split
  · exact distinct_stripTools hv
  · split
    · exact distinct_stripSkills hv
    · exact hv

theorem lookup_strip : lookup (stripUnsafeInProjectFields inProject) k =
    if IN_PROJECT_ALLOWED_KEYS.contains k then (lookup inProject k).map (stripValue k) else none := by
  rw [stripUnsafeInProjectFields, lookup_mapValues stripValue,
    lookup_filter fun key => IN_PROJECT_ALLOWED_KEYS.contains key]
  split <;> rfl

/-! ## Along the protected paths -/

theorem strip_names :
    (∀ k ∈ KNOWN_DENIED_IN_PROJECT, IN_PROJECT_ALLOWED_KEYS.contains k = false) ∧
    (IN_PROJECT_ALLOWED_KEYS.contains (js "autonomy") = true ∧ js "autonomy" ≠ js "tools" ∧
      js "autonomy" ≠ js "skills" ∧ js "skills" ≠ js "tools") ∧
    (IN_PROJECT_ALLOWED_KEYS.contains (js "tools") = true ∧
      (["allow", "danger"].map js).contains (js "deny") = false ∧
      (["allow", "danger"].map js).contains (js "allow") = true ∧
      (["allow", "danger"].map js).contains (js "danger") = true) ∧
    (["extraDirs", "registryUrl"].map js).contains (js "extraDirs") = true ∧
    (["extraDirs", "registryUrl"].map js).contains (js "registryUrl") = true := by
  decide +kernel

theorem along_denied (hk : k ∈ KNOWN_DENIED_IN_PROJECT) :
    along [k] (.obj (stripUnsafeInProjectFields inProject)) = .absent := by
  rw [along, lookup_strip, strip_names.1 k hk]
  rfl

theorem along_yolo : along AUTONOMY_YOLO (.obj (stripUnsafeInProjectFields inProject)) =
    along AUTONOMY_YOLO (.obj inProject) := by
  obtain ⟨hallowed, htools, hskills, -⟩ := strip_names.2.1
  have hid : stripValue (js "autonomy") = id := by
    funext v
    rw [stripValue, if_neg htools, if_neg hskills]
    rfl
  rw [AUTONOMY_YOLO, along, along, lookup_strip, hallowed, hid]
  simp

/-- Only the two lists beside it are taken from the section of `exec`. -/
theorem along_stripExec (hk : ((["allow", "danger"].map js).contains k) = false) :
    ∀ v, along [k] (stripExec v) = along [k] v
  | .obj exec => by
      rw [stripExec, along, along, lookup_dropKeys, hk]
      rfl
  | .null | .bool _ | .num _ | .str _ | .arr _ => rfl

theorem along_deny : along EXEC_DENY (.obj (stripUnsafeInProjectFields inProject)) =
    along EXEC_DENY (.obj inProject) := by
  obtain ⟨hallowed, hdeny, -, -⟩ := strip_names.2.2.1
  rw [EXEC_DENY, along, along, lookup_strip, hallowed, if_pos rfl]
  cases lookup inProject (js "tools") with
  | none => rfl
  | some tools =>
      simp only [Option.map_some, stripValue, if_true]
      cases tools with
      | obj fields =>
          rw [stripTools, along, along,
            lookup_mapValues fun k v => if k = js "exec" then stripExec v else v]
          cases lookup fields (js "exec") with
          | none => rfl
          | some exec =>
              simp only [Option.map_some, if_true]
              exact along_stripExec hdeny exec
      | _ => rfl

/-- A layer gives a path nothing. -/
def Along.Empty (a : Along) : Prop := a = .absent ∨ a = .blocked

theorem along_dropKeys {ks : List JsString} (hk : (keys.map js).contains k = true) :
    (along (k :: ks) (.obj (dropKeys keys fields))).Empty := by
  rw [along, lookup_dropKeys, hk]
  exact .inl rfl

theorem along_exec {ks : List JsString} (hk : (["allow", "danger"].map js).contains k = true) :
    ∀ v, (along (js "exec" :: k :: ks) (stripTools v)).Empty
  | .obj tools => by
      rw [stripTools, along, lookup_mapValues fun k v => if k = js "exec" then stripExec v else v]
      cases lookup tools (js "exec") with
      | none => exact .inl rfl
      | some exec =>
          simp only [Option.map_some, if_true]
          cases exec with
          | obj fields => exact along_dropKeys hk
          | _ => exact .inr rfl
  | .null | .bool _ | .num _ | .str _ | .arr _ => .inr rfl

theorem along_skills {ks : List JsString} (hk : (["extraDirs", "registryUrl"].map js).contains k = true) :
    ∀ v, (along (k :: ks) (stripSkills v)).Empty
  | .obj _ => along_dropKeys hk
  | .null | .bool _ | .num _ | .str _ | .arr _ => .inr rfl

/-- What holds of every stripped section holds along the key of the section. -/
theorem along_section {key : JsString} {ks : List JsString}
    (hsection : ∀ v, (along ks (stripValue key v)).Empty) :
    (along (key :: ks) (.obj (stripUnsafeInProjectFields inProject))).Empty := by
  rw [along, lookup_strip]
  cases IN_PROJECT_ALLOWED_KEYS.contains key with
  | false => exact .inl rfl
  | true =>
      cases lookup inProject key with
      | none => exact .inl rfl
      | some v => exact hsection v

theorem along_expanding {ks : List JsString} (hks : ks ∈ EXPANDING) :
    (along ks (.obj (stripUnsafeInProjectFields inProject))).Empty := by
  obtain ⟨-, ⟨-, -, -, hother⟩, ⟨-, -, hallow, hdanger⟩, hdirs, hurl⟩ := strip_names
  have hskills : stripValue (js "skills") = stripSkills := by
    funext v
    rw [stripValue, if_neg hother, if_pos rfl]
  simp only [EXPANDING, List.mem_cons, List.not_mem_nil, or_false] at hks
  rcases hks with rfl | rfl | rfl | rfl
  · exact along_section fun v => along_exec hallow v
  · exact along_section fun v => along_exec hdanger v
  · exact along_section fun v => hskills ▸ along_skills hdirs v
  · exact along_section fun v => hskills ▸ along_skills hurl v

end WrongStack.Config

/-!
# Loads that go through

With the flags below a load succeeds whatever the files hold, and along a protected path it shows what the
files and the flags have there.
-/

namespace WrongStack.Config

open Lib Json

variable {cfg c ctx : Json} {e : Option Json} {ks : List JsString} {k : JsString}

def thresholds : List (String × String) :=
  [("warnThreshold", "0.6"), ("softThreshold", "0.75"), ("hardThreshold", "0.9")]

def THRESHOLDS : Json := object (thresholds.map fun f => (f.1, number f.2))

/-- Flags that repeat what every load must have. -/
def quietFlags : Parsed := ⟨object [("version", number "1"), ("context", THRESHOLDS)], by decide +kernel⟩

/-- Flags that deny no command. -/
def denyFlags : Parsed :=
  ⟨object [("version", number "1"), ("context", THRESHOLDS),
    ("tools", object [("exec", object [("deny", .arr [])])])], by decide +kernel⟩

/-- Nothing but the flags is merged after the in-project config. -/
def withFlags (flags : Parsed) : After where
  env := fun _ => none
  sources := []
  cliFlags := some flags
  vault := none
  positive := fun _ => false
  strict := false

/-- What a load needs of the flags. -/
structure Suffices (flags : Json) : Prop where
  version : flags.get? (js "version") = some (number "1")
  context : flags.get? (js "context") = some THRESHOLDS

theorem suffices_quiet : Suffices quietFlags.1 := ⟨rfl, rfl⟩

theorem suffices_deny : Suffices denyFlags.1 := ⟨rfl, rfl⟩

theorem validateContext_total (h : ∀ f ∈ thresholds, c.get? (js f.1) = some (number f.2)) :
    ∃ c', validateContext c = .ok c' := by
  have hordered : (Decimal.ge (js "0.6") (js "0.75") || Decimal.ge (js "0.75") (js "0.9")) = false := by
    decide +kernel
  have hok : ∀ f ∈ thresholds, threshold c f.1 = .ok (js f.2) := by
    intro f hf
    rw [threshold, h f hf]
    rfl
  unfold validateContext
  rw [hok ("warnThreshold", "0.6") (by simp [thresholds]), hok ("softThreshold", "0.75") (by simp [thresholds]),
    hok ("hardThreshold", "0.9") (by simp [thresholds])]
  simp only [bind, Except.bind, hordered, Bool.false_eq_true, if_false]
  split
  · split
    · exact ⟨_, rfl⟩
    · exact ⟨_, rfl⟩
  · exact ⟨_, rfl⟩
  · exact ⟨_, rfl⟩

theorem resolveApiKeys_ok (positive : Positive) (cfg : Json) :
    resolveApiKeys positive cfg = cfg ∨ ∃ x, resolveApiKeys positive cfg = cfg.assign (js "providers") x := by
  unfold resolveApiKeys
  cases cfg.get? (js "providers") with
  | none => exact .inl rfl
  | some providers => exact .inr ⟨_, rfl⟩

/-- The flags have a field, and so has the config that they are merged onto. -/
theorem get?_flags {flags v : Json} (hd : flags.distinct = true) (hk : k ∉ FORBIDDEN_PROTO_KEYS)
    (h : flags.get? k = some v) : (deepMerge cfg flags).get? k = some (mergeCell (cfg.get? k) v) := by
  cases flags with
  | obj fields =>
      rw [get?_deepMerge (distinct_obj.mp hd).1 hk]
      rw [get?_obj] at h
      rw [h]
  | _ => simp [get?] at h

theorem mergeCell_num (e : Option Json) (text : JsString) : mergeCell e (.num text) = .num text := by
  cases e <;> rfl

theorem get?_thresholds (e : Option Json) {f : String × String} (hf : f ∈ thresholds) :
    (mergeCell e THRESHOLDS).get? (js f.1) = some (number f.2) := by
  have hown : THRESHOLDS.get? (js f.1) = some (number f.2) := by
    simp only [thresholds, List.mem_cons, List.not_mem_nil, or_false] at hf
    rcases hf with rfl | rfl | rfl <;> rfl
  cases e with
  | none => exact hown
  | some base =>
      have hkeys : ∀ f ∈ thresholds, js f.1 ∉ FORBIDDEN_PROTO_KEYS := by decide +kernel
      have hmerged : (deepMerge base THRESHOLDS).get? (js f.1) =
          some (mergeCell (base.get? (js f.1)) (number f.2)) := get?_flags (by decide +kernel) (hkeys f hf) hown
      rw [mergeCell, hmerged, number, mergeCell_num]

theorem validateBehavior_total (cfg : Json) {flags : Json} (hd : flags.distinct = true)
    (hs : Suffices flags) :
    ∃ c, validateBehavior (resolveApiKeys (fun _ => false) (deepMerge cfg flags)) = .ok c := by
  have hversion : (deepMerge cfg flags).get? (js "version") = some (number "1") := by
    rw [get?_flags hd (by decide +kernel) hs.version, number, mergeCell_num]
  have hcontext : (deepMerge cfg flags).get? (js "context") =
      some (mergeCell (cfg.get? (js "context")) THRESHOLDS) := get?_flags hd (by decide +kernel) hs.context
  have hkept : ∀ k, k ≠ js "providers" →
      (resolveApiKeys (fun _ => false) (deepMerge cfg flags)).get? k = (deepMerge cfg flags).get? k := by
    intro k hk
    rcases resolveApiKeys_ok (fun _ => false) (deepMerge cfg flags) with heq | ⟨x, heq⟩
    · rw [heq]
    · rw [heq, get?_assign, if_neg fun h => hk h.1.symm]
  obtain ⟨ctx, hctx⟩ := validateContext_total (c := mergeCell (cfg.get? (js "context")) THRESHOLDS)
    fun f hf => get?_thresholds _ hf
  have htruthy : truthy (mergeCell (cfg.get? (js "context")) THRESHOLDS) = true := by
    obtain ⟨fields, hfields⟩ := isObject_iff.mp (isObject_mergeCell (cfg.get? (js "context")) THRESHOLDS)
    rw [hfields]
    rfl
  unfold validateBehavior
  rw [hkept _ (by decide +kernel), hkept _ (by decide +kernel), hversion, hcontext]
  have hone : isVersionOne (number "1") = true := by decide +kernel
  simp only [Option.map_some, Option.getD_some, htruthy, hctx, hone, Bool.not_true, Bool.false_eq_true,
    if_false, Except.map]
  exact ⟨_, rfl⟩

theorem load_withFlags {flags : Parsed} (hs : Suffices flags.1) (b : Before) (inProject : Fields) :
    ∃ c, load b (withFlags flags) inProject = .ok c := by
  obtain ⟨c, hc⟩ := validateBehavior_total
    (deepMerge b.merged (.obj (stripUnsafeInProjectFields inProject))) flags.2 hs
  have henv : ∀ cfg, applyEnv (withFlags flags).env cfg = .ok cfg := fun _ => rfl
  have hvalid : validateBehavior (resolveApiKeys (withFlags flags).positive ((withFlags flags).layered
      (deepMerge b.merged (.obj (stripUnsafeInProjectFields inProject))))) = .ok c := hc
  refine ⟨c, ?_⟩
  unfold load After.finish
  simp only [henv, bind, Except.bind, hvalid]
  rfl

/-- What a load with flags has along a protected path. -/
theorem at?_withFlags {flags : Parsed} {b : Before} {inProject : Fields}
    (hks : ks = AUTONOMY_YOLO ∨ ks = EXEC_DENY ∨ ks ∈ EXPANDING)
    (h : load b (withFlags flags) inProject = .ok c) :
    at? ks c = (along ks flags.1).apply
      (at? ks (deepMerge b.merged (.obj (stripUnsafeInProjectFields inProject)))) := by
  obtain ⟨hdenied, hyolo, hexp, hdeny⟩ := protected_mergeable
  obtain ⟨-, -, -, -, -, -, hproviders, hcontext, -, -, -⟩ := unprotected
  obtain ⟨x, henv, hv⟩ := finish_ok h
  obtain rfl := Except.ok.inj henv
  obtain ⟨ctx, rfl⟩ := validateBehavior_ok hv
  have hmergeable : ∀ k ∈ ks, k ∉ FORBIDDEN_PROTO_KEYS := by
    rcases hks with rfl | rfl | hks
    · exact hyolo
    · exact hdeny
    · exact hexp ks hks
  rw [at?_protected hcontext hks, ← at?_deepMerge flags.2 hmergeable]
  rcases resolveApiKeys_ok (withFlags flags).positive ((withFlags flags).layered
    (deepMerge b.merged (.obj (stripUnsafeInProjectFields inProject)))) with heq | ⟨p, heq⟩
  · rw [heq]
    rfl
  · rw [heq, at?_protected hproviders hks]
    rfl

end WrongStack.Config

/-!
# What a repository can change in a configuration

A load with an in-project config is compared with the load without one.
-/

namespace WrongStack.Config

open Lib Json

variable {b : Before} {inProject : Fields} {c c' v : Json} {e : Option Json} {a : Along}

/-- `c` is loaded with an in-project config, and `c'` without. -/
structure NotEscalated (c c' : Json) : Prop where
  denied : ∀ k ∈ KNOWN_DENIED_IN_PROJECT, c.get? k = c'.get? k
  yolo : at? AUTONOMY_YOLO c = at? AUTONOMY_YOLO c'
  expanding : ∀ ks ∈ EXPANDING, entries (at? ks c) ⊆ entries (at? ks c')
  deny : entries (at? EXEC_DENY c') ⊆ entries (at? EXEC_DENY c)

theorem Agree.notEscalated (h : Agree c c') : NotEscalated c c' :=
  ⟨h.denied, h.yolo, fun ks hks => (h.expanding ks hks).entries, h.deny.entries⟩

/-- What the trusted files have at `autonomy.yolo` stays. -/
def YoloKept (e : Option Json) : Along → Prop
  | .absent => True
  | .blocked => e = none
  | .found v => ∃ x, e = some x ∧ deepMerge x v = x

/-- A list of primitives is only lost to something else than such a list. -/
def DenyKept (e : Option Json) : Along → Prop
  | .absent => True
  | .blocked => entries e = []
  | .found v =>
      if isPrimList e = true then entries e = [] ∨ isPrimList (some v) = true
      else entries e ⊆ entries (some v)

/-- The two paths that are not protected are left as the trusted files have them. -/
structure Benign (b : Before) (inProject : Fields) : Prop where
  yolo : YoloKept (at? AUTONOMY_YOLO b.merged) (along AUTONOMY_YOLO (.obj inProject))
  deny : DenyKept (at? EXEC_DENY b.merged) (along EXEC_DENY (.obj inProject))

theorem yoloKept_iff : YoloKept e a ↔ a.apply e = e := by
  cases a with
  | absent => exact ⟨fun _ => rfl, fun _ => trivial⟩
  | blocked => exact eq_comm
  | found v =>
      change (∃ x, e = some x ∧ deepMerge x v = x) ↔ some (mergeCell e v) = e
      cases e with
      | none => simp
      | some x => simp [mergeCell]

theorem DenyKept.kept (h : DenyKept e a) : Kept (a.apply e) e := by
  cases a with
  | absent => exact .refl e
  | blocked => exact kept_nothing h none
  | found v =>
      by_cases hnil : entries e = []
      · exact kept_nothing hnil _
      · by_cases he : isPrimList e = true
        · rw [DenyKept, if_pos he] at h
          have hv := h.resolve_left hnil
          obtain ⟨items, rfl, hitems⟩ := isPrimList_iff.mp he
          obtain ⟨vs, hvs, hv⟩ := isPrimList_iff.mp hv
          obtain rfl := Option.some.inj hvs
          change Kept (some (mergeCell _ _)) _
          rw [mergeCell_lists hitems hv]
          refine ⟨fun z hz => mem_dedupe.mpr (List.mem_append_left _ hz), fun _ _ => ?_⟩
          exact isPrimitiveArray_dedupe (isPrimitiveArray_append hitems hv)
        · rw [DenyKept, if_neg he] at h
          change Kept (some (mergeCell e v)) e
          rw [mergeCell_over (by simpa using he) hnil]
          exact ⟨h, fun h => absurd h he⟩

/-- What the flags without denied commands and the quiet ones show is enough. -/
theorem denyKept_of_entries (hquiet : entries e ⊆ entries (a.apply e))
    (hdeny : entries (some (mergeCell e (.arr []))) ⊆ entries (some (mergeCell (a.apply e) (.arr [])))) :
    DenyKept e a := by
  cases a with
  | absent => trivial
  | blocked => exact List.subset_nil.mp hquiet
  | found v =>
      change entries e ⊆ entries (some (mergeCell e v)) at hquiet
      change entries _ ⊆ entries (some (mergeCell (some (mergeCell e v)) (.arr []))) at hdeny
      by_cases hnil : entries e = []
      · rw [DenyKept, hnil]
        split
        · exact .inl rfl
        · exact List.nil_subset _
      · by_cases he : isPrimList e = true
        · rw [DenyKept, if_pos he]
          refine .inr ?_
          obtain ⟨items, rfl, hitems⟩ := isPrimList_iff.mp he
          obtain ⟨z, hz⟩ := List.exists_mem_of_ne_nil _ hnil
          by_contra hv
          have hlost : isPrimList (some (mergeCell (some (.arr items)) v)) = false := by
            by_cases ho : v.isObject = true
            · obtain ⟨f, hf⟩ := isObject_iff.mp ((isObject_mergeCell (some (.arr items)) v).trans ho)
              rw [hf]
              rfl
            · rw [mergeCell_replaces (by simpa using ho) (by simpa using hv)]
              simpa using hv
          rw [mergeCell_lists hitems rfl, mergeCell_list hlost] at hdeny
          exact absurd (hdeny (mem_dedupe.mpr (List.mem_append_left _ hz))) (by simp [entries])
        · rw [DenyKept, if_neg he]
          rwa [mergeCell_over (by simpa using he) hnil] at hquiet

/-! ## Two loads -/

/-- The layer of an in-project config along the paths that the stripping leaves alone. -/
theorem at?_inProject (inProject : ParsedObject) (b : Before) {ks : List JsString}
    (hks : ks = AUTONOMY_YOLO ∨ ks = EXEC_DENY) :
    at? ks (deepMerge b.merged (.obj (stripUnsafeInProjectFields inProject.1))) =
      (along ks (.obj inProject.1)).apply (at? ks b.merged) := by
  obtain ⟨-, hyolo, -, hdeny⟩ := protected_mergeable
  have hd := distinct_strip inProject.2
  rcases hks with rfl | rfl
  · rw [at?_deepMerge hd hyolo, along_yolo]
  · rw [at?_deepMerge hd hdeny, along_deny]

theorem at?_empty (b : Before) (ks : List JsString) (hks : ks ≠ [])
    (hforb : ∀ k ∈ ks, k ∉ FORBIDDEN_PROTO_KEYS) :
    at? ks (deepMerge b.merged (.obj (stripUnsafeInProjectFields []))) = at? ks b.merged := by
  rw [at?_deepMerge rfl hforb]
  cases ks with
  | nil => exact absurd rfl hks
  | cons k ks => rfl

theorem Benign.agree {inProject : ParsedObject} (h : Benign b inProject.1) :
    Agree (deepMerge b.merged (.obj (stripUnsafeInProjectFields inProject.1)))
      (deepMerge b.merged (.obj (stripUnsafeInProjectFields []))) := by
  obtain ⟨hdenied, hyolo, hexp, hdeny⟩ := protected_mergeable
  have hd := distinct_strip inProject.2
  refine ⟨?_, fun k hk => ?_, ?_, fun ks hks => ?_, ?_⟩
  · rw [isObject_deepMerge, isObject_deepMerge]
    rfl
  · have hkey : ∀ x ∈ [k], x ∉ FORBIDDEN_PROTO_KEYS := by
      intro x hx
      exact List.mem_singleton.mp hx ▸ hdenied k hk
    rw [← at?_singleton, ← at?_singleton, at?_empty b [k] (List.cons_ne_nil _ _) hkey, at?_deepMerge hd hkey,
      along_denied hk]
    rfl
  · rw [at?_inProject inProject b (.inl rfl), at?_empty b AUTONOMY_YOLO (List.cons_ne_nil _ _) hyolo]
    exact yoloKept_iff.mp h.yolo
  · have hne : ks ≠ [] := by
      rintro rfl
      simp [EXPANDING] at hks
    rw [at?_empty b ks hne (hexp ks hks), at?_deepMerge hd (hexp ks hks)]
    rcases along_expanding hks with heq | heq
    · rw [heq]
      exact .same _
    · rw [heq]
      exact .gone _
  · rw [at?_inProject inProject b (.inr rfl), at?_empty b EXEC_DENY (List.cons_ne_nil _ _) hdeny]
    exact h.deny.kept

/-- Whatever is merged later, an in-project config escalates nothing exactly if it is benign. -/
theorem not_escalated_iff (b : Before) (inProject : ParsedObject) :
    (∀ a c c', load b a inProject.1 = .ok c → load b a [] = .ok c' → NotEscalated c c') ↔
      Benign b inProject.1 := by
  obtain ⟨-, hyolo, -, hdeny⟩ := protected_mergeable
  constructor
  · intro h
    obtain ⟨c, hc⟩ := load_withFlags suffices_quiet b inProject.1
    obtain ⟨c', hc'⟩ := load_withFlags suffices_quiet b []
    have hquiet := h (withFlags quietFlags) c c' hc hc'
    obtain ⟨d, hd⟩ := load_withFlags suffices_deny b inProject.1
    obtain ⟨d', hd'⟩ := load_withFlags suffices_deny b []
    have hdenied := (h (withFlags denyFlags) d d' hd hd').deny
    refine ⟨yoloKept_iff.mpr ?_, denyKept_of_entries ?_ ?_⟩
    · have heq := hquiet.yolo
      rw [at?_withFlags (.inl rfl) hc, at?_withFlags (.inl rfl) hc', at?_inProject inProject b (.inl rfl),
        at?_empty b AUTONOMY_YOLO (List.cons_ne_nil _ _) hyolo] at heq
      exact heq
    · have hsub := hquiet.deny
      rw [at?_withFlags (.inr (.inl rfl)) hc, at?_withFlags (.inr (.inl rfl)) hc',
        at?_inProject inProject b (.inr rfl), at?_empty b EXEC_DENY (List.cons_ne_nil _ _) hdeny] at hsub
      exact hsub
    · rw [at?_withFlags (.inr (.inl rfl)) hd, at?_withFlags (.inr (.inl rfl)) hd',
        at?_inProject inProject b (.inr rfl), at?_empty b EXEC_DENY (List.cons_ne_nil _ _) hdeny] at hdenied
      exact hdenied
  · intro h a c c' hc hc'
    exact (h.agree.finish hc hc').notEscalated

/-! ## A committed `autonomy.yolo` -/

def noLaterLayers : After where
  env := fun _ => none
  sources := []
  cliFlags := none
  vault := none
  positive := fun _ => false
  strict := false

/-- The owner has turned the permission prompts on, under both keys. -/
def promptsOn : Before where
  globalConfig := ⟨object [("yolo", .bool false), ("autonomy", object [("yolo", .bool false)])], by decide +kernel⟩
  projectLocalConfig := ⟨object [], by decide +kernel⟩

def promptsOff : ParsedObject := ⟨[(js "autonomy", object [("yolo", .bool true)])], by decide +kernel⟩

/-- The repository turns them off for the autonomy subsystem. -/
theorem promptsOff_escalates :
    ∃ c c', load promptsOn noLaterLayers promptsOff.1 = .ok c ∧ load promptsOn noLaterLayers [] = .ok c' ∧
      ¬ NotEscalated c c' := by
  have hwith : (load promptsOn noLaterLayers promptsOff.1).toOption.bind (at? AUTONOMY_YOLO) =
      some (.bool true) := by rfl
  have hwithout : (load promptsOn noLaterLayers []).toOption.bind (at? AUTONOMY_YOLO) =
      some (.bool false) := by rfl
  cases hc : load promptsOn noLaterLayers promptsOff.1 with
  | error e => simp [hc, Except.toOption] at hwith
  | ok c =>
      cases hc' : load promptsOn noLaterLayers [] with
      | error e => simp [hc', Except.toOption] at hwithout
      | ok c' =>
          refine ⟨c, c', rfl, rfl, fun h => ?_⟩
          have heq := h.yolo
          rw [hc] at hwith
          rw [hc'] at hwithout
          change at? AUTONOMY_YOLO c = _ at hwith
          change at? AUTONOMY_YOLO c' = _ at hwithout
          rw [hwith, hwithout] at heq
          simp at heq

end WrongStack.Config

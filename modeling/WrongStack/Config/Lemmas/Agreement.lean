import WrongStack.Config.Lemmas.Cells

/-!
# What the later layers keep

`Agree` holds between a load with an in-project layer and one without as soon as that layer is merged, if
the layer is harmless, and the rest of `load` keeps it.
-/

namespace WrongStack.Config

open Lib Json

variable {c c' d d' v w : Json} {x y : Option Json} {k : JsString} {ks : List JsString}

/-! ## The protected paths -/

def AUTONOMY_YOLO : List JsString := [js "autonomy", js "yolo"]

def EXEC_DENY : List JsString := [js "tools", js "exec", js "deny"]

/-- The lists that widen what an agent may do. -/
def EXPANDING : List (List JsString) :=
  [ [js "tools", js "exec", js "allow"], [js "tools", js "exec", js "danger", js "bypass"],
    [js "skills", js "extraDirs"], [js "skills", js "registryUrl"] ]

structure Agree (c c' : Json) : Prop where
  rooted : c.isObject = c'.isObject
  denied : ∀ k ∈ KNOWN_DENIED_IN_PROJECT, c.get? k = c'.get? k
  yolo : at? AUTONOMY_YOLO c = at? AUTONOMY_YOLO c'
  expanding : ∀ ks ∈ EXPANDING, Narrowed (at? ks c) (at? ks c')
  deny : Kept (at? EXEC_DENY c) (at? EXEC_DENY c')

/-! ## Merging -/

theorem protected_mergeable : (∀ k ∈ KNOWN_DENIED_IN_PROJECT, k ∉ FORBIDDEN_PROTO_KEYS) ∧
    (∀ k ∈ AUTONOMY_YOLO, k ∉ FORBIDDEN_PROTO_KEYS) ∧
    (∀ ks ∈ EXPANDING, ∀ k ∈ ks, k ∉ FORBIDDEN_PROTO_KEYS) ∧
    ∀ k ∈ EXEC_DENY, k ∉ FORBIDDEN_PROTO_KEYS := by decide +kernel

theorem at?_singleton (c : Json) (k : JsString) : at? [k] c = c.get? k := by
  rw [at?]
  cases c.get? k <;> rfl

theorem Agree.deepMerge (h : Agree c c') {p : Json} (hp : p.distinct = true) :
    Agree (deepMerge c p) (deepMerge c' p) := by
  obtain ⟨hdenied, hyolo, hexp, hdeny⟩ := protected_mergeable
  refine ⟨?_, fun k hk => ?_, ?_, fun ks hks => ?_, ?_⟩
  · rw [isObject_deepMerge, isObject_deepMerge]
  · have hkey : ∀ x ∈ [k], x ∉ FORBIDDEN_PROTO_KEYS := fun x hx => List.mem_singleton.mp hx ▸ hdenied k hk
    rw [← at?_singleton, ← at?_singleton, at?_deepMerge hp hkey, at?_deepMerge hp hkey, at?_singleton,
      at?_singleton, h.denied k hk]
  · rw [at?_deepMerge hp hyolo, at?_deepMerge hp hyolo, h.yolo]
  · rw [at?_deepMerge hp (hexp ks hks), at?_deepMerge hp (hexp ks hks)]
    exact (h.expanding ks hks).apply _
  · rw [at?_deepMerge hp hdeny, at?_deepMerge hp hdeny]
    exact h.deny.apply _

theorem Agree.mergeSource (h : Agree c c') (patch : Option Parsed) :
    Agree (mergeSource c patch) (mergeSource c' patch) := by
  cases patch with
  | none => exact h
  | some p =>
      unfold Config.mergeSource
      simp only
      split
      · exact h.deepMerge p.2
      · exact h

theorem Agree.mergeSources (h : Agree c c') (sources : List (Option Parsed)) :
    Agree (sources.foldl Config.mergeSource c) (sources.foldl Config.mergeSource c') := by
  induction sources generalizing c c' with
  | nil => exact h
  | cons patch sources ih => exact ih (h.mergeSource patch)

/-! ## Single properties -/

/-- The properties under which the protected paths lead. -/
def ROOTS : List JsString := [js "autonomy", js "tools", js "skills"]

theorem at?_protected (hk : k ∉ ROOTS) (hks : ks = AUTONOMY_YOLO ∨ ks = EXEC_DENY ∨ ks ∈ EXPANDING) :
    at? ks (c.assign k v) = at? ks c := by
  simp only [ROOTS, EXPANDING, List.mem_cons, List.not_mem_nil, or_false, not_or] at hk hks
  obtain ⟨hauto, htools, hskills⟩ := hk
  rcases hks with rfl | rfl | rfl | rfl | rfl | rfl
  · exact at?_assign hauto
  · exact at?_assign htools
  · exact at?_assign htools
  · exact at?_assign htools
  · exact at?_assign hskills
  · exact at?_assign hskills

/-- The same property is written, with values that may differ only if it is not protected. -/
theorem Agree.assign (h : Agree c c') (hk : k ∉ ROOTS) (hd : k ∈ KNOWN_DENIED_IN_PROJECT → v = w) :
    Agree (c.assign k v) (c'.assign k w) := by
  refine ⟨?_, fun key hkey => ?_, ?_, fun ks hks => ?_, ?_⟩
  · rw [isObject_assign, isObject_assign, h.rooted]
  · rw [get?_assign, get?_assign, h.rooted, h.denied key hkey]
    split
    · rename_i heq
      rw [hd (heq.1 ▸ hkey)]
    · rfl
  · rw [at?_protected hk (.inl rfl), at?_protected hk (.inl rfl)]
    exact h.yolo
  · rw [at?_protected hk (.inr (.inr hks)), at?_protected hk (.inr (.inr hks))]
    exact h.expanding ks hks
  · rw [at?_protected hk (.inr (.inl rfl)), at?_protected hk (.inr (.inl rfl))]
    exact h.deny

/-- A property that is not protected may also be left alone in one of the loads. -/
theorem Agree.assign_left (h : Agree c c') (hk : k ∉ ROOTS) (hd : k ∉ KNOWN_DENIED_IN_PROJECT) :
    Agree (c.assign k v) c' := by
  refine ⟨?_, fun key hkey => ?_, ?_, fun ks hks => ?_, ?_⟩
  · rw [isObject_assign, h.rooted]
  · rw [get?_assign, if_neg fun (heq : k = key ∧ _) => hd (heq.1 ▸ hkey), h.denied key hkey]
  · rw [at?_protected hk (.inl rfl), h.yolo]
  · rw [at?_protected hk (.inr (.inr hks))]
    exact h.expanding ks hks
  · rw [at?_protected hk (.inr (.inl rfl))]
    exact h.deny

theorem Agree.assign_right (h : Agree c c') (hk : k ∉ ROOTS) (hd : k ∉ KNOWN_DENIED_IN_PROJECT) :
    Agree c (c'.assign k v) := by
  refine ⟨?_, fun key hkey => ?_, ?_, fun ks hks => ?_, ?_⟩
  · rw [isObject_assign, h.rooted]
  · rw [get?_assign, if_neg fun (heq : k = key ∧ _) => hd (heq.1 ▸ hkey), h.denied key hkey]
  · rw [at?_protected hk (.inl rfl), h.yolo]
  · rw [at?_protected hk (.inr (.inr hks))]
    exact h.expanding ks hks
  · rw [at?_protected hk (.inr (.inl rfl))]
    exact h.deny

theorem unprotected : js "provider" ∉ ROOTS ∧ js "model" ∉ ROOTS ∧ js "apiKey" ∉ ROOTS ∧
    js "baseUrl" ∉ ROOTS ∧ js "log" ∉ ROOTS ∧ js "indexing" ∉ ROOTS ∧ js "providers" ∉ ROOTS ∧
    js "context" ∉ ROOTS ∧ js "log" ∉ KNOWN_DENIED_IN_PROJECT ∧ js "indexing" ∉ KNOWN_DENIED_IN_PROJECT ∧
    js "context" ∉ KNOWN_DENIED_IN_PROJECT := by decide +kernel

/-! ## The environment -/

theorem Agree.setNoted {field : String} {s : JsString} (h : Agree c c') (hk : js field ∉ ROOTS)
    (hd : setNoted c field s = .ok d) (hd' : setNoted c' field s = .ok d') : Agree d d' := by
  unfold Config.setNoted at hd hd'
  split at hd
  · simp at hd
  · split at hd'
    · simp at hd'
    · obtain rfl := Except.ok.inj hd
      obtain rfl := Except.ok.inj hd'
      exact h.assign hk fun _ => rfl

/-- The handler of the log level writes there or leaves an array alone. -/
theorem logLevel_cases {s : JsString} (h : EnvVar.apply c s .logLevel = .ok d) :
    d = c ∨ ∃ x, d = c.assign (js "log") x := by
  rw [EnvVar.apply] at h
  split at h
  · exact .inr ⟨_, (Except.ok.inj h).symm⟩
  · exact .inl (Except.ok.inj h).symm
  · split at h
    · simp at h
    · exact .inr ⟨_, (Except.ok.inj h).symm⟩
  · exact .inr ⟨_, (Except.ok.inj h).symm⟩

theorem Agree.envVar (h : Agree c c') {s : JsString} {var : EnvVar} (hd : var.apply c s = .ok d)
    (hd' : var.apply c' s = .ok d') : Agree d d' := by
  obtain ⟨hprovider, hmodel, hapiKey, hbaseUrl, hlog, hindexing, -, -, hnolog, hnoindexing, -⟩ := unprotected
  cases var with
  | provider => exact h.setNoted hprovider hd hd'
  | model => exact h.setNoted hmodel hd hd'
  | apiKey => exact h.setNoted hapiKey hd hd'
  | baseUrl => exact h.setNoted hbaseUrl hd hd'
  | logLevel =>
      rcases logLevel_cases hd with rfl | ⟨x, rfl⟩
      · rcases logLevel_cases hd' with rfl | ⟨y, rfl⟩
        · exact h
        · exact h.assign_right hlog hnolog
      · rcases logLevel_cases hd' with rfl | ⟨y, rfl⟩
        · exact h.assign_left hlog hnolog
        · exact h.assign hlog fun hin => absurd hin hnolog
  | indexOnStart | indexOnEdit | indexWatch =>
      obtain rfl := Except.ok.inj hd
      obtain rfl := Except.ok.inj hd'
      exact h.assign hindexing fun hin => absurd hin hnoindexing

theorem Agree.applyVar (h : Agree c c') {env : EnvVar → Option JsString} {var : EnvVar}
    (hd : applyVar env c var = .ok d) (hd' : applyVar env c' var = .ok d') : Agree d d' := by
  unfold Config.applyVar at hd hd'
  cases henv : env var with
  | none =>
      simp only [henv] at hd hd'
      exact Except.ok.inj hd ▸ Except.ok.inj hd' ▸ h
  | some s =>
      simp only [henv] at hd hd'
      split at hd
      · rename_i hs
        rw [if_pos hs] at hd'
        exact Except.ok.inj hd ▸ Except.ok.inj hd' ▸ h
      · rename_i hs
        rw [if_neg hs] at hd'
        exact h.envVar hd hd'

theorem Agree.applyEnv (h : Agree c c') {env : EnvVar → Option JsString} (hd : applyEnv env c = .ok d)
    (hd' : applyEnv env c' = .ok d') : Agree d d' := by
  have key : ∀ (vars : List EnvVar) (c c' : Json), Agree c c' → vars.foldlM (Config.applyVar env) c = .ok d →
      vars.foldlM (Config.applyVar env) c' = .ok d' → Agree d d' := by
    intro vars
    induction vars with
    | nil => exact fun c c' h hd hd' => Except.ok.inj hd ▸ Except.ok.inj hd' ▸ h
    | cons var vars ih =>
        intro c c' h hd hd'
        rw [List.foldlM_cons] at hd hd'
        cases hone : Config.applyVar env c var with
        | error e => simp [hone, bind, Except.bind] at hd
        | ok x =>
            cases hone' : Config.applyVar env c' var with
            | error e => simp [hone', bind, Except.bind] at hd'
            | ok y =>
                rw [hone] at hd
                rw [hone'] at hd'
                exact ih x y (h.applyVar hone hone') hd hd'
  exact key ENV_MAP c c' h hd hd'

/-! ## Secrets -/

/-- `walk` at a field. -/
def walkField (transform : JsString → JsString) (k : JsString) : Json → Json
  | .str s => if isSecretField k then .str (transform s) else .str s
  | v => walk transform v

theorem walkFields_cons (transform : JsString → JsString) (fields : Fields) :
    walkFields transform ((k, v) :: fields) = (k, walkField transform k v) :: walkFields transform fields := by
  cases v <;> rfl

theorem get?_walk (transform : JsString → JsString) (v : Json) (k : JsString) :
    (walk transform v).get? k = (v.get? k).map (walkField transform k) := by
  cases v with
  | obj fields =>
      rw [walk]
      change lookup (walkFields transform fields) k = (lookup fields k).map (walkField transform k)
      induction fields with
      | nil => rfl
      | cons f fields ih =>
          obtain ⟨key, x⟩ := f
          rw [walkFields_cons, lookup_cons, lookup_cons, ih]
          split
          · rename_i hkey
            rw [hkey]
            rfl
          · rfl
  | _ => rfl

theorem at?_walk (transform : JsString → JsString) (k : JsString) : ∀ (ks : List JsString) (v : Json),
    at? (ks ++ [k]) (walk transform v) = (at? (ks ++ [k]) v).map (walkField transform k)
  | [], v => by rw [List.nil_append, at?_singleton, at?_singleton, get?_walk]
  | key :: ks, v => by
      rw [List.cons_append, at?, at?, get?_walk]
      cases v.get? key with
      | none => rfl
      | some w =>
          simp only [Option.map_some, Option.bind_some]
          rw [← at?_walk transform k ks w]
          cases w with
          | str s =>
              rw [walkField]
              split <;> cases ks <;> rfl
          | _ => rfl

theorem walkItems_eq (transform : JsString → JsString) (items : List Json) :
    walkItems transform items = items.map (walk transform) := by
  induction items with
  | nil => rfl
  | cons v items ih => rw [walkItems, ih, List.map_cons]

theorem walk_primitive (transform : JsString → JsString) (h : isPrimitive v = true) : walk transform v = v := by
  cases v <;> first | rfl | simp [isPrimitive] at h

theorem isPrimitive_walk (transform : JsString → JsString) (v : Json) :
    isPrimitive (walk transform v) = isPrimitive v := by
  cases v <;> rfl

theorem walkItems_primitives (transform : JsString → JsString) {items : List Json}
    (h : isPrimitiveArray items = true) : walkItems transform items = items := by
  rw [walkItems_eq, List.map_congr_left fun v hv => walk_primitive transform (List.all_eq_true.mp h v hv),
    List.map_id']

section

variable (transform : JsString → JsString)

theorem Narrowed.walk (h : Narrowed x y) (k : JsString) :
    Narrowed (x.map (walkField transform k)) (y.map (walkField transform k)) := by
  cases h with
  | gone y => exact .gone _
  | same x => exact .same _
  | lists hx hy hsub =>
      simp only [Option.map_some, walkField, Config.walk, walkItems_primitives transform hx,
        walkItems_primitives transform hy]
      exact .lists hx hy hsub
  | objects f g => exact .objects _ _

variable (hk : isSecretField k = false)

include hk

theorem entries_walk (x : Option Json) :
    entries (x.map (walkField transform k)) = (entries x).map (Config.walk transform) := by
  match x with
  | some (.arr items) => exact walkItems_eq transform items
  | some (.str s) =>
      simp only [Option.map_some, walkField, hk, Bool.false_eq_true, if_false]
      rfl
  | none | some .null | some (.bool _) | some (.num _) | some (.obj _) => rfl

theorem isPrimList_walk (x : Option Json) : isPrimList (x.map (walkField transform k)) = isPrimList x := by
  match x with
  | some (.arr items) =>
      simp only [Option.map_some, walkField, Config.walk, isPrimList, isPrimitiveArray, walkItems_eq,
        List.all_map]
      congr 1
      exact funext fun v => isPrimitive_walk transform v
  | some (.str s) =>
      simp only [Option.map_some, walkField, hk, Bool.false_eq_true, if_false]
  | none | some .null | some (.bool _) | some (.num _) | some (.obj _) => rfl

theorem Kept.walk (h : Kept x y) :
    Kept (x.map (walkField transform k)) (y.map (walkField transform k)) := by
  refine ⟨?_, ?_⟩
  · rw [entries_walk transform hk, entries_walk transform hk]
    exact List.map_subset _ h.entries
  · rw [isPrimList_walk transform hk, isPrimList_walk transform hk, entries_walk transform hk]
    exact fun hy hne => h.lists hy fun hnil => hne (by rw [hnil]; rfl)

end

theorem Agree.decrypt (h : Agree c c') (decrypt : JsString → Option JsString) :
    Agree (decryptConfigSecrets decrypt c) (decryptConfigSecrets decrypt c') := by
  unfold decryptConfigSecrets
  generalize (fun s => (decrypt s).getD []) = transform
  refine ⟨?_, fun k hk => ?_, ?_, fun ks hks => ?_, ?_⟩
  · have hobj : ∀ v : Json, (walk transform v).isObject = v.isObject := fun v => by cases v <;> rfl
    rw [hobj, hobj, h.rooted]
  · rw [get?_walk, get?_walk, h.denied k hk]
  · have hyolo := h.yolo
    change at? ([js "autonomy"] ++ [js "yolo"]) _ = at? ([js "autonomy"] ++ [js "yolo"]) _ at hyolo ⊢
    rw [at?_walk, at?_walk, hyolo]
  · have hexp := h.expanding ks hks
    obtain ⟨front, last, rfl⟩ : ∃ front last, ks = front ++ [last] := by
      refine ⟨ks.dropLast, ks.getLast?.getD [], ?_⟩
      simp only [EXPANDING, List.mem_cons, List.not_mem_nil, or_false] at hks
      rcases hks with rfl | rfl | rfl | rfl <;> rfl
    rw [at?_walk, at?_walk]
    exact hexp.walk transform last
  · have hdeny := h.deny
    change Kept (at? ([js "tools", js "exec"] ++ [js "deny"]) _)
      (at? ([js "tools", js "exec"] ++ [js "deny"]) _) at hdeny ⊢
    rw [at?_walk, at?_walk]
    exact hdeny.walk transform (by decide +kernel)

/-! ## The rest of `load` -/

theorem Agree.resolveApiKeys (h : Agree c c') (positive : Positive) :
    Agree (resolveApiKeys positive c) (resolveApiKeys positive c') := by
  obtain ⟨-, -, -, -, -, -, hproviders, -⟩ := unprotected
  have hsame : c.get? (js "providers") = c'.get? (js "providers") := h.denied _ (by decide +kernel)
  unfold Config.resolveApiKeys
  rw [hsame]
  cases c'.get? (js "providers") with
  | none => exact h
  | some providers => exact h.assign hproviders fun _ => rfl

theorem validateBehavior_ok (h : validateBehavior c = .ok d) : ∃ x, d = c.assign (js "context") x := by
  unfold validateBehavior at h
  split at h
  · simp at h
  · split at h
    · simp at h
    · split at h
      · simp at h
      · cases hv : validateContext ((c.get? (js "context")).getD .null) with
        | error e => simp [hv, Except.map] at h
        | ok x =>
            rw [hv] at h
            exact ⟨x, (Except.ok.inj h).symm⟩

theorem Agree.validateBehavior (h : Agree c c') (hd : validateBehavior c = .ok d)
    (hd' : validateBehavior c' = .ok d') : Agree d d' := by
  obtain ⟨-, -, -, -, -, -, -, hcontext, -, -, hnot⟩ := unprotected
  obtain ⟨x, rfl⟩ := validateBehavior_ok hd
  obtain ⟨y, rfl⟩ := validateBehavior_ok hd'
  exact h.assign hcontext fun hin => absurd hin hnot

theorem Agree.layered (h : Agree c c') (a : After) : Agree (a.layered c) (a.layered c') := by
  have hsources := h.mergeSources a.sources
  have hflags : Agree (mergeFlags (a.sources.foldl Config.mergeSource c) a.cliFlags)
      (mergeFlags (a.sources.foldl Config.mergeSource c') a.cliFlags) := by
    cases a.cliFlags with
    | none => exact hsources
    | some flags => exact hsources.deepMerge flags.2
  unfold After.layered
  cases a.vault with
  | none => exact hflags
  | some decrypt => exact hflags.decrypt decrypt

theorem finish_ok {a : After} (h : a.finish c = .ok d) : ∃ x, applyEnv a.env c = .ok x ∧
    validateBehavior (resolveApiKeys a.positive (a.layered x)) = .ok d := by
  unfold After.finish at h
  cases henv : applyEnv a.env c with
  | error e => simp [henv, bind, Except.bind] at h
  | ok x =>
      rw [henv] at h
      cases hv : validateBehavior (resolveApiKeys a.positive (a.layered x)) with
      | error e => simp [hv, bind, Except.bind] at h
      | ok y =>
          refine ⟨x, rfl, ?_⟩
          simp only [hv, bind, Except.bind, pure, Except.pure] at h
          split at h
          · cases hi : validateIdentity y with
            | error e => simp [hi] at h
            | ok u =>
                simp only [hi] at h
                exact h ▸ hv
          · exact h ▸ hv

theorem Agree.finish (h : Agree c c') {a : After} (hd : a.finish c = .ok d) (hd' : a.finish c' = .ok d') :
    Agree d d' := by
  obtain ⟨x, henv, hv⟩ := finish_ok hd
  obtain ⟨y, henv', hv'⟩ := finish_ok hd'
  exact (((h.applyEnv henv henv').layered a).resolveApiKeys a.positive).validateBehavior hv hv'

end WrongStack.Config

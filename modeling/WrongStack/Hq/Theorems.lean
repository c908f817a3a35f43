import WrongStack.Lib.Json
import WrongStack.Utils.NewlineStyle

/-!
# Redaction for the command center

`redactHqValue` (`core/src/hq/redaction.ts`) on JSON payloads. The scrubber of secrets is a parameter.
-/

namespace WrongStack.Hq

open Lib Utils

def RAW_CONTENT_REPLACEMENT : JsString := js "[REDACTED:hq_raw_content]"

def SENSITIVE_FIELD_REPLACEMENT : JsString := js "[REDACTED:hq_sensitive_field]"

def REDACTED_PATH_REPLACEMENT : JsString := js "[REDACTED:hq_path]"

def RAW_CONTENT_KEYS : List JsString :=
  ["content", "contents", "raw", "rawContent", "body", "message", "messages", "prompt", "prompts", "completion",
    "response", "assistantMessage", "userMessage", "stdout", "stderr", "output", "toolInput", "toolOutput", "body",
    "mailboxBody", "messageBody", "outcome", "fileContent", "diff", "patch", "transcript", "logs"].map js

def SENSITIVE_KEYS : List JsString :=
  ["authorization", "cookie", "password", "passwd", "pwd", "secret", "token", "accessToken", "refreshToken",
    "apiKey", "apikey", "clientSecret", "privateKey"].map js

def PATH_KEYS : List JsString :=
  ["path", "paths", "file", "files", "filepath", "filePath", "filename", "projectRoot", "projectRootDisplay", "cwd",
    "workingDir", "workingDirectory"].map js

inductive HqPathPolicy
  | none | projectRelative | redacted | full
  deriving DecidableEq

structure HqRedactionPolicy where
  rawContent : Bool := false
  paths : HqPathPolicy := .projectRelative

structure HqRedactOptions where
  policy : HqRedactionPolicy := {}
  projectRoot : Option JsString := none
  maxSummaryLength : Nat := 500
  /-- `defaultScrubber.scrub` -/
  scrub : JsString → JsString

structure HqRedactionResult (α : Type) where
  value : α
  redacted : Bool

/-! ## Keys -/

def isSensitiveKey (key : JsString) : Bool :=
  let lower := key.toLowerCase
  SENSITIVE_KEYS.contains key || occurrences (js "authorization") lower != 0 ||
    occurrences (js "password") lower != 0 || occurrences (js "secret") lower != 0 || (js "token").isSuffixOf lower ||
    (js "apikey").isSuffixOf lower || (js "api_key").isSuffixOf lower

def isRawContentKey (key : JsString) : Bool :=
  RAW_CONTENT_KEYS.contains key || RAW_CONTENT_KEYS.contains key.toLowerCase

def isPathKey (key : JsString) : Bool := PATH_KEYS.contains key || PATH_KEYS.contains key.toLowerCase

/-! ## Strings -/

def normalizePathForCompare (value : JsString) : JsString :=
  ((value.map fun c => if c = unit '\\' then unit '/' else c).reverse.dropWhile fun c => c == unit '/').reverse

/-- `split('/').at(-1)` -/
def lastSegment (value : JsString) : JsString := (JsString.splitOn (unit '/') value).getLastD []

variable (o : HqRedactOptions)

def redactPath (value : JsString) : JsString :=
  match o.policy.paths with
  | .full => o.scrub value
  | .none | .redacted => REDACTED_PATH_REPLACEMENT
  | .projectRelative =>
      let normalizedValue := normalizePathForCompare value
      -- an empty root is none
      match o.projectRoot.filter fun root => !root.isEmpty with
      | none => lastSegment normalizedValue
      | some projectRoot =>
          let normalizedRoot := normalizePathForCompare projectRoot
          if normalizedValue = normalizedRoot then js "."
          else if (normalizedRoot ++ js "/").isPrefixOf normalizedValue then
            let rest := normalizedValue.drop (normalizedRoot.length + 1)
            if rest.isEmpty then js "." else rest
          else lastSegment normalizedValue

def summarizeString (value : JsString) : JsString :=
  let scrubbed := o.scrub value
  if scrubbed.length ≤ o.maxSummaryLength then scrubbed
  else scrubbed.take o.maxSummaryLength ++ js "…[truncated:" ++
    js (toString (scrubbed.length - o.maxSummaryLength)) ++ js "]"

/-- `visitValue` on a string. -/
def visitString (value : JsString) (key : Option JsString) : HqRedactionResult JsString :=
  if key.any isPathKey then
    let redactedPath := redactPath o value
    { value := redactedPath, redacted := redactedPath != value }
  else if !o.policy.rawContent && key.any isRawContentKey then
    { value := RAW_CONTENT_REPLACEMENT, redacted := true }
  else
    let scrubbed := summarizeString o value
    { value := scrubbed, redacted := scrubbed != value }

/-! ## Values -/

mutual

def visitValue (key : Option JsString) (v : Json) : HqRedactionResult Json :=
  if key.any isSensitiveKey then { value := .str SENSITIVE_FIELD_REPLACEMENT, redacted := true }
  else match v with
    | .str value =>
        let r := visitString o value key
        { value := .str r.value, redacted := r.redacted }
    -- the items are visited under the key of the array
    | .arr items =>
        let r := visitItems key items
        { value := .arr r.value, redacted := r.redacted }
    | .obj fields =>
        let r := visitFields fields
        { value := .obj r.value, redacted := r.redacted }
    | v => { value := v, redacted := false }

def visitItems (key : Option JsString) : List Json → HqRedactionResult (List Json)
  | [] => { value := [], redacted := false }
  | item :: items =>
      let next := visitValue key item
      let rest := visitItems key items
      { value := next.value :: rest.value, redacted := next.redacted || rest.redacted }

def visitFields : List (JsString × Json) → HqRedactionResult (List (JsString × Json))
  | [] => { value := [], redacted := false }
  | (childKey, childValue) :: fields =>
      let next := visitValue (some childKey) childValue
      let rest := visitFields fields
      { value := (childKey, next.value) :: rest.value, redacted := next.redacted || rest.redacted }

end

def redactHqValue (value : Json) : HqRedactionResult Json := visitValue o none value

end WrongStack.Hq

/-!
# What the command center can see

Two payloads that differ only below keys of raw or sensitive content are redacted to the same value, exactly if the
payload is covered: the content is a string, or a list of strings, under such a key.
-/

namespace WrongStack.Hq

open Lib Utils

variable {o : HqRedactOptions} {key : Option JsString} {below : Bool} {v w : Json}

/-! ## Payloads that differ in content -/

def hidesContent (key : JsString) : Bool := isRawContentKey key || isSensitiveKey key

mutual

/-- The payloads differ only in strings below a key of raw or sensitive content; `below` says that they are below one
themselves. -/
def Alike (below : Bool) : Json → Json → Prop
  | .null, w => w = .null
  | .bool b, w => w = .bool b
  | .num text, w => w = .num text
  | .str s, w => ∃ t, w = .str t ∧ (below = false → s = t)
  | .arr items, w => ∃ items', w = .arr items' ∧ AlikeItems below items items'
  | .obj fields, w => ∃ fields', w = .obj fields' ∧ AlikeFields below fields fields'

def AlikeItems (below : Bool) : List Json → List Json → Prop
  | [], ws => ws = []
  | v :: vs, ws => ∃ w ws', ws = w :: ws' ∧ Alike below v w ∧ AlikeItems below vs ws'

def AlikeFields (below : Bool) : List (JsString × Json) → List (JsString × Json) → Prop
  | [], gs => gs = []
  | (k, v) :: fs, gs => ∃ w gs', gs = (k, w) :: gs' ∧ Alike (below || hidesContent k) v w ∧ AlikeFields below fs gs'

end

/-- What a string becomes does not depend on the string. -/
def HqRedactOptions.constant (o : HqRedactOptions) (key : JsString) : Bool :=
  if isPathKey key then o.policy.paths == .none || o.policy.paths == .redacted else isRawContentKey key

mutual

/-- Every string below a key of raw content is under a key of its own that hides it. -/
def covered (o : HqRedactOptions) (below : Bool) (key : Option JsString) (v : Json) : Bool :=
  if key.any isSensitiveKey then true
  else match v with
    | .str _ => !below || key.any o.constant
    | .arr items => coveredItems o below key items
    | .obj fields => coveredFields o below fields
    | _ => true

def coveredItems (o : HqRedactOptions) (below : Bool) (key : Option JsString) : List Json → Bool
  | [] => true
  | item :: items => covered o below key item && coveredItems o below key items

def coveredFields (o : HqRedactOptions) (below : Bool) : List (JsString × Json) → Bool
  | [] => true
  | (k, v) :: fields => covered o (below || hidesContent k) (some k) v && coveredFields o below fields

end

/-! ## Covered payloads look the same -/

theorem visitString_constant (hraw : o.policy.rawContent = false) (h : key.any o.constant = true) (s t : JsString) :
    (visitString o s key).value = (visitString o t key).value := by
  cases key with
  | none => cases h
  | some k =>
      simp only [Option.any_some, HqRedactOptions.constant] at h
      simp only [visitString, Option.any_some, hraw, Bool.not_false, Bool.true_and]
      split at h
      · rename_i hpath
        rw [if_pos hpath, if_pos hpath]
        cases hp : o.policy.paths with
        | none => simp only [redactPath, hp]
        | redacted => simp only [redactPath, hp]
        | projectRelative =>
            rw [hp] at h
            cases h
        | full =>
            rw [hp] at h
            cases h
      · rename_i hpath
        rw [if_neg hpath, if_neg hpath, if_pos h, if_pos h]

mutual

theorem visitValue_alike (hraw : o.policy.rawContent = false) (v w : Json) (key : Option JsString) (below : Bool)
    (h : covered o below key v = true) (hv : Alike below v w) :
    (visitValue o key v).value = (visitValue o key w).value := by
  unfold covered at h
  cases hkey : key.any isSensitiveKey with
  | true =>
      unfold visitValue
      simp only [hkey, ↓reduceIte]
  | false =>
      simp only [hkey, Bool.false_eq_true, ↓reduceIte] at h
      cases v with
      | str s =>
          obtain ⟨t, rfl, hst⟩ := hv
          simp only [visitValue, hkey, Bool.false_eq_true, ↓reduceIte, Json.str.injEq]
          cases below with
          | false => rw [hst rfl]
          | true => exact visitString_constant hraw h s t
      | arr items =>
          obtain ⟨items', rfl, hitems⟩ := hv
          simp only [visitValue, hkey, Bool.false_eq_true, ↓reduceIte, Json.arr.injEq]
          exact visitItems_alike hraw items items' key below h hitems
      | obj fields =>
          obtain ⟨fields', rfl, hfields⟩ := hv
          simp only [visitValue, hkey, Bool.false_eq_true, ↓reduceIte, Json.obj.injEq]
          exact visitFields_alike hraw fields fields' below h hfields
      | null | bool | num => rw [show w = _ from hv]

theorem visitItems_alike (hraw : o.policy.rawContent = false) (vs ws : List Json) (key : Option JsString)
    (below : Bool) (h : coveredItems o below key vs = true) (hv : AlikeItems below vs ws) :
    (visitItems o key vs).value = (visitItems o key ws).value := by
  cases vs with
  | nil => rw [show ws = [] from hv]
  | cons v vs =>
      obtain ⟨w, ws', rfl, hw, hws⟩ := hv
      obtain ⟨hfirst, hrest⟩ := Bool.and_eq_true_iff.mp h
      simp only [visitItems]
      rw [visitValue_alike hraw v w key below hfirst hw, visitItems_alike hraw vs ws' key below hrest hws]

theorem visitFields_alike (hraw : o.policy.rawContent = false) (fs gs : List (JsString × Json)) (below : Bool)
    (h : coveredFields o below fs = true) (hv : AlikeFields below fs gs) :
    (visitFields o fs).value = (visitFields o gs).value := by
  cases fs with
  | nil => rw [show gs = [] from hv]
  | cons f fs =>
      obtain ⟨k, v⟩ := f
      obtain ⟨w, gs', rfl, hw, hgs⟩ := hv
      obtain ⟨hfirst, hrest⟩ := Bool.and_eq_true_iff.mp h
      simp only [visitFields]
      rw [visitValue_alike hraw v w (some k) _ hfirst hw, visitFields_alike hraw fs gs' below hrest hgs]

end

/-! ## What is not covered shows -/

mutual

theorem alike_refl (below : Bool) (v : Json) : Alike below v v := by
  cases v with
  | str s => exact ⟨s, rfl, fun _ => rfl⟩
  | arr items => exact ⟨items, rfl, alikeItems_refl below items⟩
  | obj fields => exact ⟨fields, rfl, alikeFields_refl below fields⟩
  | _ => exact rfl

theorem alikeItems_refl (below : Bool) (vs : List Json) : AlikeItems below vs vs := by
  cases vs with
  | nil => exact rfl
  | cons v vs => exact ⟨v, vs, rfl, alike_refl below v, alikeItems_refl below vs⟩

theorem alikeFields_refl (below : Bool) (fs : List (JsString × Json)) : AlikeFields below fs fs := by
  cases fs with
  | nil => exact rfl
  | cons f fs => exact ⟨f.2, fs, rfl, alike_refl _ f.2, alikeFields_refl below fs⟩

end

/-- The scrubber leaves the two shortest texts alone. -/
structure Plain (scrub : JsString → JsString) : Prop where
  empty : scrub [] = []
  letter : scrub (js "a") = js "a"

theorem redactPath_differs (h : Plain o.scrub) (hn : o.policy.paths ≠ .none) (hr : o.policy.paths ≠ .redacted) :
    redactPath o [] ≠ redactPath o (js "a") := by
  unfold redactPath
  cases hp : o.policy.paths with
  | none => exact absurd hp hn
  | redacted => exact absurd hp hr
  | full =>
      simp only [h.empty, h.letter]
      decide
  | projectRelative =>
      have hempty : normalizePathForCompare [] = [] := rfl
      have hletter : normalizePathForCompare (js "a") = js "a" := by decide
      have hlast : lastSegment [] = [] ∧ lastSegment (js "a") = js "a" := by decide
      simp only [hempty, hletter]
      cases o.projectRoot.filter fun root => !root.isEmpty with
      | none =>
          rw [hlast.1, hlast.2]
          decide
      | some root =>
          simp only
          have hslash : ∀ r : JsString, (r ++ js "/").isPrefixOf [] = false := by
            intro r
            cases r <;> rfl
          have hslash' : ∀ r : JsString, (r ++ js "/").isPrefixOf (js "a") = false := by
            intro r
            have hmarks : js "/" = [unit '/'] ∧ js "a" = [unit 'a'] := by decide
            cases r with
            | nil => decide
            | cons c r =>
                rw [hmarks.1, hmarks.2]
                cases r <;> simp [List.isPrefixOf]
          rw [hslash, hslash', hlast.1, hlast.2]
          simp only [Bool.false_eq_true, ↓reduceIte]
          split
          · rename_i hroot
            rw [← hroot]
            decide
          · split <;> decide

theorem visitString_differs (h : Plain o.scrub) (hkey : key.any o.constant = false) :
    (visitString o [] key).value ≠ (visitString o (js "a") key).value := by
  have hsummary : summarizeString o [] ≠ summarizeString o (js "a") := by
    unfold summarizeString
    simp only [h.empty, h.letter, List.length_nil, Nat.zero_le, ↓reduceIte]
    split
    · decide
    · intro heq
      have hlength := congrArg List.length heq
      simp only [List.length_append, List.length_nil] at hlength
      have hmark : (js "…[truncated:").length = 12 := by decide
      omega
  unfold visitString
  cases key with
  | none => simpa using hsummary
  | some k =>
      simp only [Option.any_some, HqRedactOptions.constant] at hkey
      simp only [Option.any_some]
      split
      · rename_i hpath
        rw [if_pos hpath] at hkey
        simp only [Bool.or_eq_false_iff, beq_eq_false_iff_ne] at hkey
        exact redactPath_differs h hkey.1 hkey.2
      · rename_i hpath
        rw [if_neg hpath] at hkey
        simpa [hkey] using hsummary

theorem exists_string (h : Plain o.scrub) (hkey : key.any o.constant = false) (s : JsString) :
    ∃ t, (visitString o s key).value ≠ (visitString o t key).value := by
  by_cases heq : (visitString o s key).value = (visitString o [] key).value
  · exact ⟨js "a", heq ▸ visitString_differs h hkey⟩
  · exact ⟨[], heq⟩

mutual

theorem exists_alike (h : Plain o.scrub) (v : Json) (key : Option JsString) (below : Bool)
    (hv : covered o below key v = false) :
    ∃ w, Alike below v w ∧ (visitValue o key v).value ≠ (visitValue o key w).value := by
  unfold covered at hv
  cases hkey : key.any isSensitiveKey with
  | true => simp [hkey] at hv
  | false =>
      simp only [hkey, Bool.false_eq_true, ↓reduceIte] at hv
      cases v with
      | str s =>
          simp only [Bool.or_eq_false_iff, Bool.not_eq_false'] at hv
          obtain ⟨t, ht⟩ := exists_string h hv.2 s
          refine ⟨.str t, ⟨t, rfl, fun hb => ?_⟩, ?_⟩
          · rw [hv.1] at hb
            cases hb
          · simpa [visitValue, hkey] using ht
      | arr items =>
          obtain ⟨ws, hws, hne⟩ := exists_alikeItems h items key below hv
          exact ⟨.arr ws, ⟨ws, rfl, hws⟩, by simpa [visitValue, hkey] using hne⟩
      | obj fields =>
          obtain ⟨gs, hgs, hne⟩ := exists_alikeFields h fields below hv
          exact ⟨.obj gs, ⟨gs, rfl, hgs⟩, by simpa [visitValue, hkey] using hne⟩
      | null | bool | num => cases hv

theorem exists_alikeItems (h : Plain o.scrub) (vs : List Json) (key : Option JsString) (below : Bool)
    (hv : coveredItems o below key vs = false) :
    ∃ ws, AlikeItems below vs ws ∧ (visitItems o key vs).value ≠ (visitItems o key ws).value := by
  cases vs with
  | nil => cases hv
  | cons v vs =>
      rcases Bool.and_eq_false_iff.mp hv with hfirst | hrest
      · obtain ⟨w, hw, hne⟩ := exists_alike h v key below hfirst
        refine ⟨w :: vs, ⟨w, vs, rfl, hw, alikeItems_refl below vs⟩, fun heq => hne ?_⟩
        exact (List.cons.inj heq).1
      · obtain ⟨ws, hws, hne⟩ := exists_alikeItems h vs key below hrest
        refine ⟨v :: ws, ⟨v, ws, rfl, alike_refl below v, hws⟩, fun heq => hne ?_⟩
        exact (List.cons.inj heq).2

theorem exists_alikeFields (h : Plain o.scrub) (fs : List (JsString × Json)) (below : Bool)
    (hv : coveredFields o below fs = false) :
    ∃ gs, AlikeFields below fs gs ∧ (visitFields o fs).value ≠ (visitFields o gs).value := by
  cases fs with
  | nil => cases hv
  | cons f fs =>
      obtain ⟨k, v⟩ := f
      rcases Bool.and_eq_false_iff.mp hv with hfirst | hrest
      · obtain ⟨w, hw, hne⟩ := exists_alike h v (some k) _ hfirst
        refine ⟨(k, w) :: fs, ⟨w, fs, rfl, hw, alikeFields_refl below fs⟩, fun heq => hne ?_⟩
        exact (Prod.mk.inj (List.cons.inj heq).1).2
      · obtain ⟨gs, hgs, hne⟩ := exists_alikeFields h fs below hrest
        refine ⟨(k, v) :: gs, ⟨v, gs, rfl, alike_refl _ v, hgs⟩, fun heq => hne ?_⟩
        exact (List.cons.inj heq).2

end

/-! ## Noninterference -/

/-- With `rawContent` off, a payload is redacted to the same value as all payloads that differ from it only in strings
below keys of raw or sensitive content, exactly if it is covered. -/
theorem redactHqValue_alike_iff (o : HqRedactOptions) (v : Json) (hraw : o.policy.rawContent = false)
    (hscrub : Plain o.scrub) :
    (∀ w, Alike false v w → (redactHqValue o v).value = (redactHqValue o w).value) ↔
      covered o false none v = true := by
  constructor
  · intro h
    by_contra hcovered
    obtain ⟨w, hw, hne⟩ := exists_alike hscrub v none false (by simpa using hcovered)
    exact hne (h w hw)
  · exact fun h w hw => visitValue_alike hraw v w none false h hw

/-- A scrubber that finds nothing. -/
def noSecrets : HqRedactOptions := { scrub := id }

/-- A prompt given as a list of strings. -/
def prompt (text : JsString) : Json :=
  .obj [(js "prompt", .arr [.str text])]

theorem redactHqValue_alike_prompt :
    (redactHqValue noSecrets (prompt (js "x"))).value = (redactHqValue noSecrets (prompt (js "y"))).value :=
  have hkey : hidesContent (js "prompt") = true := by decide +kernel
  have htext : Alike true (.str (js "x")) (.str (js "y")) := ⟨js "y", rfl, fun h => nomatch h⟩
  (redactHqValue_alike_iff noSecrets (prompt (js "x")) rfl ⟨rfl, rfl⟩).mpr (by decide +kernel) (prompt (js "y"))
    ⟨_, rfl, _, _, rfl, by rw [hkey]; exact ⟨_, rfl, _, _, rfl, htext, rfl⟩, rfl⟩

/-- A message made of typed blocks. -/
def message (text : JsString) : Json :=
  .obj [(js "message", .arr [.obj [(js "type", .str (js "text")), (js "text", .str text)]])]

/-- The text of a block is its own, under a key that hides nothing. -/
theorem message_shows :
    Alike false (message (js "x")) (message (js "y")) ∧
      (redactHqValue noSecrets (message (js "x"))).value ≠ (redactHqValue noSecrets (message (js "y"))).value := by
  have htext : Alike true (.str (js "x")) (.str (js "y")) := ⟨js "y", rfl, fun h => nomatch h⟩
  have hfields : AlikeFields true [(js "type", .str (js "text")), (js "text", .str (js "x"))]
      [(js "type", .str (js "text")), (js "text", .str (js "y"))] :=
    ⟨_, _, rfl, alike_refl _ _, _, _, rfl, htext, rfl⟩
  have hkey : hidesContent (js "message") = true := by decide +kernel
  refine ⟨⟨_, rfl, _, _, rfl, ?_, rfl⟩, fun heq => ?_⟩
  · rw [hkey]
    exact ⟨_, rfl, _, _, rfl, ⟨_, rfl, hfields⟩, rfl⟩
  · have htext : Json.stringify (redactHqValue noSecrets (message (js "x"))).value ≠
        Json.stringify (redactHqValue noSecrets (message (js "y"))).value := by decide +kernel
    exact htext (congrArg Json.stringify heq)

end WrongStack.Hq

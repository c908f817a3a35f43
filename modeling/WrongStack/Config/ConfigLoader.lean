import WrongStack.Lib.Json
import WrongStack.Lib.Number

/-!
# Deep merge

`deepMerge` (`core/src/utils/deep-merge.ts`) with the options of the config loader: the patch wins, arrays
of primitives are concatenated, and the keys that reach for a prototype are skipped.
-/

namespace WrongStack.Config

open Lib Json

def FORBIDDEN_PROTO_KEYS : List JsString :=
  ["__proto__", "constructor", "prototype", "__defineGetter__", "__defineSetter__", "__lookupGetter__",
    "__lookupSetter__"].map js

def isPrimitive : Json → Bool
  | .arr _ | .obj _ => false
  | _ => true

def isPrimitiveArray (items : List Json) : Bool := items.all isPrimitive

/-- What a `Set` takes for the same; arrays and objects are told apart by identity. -/
def sameValue : Json → Json → Bool
  | .null, .null => true
  | .bool a, .bool b => a == b
  | .num a, .num b => a == b
  | .str a, .str b => a == b
  | _, _ => false

/-- `[...new Set(items)]` -/
def dedupe (items : List Json) : List Json :=
  items.foldl (fun out v => if out.any (sameValue v) then out else out ++ [v]) []

mutual

def deepMerge (base : Json) : Json → Json
  | .obj patch =>
      match base with
      | .obj fields => .obj (mergeFields fields patch)
      | _ => .obj patch
  | .arr patch =>
      match base with
      | .arr items =>
          if isPrimitiveArray items && isPrimitiveArray patch then .arr (dedupe (items ++ patch))
          else .arr patch
      | _ => .arr patch
  | patch => patch

/-- The loop over the entries of the patch. -/
def mergeFields (out : Fields) : List (JsString × Json) → Fields
  | [] => out
  | (k, v) :: patch =>
      mergeFields
        (if FORBIDDEN_PROTO_KEYS.contains k then out
          else setField out k (match lookup out k with
            | some existing => deepMerge existing v
            | none => v))
        patch

end

example : deepMerge (.obj [(js "a", .arr [.null])]) (.obj [(js "a", .arr [.bool true, .null])]) =
    .obj [(js "a", .arr [.null, .bool true])] := by rfl

/-!
# Loading the configuration

`DefaultConfigLoader.load` (`core/src/storage/config-loader.ts`) on what its layers contain: the global
file as `ensureGlobalDefaults` has left it, the project-local and the in-project file (empty when they
cannot be read), the environment, the extra sources in the order of their priorities, and the CLI flags.
`_envSource`, which names the fields that must not be persisted, and the warnings are left out.
-/

/-! ## Defaults -/

def object (fields : List (String × Json)) : Json := .obj (fields.map fun f => (js f.1, f.2))

def string (s : String) : Json := .str (js s)

def number (text : String) : Json := .num (js text)

def defaultIndexing : List (String × Json) :=
  [("onSessionStart", .bool true), ("onEdit", .bool true), ("watchExternal", .bool true),
    ("debounceMs", number "400")]

def DEFAULT_CONTEXT_WINDOW_MODE_ID : JsString := js "balanced"

def BEHAVIOR_DEFAULTS : Json := object
  [ ("version", number "1"),
    ("context", object
      [ ("mode", .str DEFAULT_CONTEXT_WINDOW_MODE_ID), ("warnThreshold", number "0.6"),
        ("softThreshold", number "0.75"), ("hardThreshold", number "0.9"), ("autoCompact", .bool true),
        ("preserveK", number "10"), ("eliseThreshold", number "2000"), ("strategy", string "hybrid") ]),
    ("tools", object
      [ ("defaultExecutionStrategy", string "smart"), ("maxIterations", number "100"),
        ("iterationTimeoutMs", number "300000"), ("sessionTimeoutMs", number "1800000"),
        ("perIterationOutputCapBytes", number "100000"), ("descriptionMode", object []),
        ("disabledTools", .arr []), ("autoExtendLimit", .bool true), ("restrictToProjectRoot", .bool false) ]),
    ("log", object [("level", string "info")]),
    ("features", object
      [ ("mcp", .bool true), ("plugins", .bool true), ("memory", .bool true), ("modelsRegistry", .bool true),
        ("skills", .bool true), ("prompts", .bool true), ("tokenSavingMode", string "off"),
        ("allowOutsideProjectRoot", .bool true) ]),
    ("skills", object [("readClaudeSkills", .bool true)]),
    ("mcpServers", object []),
    ("fallbackAuto", .bool true),
    ("maxConcurrent", number "4"),
    ("yolo", .bool true),
    ("nextPrediction", .bool false),
    ("hints", .bool true),
    ("debugStream", .bool false),
    ("configScope", string "global"),
    ("indexing", object defaultIndexing),
    ("session", object
      [ ("auditLevel", string "standard"),
        ("sampling", object [("toolProgress", object [("sampleRate", number "8")])]) ]),
    ("autonomy", object
      [ ("defaultMode", string "auto"), ("autoProceedDelayMs", number "45000"),
        ("autoProceedMaxIterations", number "50"),
        ("autonomyNextPrompt", string "auto \x7b\x7bsuggestion\x7d\x7d"),
        ("terminalTitleAnimation", .bool true), ("yolo", .bool true), ("streamFleet", .bool true),
        ("chime", .bool false), ("confirmExit", .bool true), ("mouseMode", .bool false),
        ("enhance", .bool true), ("enhanceDelayMs", number "60000"), ("enhanceLanguage", string "original"),
        ("statuslineMode", string "detailed"), ("thinkingWord", string "thinking") ]),
    ("circuitBreaker", object [("enabled", .bool false), ("autoKillResetMs", number "60000")]),
    ("modelRuntime", object
      [("reasoning", object [("mode", string "auto")]), ("cache", object [])]) ]

/-! ## The in-project layer -/

def IN_PROJECT_ALLOWED_KEYS : List JsString :=
  ["version", "model", "cwd", "context", "tools", "features", "skills", "autonomy", "indexing", "session",
    "log", "launch", "nextPrediction", "hints", "debugStream", "configScope", "maxConcurrent", "uiLocale",
    "fallbackModels", "fallbackProfiles", "favoriteModels", "favoriteModelsOnly", "fallbackAuto", "models",
    "modelMatrix", "circuitBreaker", "adaptiveConcurrency", "modelRuntime"].map js

/-- The keys; their reasons are left out. -/
def KNOWN_DENIED_IN_PROJECT : List JsString :=
  ["provider", "apiKey", "baseUrl", "providers", "mcpServers", "hooks", "plugins", "sync", "yolo",
    "extensions", "hq", "acp", "fleet"].map js

/-- `delete` on a copy. -/
def dropKeys (keys : List String) (fields : Fields) : Fields :=
  fields.filter fun f => !(keys.map js).contains f.1

def stripExec : Json → Json
  | .obj exec => .obj (dropKeys ["allow", "danger"] exec)
  | exec => exec

def stripTools : Json → Json
  | .obj tools => .obj (tools.map fun f => (f.1, if f.1 = js "exec" then stripExec f.2 else f.2))
  | tools => tools

def stripSkills : Json → Json
  | .obj skills => .obj (dropKeys ["extraDirs", "registryUrl"] skills)
  | skills => skills

def stripValue (key : JsString) (v : Json) : Json :=
  if key = js "tools" then stripTools v else if key = js "skills" then stripSkills v else v

def stripUnsafeInProjectFields (inProject : Fields) : Fields :=
  (inProject.filter fun f => IN_PROJECT_ALLOWED_KEYS.contains f.1).map fun f => (f.1, stripValue f.1 f.2)

/-! ## The environment -/

inductive EnvVar
  | provider | model | apiKey | baseUrl | logLevel | indexOnStart | indexOnEdit | indexWatch
  deriving DecidableEq

/-- `!/^(0|false|no|off)$/i.test(v.trim())` -/
def envBool (v : JsString) : Bool :=
  !(["0", "false", "no", "off"].map js).contains (JsString.toLowerCase (JsString.trim v))

def envLogLevel (v : JsString) : Json :=
  if (["error", "warn", "info", "debug", "trace"].map js).contains v then .str v else string "info"

def truthy : Json → Bool
  | .null => false
  | .bool b => b
  | .num text => text != js "0"
  | .str s => !s.isEmpty
  | _ => true

/-- `{ ...v }` -/
def spread : Json → Fields
  | .obj fields => fields
  | .arr items => items.zipIdx.map fun p => (js (toString p.2), p.1)
  | .str s => s.zipIdx.map fun p => (js (toString p.2), .str [p.1])
  | _ => []

/-- What `load` rejects with. -/
inductive LoadError
  | typeError
  | configInvalid (message : JsString)
  deriving DecidableEq

def invalid (message : String) : LoadError := .configInvalid (js message)

/-- `{ ...defaultIndexing, ...c.indexing, [field]: envBool(v) }` -/
def setIndexing (cfg : Json) (field : String) (v : JsString) : Json :=
  let spreaded := (spread ((cfg.get? (js "indexing")).getD .null)).foldl
    (fun out f => setField out f.1 f.2) (defaultIndexing.map fun f => (js f.1, f.2))
  cfg.assign (js "indexing") (.obj (setField spreaded (js field) (.bool (envBool v))))

/-- A field from the environment is noted in `_envSource`, which no file may have put there. -/
def setNoted (cfg : Json) (field : String) (v : JsString) : Except LoadError Json :=
  if (cfg.get? (js "_envSource")).isSome then .error .typeError else .ok (cfg.assign (js field) (.str v))

/-- The handlers of `ENV_MAP`. -/
def EnvVar.apply (cfg : Json) (v : JsString) : EnvVar → Except LoadError Json
  | provider => setNoted cfg "provider" v
  | model => setNoted cfg "model" v
  | apiKey => setNoted cfg "apiKey" v
  | baseUrl => setNoted cfg "baseUrl" v
  | logLevel =>
      match cfg.get? (js "log") with
      | some (.obj log) => .ok (cfg.assign (js "log") (.obj (setField log (js "level") (envLogLevel v))))
      | some (.arr _) => .ok cfg
      | some log =>
          if truthy log then .error .typeError
          else .ok (cfg.assign (js "log") (.obj [(js "level", envLogLevel v)]))
      | none => .ok (cfg.assign (js "log") (.obj [(js "level", envLogLevel v)]))
  | indexOnStart => .ok (setIndexing cfg "onSessionStart" v)
  | indexOnEdit => .ok (setIndexing cfg "onEdit" v)
  | indexWatch => .ok (setIndexing cfg "watchExternal" v)

def ENV_MAP : List EnvVar :=
  [.provider, .model, .apiKey, .baseUrl, .logLevel, .indexOnStart, .indexOnEdit, .indexWatch]

/-- `if (v) fn(cfg, v)` -/
def applyVar (env : EnvVar → Option JsString) (cfg : Json) (var : EnvVar) : Except LoadError Json :=
  match env var with
  | some v => if v.isEmpty then .ok cfg else var.apply cfg v
  | none => .ok cfg

def applyEnv (env : EnvVar → Option JsString) (cfg : Json) : Except LoadError Json :=
  ENV_MAP.foldlM (applyVar env) cfg

/-! ## Extra sources -/

/-- `Object.keys(patch).length > 0` -/
def hasKeys : Json → Bool
  | .obj fields => !fields.isEmpty
  | .arr items => !items.isEmpty
  | .str s => !s.isEmpty
  | _ => false

/-- A source that fails is skipped. -/
def mergeSource (cfg : Json) : Option Parsed → Json
  | some patch => if hasKeys patch.1 then deepMerge cfg patch.1 else cfg
  | none => cfg

/-! ## Secrets -/

def SECRET_KEYS : List JsString :=
  ["apikey", "api_key", "authtoken", "auth_token", "bearer", "secret", "password", "passwd", "pwd",
    "refreshtoken", "refresh_token", "sessionkey", "session_key", "accesstoken", "access_token",
    "access-token", "privatekey", "private_key", "private-key"].map js

def isSecretField (name : JsString) : Bool :=
  let lc := JsString.toLowerCase name
  if (["publickey", "public_key"].map js).contains lc then false
  else SECRET_KEYS.any fun token => decide (token <:+: lc)

mutual

/-- `walk` of the secret vault. -/
def walk (transform : JsString → JsString) : Json → Json
  | .arr items => .arr (walkItems transform items)
  | .obj fields => .obj (walkFields transform fields)
  | v => v

def walkItems (transform : JsString → JsString) : List Json → List Json
  | [] => []
  | v :: vs => walk transform v :: walkItems transform vs

def walkFields (transform : JsString → JsString) : List (JsString × Json) → List (JsString × Json)
  | [] => []
  | (k, v) :: vs =>
      (k, match v with
        | .str s => if isSecretField k then .str (transform s) else .str s
        | v => walk transform v) :: walkFields transform vs

end

/-- A field that `decrypt` throws on is emptied. -/
def decryptConfigSecrets (decrypt : JsString → Option JsString) (cfg : Json) : Json :=
  walk (fun s => (decrypt s).getD []) cfg

/-! ## Several keys for a provider -/

/-- `v > 0`, as the language converts `v` -/
abbrev Positive := Json → Bool

def ownKey (k : Json) : Option (JsString × JsString) := do
  let label ← k.getString (js "label")
  let apiKey ← k.getString (js "apiKey")
  return (label, apiKey)

/-- `existing && existing.length > 0` -/
def hasLength (positive : Positive) : Json → Bool
  | .str s => !s.isEmpty
  | .arr items => !items.isEmpty
  | .obj fields =>
      match lookup fields (js "length") with
      | some n => positive n
      | none => false
  | _ => false

/-- The first key is taken when the active label is empty or names none. -/
def chooseKey (keys : List (JsString × JsString)) (activeLabel : Option Json) : Option JsString :=
  let found := match activeLabel with
    | some (.str label) => if label.isEmpty then none else keys.find? (·.1 == label)
    | _ => none
  (found <|> keys.head?).map Prod.snd

def resolveProvider (positive : Positive) (pcfg : Json) : Json :=
  match pcfg.get? (js "apiKeys") with
  | some (.arr rawKeys) =>
      if ((pcfg.get? (js "apiKey")).map (hasLength positive)).getD false then pcfg
      else
        match chooseKey (rawKeys.filterMap ownKey) (pcfg.get? (js "activeKey")) with
        | some apiKey => if apiKey.isEmpty then pcfg else pcfg.assign (js "apiKey") (.str apiKey)
        | none => pcfg
  | _ => pcfg

def resolveProviders (positive : Positive) (providers : Json) : Json :=
  match providers with
  | .obj fields => .obj (fields.map fun f => (f.1, resolveProvider positive f.2))
  | .arr items => .arr (items.map (resolveProvider positive))
  | v => v

def resolveApiKeys (positive : Positive) (cfg : Json) : Json :=
  match cfg.get? (js "providers") with
  | some providers => cfg.assign (js "providers") (resolveProviders positive providers)
  | none => cfg

/-! ## Validation -/

def CONTEXT_WINDOW_MODES : List JsString := ["balanced", "frugal", "deep", "archival"].map js

def typeOf : Option Json → String
  | none => "undefined"
  | some (.bool _) => "boolean"
  | some (.num _) => "number"
  | some (.str _) => "string"
  | some _ => "object"

def threshold (c : Json) (field : String) : Except LoadError JsString :=
  match c.get? (js field) with
  | some (.num text) => .ok text
  | v => .error (invalid s!"Config: context.{field} must be a finite number (got {typeOf v})")

/-- The context section, with an unknown mode replaced. -/
def validateContext (c : Json) : Except LoadError Json := do
  let warn ← threshold c "warnThreshold"
  let soft ← threshold c "softThreshold"
  let hard ← threshold c "hardThreshold"
  if Decimal.ge warn soft || Decimal.ge soft hard then
    .error (invalid "Config: context thresholds must satisfy warn < soft < hard")
  else match c.get? (js "mode") with
    | some (.str mode) =>
        if CONTEXT_WINDOW_MODES.contains mode then .ok c
        else .ok (c.assign (js "mode") (.str DEFAULT_CONTEXT_WINDOW_MODE_ID))
    | some _ => .ok (c.assign (js "mode") (.str DEFAULT_CONTEXT_WINDOW_MODE_ID))
    | none => .ok c

mutual

/-- A value in a template string. -/
def asText : Json → JsString
  | .null => js "null"
  | .bool b => js (if b then "true" else "false")
  | .num text => text
  | .str s => s
  | .arr items => JsString.join (js ",") (itemTexts items)
  | .obj _ => js "[object Object]"

def itemTexts : List Json → List JsString
  | [] => []
  | .null :: vs => [] :: itemTexts vs
  | v :: vs => asText v :: itemTexts vs

end

def isVersionOne : Json → Bool
  | .num text => text == js "1"
  | _ => false

def validateBehavior (cfg : Json) : Except LoadError Json :=
  match cfg.get? (js "version"), cfg.get? (js "context") with
  | none, _ => .error (invalid "Config: missing version field")
  | some version, c =>
      if !isVersionOne version then
        .error (.configInvalid (js "Config: unsupported version " ++ asText version))
      else if !(c.map truthy).getD false then .error (invalid "Config: missing context section")
      else (validateContext (c.getD .null)).map (cfg.assign (js "context"))

def validateIdentity (cfg : Json) : Except LoadError Unit :=
  if !((cfg.get? (js "provider")).map truthy).getD false then
    .error (invalid "Config: no provider configured. Run `wstack init` or set WRONGSTACK_PROVIDER.")
  else if !((cfg.get? (js "model")).map truthy).getD false then
    .error (invalid "Config: no model configured. Run `wstack init` or set WRONGSTACK_MODEL.")
  else .ok ()

/-! ## `load` -/

/-- The files that are merged before the in-project one. -/
structure Before where
  globalConfig : Parsed
  projectLocalConfig : Parsed

/-- What is merged after it, and how the result is read. -/
structure After where
  env : EnvVar → Option JsString
  sources : List (Option Parsed)
  cliFlags : Option Parsed
  vault : Option (JsString → Option JsString)
  positive : Positive
  strict : Bool

def Before.merged (b : Before) : Json :=
  deepMerge (deepMerge BEHAVIOR_DEFAULTS b.globalConfig.1) b.projectLocalConfig.1

def mergeFlags (cfg : Json) : Option Parsed → Json
  | some flags => deepMerge cfg flags.1
  | none => cfg

def decryptWith (cfg : Json) : Option (JsString → Option JsString) → Json
  | some decrypt => decryptConfigSecrets decrypt cfg
  | none => cfg

/-- The layers after the environment. -/
def After.layered (a : After) (cfg : Json) : Json :=
  decryptWith (mergeFlags (a.sources.foldl mergeSource cfg) a.cliFlags) a.vault

def After.finish (a : After) (cfg : Json) : Except LoadError Json := do
  let cfg ← applyEnv a.env cfg
  let cfg ← validateBehavior (resolveApiKeys a.positive (a.layered cfg))
  if a.strict then validateIdentity cfg
  return cfg

def load (b : Before) (a : After) (inProject : Fields) : Except LoadError Json :=
  a.finish (deepMerge b.merged (.obj (stripUnsafeInProjectFields inProject)))

end WrongStack.Config

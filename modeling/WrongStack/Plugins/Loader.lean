import WrongStack.Lib.JsMap
import WrongStack.Lib.TopoSort
import WrongStack.Utils.JsonRepair

/-!
# Loading plugins

`loadPlugins` and `unloadPlugins` (`core/src/plugin/loader.ts`). What `apiFactory`, `setup` and `teardown`
do is a parameter, the failures they end with have any type; logging never throws. Plugins are known by
their names.
-/

namespace WrongStack.Plugins

open Lib Utils

def KERNEL_API_VERSION : JsString := js "0.1.10"

/-! ## Versions -/

/-- A number with more than 53 bits, rounded half to even. `2 ^ 1024` stands for `Infinity`. -/
def toNumber (n : Nat) : Nat :=
  let shift := n.log2 - 52
  let quotient := n / 2 ^ shift
  let rest := n % 2 ^ shift
  let up := decide (2 ^ shift < 2 * rest) || decide (2 * rest = 2 ^ shift ∧ shift ≠ 0 ∧ quotient % 2 = 1)
  min ((if up then quotient + 1 else quotient) * 2 ^ shift) (2 ^ 1024)

/-- `Number.parseInt(s, 10) || 0` -/
def parseIntOrZero (s : JsString) : Int :=
  match s.dropWhile isSpace with
  | [] => 0
  | c :: rest =>
      if c = unit '-' then -(toNumber (Decimal.natural (rest.takeWhile isDigit)) : Int)
      else if c = unit '+' then toNumber (Decimal.natural (rest.takeWhile isDigit))
      else toNumber (Decimal.natural ((c :: rest).takeWhile isDigit))

def parseSemver (v : JsString) : Int × Int × Int :=
  let parts := (JsString.splitOn (unit '.') (v.dropWhile fun c => !isDigit c)).map parseIntOrZero
  (parts.getD 0 0, parts.getD 1 0, parts.getD 2 0)

def satisfies (range version : JsString) : Bool :=
  let (vMaj, vMin, vPatch) := parseSemver version
  let trimmed := JsString.trim range
  let op := if trimmed.head? = some (unit '^') then unit '^'
    else if trimmed.head? = some (unit '~') then unit '~' else unit '='
  let ver := match trimmed with
    | c :: rest => if (js "^~=").contains c then rest else trimmed
    | [] => []
  let (rMaj, rMin, rPatch) := parseSemver ver
  if op = unit '^' then
    if rMaj = 0 then vMaj == 0 && vMin == rMin && decide (rPatch ≤ vPatch)
    else vMaj == rMaj && (decide (rMin < vMin) || (vMin == rMin && decide (rPatch ≤ vPatch)))
  else if op = unit '~' then vMaj == rMaj && vMin == rMin && decide (rPatch ≤ vPatch)
  else vMaj == rMaj && vMin == rMin && vPatch == rPatch

example : satisfies (js "^1.2") (js "v1.3.0") = true ∧ satisfies (js "~1.2.3") (js "1.2.2") = false := by
  decide +kernel

/-! ## Data -/

structure PluginDependency where
  name : JsString
  version : Option JsString := none

inductive RawDependency
  | name (name : JsString)
  | dependency (d : PluginDependency)

def normalizeDep : RawDependency → PluginDependency
  | .name name => { name }
  | .dependency d => d

structure Plugin where
  name : JsString
  version : Option JsString := none
  apiVersion : JsString
  configSchema : Option JSONSchema := none
  dependsOn : List RawDependency := []
  optionalDeps : List RawDependency := []
  conflictsWith : List JsString := []
  defaultConfig : Option (List (JsString × Json)) := none
  /-- `typeof plugin.teardown === 'function'` -/
  teardown : Bool := true

inductive ErrorCode
  | loadFailed | missingDependency | apiMismatch
  deriving DecidableEq

structure PluginError where
  message : JsString
  code : ErrorCode
  pluginName : JsString
  context : List (JsString × Json) := []

/-- What `failed` holds about a plugin. -/
inductive Failure (ε : Type)
  | plugin (err : PluginError)
  | thrown (err : ε)

structure LoadPluginsOptions (ε : Type) where
  kernelApiVersion : Option JsString := none
  pluginOptions : Option (JsMap JsString Json) := none
  apiFactory : Plugin → Except ε Unit
  setup : Plugin → Except ε Unit
  teardown : Plugin → Except ε Unit

/-- A string read as a condition. -/
def truthy : Option JsString → Option JsString
  | some [] => none
  | s => s

def quoted (s : JsString) : JsString := js "\"" ++ s ++ js "\""

/-! ## Sorting -/

def pluginMap (plugins : List Plugin) : JsMap JsString Plugin :=
  plugins.foldl (fun map p => map.set p.name p) .empty

/-- `dep.version && d.version && !satisfies(dep.version, d.version)` -/
def violated (dep : PluginDependency) (d : Plugin) : Option (JsString × JsString) :=
  match truthy dep.version, truthy d.version with
  | some required, some found => if satisfies required found then none else some (required, found)
  | _, _ => none

/-- A dependency that is there, or the error about its version. -/
def checkVersion (dep : PluginDependency) (d : Plugin) (p : Plugin) (message : JsString → JsString → JsString) :
    Except PluginError Plugin :=
  match violated dep d with
  | some (required, found) => .error
      { message := message required found
        code := .loadFailed
        pluginName := p.name
        context := [(js "dependency", .str dep.name), (js "required", .str required), (js "found", .str found)] }
  | none => .ok d

def requiredMessage (p : Plugin) (dep : PluginDependency) (required found : JsString) : JsString :=
  js "Plugin " ++ quoted p.name ++ js " requires " ++ quoted (dep.name ++ js "@" ++ required) ++
    js ", found " ++ found

def optionalMessage (p : Plugin) (dep : PluginDependency) (required found : JsString) : JsString :=
  js "Plugin " ++ quoted p.name ++ js " optional dep " ++ quoted (dep.name ++ js "@" ++ required) ++
    js " found " ++ found

def requiredEdge (map : JsMap JsString Plugin) (p : Plugin) (raw : RawDependency) : Except PluginError Plugin :=
  let dep := normalizeDep raw
  match map.get? dep.name with
  | none => .error
      { message := js "Plugin " ++ quoted p.name ++ js " depends on missing plugin " ++ quoted dep.name
        code := .missingDependency
        pluginName := p.name
        context := [(js "dependency", .str dep.name)] }
  | some d => checkVersion dep d p (requiredMessage p dep)

def optionalEdge (map : JsMap JsString Plugin) (p : Plugin) (raw : RawDependency) :
    Option (Except PluginError Plugin) :=
  let dep := normalizeDep raw
  (map.get? dep.name).map fun d => checkVersion dep d p (optionalMessage p dep)

def cycleError (path : List JsString) : PluginError where
  message := js "Plugin dependency cycle: " ++ JsString.join (js " -> ") path
  code := .loadFailed
  pluginName := path.getLastD []

/-- The graph that `visit` walks: the required dependencies first. -/
def dependencies (map : JsMap JsString Plugin) : Sorting Plugin JsString PluginError where
  key := Plugin.name
  edges := fun p => p.dependsOn.map (requiredEdge map p) ++ p.optionalDeps.filterMap (optionalEdge map p)
  cycle := cycleError

def topoSort (plugins : List Plugin) : Except (Option PluginError) (List Plugin) :=
  (dependencies (pluginMap plugins)).sort plugins

/-! ## Loading -/

/-- The entries of an object that is not `null`, as `Object.keys` lists them. -/
def ownEntries : Json → List (JsString × Json)
  | .obj fields => fields
  | .arr items => items.zipIdx.map fun p => (js s!"{p.2}", p.1)
  | _ => []

def shallowMerge (defaults : List (JsString × Json)) (overrides : Option Json) : Json :=
  .obj <| (overrides.elim [] ownEntries).foldl (fun out entry => JsMap.setList entry.1 entry.2 out) defaults

structure Loading (ε : Type) where
  pluginOptions : Option (JsMap JsString Json)
  /-- The plugins whose `setup` has been called. -/
  setups : List Plugin := []
  /-- The keys of `pluginApiMap`. -/
  apis : List JsString := []
  loaded : List Plugin := []
  failed : List (Plugin × Failure ε) := []

variable {ε : Type}

def mergeDefaults (options : Option (JsMap JsString Json)) (plugin : Plugin) : Option (JsMap JsString Json) :=
  match plugin.defaultConfig, options with
  | some defaults, some options =>
      some (options.set plugin.name (shallowMerge defaults (options.get? plugin.name)))
  | _, options => options

def configErrors (options : Option (JsMap JsString Json)) (plugin : Plugin) : List ValidationError :=
  match plugin.configSchema, options.bind (·.get? plugin.name) with
  | some schema, some pluginOpts => validateAgainstSchema pluginOpts schema
  | _, _ => []

def mismatchError (plugin : Plugin) (kernelVersion : JsString) : PluginError where
  message := js "Plugin " ++ quoted plugin.name ++ js " requires apiVersion " ++ plugin.apiVersion ++
    js "; kernel is " ++ kernelVersion
  code := .apiMismatch
  pluginName := plugin.name
  context := [(js "required", .str plugin.apiVersion), (js "kernel", .str kernelVersion)]

def configError (plugin : Plugin) (first : ValidationError) (errors : List ValidationError) : PluginError where
  message := js "Plugin " ++ quoted plugin.name ++ js " config invalid — " ++ first.path ++ js ": " ++
    first.message
  code := .loadFailed
  pluginName := plugin.name
  context := [(js "errors", .arr (errors.map fun e =>
    .obj [(js "path", .str e.path), (js "message", .str e.message)]))]

namespace LoadPluginsOptions

variable (opts : LoadPluginsOptions ε)

def kernelVersion : JsString := opts.kernelApiVersion.getD KERNEL_API_VERSION

/-- One turn of the loop of `loadPlugins`. -/
def loadOne (s : Loading ε) (plugin : Plugin) : Loading ε :=
  if !satisfies plugin.apiVersion opts.kernelVersion then
    { s with failed := s.failed ++ [(plugin, .plugin (mismatchError plugin opts.kernelVersion))] }
  else
    let s := { s with pluginOptions := mergeDefaults s.pluginOptions plugin }
    match configErrors s.pluginOptions plugin with
    | first :: errors =>
        { s with failed := s.failed ++ [(plugin, .plugin (configError plugin first (first :: errors)))] }
    | [] =>
        match opts.apiFactory plugin with
        | .error err => { s with failed := s.failed ++ [(plugin, .thrown err)] }
        | .ok () =>
            let s := { s with setups := s.setups ++ [plugin] }
            match opts.setup plugin with
            | .error err => { s with failed := s.failed ++ [(plugin, .thrown err)] }
            | .ok () => { s with apis := plugin.name :: s.apis, loaded := s.loaded ++ [plugin] }

end LoadPluginsOptions

def conflict (plugins : List Plugin) : Option PluginError :=
  plugins.findSome? fun p =>
    (p.conflictsWith.find? (plugins.map Plugin.name).contains).map fun c =>
      { message := js "Plugin " ++ quoted p.name ++ js " conflicts with loaded plugin " ++ quoted c
        code := .loadFailed
        pluginName := p.name
        context := [(js "conflictsWith", .str c)] }

def sortFailed (plugins : List Plugin) (err : PluginError) : PluginError where
  message := js "Plugin dependency sort failed: " ++ err.message
  code := .loadFailed
  pluginName := js "(topological sort)"
  context := [(js "pluginCount", .num (js s!"{plugins.length}"))]

/-- `none` would be a sort that is out of fuel. -/
def loadPlugins (opts : LoadPluginsOptions ε) (plugins : List Plugin) : Except (Option PluginError) (Loading ε) :=
  match conflict plugins with
  | some err => .error (some err)
  | none =>
      match topoSort plugins with
      | .error err => .error (err.map (sortFailed plugins))
      | .ok sorted => .ok (sorted.foldl opts.loadOne { pluginOptions := opts.pluginOptions })

/-! ## Unloading -/

structure Unloading where
  apis : List JsString
  /-- The plugins whose `teardown` has been called. -/
  torn : List Plugin := []

def unloadOne (opts : LoadPluginsOptions ε) (s : Unloading) (plugin : Plugin) : Unloading :=
  if !plugin.teardown then s
  else if plugin.name ∉ s.apis then s
  else
    let s := { s with torn := s.torn ++ [plugin] }
    match opts.teardown plugin with
    | .ok () => { s with apis := s.apis.filter (· ≠ plugin.name) }
    | .error _ => s

def unloadPlugins (opts : LoadPluginsOptions ε) (loadedPlugins : List Plugin) (apis : List JsString) : Unloading :=
  loadedPlugins.reverse.foldl (unloadOne opts) { apis }

end WrongStack.Plugins

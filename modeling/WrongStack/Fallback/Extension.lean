import Mathlib.Algebra.Order.Ring.Rat
import Mathlib.Data.List.Sort
import Mathlib.Data.Rat.Defs
import WrongStack.Lib.JsMap
import WrongStack.Lib.JsString
import WrongStack.Lib.Run

/-!
# The fallback chain

Which models to try, from the config (`core/src/core/fallback-model.ts`): `parseModelRef`,
`smartDefaultFallbackChain` and `effectiveFallbackChain`. The environment variables and `localeCompare` are
parameters.
-/

namespace WrongStack.Fallback

open Lib

structure ModelRef where
  provider : Option JsString := none
  model : JsString
  deriving DecidableEq

/-- A provider of the config; an absent list of keys or variables is empty. -/
structure ProviderConfig where
  apiKey : Option JsString := none
  apiKeys : List JsString := []
  envVars : List JsString := []
  models : Option (List JsString) := none

structure Config where
  provider : JsString
  model : JsString
  providers : JsMap JsString ProviderConfig := .empty
  favoriteModels : List JsString := []
  favoriteModelsOnly : Bool := false
  fallbackModels : List JsString := []
  fallbackAuto : Bool := true

/-- What is outside. -/
structure Host where
  localeCompare : JsString → JsString → Ordering
  env : JsString → Option JsString

/-! ## References -/

/-- Parse a fallback entry: `model`, `provider/model`, or `provider model`. -/
def parseModelRef (ref : JsString) : ModelRef :=
  let trimmed := JsString.trim ref
  if trimmed.contains (unit '/') then
    let provider := trimmed.takeWhile (· ≠ unit '/')
    { provider := if provider = [] then none else some provider
      model := JsString.trim (trimmed.drop (provider.length + 1)) }
  else
    let parts := JsString.splitOn (unit ' ') (JsString.collapseSpaces trimmed)
    if 2 ≤ parts.length then { provider := parts.head?, model := JsString.join [unit ' '] parts.tail }
    else { model := trimmed }

def refOf (provider model : JsString) : JsString := provider ++ unit '/' :: model

def formatModelRef (ref : ModelRef) (defaultProvider : JsString) : JsString :=
  let provider := ref.provider.getD defaultProvider
  if provider = [] then ref.model else refOf provider ref.model

def normalizeModelRef (ref defaultProvider : JsString) : JsString :=
  formatModelRef (parseModelRef ref) defaultProvider

/-! ## The chain -/

def SMART_DEFAULT_MAX : Nat := 4

variable (host : Host) (config : Config)

def providerHasKey : Option ProviderConfig → Bool
  | none => false
  | some entry =>
      (entry.apiKey.any fun k => !k.isEmpty) || (entry.apiKeys.any fun k => !k.isEmpty) ||
        entry.envVars.any fun v => (host.env v).any fun value => !value.isEmpty

def visibleProviderModels (providerId : JsString) (providerModels : List JsString) : List JsString :=
  ((config.providers.get? providerId).bind ProviderConfig.models).getD providerModels

/-- The leader's provider comes first. -/
def compareProviders (a b : JsString) : Ordering :=
  if a = config.provider then .lt else if b = config.provider then .gt else host.localeCompare a b

structure Derived where
  seen : List JsString := []
  favoriteRefs : List JsString := []
  sameProvider : List JsString := []
  crossProvider : List JsString := []

def Derived.add (d : Derived) (id model : JsString) : Derived :=
  let favoriteSet := config.favoriteModels.map (normalizeModelRef · config.provider)
  let ref := refOf id model
  if id = config.provider ∧ model = config.model then d
  else if d.seen.contains ref then d
  else
    let d := { d with seen := ref :: d.seen }
    if favoriteSet.contains ref then { d with favoriteRefs := d.favoriteRefs ++ [ref] }
    else if config.favoriteModelsOnly && !favoriteSet.isEmpty then d
    else if id = config.provider then { d with sameProvider := d.sameProvider ++ [ref] }
    else { d with crossProvider := d.crossProvider ++ [ref] }

def smartDefaultFallbackChain : List JsString :=
  let ids := config.providers.keys.insertionSort fun a b => compareProviders host config a b ≠ .gt
  let addAll := fun (d : Derived) id =>
    let entry := config.providers.get? id
    if providerHasKey host entry then
      (visibleProviderModels config id ((entry.bind ProviderConfig.models).getD [])).foldl
        (fun d model => d.add config id model) d
    else d
  let d := ids.foldl addAll {}
  (d.favoriteRefs ++ d.sameProvider ++ d.crossProvider).take SMART_DEFAULT_MAX

/-- The entry has a model, which its provider does not hide. -/
def isListed (ref : JsString) : Bool :=
  let parsed := parseModelRef ref
  !parsed.model.isEmpty &&
    match (config.providers.get? (parsed.provider.getD config.provider)).bind ProviderConfig.models with
    | none => true
    | some models => models.contains parsed.model

def effectiveFallbackChain : List JsString :=
  let filteredExplicit := config.fallbackModels.filter (isListed config)
  if filteredExplicit ≠ [] then filteredExplicit
  else if config.fallbackAuto = false then []
  else smartDefaultFallbackChain host config

end WrongStack.Fallback

/-!
# The fallback ladder

`createFallbackModelExtension` (`core/src/core/fallback-model.ts`): `beforeRun` and `wrapProviderRunner`. The
config stays as it is. The clock, the providers that can be built, and the ends of `onModelSwitch` and of the
inner runner are given for each moment. Log lines and the `provider.fallback` event are left out.
-/

namespace WrongStack.Fallback

open Lib

/-! ## Data -/

structure Target where
  providerId : JsString
  model : JsString
  deriving DecidableEq

/-- A provider, by what `buildProvider` was asked for; its id is the requested one. -/
structure Provider where
  requested : Target
  deriving DecidableEq

def Provider.id (p : Provider) : JsString := p.requested.providerId

structure Context where
  provider : Provider
  model : JsString
  deriving DecidableEq

def Context.target (ctx : Context) : Target := { providerId := ctx.provider.id, model := ctx.model }

inductive Err
  | streamHang
  | provider (status : Int)
  | other
  deriving DecidableEq

def shouldFallback : Err → Option Int
  | .streamHang => some 599
  | .provider s => if s = 0 ∨ s = 429 ∨ s = 529 ∨ s ≥ 500 then some s else none
  | .other => none

def Err.worthy (e : Err) : Prop := shouldFallback e ≠ none

instance (e : Err) : Decidable e.worthy := inferInstanceAs (Decidable (_ ≠ _))

structure Ladder where
  /-- A prior turn has left the live context on a fallback model. -/
  dirty : Bool := false
  primaryFailureStreak : Nat := 0
  blockedPrimary : Option Target := none
  primaryBlockedUntil : ℚ := 0

structure FallbackModelDeps extends Host where
  primaryCooldownMs : Option ℚ := none
  primaryCooldownMaxMs : Option ℚ := none

/-- What the extension meets when it comes to one target. -/
structure Moment where
  /-- The clock at the check of the cooldown. -/
  now : ℚ := 0
  canBuild : Target → Bool := fun _ => true
  /-- What `onModelSwitch` throws. -/
  switchError : Option Err := none
  /-- The clock at the call of the inner runner. -/
  calledAt : ℚ := 0
  /-- What the inner runner rejects with; without it there is a response. -/
  error : Option Err := none
  /-- The clock when the failure of the primary is marked. -/
  failedAt : ℚ := 0

/-- A call of the inner runner. -/
structure Call where
  ctx : Context
  requestModel : JsString
  /-- The primary is in cooldown. -/
  cooling : Bool
  canBuild : Target → Bool

structure State where
  ladder : Ladder := {}
  ctx : Context

def Call.target (c : Call) : Target := c.ctx.target

/-! ## Cooldown -/

variable (deps : FallbackModelDeps) (cfg : Config)

def primaryTarget : Target := { providerId := cfg.provider, model := cfg.model }

def cooldownBase : ℚ := max 0 (deps.primaryCooldownMs.getD 60000)

def cooldownMax : ℚ := max (cooldownBase deps) (deps.primaryCooldownMaxMs.getD 600000)

def Ladder.primaryInCooldown (l : Ladder) (now : ℚ) : Bool :=
  l.blockedPrimary = some (primaryTarget cfg) && now < l.primaryBlockedUntil

def Ladder.markPrimaryFailure (l : Ladder) (now : ℚ) : Ladder :=
  let streak := if l.blockedPrimary = some (primaryTarget cfg) then l.primaryFailureStreak + 1 else 1
  { l with
    primaryFailureStreak := streak
    blockedPrimary := some (primaryTarget cfg)
    primaryBlockedUntil :=
      if cooldownBase deps ≤ 0 then 0
      else now + min (cooldownMax deps) (cooldownBase deps * 2 ^ (streak - 1)) }

def Ladder.resetPrimaryLadder (l : Ladder) : Ladder :=
  if l.blockedPrimary = some (primaryTarget cfg) then
    { l with primaryFailureStreak := 0, blockedPrimary := none, primaryBlockedUntil := 0 }
  else l

/-- The first call has failed. -/
def State.afterFailure (s : State) (err : Err) (now : ℚ) : Ladder :=
  if shouldFallback err ≠ none ∧ s.ctx.target = primaryTarget cfg then s.ladder.markPrimaryFailure deps cfg now
  else s.ladder

/-! ## The extension -/

def build (t : Target) : Context := { provider := { requested := t }, model := t.model }

def beforeRun (s : State) (m : Moment) : State :=
  if !s.ladder.dirty then s
  else if s.ladder.primaryInCooldown cfg m.now then s
  else if m.canBuild (primaryTarget cfg) then
    let s := { s with ctx := build (primaryTarget cfg) }
    if m.switchError = none then { s with ladder := { s.ladder with primaryBlockedUntil := 0, dirty := false } }
    else { s with ladder := s.ladder.markPrimaryFailure deps cfg m.failedAt }
  else { s with ladder := s.ladder.markPrimaryFailure deps cfg m.failedAt }

def targetOf (parsed : ModelRef) : Target :=
  { providerId := parsed.provider.getD cfg.provider, model := parsed.model }

def State.call (s : State) (requestModel : JsString) (m : Moment) : Call where
  ctx := s.ctx
  requestModel := requestModel
  cooling := s.ladder.primaryInCooldown cfg m.calledAt
  canBuild := m.canBuild

/-- The loop over the chain. -/
def walk : List (JsString × Moment) → State → Err → State × List Call × Option Err
  | [], s, lastErr => (s, [], some lastErr)
  | (ref, m) :: rest, s, lastErr =>
      if shouldFallback lastErr = none then (s, [], some lastErr)
      else
        let parsed := parseModelRef ref
        let t := targetOf cfg parsed
        if parsed.model = [] then walk rest s lastErr
        else if t = s.ctx.target then walk rest s lastErr
        else if s.ladder.primaryInCooldown cfg m.now ∧ t = primaryTarget cfg then walk rest s lastErr
        else if m.canBuild t = false then walk rest s lastErr
        else
          let requestModel := t.model
          let s := { ladder := { s.ladder with dirty := true }, ctx := build t }
          match m.switchError with
          | some err => (s, [], some err)
          | none =>
              match m.error with
              | none => (s, [s.call cfg requestModel m], none)
              | some err =>
                  let (s', calls, result) := walk rest s err
                  (s', s.call cfg requestModel m :: calls, result)

/-- The references of the chain, each with the moment when its turn comes. -/
def attempts (moments : Nat → Moment) : List (JsString × Moment) :=
  (effectiveFallbackChain deps.toHost cfg).zipIdx.map fun p => (p.1, moments p.2)

/-- The calls of the inner runner, and what the call rejects with. -/
def wrapProviderRunner (s : State) (first : Moment) (moments : Nat → Moment) : State × List Call × Option Err :=
  let call := s.call cfg s.ctx.model first
  match first.error with
  | none =>
      let ladder := if s.ctx.target = primaryTarget cfg then s.ladder.resetPrimaryLadder cfg else s.ladder
      ({ s with ladder }, [call], none)
  | some err =>
      let (s', calls, result) :=
        walk cfg (attempts deps cfg moments) { s with ladder := s.afterFailure deps cfg err first.failedAt } err
      (s', call :: calls, result)

/-! ## Runs -/

inductive Op
  | beforeRun (m : Moment)
  | wrapProviderRunner (first : Moment) (moments : Nat → Moment)

def step (s : State) : Op → State
  | .beforeRun m => beforeRun deps cfg s m
  | .wrapProviderRunner first moments => (wrapProviderRunner deps cfg s first moments).1

/-- The context is on any target. -/
def init (start : Target) : State := { ctx := build start }

end WrongStack.Fallback

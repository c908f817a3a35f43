import WrongStack.Lib.JsMap
import WrongStack.Lib.Run
import WrongStack.Utils.Path

/-!
# Destructive commands

`core/src/security/yolo-risk.ts`, on a POSIX system.
-/

namespace WrongStack.Permission

open Lib Regex

/-! ## Paths -/

/-- The segments of the absolute path that `path.resolve` returns for `paths`. -/
def resolve (cwd : JsString) (paths : List JsString) : List JsString :=
  let absolute := paths.foldl
    (fun acc p => if p.head? = some (unit '/') then p else acc ++ unit '/' :: p) cwd
  (JsString.splitOn (unit '/') absolute).foldl
    (fun acc segment =>
      if segment = [] || segment = js "." then acc
      else if segment = js ".." then acc.dropLast
      else acc ++ [segment]) []

/-- How many leading segments two paths share. -/
def commonPrefix : List JsString → List JsString → Nat
  | a :: as, b :: bs => if a = b then commonPrefix as bs + 1 else 0
  | _, _ => 0

/-- `path.relative` on resolved paths. -/
def relative (source target : List JsString) : JsString :=
  let shared := commonPrefix source target
  JsString.join (js "/") (List.replicate (source.length - shared) (js "..") ++ target.drop shared)

def pathLooksInsideProject (cwd rawPath projectRoot : JsString) : Bool :=
  if projectRoot.isEmpty then false
  else if rawPath == js "~" || (js "~/").isPrefixOf rawPath || (js "~\\").isPrefixOf rawPath then false
  else
    let resolved := resolve cwd [projectRoot, rawPath]
    let relative := relative (resolve cwd [projectRoot]) resolved
    !relative.isEmpty && !(js "..").isPrefixOf relative && !(js "/").isPrefixOf relative

/-! ## Catastrophic commands -/

def CATASTROPHIC_PATTERNS : List Regex :=
  [ -- make a filesystem
    ignoreCase <| concat [wordBoundary,
      alt (concat [lit "mkfs", opt (seq (char '.') (plus (oneOf fun c => isLower c || isDigit c)))])
        (anyOf ["mke2fs", "newfs"]),
      wordBoundary],
    -- format C:
    ignoreCase <| concat [wordBoundary, lit "format", plus space, letter, char ':'],
    ignoreCase <| concat [wordBoundary, lit "diskpart", wordBoundary],
    -- dd to a raw device
    ignoreCase <| concat [wordBoundary, lit "dd", wordBoundary, star (oneOf (· != unit '|')),
      wordBoundary, lit "of=",
      alt (lit "/dev/") (concat [lit "\\\\", oneOf fun c => c == unit '.' || c == unit '?', char '\\'])],
    -- redirect into a raw block device
    ignoreCase <| concat [char '>', star space, lit "/dev/",
      anyOf ["sd", "hd", "nvme", "disk", "mapper", "vd"]],
    -- fork bomb
    concat [lit ":()", star space, char '\x7b', star space, lit ":|:&", star space, char '\x7d',
      star space, char ';'] ]

def CATASTROPHIC_POSIX_ROOTS : List JsString :=
  ["/etc", "/usr", "/bin", "/sbin", "/lib", "/lib64", "/var", "/boot", "/dev", "/sys", "/proc",
    "/opt", "/root", "/home", "/srv", "/run", "/system", "/library", "/applications", "/users"].map js

def CATASTROPHIC_WIN_SUBDIRS : List JsString :=
  ["windows", "system32", "winnt", "program files", "program files (x86)", "programdata",
    "users"].map js

def SHELL_OPERATORS : List JsString :=
  ["&&", "||", "|", ";", ">", ">>", "<", "2>", "2>>"].map js

def isQuote (c : CodeUnit) : Bool := c == unit '"' || c == unit '\''

/-- One quote off either end. -/
def stripQuotes (s : JsString) : JsString :=
  let s := if s.head?.any isQuote then s.tail else s
  if s.getLast?.any isQuote then s.dropLast else s

/-- The matches of `/"[^"]*"|'[^']*'|\S+/g`; every turn consumes the text. -/
def shellTokens : Nat → JsString → List JsString
  | 0, _ => []
  | _, [] => []
  | fuel + 1, c :: cs =>
      if isQuote c && cs.contains c then
        (c :: cs.takeWhile (· != c) ++ [c]) :: shellTokens fuel (cs.dropWhile (· != c)).tail
      else if isSpace c then shellTokens fuel cs
      else
        (c :: cs.takeWhile fun c => !isSpace c) :: shellTokens fuel (cs.dropWhile fun c => !isSpace c)

def tokenizeShell (command : JsString) : List JsString :=
  (shellTokens command.length command).map stripQuotes

def isSeparator (c : CodeUnit) : Bool := c == unit '/' || c == unit '\\'

/-- `.replace(/[\\/]\*+$/, '')` -/
def stripTrailingGlob (s : JsString) : JsString :=
  let stars := s.reverse.takeWhile (· == unit '*')
  match s.reverse.drop stars.length with
  | c :: front => if !stars.isEmpty && isSeparator c then front.reverse else s
  | [] => s

/-- `.replace(/[\\/]+$/, '')` -/
def stripTrailingSeparators (s : JsString) : JsString := (s.reverse.dropWhile isSeparator).reverse

def isCatastrophicDeleteTarget (rawTarget : JsString) : Bool :=
  let t := JsString.trim (stripQuotes rawTarget)
  if t.isEmpty then false
  else if [js "*", js ".", js "./", js ".\\", js "./*", js ".\\*"].contains t then true
  else
    let s := stripTrailingSeparators (stripTrailingGlob t)
    if s.isEmpty then true
    else if s == js "~" || (ignoreCase (concat [start, lit "$HOME", stop])).test s ||
        (ignoreCase (concat [start, lit "%USERPROFILE%", stop])).test s then true
    else if (concat [start, letter, char ':', stop]).test s then true
    else
      let norm := (JsString.toLowerCase s).map fun c => if c = unit '\\' then unit '/' else c
      if CATASTROPHIC_POSIX_ROOTS.contains norm then true
      else match norm with
        | drive :: colon :: slash :: win =>
            isLower drive && colon == unit ':' && slash == unit '/' && !win.contains (unit '/') &&
              CATASTROPHIC_WIN_SUBDIRS.contains win
        | _ => false

def isFlag (arg : JsString) : Bool := (js "-").isPrefixOf arg

/-- Whether the command `token` with the arguments `args` deletes something catastrophic. -/
def catastrophicDelete (token : JsString) (args : List JsString) : Bool :=
  let targets := args.filter fun arg => !isFlag arg && !SHELL_OPERATORS.contains arg
  let windowsTargets := targets.filter fun arg => !(js "/").isPrefixOf arg
  if token == js "rm" then
    let recursiveOrForce := args.any fun arg =>
      (ignoreCase (concat [start, char '-', star (oneOf (· != unit '-')),
        oneOf fun c => c == unit 'r' || c == unit 'f'])).test arg ||
      arg == js "--recursive" || arg == js "--force" || arg == js "--no-preserve-root"
    -- without an operand it is meant to wipe the current directory
    recursiveOrForce && (targets.isEmpty || targets.any isCatastrophicDeleteTarget)
  else if token == js "remove-item" || token == js "ri" then
    args.any (fun arg => JsString.toLowerCase arg == js "-recurse" || JsString.toLowerCase arg == js "-force") &&
      targets.any isCatastrophicDeleteTarget
  else if token == js "rmdir" || token == js "rd" then
    args.any (fun arg => JsString.toLowerCase arg == js "/s") &&
      windowsTargets.any isCatastrophicDeleteTarget
  else if token == js "del" || token == js "erase" then
    windowsTargets.any isCatastrophicDeleteTarget
  else false

def hasCatastrophicDeleteIn : List JsString → Bool
  | [] => false
  | token :: args => catastrophicDelete (JsString.toLowerCase token) args || hasCatastrophicDeleteIn args

def hasCatastrophicDelete (command : JsString) : Bool := hasCatastrophicDeleteIn (tokenizeShell command)

def isClearlyDestructiveBashCommand (command : JsString) : Bool :=
  let trimmed := JsString.trim command
  if trimmed.isEmpty then false
  else hasCatastrophicDelete trimmed || CATASTROPHIC_PATTERNS.any fun p => p.test trimmed

end WrongStack.Permission

/-!
# The LRU cache

`LruCache` (`core/src/utils/lru-cache.ts`): a map in insertion order whose oldest entry goes first.
-/

namespace WrongStack.Utils

open Lib

structure LruCache (κ β : Type*) [DecidableEq κ] where
  store : JsMap κ β
  capacity : Nat

namespace LruCache

variable {κ β : Type*} [DecidableEq κ]

def empty (capacity : Nat) : LruCache κ β := ⟨.empty, capacity⟩

/-- The value under `k`, which becomes the most recently used one. -/
def get (c : LruCache κ β) (k : κ) : Option β × LruCache κ β :=
  match c.store.get? k with
  | none => (none, c)
  | some v => (some v, { c with store := (c.store.delete k).set k v })

def evict : Nat → JsMap κ β → JsMap κ β
  | 0, m => m
  | n + 1, m =>
      match m.keys with
      | [] => m
      | oldest :: _ => evict n (m.delete oldest)

def set (c : LruCache κ β) (k : κ) (v : β) : LruCache κ β :=
  let store := (c.store.delete k).set k v
  { c with store := evict (store.size - c.capacity) store }

def clear (c : LruCache κ β) : LruCache κ β := { c with store := .empty }

/-! ## What a key holds -/

theorem get_fst (c : LruCache κ β) (k : κ) : (c.get k).1 = c.store.get? k := by
  unfold get
  cases h : c.store.get? k <;> rfl

theorem get_snd (c : LruCache κ β) (k k' : κ) : (c.get k).2.store.get? k' = c.store.get? k' := by
  unfold get
  cases h : c.store.get? k with
  | none => rfl
  | some v =>
      simp only [JsMap.get?_set, JsMap.get?_delete]
      split
      · rename_i hk
        rw [← hk, h]
      · rfl

theorem evict_some {n : Nat} {m : JsMap κ β} {k : κ} {v : β} (h : (evict n m).get? k = some v) :
    m.get? k = some v := by
  induction n generalizing m with
  | zero => exact h
  | succ n ih =>
      unfold evict at h
      split at h
      · exact h
      · have h' := ih h
        rw [JsMap.get?_delete] at h'
        split at h'
        · cases h'
        · exact h'

theorem set_some {c : LruCache κ β} {k k' : κ} {v v' : β} (h : (c.set k v).store.get? k' = some v') :
    k = k' ∧ v = v' ∨ c.store.get? k' = some v' := by
  have h' := evict_some h
  rw [JsMap.get?_set] at h'
  split at h'
  · rename_i hk
    exact .inl ⟨hk, Option.some.inj h'⟩
  · rename_i hk
    rw [JsMap.get?_delete, if_neg hk] at h'
    exact .inr h'

end LruCache

end WrongStack.Utils

/-!
# The permission policy

`DefaultPermissionPolicy` (`core/src/security/permission-policy.ts`) without a prompt delegate. The
calls run one after the other. The trust file is part of the state, and it can be edited from
outside. Tool names are not the names of `Object.prototype`.
-/

namespace WrongStack.Permission

open Lib Utils

/-! ## Data -/

inductive PermissionKind
  | auto | confirm | deny
  deriving DecidableEq

inductive Source
  | default | trust | yolo | yoloDestructive | user | deny | context | subagentGuard
  deriving DecidableEq

inductive RiskTier
  | safe | standard | destructive
  deriving DecidableEq

structure PermissionDecision where
  permission : PermissionKind
  source : Source
  reason : Option String := none
  riskTier : Option RiskTier := none
  deriving DecidableEq

structure Tool where
  name : JsString
  permission : PermissionKind
  mutating : Bool
  riskTier : Option RiskTier := none
  subjectKey : Option JsString := none
  capabilities : List String := []
  deriving DecidableEq

structure Context where
  projectRoot : JsString
  /-- `process.cwd()` -/
  cwd : JsString
  readFiles : List JsString := []
  deriving DecidableEq

/-- What a key of the trust file stands for. -/
structure TrustEntry where
  allow : Option (List JsString) := none
  deny : Option (List JsString) := none
  auto : Bool := false
  deriving DecidableEq

abbrev TrustPolicy := JsMap JsString TrustEntry

/-- The trust file as `reload` finds it. -/
inductive TrustFile
  | unreadable
  | unusable
  | parsed (policy : TrustPolicy)

structure Rule where
  tool : JsString
  pattern : JsString
  deriving DecidableEq

/-- The arguments of `evaluate`. -/
structure Call where
  tool : Tool
  input : Json
  ctx : Context

structure State where
  policy : TrustPolicy := .empty
  loaded : Bool := false
  trustFile : TrustFile
  yolo : Bool := false
  yoloDestructive : Bool := false
  sessionDenied : JsMap JsString Bool := .empty
  sessionAllowed : JsMap JsString Bool := .empty
  /-- The wildcard keys at the last reload. Their values are the entry objects of `policy`, which
  `trust` and `deny` change in place. -/
  wildcardEntries : List JsString := []
  evalCache : LruCache JsString PermissionDecision := .empty 500

/-! ## Reading a call -/

def matchesTrust (patterns : List JsString) (subject : JsString) : Bool :=
  patterns.contains subject || matchAny patterns subject

/-- A string read as a condition: `undefined` and `''` are falsy. -/
def truthyString : Option JsString → Option JsString
  | some [] => none
  | s => s

def shellCommandLineFromInput (input : Json) : Option JsString :=
  (truthyString <| input.getString (js "command") <|> input.getString (js "cmd")
    <|> input.getString (js "script")).map fun command =>
    match input.get? (js "args") with
    | some (.arr args) =>
        let strings := args.filterMap fun
          | .str arg => some arg
          | _ => none
        let rendered := strings.map fun arg =>
          if arg.any isSpace then
            unit '"' :: (arg.flatMap fun c => if c = unit '"' then js "\\\"" else [c]) ++ [unit '"']
          else arg
        JsString.join (js " ") (command :: rendered)
    | _ => command

def isShellTool (tool : Tool) : Bool :=
  tool.capabilities.contains "shell.arbitrary" || tool.capabilities.contains "shell.restricted" ||
    tool.capabilities.contains "shell.exec"

def isDestructiveByCapability (tool : Tool) : Bool :=
  isShellTool tool || tool.capabilities.contains "fs.write" ||
    tool.capabilities.contains "fs.write.outside-project"

namespace Call

variable (c : Call)

def subject : Option JsString := subjectForToolInput c.tool.name c.input c.tool.subjectKey

def cacheKey : JsString := c.tool.name ++ js "::" ++ c.subject.getD c.tool.name

def destructiveCommand : Bool :=
  match shellCommandLineFromInput c.input with
  | some command => isClearlyDestructiveBashCommand command
  | none => c.tool.riskTier == some .destructive

/-- The path that the call writes to is outside the project. -/
def escapesProject : Bool :=
  match truthyString (c.input.getString (js "path") <|> c.input.getString (js "file")) with
  | none => false
  | some targetPath =>
      if c.ctx.projectRoot.isEmpty then false
      else !pathLooksInsideProject c.ctx.cwd targetPath c.ctx.projectRoot

def isDestructiveYoloCall : Bool :=
  if isDestructiveByCapability c.tool then
    if isShellTool c.tool then c.destructiveCommand
    else if c.tool.capabilities.contains "fs.write.outside-project" then true
    else c.escapesProject
  else if [js "bash", js "shell", js "exec"].contains c.tool.name then c.destructiveCommand
  else if [js "write", js "edit", js "replace", js "patch"].contains c.tool.name then c.escapesProject
  else c.tool.riskTier == some .destructive

def isMutating : Bool :=
  c.tool.mutating || ["fs.write", "shell.arbitrary", "shell.restricted", "shell.exec",
    "package.install", "config.mutate", "subagent.spawn"].any c.tool.capabilities.contains

end Call

namespace State

variable (s : State)

/-! ## Evaluating -/

def reload : State :=
  let policy := match s.trustFile with
    | .unreadable => .empty
    | .unusable => s.policy
    | .parsed policy => policy
  { s with
    policy
    wildcardEntries := policy.keys.filter (·.contains (unit '*'))
    sessionDenied := .empty
    sessionAllowed := .empty
    evalCache := s.evalCache.clear
    loaded := true }

def ensureLoaded : State := if s.loaded then s else s.reload

def findNamespaceEntry (toolName : JsString) : Option TrustEntry :=
  (s.wildcardEntries.find? fun pattern => matchGlob pattern toolName).bind s.policy.get?

/-- The one entry that `evaluate` looks at. -/
def entryFor (toolName : JsString) : Option TrustEntry :=
  s.policy.get? toolName <|> s.findNamespaceEntry toolName

end State

/-- `patterns && subject && matchesTrust(patterns, subject)` -/
def ruleMatches (patterns : Option (List JsString)) (subject : Option JsString) : Bool :=
  match patterns, truthyString subject with
  | some patterns, some subject => matchesTrust patterns subject
  | _, _ => false

/-- A step of `evaluate` that ends it, and whether the decision goes into the cache. -/
structure Verdict where
  decision : PermissionDecision
  cached : Bool

/-- The steps of `evaluate` after the session maps. -/
def applyRules (entry : Option TrustEntry) (yolo : Bool) (c : Call) : Verdict :=
  if ruleMatches (entry.bind TrustEntry.deny) c.subject then
    ⟨{ permission := .deny, source := .deny, reason := "matched deny pattern" }, true⟩
  else if c.tool.permission = .deny then
    ⟨{ permission := .deny, source := .default, reason := "tool default deny" }, true⟩
  else if yolo && c.isDestructiveYoloCall then
    ⟨{ permission := .confirm, source := .yoloDestructive, riskTier := some .destructive
       reason := "destructive tool needs explicit approval in YOLO mode" }, false⟩
  else if ruleMatches (entry.bind TrustEntry.allow) c.subject then
    ⟨{ permission := .auto, source := .trust, reason := "matched allow pattern" }, true⟩
  else if entry.any TrustEntry.auto then ⟨{ permission := .auto, source := .trust }, true⟩
  else if yolo then ⟨{ permission := .auto, source := .yolo }, true⟩
  else if c.tool.name = js "write" && (truthyString c.subject).any c.ctx.readFiles.contains then
    ⟨{ permission := .auto, source := .context
       reason := "file already read in this session" }, false⟩
  else if c.tool.permission = .auto && !c.isMutating then
    ⟨{ permission := .auto, source := .default }, true⟩
  else ⟨{ permission := .confirm, source := .default }, false⟩

namespace State

variable (s : State)

def verdict (c : Call) : Verdict := applyRules (s.entryFor c.tool.name) s.yolo c

/-- `evaluate` on a loaded policy. -/
def evaluateLoaded (c : Call) : PermissionDecision × State :=
  let (cached, evalCache) :=
    if c.tool.name = js "write" then (none, s.evalCache) else s.evalCache.get c.cacheKey
  let s := { s with evalCache }
  match cached with
  | some decision => (decision, s)
  | none =>
      if s.sessionDenied.has c.cacheKey then
        let decision :=
          { permission := .deny, source := .deny
            reason := "session soft deny (user pressed no)" }
        (decision, { s with evalCache := s.evalCache.set c.cacheKey decision })
      else if s.sessionAllowed.has c.cacheKey then
        ({ permission := .auto, source := .trust
           reason := "session one-shot allow (user pressed yes)" },
          { s with sessionAllowed := s.sessionAllowed.delete c.cacheKey })
      else
        let verdict := s.verdict c
        (verdict.decision,
          if verdict.cached then
            { s with evalCache := s.evalCache.set c.cacheKey verdict.decision }
          else s)

def evaluate (c : Call) : PermissionDecision × State := s.ensureLoaded.evaluateLoaded c

/-! ## Granting and denying -/

/-- The first occurrence of `pattern` taken out, as the failed write does it. -/
def withoutPattern (pattern : JsString) (patterns : Option (List JsString)) : Option (List JsString) :=
  patterns.map (·.erase pattern)

def withPattern (pattern : JsString) (patterns : Option (List JsString)) : List JsString :=
  (patterns.getD [] ++ [pattern]).eraseDups

/-- `trust` and `deny`: change the entry of the tool, and write the file or take the change back. -/
def changeEntry (tool : JsString) (change revert : TrustEntry → TrustEntry) (written : Bool) : State :=
  let s := s.ensureLoaded
  let policy := s.policy.set tool (change ((s.policy.get? tool).getD {}))
  let s := { s with policy, evalCache := s.evalCache.clear }
  if written then { s with trustFile := .parsed s.policy }
  else { s with policy := s.policy.modify tool revert }

def trust (rule : Rule) (written : Bool) : State :=
  s.changeEntry rule.tool (fun e => { e with allow := some (withPattern rule.pattern e.allow) })
    (fun e => { e with allow := withoutPattern rule.pattern e.allow }) written

def deny (rule : Rule) (written : Bool) : State :=
  s.changeEntry rule.tool (fun e => { e with deny := some (withPattern rule.pattern e.deny) })
    (fun e => { e with deny := withoutPattern rule.pattern e.deny }) written

end State

def Rule.key (rule : Rule) : JsString := rule.tool ++ js "::" ++ rule.pattern

namespace State

variable (s : State)

def denyOnce (rule : Rule) : State :=
  { s with sessionDenied := s.sessionDenied.set rule.key true, evalCache := s.evalCache.clear }

def allowOnce (rule : Rule) : State :=
  { s with sessionAllowed := s.sessionAllowed.set rule.key true, evalCache := s.evalCache.clear }

def setYolo (enabled : Bool) : State :=
  { s with
    yolo := enabled
    evalCache := if s.yolo ≠ enabled then s.evalCache.clear else s.evalCache }

def setYoloDestructive (enabled : Bool) : State :=
  { s with
    yoloDestructive := enabled
    evalCache := if s.yoloDestructive ≠ enabled then s.evalCache.clear else s.evalCache }

end State

/-! ## Runs of the policy -/

inductive Op
  | evaluate (call : Call)
  | trust (rule : Rule) (written : Bool)
  | deny (rule : Rule) (written : Bool)
  | allowOnce (rule : Rule)
  | denyOnce (rule : Rule)
  | setYolo (enabled : Bool)
  | setYoloDestructive (enabled : Bool)
  | reload
  /-- the trust file changes on disk -/
  | edit (file : TrustFile)

def step (s : State) : Op → State
  | .evaluate call => (s.evaluate call).2
  | .trust rule written => s.trust rule written
  | .deny rule written => s.deny rule written
  | .allowOnce rule => s.allowOnce rule
  | .denyOnce rule => s.denyOnce rule
  | .setYolo enabled => s.setYolo enabled
  | .setYoloDestructive enabled => s.setYoloDestructive enabled
  | .reload => s.reload
  | .edit trustFile => { s with trustFile }

structure Options where
  yolo : Bool := false
  yoloDestructive : Bool := false
  deriving DecidableEq

def init (opts : Options) (trustFile : TrustFile) : State :=
  { trustFile, yolo := opts.yolo, yoloDestructive := opts.yoloDestructive }

end WrongStack.Permission

/-!
# Answers and pending writes

`DefaultPermissionPolicy` with a prompt delegate, and `trust` and `deny` with what other calls do while
the trust file is being written.
-/

namespace WrongStack.Permission

open Lib Utils

/-! ## The prompt -/

inductive Answer
  | yes | no | always | deny
  deriving DecidableEq

/-- The rule that an answer is recorded as. -/
def Call.rule (c : Call) : Rule where
  tool := c.tool.name
  pattern := c.subject.getD c.tool.name

structure PromptResult where
  /-- `none` if `evaluate` rejects, as the trust file cannot be written. -/
  decision : Option PermissionDecision
  prompted : Bool
  state : State

/-- `evaluate` with a delegate that answers `answer` if it is asked. A decision to confirm is never
cached, so the delegate is asked whenever there would be one. -/
def State.evaluatePrompted (s : State) (c : Call) (answer : Answer) (written : Bool) : PromptResult :=
  let decision := (s.evaluate c).1
  let s := (s.evaluate c).2
  if decision.permission ≠ .confirm then { decision := some decision, prompted := false, state := s }
  else if decision.source = .yoloDestructive then
    if answer = .deny then
      { decision := if written then
          some { permission := .deny, source := .user, reason := "user denied destructive yolo" } else none
        prompted := true
        state := s.deny c.rule written }
    else
      { decision := some
          { permission := if answer = .yes ∨ answer = .always then .auto else .deny
            source := .user
            reason := "destructive yolo approved for this call" }
        prompted := true
        state := s }
  else if answer = .always then
    { decision := if written then
        some { permission := .auto, source := .user, reason := "user always-allowed" } else none
      prompted := true
      state := s.trust c.rule written }
  else if answer = .deny then
    { decision := if written then
        some { permission := .deny, source := .user, reason := "user denied" } else none
      prompted := true
      state := s.deny c.rule written }
  else
    { decision := some { permission := if answer = .yes then .auto else .deny, source := .user }
      prompted := true
      state := s }

inductive PromptOp
  | call (op : Op)
  | prompted (call : Call) (answer : Answer) (written : Bool)

def promptStep (s : State) : PromptOp → State
  | .call op => step s op
  | .prompted call answer written => (s.evaluatePrompted call answer written).state

/-! ## A write under way -/

/-- Which list of an entry a call changes: `trust` or `deny`. -/
inductive RuleKind
  | trust | deny
  deriving DecidableEq

namespace RuleKind

def patterns : RuleKind → TrustEntry → Option (List JsString)
  | trust, e => e.allow
  | deny, e => e.deny

def put (patterns : Option (List JsString)) : RuleKind → TrustEntry → TrustEntry
  | trust, e => { e with allow := patterns }
  | deny, e => { e with deny := patterns }

variable {kind : RuleKind}

@[simp] theorem patterns_put (ps : Option (List JsString)) (e : TrustEntry) :
    kind.patterns (kind.put ps e) = ps := by
  cases kind <;> rfl

theorem patterns_put_ne {other : RuleKind} (h : other ≠ kind) (ps : Option (List JsString)) (e : TrustEntry) :
    kind.patterns (other.put ps e) = kind.patterns e := by
  cases kind <;> cases other
  · exact absurd rfl h
  · rfl
  · rfl
  · exact absurd rfl h

@[simp] theorem put_auto (ps : Option (List JsString)) (e : TrustEntry) : (kind.put ps e).auto = e.auto := by
  cases kind <;> rfl

@[simp] theorem put_put (ps ps' : Option (List JsString)) (e : TrustEntry) :
    kind.put ps (kind.put ps' e) = kind.put ps e := by
  cases kind <;> rfl

end RuleKind

namespace State

variable (s : State) (kind : RuleKind) (rule : Rule)

/-- `trust` or `deny` up to the write. -/
def beginChange : State :=
  let s := s.ensureLoaded
  let e := (s.policy.get? rule.tool).getD {}
  { s with
    policy := s.policy.set rule.tool (kind.put (some (withPattern rule.pattern (kind.patterns e))) e)
    evalCache := s.evalCache.clear }

/-- The rest of it if the write fails. -/
def failChange : State :=
  { s with
    policy := s.policy.modify rule.tool fun e => kind.put (withoutPattern rule.pattern (kind.patterns e)) e }

def change (written : Bool) : State :=
  match kind with
  | .trust => s.trust rule written
  | .deny => s.deny rule written

end State

theorem change_false (s : State) (kind : RuleKind) (rule : Rule) :
    s.change kind rule false = (s.beginChange kind rule).failChange kind rule := by
  cases kind <;> rfl

end WrongStack.Permission

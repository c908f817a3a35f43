import Mathlib.Data.Int.Order.Basic
import WrongStack.Lib.JsMap
import WrongStack.Lib.Run

/-!
# The session registry

`SessionRegistry` (`core/src/session-registry.ts`): any number of live processes and calls on one registry file,
with one step for every file-system call that touches the file or its lock. These calls fail only because a file
is there, or is not. The fields of an entry that nothing here reads and the temporary files are left out.
-/

namespace WrongStack.SessionRegistry

open Lib

abbrev SessionId := String

abbrev Pid := Int

/-! ## Data -/

inductive AgentLiveStatus
  | idle | running | streaming | waiting_user | error
  deriving DecidableEq

inductive SessionLiveStatus
  | active | idle | closing | stale
  deriving DecidableEq

/-- Times are in milliseconds; one that cannot be read is missing. -/
structure SessionRegistryEntry where
  status : SessionLiveStatus
  pid : Option Pid
  startedAt : Option Int
  lastHeartbeatAt : Option Int
  agentCount : Nat := 0
  agents : List AgentLiveStatus := []
  deriving DecidableEq

/-- The object in the file; a value may be `null`. -/
abbrev Registry := JsMap SessionId (Option SessionRegistryEntry)

/-- What the file holds: nothing JSON or a bare value, an array, or an object. -/
inductive Content
  | missing
  | malformed
  | array
  | object (registry : Registry)
  deriving DecidableEq

def STALE_TIMEOUT_MS : Int := 30000
def CLOSING_GRACE_MS : Int := 15000
def STALE_LOCK_MS : Int := 10000
def RECENTLY_CLOSED_MS : Int := 300000
def MAX_RETRIES : Nat := 8

/-! ## Updates -/

/-- What is done to the registry, with all that is taken from the process and the clock. -/
inductive Update
  | register (pid : Pid) (sessionId : SessionId) (full : SessionRegistryEntry) (now : Int)
  | updateAgents (sessionId : SessionId) (lastEntry : Option SessionRegistryEntry) (agents : List AgentLiveStatus)
      (status : SessionLiveStatus) (now : Int)
  | heartbeat (sessionId : SessionId) (lastEntry : Option SessionRegistryEntry) (now : Int)
  | markClosing (sessionId : SessionId) (now : Int)
  | unregister (sessionId : SessionId)
  | prune (now : Int)
  deriving DecidableEq

/-- The heartbeat is older than `limit`; of a time that cannot be read nothing is. -/
def olderThan (limit now : Int) (time : Option Int) : Bool := time.any fun t => limit < now - t

def runs (a : AgentLiveStatus) : Bool := a = .running || a = .streaming

/-- The status of a session from those of its agents. -/
def liveStatus (agents : List AgentLiveStatus) : SessionLiveStatus :=
  if agents.any runs || agents.contains .waiting_user || agents.contains .error then .active else .idle

variable (alive : Pid → Bool)

def dead (pid : Option Pid) : Bool := !pid.any alive

def isStale (now : Int) (entry : SessionRegistryEntry) : Bool :=
  olderThan STALE_TIMEOUT_MS now entry.lastHeartbeatAt && dead alive entry.pid

/-- A loop over `Object.entries`, which stops with an error at the first `null`. -/
def forEntries {σ : Type} (body : σ → SessionId → SessionRegistryEntry → σ) :
    List (SessionId × Option SessionRegistryEntry) → σ → Option σ
  | [], acc => some acc
  | (_, none) :: _, _ => none
  | (id, some entry) :: rest, acc => forEntries body rest (body acc id entry)

def registerBody (pid : Pid) (sessionId : SessionId) (now : Int) (registry : Registry) (id : SessionId)
    (existing : SessionRegistryEntry) : Registry :=
  if existing.pid = some pid then if id ≠ sessionId then registry.delete id else registry
  else if isStale alive now existing then registry.delete id
  else registry

/-- The second component says that an entry was dropped. -/
def pruneBody (now : Int) (acc : Registry × Bool) (id : SessionId) (entry : SessionRegistryEntry) : Registry × Bool :=
  if entry.status = .closing ∧ olderThan CLOSING_GRACE_MS now entry.lastHeartbeatAt then (acc.1.delete id, true)
  else if isStale alive now entry then
    if olderThan RECENTLY_CLOSED_MS now entry.startedAt then (acc.1.delete id, true)
    else (acc.1.set id (some { entry with status := .stale }), acc.2)
  else acc

/-- A missing entry and `null` are alike. -/
def entryOf (registry : Registry) (sessionId : SessionId) : Option SessionRegistryEntry := (registry.get? sessionId).join

def SessionRegistryEntry.withAgents (entry : SessionRegistryEntry) (agents : List AgentLiveStatus)
    (status : SessionLiveStatus) (now : Int) : SessionRegistryEntry :=
  { entry with agents, agentCount := agents.length, status, lastHeartbeatAt := some now }

def Update.apply (registry : Registry) : Update → Option Registry
  | .register pid sessionId full now =>
      (forEntries (registerBody alive pid sessionId now) registry.entries registry).map (·.set sessionId (some full))
  | .updateAgents sessionId lastEntry agents status now =>
      some <| match (entryOf registry sessionId).or lastEntry with
        | some entry => registry.set sessionId (some (entry.withAgents agents status now))
        | none => registry
  | .heartbeat sessionId lastEntry now =>
      some <| match entryOf registry sessionId, lastEntry with
        | some entry, _ =>
            let status := if entry.status = .closing then .closing else if entry.agents.any runs then .active else .idle
            registry.set sessionId (some { entry with lastHeartbeatAt := some now, status })
        | none, some last => registry.set sessionId (some { last with lastHeartbeatAt := some now })
        | none, none => registry
  | .markClosing sessionId now =>
      some <| match entryOf registry sessionId with
        | some entry => registry.set sessionId (some { entry with status := .closing, lastHeartbeatAt := some now })
        | none => registry
  | .unregister sessionId => some (registry.delete sessionId)
  | .prune now => (forEntries (pruneBody alive now) registry.entries (registry, false)).map Prod.fst

/-- Read, change and write; an error drops the update. An array is written back as an array. -/
def Update.applyTo (fn : Update) : Content → Option Content
  | .missing => (fn.apply alive .empty).map .object
  | .malformed => none
  | .array => some .array
  | .object registry => (fn.apply alive registry).map .object

/-- What `readAndPrune` writes back, if it drops an entry. -/
def pruned (now : Int) : Content → Option Content
  | .object registry =>
      match forEntries (pruneBody alive now) registry.entries (registry, false) with
      | some (registry, true) => some (.object registry)
      | _ => none
  | _ => none

/-! ## Processes and calls -/

structure LockFile where
  /-- The call that made the file; without one it was there before. -/
  creator : Option Nat
  /-- `Number.parseInt` of what it holds. -/
  stamp : Option Pid
  mtimeMs : Int
  deriving DecidableEq

/-- The fields of a `SessionRegistry`; `lastEntry` is an object that `register` shares. -/
structure Fields where
  currentSessionId : Option SessionId := none
  lastEntry : Option Nat := none
  deriving DecidableEq

inductive Request
  | register (sessionId : SessionId) (full : Nat)
  | updateAgents (agents : List AgentLiveStatus) (status : SessionLiveStatus) (now : Int)
  | heartbeat (sessionId : SessionId) (now : Int)
  | markClosing
  | unregister (sessionId : SessionId)
  | read
  deriving DecidableEq

/-- What a call awaits, or what it has just got. -/
inductive Stage
  | openLock (attempt : Nat)
  /-- `stat` and `readFile` of the lock, in any order. -/
  | inspect (attempt : Nat) (mtimeMs : Option Int) (stamp : Option (Option Pid))
  | unlinkStale (attempt : Nat)
  | reopen (attempt : Nat)
  | sleeping (attempt : Nat)
  | stampLock
  | readFile
  | parse (raw : Content)
  | rename (raw : Content) (fn : Update) (written : Content)
  | unlinkLock
  | readOnly
  | prune (raw : Content)
  | writeBack (raw : Content) (fn : Update) (written : Content)
  | done
  deriving DecidableEq

structure Call where
  pid : Pid
  request : Request
  stage : Stage
  deriving DecidableEq

structure World where
  file : Content
  lock : Option LockFile
  now : Int
  fields : JsMap Pid Fields := .empty
  /-- The entries that processes have made, each shared by reference. -/
  objects : List SessionRegistryEntry := []
  calls : List Call := []

inductive Op
  | register (pid : Pid) (sessionId : SessionId) (startedAt : Option Int) (agents : List AgentLiveStatus)
  | updateAgents (pid : Pid) (agents : List AgentLiveStatus)
  | heartbeat (pid : Pid)
  | markClosing (pid : Pid)
  | unregister (pid : Pid)
  /-- `list` or `get` -/
  | read (pid : Pid)
  | advance (call : Nat)
  | statLock (call : Nat)
  | readLock (call : Nat)
  | tick (ms : Nat)

namespace World

variable (w : World)

def fieldsOf (pid : Pid) : Fields := (w.fields.get? pid).getD {}

def lastEntry (pid : Pid) : Option SessionRegistryEntry := (w.fieldsOf pid).lastEntry.bind (w.objects[·]?)

def begin (pid : Pid) (request : Request) (stage : Stage) : World :=
  { w with calls := w.calls ++ [{ pid, request, stage }] }

def become (c : Nat) (stage : Stage) : World := { w with calls := w.calls.modify c ({ · with stage }) }

/-- The update that a call makes now. `this.currentSessionId!` may be `null`. -/
def update (call : Call) : Option Update :=
  let current := (w.fieldsOf call.pid).currentSessionId.getD "null"
  match call.request with
  | .register sessionId full => w.objects[full]?.map fun full => .register call.pid sessionId full w.now
  | .updateAgents agents status now => some (.updateAgents current (w.lastEntry call.pid) agents status now)
  | .heartbeat sessionId now => some (.heartbeat sessionId (w.lastEntry call.pid) now)
  | .markClosing => some (.markClosing current w.now)
  | .unregister sessionId => some (.unregister sessionId)
  | .read => none

def register (pid : Pid) (sessionId : SessionId) (startedAt : Option Int) (agents : List AgentLiveStatus) : World :=
  let full : SessionRegistryEntry :=
    { status := .active, pid := some pid, startedAt, lastHeartbeatAt := some w.now, agentCount := agents.length, agents }
  { w with
    objects := w.objects ++ [full]
    fields := w.fields.set pid { currentSessionId := some sessionId, lastEntry := some w.objects.length } }.begin
      pid (.register sessionId w.objects.length) (.openLock 0)

def updateAgents (pid : Pid) (agents : List AgentLiveStatus) : World :=
  match (w.fieldsOf pid).currentSessionId with
  | none => w
  | some _ =>
      let status := liveStatus agents
      let objects :=
        match (w.fieldsOf pid).lastEntry with
        | some last => w.objects.modify last (·.withAgents agents status w.now)
        | none => w.objects
      { w with objects }.begin pid (.updateAgents agents status w.now) (.openLock 0)

def heartbeat (pid : Pid) : World :=
  match (w.fieldsOf pid).currentSessionId with
  | none => w
  | some sessionId => w.begin pid (.heartbeat sessionId w.now) (.openLock 0)

def markClosing (pid : Pid) : World :=
  match (w.fieldsOf pid).currentSessionId with
  | none => w
  | some _ => w.begin pid .markClosing (.openLock 0)

def unregister (pid : Pid) : World :=
  match (w.fieldsOf pid).currentSessionId with
  | none => w
  | some sessionId =>
      { w with fields := w.fields.set pid { w.fieldsOf pid with currentSessionId := none } }.begin
        pid (.unregister sessionId) (.openLock 0)

/-- `open` with the flag `wx`; `contended` is where the call goes if the file is there. -/
def openExclusive (c : Nat) (contended : Stage) : World :=
  match w.lock with
  | none => { w with lock := some { creator := some c, stamp := none, mtimeMs := w.now } }.become c .stampLock
  | some _ => w.become c contended

/-- `breakStaleLock` has both answers. -/
def judge (c : Nat) (pid : Pid) (attempt : Nat) (mtimeMs : Int) (stamp : Option Pid) : World :=
  let ownerDead := stamp.any fun owner => 0 < owner && owner ≠ pid && !alive owner
  if ownerDead || STALE_LOCK_MS < w.now - mtimeMs then w.become c (.unlinkStale attempt)
  else w.become c (.sleeping attempt)

def resume (c : Nat) (call : Call) : World :=
  match call.stage with
  | .openLock attempt => w.openExclusive c (.inspect attempt none none)
  | .inspect attempt (some mtimeMs) (some stamp) => w.judge alive c call.pid attempt mtimeMs stamp
  | .inspect _ _ _ => w
  | .unlinkStale attempt => { w with lock := none }.become c (.reopen attempt)
  | .reopen attempt => w.openExclusive c (.sleeping attempt)
  | .sleeping attempt => w.become c (if attempt + 1 < MAX_RETRIES then .openLock (attempt + 1) else .done)
  | .stampLock =>
      let stamp (file : LockFile) :=
        if file.creator = some c then { file with stamp := some call.pid, mtimeMs := w.now } else file
      { w with lock := w.lock.map stamp }.become c .readFile
  | .readFile => w.become c (.parse w.file)
  | .parse raw =>
      match w.update call with
      | none => w.become c .unlinkLock
      | some fn =>
          match fn.applyTo alive raw with
          | none => w.become c .unlinkLock
          | some written => w.become c (.rename raw fn written)
  | .rename _ _ written => { w with file := written }.become c .unlinkLock
  | .unlinkLock => { w with lock := none }.become c .done
  | .readOnly => w.become c (.prune w.file)
  | .prune raw =>
      match pruned alive w.now raw with
      | none => w.become c .done
      | some written => w.become c (.writeBack raw (.prune w.now) written)
  | .writeBack _ _ written => { w with file := written }.become c .done
  | .done => w

def statLock (c : Nat) (call : Call) : World :=
  match call.stage with
  | .inspect attempt none stamp =>
      match w.lock with
      | none => w.become c (.reopen attempt)
      | some file => w.become c (.inspect attempt (some file.mtimeMs) stamp)
  | _ => w

def readLock (c : Nat) (call : Call) : World :=
  match call.stage with
  | .inspect attempt mtimeMs none => w.become c (.inspect attempt mtimeMs (some (w.lock.bind LockFile.stamp)))
  | _ => w

/-- What `f` does for the call with the number `c`, if there is one. -/
def onCall (c : Nat) (f : Call → World) : World :=
  match w.calls[c]? with
  | some call => f call
  | none => w

def step : Op → World
  | .register pid sessionId startedAt agents => w.register pid sessionId startedAt agents
  | .updateAgents pid agents => w.updateAgents pid agents
  | .heartbeat pid => w.heartbeat pid
  | .markClosing pid => w.markClosing pid
  | .unregister pid => w.unregister pid
  | .read pid => w.begin pid .read .readOnly
  | .advance c => w.onCall c (w.resume alive c)
  | .statLock c => w.onCall c (w.statLock c)
  | .readLock c => w.onCall c (w.readLock c)
  | .tick ms => { w with now := w.now + ms }

end World

/-- A file, and a lock that another process may have left behind. -/
def start (file : Content) (lock : Option (Option Pid × Int)) (now : Int) : World where
  file := file
  lock := lock.map fun left => { creator := none, stamp := left.1, mtimeMs := left.2 }
  now := now

end WrongStack.SessionRegistry

/-!
# What an update keeps

An update takes out the entries that it is about or that qualify for pruning, and leaves all others.
-/

namespace WrongStack.SessionRegistry

open Lib

variable {alive : Pid → Bool} {registry registry' : Registry} {sessionId id : SessionId}
  {entry existing : SessionRegistryEntry} {pid : Pid} {now : Int}

/-- The session that an update is about. -/
def Update.sessionId? : Update → Option SessionId
  | .register _ sessionId _ _ | .updateAgents sessionId _ _ _ _ | .heartbeat sessionId _ _
  | .markClosing sessionId _ | .unregister sessionId => some sessionId
  | .prune _ => none

/-- `readAndPrune` drops the entry. -/
def qualifies (alive : Pid → Bool) (now : Int) (entry : SessionRegistryEntry) : Bool :=
  (entry.status = .closing && olderThan CLOSING_GRACE_MS now entry.lastHeartbeatAt) ||
    (isStale alive now entry && olderThan RECENTLY_CLOSED_MS now entry.startedAt)

/-- The update takes the entry out: its owner does, or it qualifies for pruning. -/
def Update.removes (alive : Pid → Bool) (id : SessionId) (entry : SessionRegistryEntry) : Update → Bool
  | .register pid sessionId _ now => id ≠ sessionId && (entry.pid = some pid || isStale alive now entry)
  | .unregister sessionId => id = sessionId
  | .prune now => qualifies alive now entry
  | _ => false

/-- The entry is still there, and unchanged unless the update is about its session; a stale one may be marked. -/
def Update.Spares (alive : Pid → Bool) (fn : Update) (registry registry' : Registry) : Prop :=
  ∀ id entry, registry.get? id = some (some entry) → fn.removes alive id entry = false →
    ∃ entry', registry'.get? id = some (some entry') ∧
      (fn.sessionId? = some id ∨ entry' = entry ∨ entry' = { entry with status := .stale })

/-! ## Loops -/

theorem forEntries_invariant {σ : Type} {body : σ → SessionId → SessionRegistryEntry → σ} {P : σ → Prop}
    {entries : List (SessionId × Option SessionRegistryEntry)} {acc acc' : σ}
    (hbody : ∀ acc id entry, (id, some entry) ∈ entries → P acc → P (body acc id entry)) (hacc : P acc)
    (h : forEntries body entries acc = some acc') : P acc' := by
  induction entries generalizing acc with
  | nil =>
      cases h
      exact hacc
  | cons p rest ih =>
      obtain ⟨id, value⟩ := p
      cases value with
      | none => cases h
      | some entry =>
          refine ih (fun acc id entry hmem => hbody acc id entry (List.mem_cons_of_mem _ hmem)) ?_ h
          exact hbody acc id entry List.mem_cons_self hacc

theorem forEntries_isSome {σ : Type} (body : σ → SessionId → SessionRegistryEntry → σ)
    {entries : List (SessionId × Option SessionRegistryEntry)} (acc : σ) (h : ∀ p ∈ entries, p.2 ≠ none) :
    ∃ acc', forEntries body entries acc = some acc' := by
  induction entries generalizing acc with
  | nil => exact ⟨acc, rfl⟩
  | cons p rest ih =>
      obtain ⟨id, value⟩ := p
      obtain ⟨hvalue, hrest⟩ := List.forall_mem_cons.mp h
      cases value with
      | none => exact absurd rfl hvalue
      | some entry => exact ih (body acc id entry) hrest

theorem entry_unique (h : registry.get? id = some (some entry)) (hmem : (id, some existing) ∈ registry.entries) :
    existing = entry := by
  rw [JsMap.mem_entries_iff, h] at hmem
  exact (Option.some.inj (Option.some.inj hmem)).symm

/-! ## Updates -/

theorem register_spares (hid : id ≠ sessionId) (hentry : registry.get? id = some (some entry))
    (hkeep : entry.pid ≠ some pid ∧ isStale alive now entry = false)
    (h : forEntries (registerBody alive pid sessionId now) registry.entries registry = some registry') :
    registry'.get? id = some (some entry) := by
  refine forEntries_invariant (P := fun r => r.get? id = some (some entry)) (fun r id' existing hmem hr => ?_) hentry h
  have hdelete : id' ≠ id → (r.delete id').get? id = some (some entry) := by
    intro hne
    rw [JsMap.get?_delete, if_neg hne]
    exact hr
  by_cases hsame : id' = id
  · subst hsame
    obtain rfl := entry_unique hentry hmem
    unfold registerBody
    rw [if_neg hkeep.1, if_neg (by rw [hkeep.2]; exact Bool.false_ne_true)]
    exact hr
  · unfold registerBody
    split
    · split
      · exact hdelete hsame
      · exact hr
    · split
      · exact hdelete hsame
      · exact hr

theorem prune_spares {dropped : Bool} (hentry : registry.get? id = some (some entry))
    (hkeep : qualifies alive now entry = false)
    (h : forEntries (pruneBody alive now) registry.entries (registry, false) = some (registry', dropped)) :
    ∃ entry', registry'.get? id = some (some entry') ∧ (entry' = entry ∨ entry' = { entry with status := .stale }) := by
  unfold qualifies at hkeep
  rw [Bool.or_eq_false_iff] at hkeep
  obtain ⟨hclosing, hstale⟩ := hkeep
  refine forEntries_invariant (P := fun acc : Registry × Bool => ∃ entry', acc.1.get? id = some (some entry') ∧
    (entry' = entry ∨ entry' = { entry with status := .stale })) (fun acc id' existing hmem hacc => ?_)
    ⟨entry, hentry, .inl rfl⟩ h
  by_cases hsame : id' = id
  · subst hsame
    obtain rfl := entry_unique hentry hmem
    unfold pruneBody
    rw [if_neg (by simpa using hclosing)]
    split
    · rename_i hold
      rw [hold, Bool.true_and] at hstale
      rw [if_neg (by rw [hstale]; exact Bool.false_ne_true)]
      exact ⟨_, JsMap.get?_set_self _ _ _, .inr rfl⟩
    · exact hacc
  · obtain ⟨entry', hentry', hcase⟩ := hacc
    unfold pruneBody
    split
    · exact ⟨entry', by rw [JsMap.get?_delete, if_neg hsame]; exact hentry', hcase⟩
    · split
      · split
        · exact ⟨entry', by rw [JsMap.get?_delete, if_neg hsame]; exact hentry', hcase⟩
        · exact ⟨entry', by rw [JsMap.get?_set, if_neg hsame]; exact hentry', hcase⟩
      · exact ⟨entry', hentry', hcase⟩

/-- Whatever is set under the key, all other entries stay. -/
theorem set_spares {fn : Update} {new : SessionRegistryEntry} (hfn : fn.sessionId? = some sessionId) :
    fn.Spares alive registry (registry.set sessionId (some new)) := by
  intro id entry hentry _
  by_cases hid : sessionId = id
  · subst hid
    exact ⟨new, JsMap.get?_set_self _ _ _, .inl hfn⟩
  · exact ⟨entry, by rw [JsMap.get?_set, if_neg hid]; exact hentry, .inr (.inl rfl)⟩

theorem refl_spares {fn : Update} : fn.Spares alive registry registry :=
  fun _ entry hentry _ => ⟨entry, hentry, .inr (.inl rfl)⟩

theorem apply_spares {fn : Update} (h : fn.apply alive registry = some registry') :
    fn.Spares alive registry registry' := by
  cases fn with
  | register pid sessionId full now =>
      obtain ⟨swept, hswept, rfl⟩ := Option.map_eq_some_iff.mp h
      intro id entry hentry hkeep
      by_cases hid : sessionId = id
      · subst hid
        exact ⟨full, JsMap.get?_set_self _ _ _, .inl rfl⟩
      · refine ⟨entry, ?_, .inr (.inl rfl)⟩
        rw [JsMap.get?_set, if_neg hid]
        simp only [Update.removes, Bool.and_eq_false_iff, decide_eq_false_iff_not, ne_eq, Ne.symm hid,
          not_false_eq_true, not_true_eq_false, false_or, Bool.or_eq_false_iff] at hkeep
        exact register_spares (Ne.symm hid) hentry hkeep hswept
  | updateAgents sessionId lastEntry agents status now =>
      simp only [Update.apply, Option.some.injEq] at h
      subst h
      split
      · exact set_spares rfl
      · exact refl_spares
  | heartbeat sessionId lastEntry now =>
      simp only [Update.apply, Option.some.injEq] at h
      subst h
      split
      · exact set_spares rfl
      · exact set_spares rfl
      · exact refl_spares
  | markClosing sessionId now =>
      simp only [Update.apply, Option.some.injEq] at h
      subst h
      split
      · exact set_spares rfl
      · exact refl_spares
  | unregister sessionId =>
      cases h
      intro id entry hentry hkeep
      simp only [Update.removes, decide_eq_false_iff_not] at hkeep
      exact ⟨entry, by rw [JsMap.get?_delete, if_neg (Ne.symm hkeep)]; exact hentry, .inr (.inl rfl)⟩
  | prune now =>
      obtain ⟨⟨swept, dropped⟩, hswept, rfl⟩ := Option.map_eq_some_iff.mp h
      intro id entry hentry hkeep
      obtain ⟨entry', hentry', hcase⟩ := prune_spares hentry hkeep hswept
      exact ⟨entry', hentry', .inr hcase⟩

/-! ## Files -/

theorem applyTo_spares {fn : Update} {written : Content} (h : fn.applyTo alive (.object registry) = some written) :
    ∃ registry', written = .object registry' ∧ fn.Spares alive registry registry' := by
  obtain ⟨registry', happly, rfl⟩ := Option.map_eq_some_iff.mp h
  exact ⟨registry', rfl, apply_spares happly⟩

/-- The object has no `null` among its values, or there is none yet. -/
def Content.usable : Content → Bool
  | .missing => true
  | .object registry => registry.entries.all fun p => p.2.isSome
  | _ => false

/-- `register` on a usable file writes an object that has the entry. -/
theorem register_writes (alive : Pid → Bool) (pid : Pid) (sessionId : SessionId) (full : SessionRegistryEntry)
    (now : Int) {raw : Content} (h : raw.usable = true) :
    ∃ registry, (Update.register pid sessionId full now).applyTo alive raw = some (.object registry) ∧
      registry.get? sessionId = some (some full) := by
  have hsweep : ∀ registry : Registry, (∀ p ∈ registry.entries, p.2 ≠ none) → ∃ registry',
      (Update.register pid sessionId full now).apply alive registry = some registry' ∧
        registry'.get? sessionId = some (some full) := by
    intro registry hregistry
    obtain ⟨swept, hswept⟩ := forEntries_isSome (registerBody alive pid sessionId now) registry hregistry
    exact ⟨_, by rw [Update.apply, hswept]; rfl, JsMap.get?_set_self _ _ _⟩
  cases raw with
  | missing =>
      obtain ⟨registry', hwritten, hentry⟩ := hsweep .empty fun p hp => absurd hp List.not_mem_nil
      exact ⟨registry', by rw [Update.applyTo, hwritten]; rfl, hentry⟩
  | malformed => cases h
  | array => cases h
  | object registry =>
      obtain ⟨registry', hwritten, hentry⟩ := hsweep registry fun p hp hnone => by
        have hsome := List.all_eq_true.mp h p hp
        rw [hnone] at hsome
        cases hsome
      exact ⟨registry', by rw [Update.applyTo, hwritten]; rfl, hentry⟩

/-- What is written back is what pruning makes of the file. -/
theorem pruned_applyTo {raw written : Content} (h : pruned alive now raw = some written) :
    (Update.prune now).applyTo alive raw = some written := by
  cases raw with
  | object registry =>
      simp only [pruned] at h
      split at h
      · rename_i registry' hswept
        cases h
        rw [Update.applyTo, Update.apply, hswept]
        rfl
      · cases h
  | _ => cases h

end WrongStack.SessionRegistry

import WrongStack.SessionRegistry.Registry

/-!
# No update is lost

As long as the lock of a live call is not removed and readers do not write back beside a locked update, whoever
replaces the file has read what it replaces.
-/

namespace WrongStack.SessionRegistry

open Lib

variable (alive : Pid → Bool)

/-! ## Statements -/

/-- The call has made its lock file and not yet removed it. -/
def Stage.held : Stage → Bool
  | .stampLock | .readFile | .parse _ | .rename _ _ _ | .unlinkLock => true
  | _ => false

/-- What a holder has read and is about to change. -/
def Stage.read? : Stage → Option Content
  | .parse raw | .rename raw _ _ => some raw
  | _ => none

/-- What the call has read, the update and what it is about to write. -/
def Stage.pending? : Stage → Option (Content × Update × Content)
  | .rename raw fn written | .writeBack raw fn written => some (raw, fn, written)
  | _ => none

/-- The update that the operation writes to the file. -/
def World.replacing (w : World) : Op → Option Update
  | .advance c => (w.calls[c]?).bind fun call => call.stage.pending?.map fun p => p.2.1
  | _ => none

/-- The file keeps the entries that the update does not remove. -/
def Content.Keeps (fn : Update) (file file' : Content) : Prop :=
  ∀ registry, file = .object registry → ∃ registry', file' = .object registry' ∧ fn.Spares alive registry registry'

/-- The entry of a `register` call is in what it writes. -/
def Content.HasEntry (file : Content) (call : Call) : Prop :=
  ∀ sessionId full, call.request = .register sessionId full → ∃ registry entry,
    file = .object registry ∧ registry.get? sessionId = some (some entry) ∧ entry.pid = some call.pid

/-- A replacement applies its update to what the file holds, and a `register` call that has the lock gets as far as
writing its entry. -/
structure Lawful (w : World) (o : Op) : Prop where
  replaced : ∀ fn, w.replacing o = some fn →
    fn.applyTo alive w.file = some (w.step alive o).file ∧ (w.file.Keeps alive fn (w.step alive o).file)
  unchanged : w.replacing o = none → (w.step alive o).file = w.file
  writes : ∀ c call raw sessionId full, o = .advance c → w.calls[c]? = some call → call.stage = .parse raw →
    call.request = .register sessionId full → ∃ fn written,
      ((w.step alive o).calls[c]?).map Call.stage = some (.rename raw fn written)
  entered : ∀ c call raw fn written, o = .advance c → w.calls[c]? = some call →
    call.stage = .rename raw fn written → (w.step alive o).file.HasEntry call

/-- The lock file at the path belongs to a live call. -/
def World.lockHeld (w : World) : Bool :=
  (w.lock.bind LockFile.creator).any fun c => (w.calls[c]?).any (·.stage.held)

def ClearStage (w : World) : Stage → Request → Prop
  | .unlinkStale _, _ => w.lockHeld = false
  | .parse raw, .register _ _ => raw.usable = true
  | .writeBack raw _ _, _ => w.file = raw ∧ ∀ other ∈ w.calls, other.stage.read? = none
  | _, _ => True

instance (w : World) (stage : Stage) (request : Request) : Decidable (ClearStage w stage request) := by
  unfold ClearStage
  split <;> infer_instance

/-- No lock of a live call is removed as a stale one, a reader that writes back finds what it has read and no locked
update under way, and `register` reads a usable file. -/
def Clear (w : World) : Op → Prop
  | .advance c => ∀ call ∈ w.calls[c]?, ClearStage w call.stage call.request
  | _ => True

instance (w : World) (o : Op) : Decidable (Clear w o) := by
  cases o <;> unfold Clear <;> infer_instance

/-! ## The invariant -/

structure Inv (w : World) : Prop where
  owner : ∀ (c : Nat) (call : Call), w.calls[c]? = some call → call.stage.held = true →
    ∃ file, w.lock = some file ∧ file.creator = some c
  current : ∀ (c : Nat) (call : Call) raw, w.calls[c]? = some call → call.stage.read? = some raw → w.file = raw
  pending : ∀ (c : Nat) (call : Call) raw fn written, w.calls[c]? = some call → call.stage.pending? = some (raw, fn, written) →
    fn.applyTo alive raw = some written
  made : ∀ (c : Nat) (call : Call) sessionId full, w.calls[c]? = some call → call.request = .register sessionId full →
    ∃ entry, w.objects[full]? = some entry ∧ entry.pid = some call.pid
  entered : ∀ (c : Nat) (call : Call) raw fn written, w.calls[c]? = some call → call.stage = .rename raw fn written →
    written.HasEntry call

variable {alive} {w w' : World} {c c' : Nat} {call call' : Call} {stage : Stage}

theorem inv_start (file : Content) (lock : Option (Option Pid × Int)) (now : Int) :
    Inv alive (start file lock now) := by
  have hnone : ∀ (c : Nat) (call : Call), (start file lock now).calls[c]? ≠ some call := by
    intro c call h
    simp [start] at h
  exact ⟨fun c call h => absurd h (hnone c call), fun c call _ h => absurd h (hnone c call),
    fun c call _ _ _ h => absurd h (hnone c call), fun c call _ _ h => absurd h (hnone c call),
    fun c call _ _ _ h => absurd h (hnone c call)⟩

theorem Inv.unique (h : Inv alive w) (hc : w.calls[c]? = some call) (hheld : call.stage.held = true)
    (hc' : w.calls[c']? = some call') (hheld' : call'.stage.held = true) : c = c' := by
  obtain ⟨file, hlock, hcreator⟩ := h.owner c call hc hheld
  obtain ⟨file', hlock', hcreator'⟩ := h.owner c' call' hc' hheld'
  obtain rfl := Option.some.inj (hlock.symm.trans hlock')
  exact Option.some.inj (hcreator.symm.trans hcreator')

theorem Stage.held_of_read? {raw : Content} (h : stage.read? = some raw) : stage.held = true := by
  cases stage <;> simp_all [Stage.read?, Stage.held]

/-! ## Calls begin -/

/-- The stages in which a call begins. -/
def Stage.fresh : Stage → Bool
  | .openLock _ | .readOnly => true
  | _ => false

theorem Inv.begin {pid : Pid} {request : Request} (h : Inv alive w) (hfresh : stage.fresh = true)
    (hmade : ∀ sessionId full, request = .register sessionId full →
      ∃ entry, w.objects[full]? = some entry ∧ entry.pid = some pid) :
    Inv alive (w.begin pid request stage) := by
  have hcase : ∀ {c : Nat} {call : Call}, (w.begin pid request stage).calls[c]? = some call →
      w.calls[c]? = some call ∨ call = { pid, request, stage } := by
    intro c call hget
    change (w.calls ++ [_])[c]? = some call at hget
    rcases Nat.lt_or_ge c w.calls.length with hlt | hge
    · rw [List.getElem?_append_left hlt] at hget
      exact .inl hget
    · rw [List.getElem?_append_right hge] at hget
      exact .inr (List.mem_singleton.mp (List.mem_of_getElem? hget))
  have hheld : stage.held = false ∧ stage.read? = none ∧ stage.pending? = none := by
    cases stage <;> first | exact ⟨rfl, rfl, rfl⟩ | cases hfresh
  refine ⟨fun c call hget hstage => ?_, fun c call raw hget hstage => ?_, fun c call raw fn written hget hstage => ?_,
    fun c call sessionId full hget hreq => ?_, fun c call raw fn written hget hstage => ?_⟩
  · rcases hcase hget with hold | rfl
    · exact h.owner c call hold hstage
    · rw [hheld.1] at hstage
      cases hstage
  · rcases hcase hget with hold | rfl
    · exact h.current c call raw hold hstage
    · rw [hheld.2.1] at hstage
      cases hstage
  · rcases hcase hget with hold | rfl
    · exact h.pending c call raw fn written hold hstage
    · rw [hheld.2.2] at hstage
      cases hstage
  · rcases hcase hget with hold | rfl
    · exact h.made c call sessionId full hold hreq
    · exact hmade sessionId full hreq
  · rcases hcase hget with hold | rfl
    · exact h.entered c call raw fn written hold hstage
    · rw [show stage = _ from hstage] at hfresh
      cases hfresh

/-- The fields of the processes and new objects do not matter. -/
theorem Inv.congr (h : Inv alive w) (hfile : w'.file = w.file) (hlock : w'.lock = w.lock) (hcalls : w'.calls = w.calls)
    (hobjects : ∀ (i : Nat) (entry : SessionRegistryEntry), w.objects[i]? = some entry →
      ∃ entry', w'.objects[i]? = some entry' ∧ entry'.pid = entry.pid) : Inv alive w' := by
  refine ⟨?_, ?_, ?_, ?_, ?_⟩
  · rw [hcalls, hlock]
    exact h.owner
  · rw [hcalls, hfile]
    exact h.current
  · rw [hcalls]
    exact h.pending
  · rw [hcalls]
    intro c call sessionId full hget hreq
    obtain ⟨entry, hentry, hpid⟩ := h.made c call sessionId full hget hreq
    obtain ⟨entry', hentry', hpid'⟩ := hobjects full entry hentry
    exact ⟨entry', hentry', hpid'.trans hpid⟩
  · rw [hcalls]
    exact h.entered

theorem Inv.register {pid : Pid} {sessionId : SessionId} {startedAt : Option Int} {agents : List AgentLiveStatus}
    (h : Inv alive w) : Inv alive (w.register pid sessionId startedAt agents) := by
  refine Inv.begin (h.congr rfl rfl rfl fun i entry hentry => ⟨entry, ?_, rfl⟩) rfl fun sessionId' full hreq => ?_
  · rw [List.getElem?_append_left (List.getElem?_eq_some_iff.mp hentry).1]
    exact hentry
  · cases hreq
    exact ⟨_, List.getElem?_concat_length, rfl⟩

theorem Inv.updateAgents {pid : Pid} {agents : List AgentLiveStatus} (h : Inv alive w) :
    Inv alive (w.updateAgents pid agents) := by
  unfold World.updateAgents
  split
  · exact h
  · refine Inv.begin (h.congr rfl rfl rfl fun i entry hentry => ?_) rfl fun _ _ hreq => by cases hreq
    simp only
    split
    · rw [List.getElem?_modify, hentry]
      refine ⟨_, rfl, ?_⟩
      split <;> rfl
    · exact ⟨entry, hentry, rfl⟩

/-! ## Calls go on -/

/-- One call goes on, and what it changes is nothing that another one relies on. -/
theorem Inv.become (h : Inv alive w) (hc : w.calls[c]? = some call) (hcalls : w'.calls = w.calls)
    (hobjects : w'.objects = w.objects)
    (hothers : ∀ c' call', c' ≠ c → w.calls[c']? = some call' → call'.stage.held = true →
      w'.lock = w.lock ∧ (call'.stage.read? ≠ none → w'.file = w.file))
    (hown : stage.held = true → ∃ file, w'.lock = some file ∧ file.creator = some c)
    (hread : ∀ raw, stage.read? = some raw → w'.file = raw)
    (hpending : ∀ raw fn written, stage.pending? = some (raw, fn, written) → fn.applyTo alive raw = some written)
    (hentered : ∀ raw fn written, stage = .rename raw fn written → written.HasEntry call) :
    Inv alive (w'.become c stage) := by
  have hcase : ∀ {c' : Nat} {call' : Call}, (w'.become c stage).calls[c']? = some call' →
      (c' ≠ c ∧ w.calls[c']? = some call') ∨ (c' = c ∧ call' = { call with stage }) := by
    intro c' call' hget
    change (w'.calls.modify c _)[c']? = some call' at hget
    rw [hcalls, List.getElem?_modify] at hget
    by_cases heq : c = c'
    · subst heq
      simp only [hc, Option.map_eq_map, Option.map_some, ↓reduceIte, Option.some.injEq] at hget
      exact .inr ⟨rfl, hget.symm⟩
    · simp only [if_neg heq, Option.map_eq_map, Option.map_id'] at hget
      exact .inl ⟨Ne.symm heq, hget⟩
  refine ⟨fun c' call' hget hheld => ?_, fun c' call' raw hget hstage => ?_, fun c' call' raw fn written hget hstage => ?_,
    fun c' call' sessionId full hget hreq => ?_, fun c' call' raw fn written hget hstage => ?_⟩
  · rcases hcase hget with ⟨hne, hold⟩ | ⟨rfl, rfl⟩
    · change ∃ file, w'.lock = some file ∧ _
      rw [(hothers c' call' hne hold hheld).1]
      exact h.owner c' call' hold hheld
    · exact hown hheld
  · rcases hcase hget with ⟨hne, hold⟩ | ⟨rfl, rfl⟩
    · have hsame := (hothers c' call' hne hold (Stage.held_of_read? hstage)).2 (by rw [hstage]; exact Option.some_ne_none _)
      exact hsame.trans (h.current c' call' raw hold hstage)
    · exact hread raw hstage
  · rcases hcase hget with ⟨-, hold⟩ | ⟨rfl, rfl⟩
    · exact h.pending c' call' raw fn written hold hstage
    · exact hpending raw fn written hstage
  · change ∃ entry, w'.objects[full]? = some entry ∧ _
    rw [hobjects]
    rcases hcase hget with ⟨-, hold⟩ | ⟨rfl, rfl⟩
    · exact h.made c' call' sessionId full hold hreq
    · exact h.made c' call sessionId full hc hreq
  · rcases hcase hget with ⟨-, hold⟩ | ⟨rfl, rfl⟩
    · exact h.entered c' call' raw fn written hold hstage
    · exact hentered raw fn written hstage

/-- One call goes on and touches neither the file nor the lock. -/
theorem Inv.goes_on (h : Inv alive w) (hc : w.calls[c]? = some call)
    (hown : stage.held = true → call.stage.held = true) (hread : ∀ raw, stage.read? = some raw → w.file = raw)
    (hpending : ∀ raw fn written, stage.pending? = some (raw, fn, written) → fn.applyTo alive raw = some written)
    (hentered : ∀ raw fn written, stage = .rename raw fn written → written.HasEntry call) :
    Inv alive (w.become c stage) :=
  h.become hc rfl rfl (fun _ _ _ _ _ => ⟨rfl, fun _ => rfl⟩) (fun hheld => h.owner c call hc (hown hheld)) hread
    hpending hentered

/-- One call goes on to a stage where it holds and plans nothing. -/
theorem Inv.idles (h : Inv alive w) (hc : w.calls[c]? = some call) (hown : stage.held = true → call.stage.held = true)
    (hread : stage.read? = none) (hpending : stage.pending? = none) : Inv alive (w.become c stage) := by
  refine h.goes_on hc hown (fun raw hraw => ?_) (fun raw fn written hp => ?_) fun raw fn written heq => ?_
  · rw [hread] at hraw
    cases hraw
  · rw [hpending] at hp
    cases hp
  · rw [heq] at hpending
    cases hpending

/-- The call goes on and leaves the path of the lock free; no other call holds it. -/
theorem Inv.unlinks (h : Inv alive w) (hc : w.calls[c]? = some call)
    (hfree : ∀ c' call', c' ≠ c → w.calls[c']? = some call' → call'.stage.held = false) (hown : stage.held = false)
    (hread : stage.read? = none) (hpending : stage.pending? = none) :
    Inv alive ({ w with lock := none }.become c stage) := by
  refine h.become hc rfl rfl (fun c' call' hne hget hheld => ?_) (fun hheld => ?_) (fun raw hraw => ?_)
    (fun raw fn written hp => ?_) fun raw fn written heq => ?_
  · rw [hfree c' call' hne hget] at hheld
    cases hheld
  · rw [hown] at hheld
    cases hheld
  · rw [hread] at hraw
    cases hraw
  · rw [hpending] at hp
    cases hp
  · rw [heq] at hpending
    cases hpending

/-- The call replaces the file; no other call has read it under the lock. -/
theorem Inv.replaces {written : Content} (h : Inv alive w) (hc : w.calls[c]? = some call)
    (hfree : ∀ c' call', c' ≠ c → w.calls[c']? = some call' → call'.stage.read? = none)
    (hown : stage.held = true → call.stage.held = true) (hread : stage.read? = none) (hpending : stage.pending? = none) :
    Inv alive ({ w with file := written }.become c stage) := by
  refine h.become hc rfl rfl (fun c' call' hne hget hheld => ⟨rfl, fun hin => ?_⟩)
    (fun hheld => h.owner c call hc (hown hheld)) (fun raw hraw => ?_) (fun raw fn written hp => ?_)
    fun raw fn written heq => ?_
  · exact absurd (hfree c' call' hne hget) hin
  · rw [hread] at hraw
    cases hraw
  · rw [hpending] at hp
    cases hp
  · rw [heq] at hpending
    cases hpending

theorem Inv.openExclusive (h : Inv alive w) (hc : w.calls[c]? = some call) (hown : stage.held = false)
    (hread : stage.read? = none) (hpending : stage.pending? = none) : Inv alive (w.openExclusive c stage) := by
  unfold World.openExclusive
  cases hlock : w.lock with
  | some file =>
      simp only
      refine h.idles hc (fun hheld => ?_) hread hpending
      rw [hown] at hheld
      cases hheld
  | none =>
      refine h.become hc rfl rfl (fun c' call' _ hget hheld => ?_) (fun _ => ⟨_, rfl, rfl⟩) (fun raw hraw => by cases hraw)
        (fun raw fn written hp => by cases hp) fun raw fn written heq => by cases heq
      obtain ⟨file, hfile, -⟩ := h.owner c' call' hget hheld
      rw [hlock] at hfile
      cases hfile

theorem Inv.resume (h : Inv alive w) (hc : w.calls[c]? = some call) (hclear : ClearStage w call.stage call.request) :
    Inv alive (w.resume alive c call) := by
  have halone : call.stage.held = true → ∀ c' call', c' ≠ c → w.calls[c']? = some call' →
      call'.stage.held = false := by
    intro hheld c' call' hne hget
    rw [Bool.eq_false_iff]
    exact fun hheld' => hne (h.unique hget hheld' hc hheld)
  have hunread : call.stage.held = true → ∀ c' call', c' ≠ c → w.calls[c']? = some call' →
      call'.stage.read? = none := by
    intro hheld c' call' hne hget
    cases hread : call'.stage.read? with
    | none => rfl
    | some raw =>
        have hheld' := Stage.held_of_read? hread
        rw [halone hheld c' call' hne hget] at hheld'
        cases hheld'
  have hidle : ∀ {stage : Stage}, stage.held = false → stage.read? = none → stage.pending? = none →
      Inv alive (w.become c stage) := by
    intro stage hheld hread hpending
    refine h.idles hc (fun hin => ?_) hread hpending
    rw [hheld] at hin
    cases hin
  obtain ⟨pid, request, stage⟩ := call
  cases stage with
  | openLock attempt => exact h.openExclusive hc rfl rfl rfl
  | inspect attempt mtimeMs stamp =>
      cases mtimeMs with
      | none => exact h
      | some mtimeMs =>
          cases stamp with
          | none => exact h
          | some stamp =>
              simp only [World.resume, World.judge]
              split
              · exact hidle rfl rfl rfl
              · exact hidle rfl rfl rfl
  | unlinkStale attempt =>
      refine h.unlinks hc (fun c' call' _ hget => ?_) rfl rfl rfl
      rw [Bool.eq_false_iff]
      intro hheld
      obtain ⟨file, hlock, hcreator⟩ := h.owner c' call' hget hheld
      have hfree : w.lockHeld = false := hclear
      unfold World.lockHeld at hfree
      simp [hlock, hcreator, hget, hheld] at hfree
  | reopen attempt => exact h.openExclusive hc rfl rfl rfl
  | sleeping attempt =>
      simp only [World.resume]
      split
      · exact hidle rfl rfl rfl
      · exact hidle rfl rfl rfl
  | stampLock =>
      obtain ⟨file, hlock, hcreator⟩ := h.owner c _ hc rfl
      refine h.become hc rfl rfl (fun c' call' hne hget hheld => ?_) (fun _ => ?_) (fun raw hraw => by cases hraw)
        (fun raw fn written hp => by cases hp) fun raw fn written heq => by cases heq
      · rw [halone rfl c' call' hne hget] at hheld
        cases hheld
      · refine ⟨_, by rw [hlock, Option.map_some], ?_⟩
        rw [if_pos hcreator]
        exact hcreator
  | readFile =>
      refine h.goes_on hc (fun _ => rfl) (fun raw hraw => ?_) (fun raw fn written hp => by cases hp)
        fun raw fn written heq => by cases heq
      cases hraw
      rfl
  | parse raw =>
      simp only [World.resume]
      split
      · exact h.idles hc (fun _ => rfl) rfl rfl
      · rename_i fn hfn
        split
        · exact h.idles hc (fun _ => rfl) rfl rfl
        · rename_i written hwritten
          refine h.goes_on hc (fun _ => rfl) (fun raw' hraw => ?_) (fun raw' fn' written' hp => ?_)
            fun raw' fn' written' heq => ?_
          · cases hraw
            exact h.current c _ raw hc rfl
          · cases hp
            exact hwritten
          · cases heq
            intro sessionId full hreq
            simp only at hreq
            subst hreq
            obtain ⟨entry, hentry, hpid⟩ := h.made c _ sessionId full hc rfl
            simp only [World.update, hentry, Option.map_some, Option.some.injEq] at hfn
            subst hfn
            obtain ⟨registry, hregistry, hget⟩ :=
              register_writes alive pid sessionId entry w.now (show raw.usable = true from hclear)
            rw [hregistry] at hwritten
            cases hwritten
            exact ⟨registry, entry, rfl, hget, hpid⟩
  | rename raw fn written => exact h.replaces hc (hunread rfl) (fun _ => rfl) rfl rfl
  | unlinkLock => exact h.unlinks hc (halone rfl) rfl rfl rfl
  | readOnly => exact hidle rfl rfl rfl
  | prune raw =>
      simp only [World.resume]
      split
      · exact hidle rfl rfl rfl
      · rename_i written hwritten
        refine h.goes_on hc (fun hin => by cases hin) (fun raw hraw => by cases hraw) (fun raw' fn written' hp => ?_)
          fun raw fn written heq => by cases heq
        cases hp
        exact pruned_applyTo hwritten
  | writeBack raw fn written =>
      refine h.replaces hc (fun c' call' _ hget => hclear.2 call' (List.mem_of_getElem? hget))
        (fun hin => by cases hin) rfl rfl
  | done => exact h

theorem Inv.step (h : Inv alive w) {o : Op} (hclear : Clear w o) : Inv alive (w.step alive o) := by
  have honCall : ∀ (c : Nat) (f : Call → World), (∀ call, w.calls[c]? = some call → Inv alive (f call)) →
      Inv alive (w.onCall c f) := by
    intro c f hf
    unfold World.onCall
    cases hget : w.calls[c]? with
    | none => exact h
    | some call => exact hf call hget
  cases o with
  | register pid sessionId startedAt agents => exact h.register
  | updateAgents pid agents => exact h.updateAgents
  | heartbeat pid =>
      simp only [World.step, World.heartbeat]
      split
      · exact h
      · exact h.begin rfl fun _ _ hreq => by cases hreq
  | markClosing pid =>
      simp only [World.step, World.markClosing]
      split
      · exact h
      · exact h.begin rfl fun _ _ hreq => by cases hreq
  | unregister pid =>
      simp only [World.step, World.unregister]
      split
      · exact h
      · refine Inv.begin (h.congr rfl rfl rfl fun i entry hentry => ⟨entry, hentry, rfl⟩) rfl ?_
        intro _ _ hreq
        cases hreq
  | read pid => exact h.begin rfl fun _ _ hreq => by cases hreq
  | advance c => exact honCall c _ fun call hget => h.resume hget (hclear call hget)
  | statLock c =>
      refine honCall c _ fun call hget => ?_
      unfold World.statLock
      split
      · rename_i hstage
        have hidle : ∀ {stage : Stage}, stage.held = false → stage.read? = none → stage.pending? = none →
            Inv alive (w.become c stage) := by
          intro stage hheld hread hpending
          refine h.idles hget (fun hin => ?_) hread hpending
          rw [hheld] at hin
          cases hin
        split
        · exact hidle rfl rfl rfl
        · exact hidle rfl rfl rfl
      · exact h
  | readLock c =>
      refine honCall c _ fun call hget => ?_
      unfold World.readLock
      split
      · exact h.idles hget (fun hin => by cases hin) rfl rfl
      · exact h
  | tick ms => exact h.congr rfl rfl rfl fun i entry hentry => ⟨entry, hentry, rfl⟩

/-! ## One step -/

theorem stage_become (hc : w.calls[c]? = some call) : ((w.become c stage).calls[c]?).map Call.stage = some stage := by
  simp only [World.become, List.getElem?_modify, hc, Option.map_eq_map, Option.map_some, ↓reduceIte]

theorem step_advance (hc : w.calls[c]? = some call) : w.step alive (.advance c) = w.resume alive c call := by
  simp only [World.step, World.onCall, hc]

theorem resume_file (h : call.stage.pending? = none) : (w.resume alive c call).file = w.file := by
  obtain ⟨pid, request, stage⟩ := call
  cases stage with
  | openLock attempt =>
      simp only [World.resume, World.openExclusive]
      split <;> rfl
  | inspect attempt mtimeMs stamp =>
      cases mtimeMs with
      | none => rfl
      | some mtimeMs =>
          cases stamp with
          | none => rfl
          | some stamp =>
              simp only [World.resume, World.judge]
              split <;> rfl
  | reopen attempt =>
      simp only [World.resume, World.openExclusive]
      split <;> rfl
  | parse raw =>
      simp only [World.resume]
      split
      · rfl
      · split <;> rfl
  | prune raw =>
      simp only [World.resume]
      split <;> rfl
  | rename raw fn written => cases h
  | writeBack raw fn written => cases h
  | _ => rfl

theorem step_file {o : Op} (h : w.replacing o = none) : (w.step alive o).file = w.file := by
  cases o with
  | advance c =>
      simp only [World.step, World.onCall]
      cases hget : w.calls[c]? with
      | none => rfl
      | some call =>
          simp only [World.replacing, hget, Option.bind_some, Option.map_eq_none_iff] at h
          exact resume_file h
  | statLock c =>
      simp only [World.step, World.onCall, World.statLock]
      repeat' split
      all_goals rfl
  | readLock c =>
      simp only [World.step, World.onCall, World.readLock]
      repeat' split
      all_goals rfl
  | updateAgents pid agents =>
      simp only [World.step, World.updateAgents]
      split <;> rfl
  | heartbeat pid =>
      simp only [World.step, World.heartbeat]
      split <;> rfl
  | markClosing pid =>
      simp only [World.step, World.markClosing]
      split <;> rfl
  | unregister pid =>
      simp only [World.step, World.unregister]
      split <;> rfl
  | register pid sessionId startedAt agents => rfl
  | read pid => rfl
  | tick ms => rfl

theorem Inv.lawful (h : Inv alive w) {o : Op} (hclear : Clear w o) : Lawful alive w o := by
  refine ⟨fun fn hfn => ?_, step_file, fun c call raw sessionId full ho hget hstage hreq => ?_,
    fun c call raw fn written ho hget hstage => ?_⟩
  · cases o with
    | advance c =>
        simp only [World.replacing, Option.bind_eq_some_iff, Option.map_eq_some_iff] at hfn
        obtain ⟨call, hget, ⟨raw, fn', written⟩, hpending, rfl⟩ := hfn
        have happly := h.pending c call raw fn' written hget hpending
        have hclear' := hclear call hget
        -- a holder has the file that it has read, and for a reader that is the condition
        have hsame : w.file = raw ∧ (w.resume alive c call).file = written := by
          obtain ⟨pid, request, stage⟩ := call
          cases stage with
          | rename raw' fn written' =>
              cases hpending
              exact ⟨h.current c _ raw hget rfl, rfl⟩
          | writeBack raw' fn written' =>
              cases hpending
              exact ⟨hclear'.1, rfl⟩
          | _ => cases hpending
        rw [step_advance hget, hsame.1, hsame.2]
        refine ⟨happly, fun registry hregistry => ?_⟩
        rw [hregistry] at happly
        exact applyTo_spares happly
    | _ => cases hfn
  · subst ho
    have husable : raw.usable = true := by
      have hclear' := hclear call hget
      rw [hstage, hreq] at hclear'
      exact hclear'
    obtain ⟨entry, hentry, -⟩ := h.made c call sessionId full hget hreq
    obtain ⟨registry, hwritten, -⟩ := register_writes alive call.pid sessionId entry w.now husable
    refine ⟨.register call.pid sessionId entry w.now, .object registry, ?_⟩
    rw [step_advance hget]
    simp only [World.resume, hstage, World.update, hreq, hentry, Option.map_some, hwritten]
    exact stage_become hget
  · subst ho
    rw [step_advance hget]
    simp only [World.resume, hstage]
    exact h.entered c call raw fn written hget hstage

/-! ## Runs -/

/-- No update is lost in runs in which breakers spare the locks of live calls, readers write back only over what
they have read and beside no locked update, and `register` reads a usable file. -/
theorem updates_kept {alive : Pid → Bool} {file : Content} {lock : Option (Option Pid × Int)} {now : Int}
    {ops : List Op} (hops : Under (World.step alive) Clear (start file lock now) ops) :
    Under (World.step alive) (Lawful alive) (start file lock now) ops :=
  under_of_invariant (I := Inv alive) (fun _ _ h ho => h.step ho) (fun _ _ h ho => h.lawful ho)
    (inv_start file lock now) hops

/-- Two processes live. -/
def pair (pid : Pid) : Bool := pid = 1 || pid = 2

/-- The entry of a process that died long ago. -/
def left : Content :=
  .object (JsMap.empty.set "old" (some { status := .active, pid := some 9, startedAt := some 0, lastHeartbeatAt := some 0 }))

/-- A call makes its way to the end, `n` steps of it. -/
def advances (c n : Nat) : List Op := List.replicate n (.advance c)

/-- One process breaks the lock of a dead one and registers, the other one prunes what the dead one has left, and
both go on. -/
def shift : List Op :=
  [.read 2] ++ advances 0 3 ++ [.register 1 "a" (some 0) [], .advance 1, .readLock 1, .statLock 1] ++ advances 1 8 ++
    [.register 2 "b" (some 0) []] ++ advances 2 6 ++ [.tick 20000, .updateAgents 1 [.running]] ++ advances 3 6 ++
    [.markClosing 2] ++ advances 4 6 ++ [.unregister 2] ++ advances 5 6

theorem updates_kept_shift :
    Under (World.step pair) (Lawful pair) (start left (some (some 9, 900000)) 1000000) shift :=
  updates_kept (by decide +kernel)

/-- A reader that is about to write back while another process registers. -/
def interleaved : List Op :=
  [.read 2] ++ advances 0 2 ++ [.register 1 "a" (some 0) []] ++ advances 1 6

/-- Two processes find the lock of a dead one; the second one removes the lock of the first one. -/
def broken : List Op :=
  [.register 1 "a" (some 0) [], .register 2 "b" (some 0) [], .advance 0, .statLock 0, .readLock 0, .advance 1,
    .statLock 1, .readLock 1, .advance 0, .advance 1] ++ advances 0 2 ++ advances 1 2 ++ advances 0 3 ++ advances 1 4

/-- The write of the reader drops the new entry, so does that of the second holder, and `register` on a file that is
no JSON leaves nothing. -/
theorem updates_lost :
    ¬ Under (World.step pair) (Lawful pair) (start left none 1000000) (interleaved ++ [.advance 0]) ∧
      ¬ Under (World.step pair) (Lawful pair) (start .missing (some (some 9, 900000)) 1000000) (broken ++ [.advance 0]) ∧
      ¬ Under (World.step pair) (Lawful pair) (start .malformed none 1000000)
        ([.register 1 "a" (some 0) []] ++ advances 0 3 ++ [.advance 0]) := by
  refine ⟨fun h => ?_, fun h => ?_, fun h => ?_⟩
  · have hlast := under_iff_forall_concat.mp h interleaved (.advance 0) List.prefix_rfl
    exact absurd (hlast.replaced (.prune 1000000) (by decide +kernel)).1 (by decide +kernel)
  · have hlast := under_iff_forall_concat.mp h broken (.advance 0) List.prefix_rfl
    let full : SessionRegistryEntry :=
      { status := .active, pid := some 1, startedAt := some 0, lastHeartbeatAt := some 1000000 }
    exact absurd (hlast.replaced (.register 1 "a" full 1000000) (by decide +kernel)).1 (by decide +kernel)
  · have hlast := under_iff_forall_concat.mp h ([.register 1 "a" (some 0) []] ++ advances 0 3) (.advance 0)
      List.prefix_rfl
    obtain ⟨fn, written, hstage⟩ := hlast.writes 0 { pid := 1, request := .register "a" 0, stage := .parse .malformed }
      .malformed "a" 0 rfl (by decide +kernel) rfl rfl
    have hdropped : ((run (World.step pair) (start .malformed none 1000000)
        ([.register 1 "a" (some 0) []] ++ advances 0 3 ++ [.advance 0])).calls[0]?).map Call.stage =
          some .unlinkLock := by decide +kernel
    rw [run_concat, hstage] at hdropped
    cases hdropped

end WrongStack.SessionRegistry

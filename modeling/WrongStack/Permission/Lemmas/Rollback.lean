import WrongStack.Permission.Lemmas.Answers

/-!
# A cache that tells nothing new

As long as calls under one key are alike to the rules, what the cache answers is what the policy would
answer without it. Said of two states, the cache of the one against the rules of the other.
-/

namespace WrongStack.Permission

open Lib Utils State

/-! ## Evaluation without the cache -/

/-- What `evaluate` answers when it finds nothing in the cache. -/
def State.freshDecision (s : State) (c : Call) : PermissionDecision :=
  if s.sessionDenied.has c.cacheKey then
    { permission := .deny, source := .deny, reason := "session soft deny (user pressed no)" }
  else if s.sessionAllowed.has c.cacheKey then
    { permission := .auto, source := .trust, reason := "session one-shot allow (user pressed yes)" }
  else (s.verdict c).decision

/-- A decision that `s` has in its cache for one of the calls is the one that `t` makes now. -/
def Fresh (cs : List Call) (s t : State) : Prop :=
  ∀ c ∈ cs, ∀ d, s.hit c = some d →
    (t.sessionDenied.has c.cacheKey = true ∨ t.sessionAllowed.has c.cacheKey = false) ∧ d = t.freshDecision c

/-- Calls under one key differ in nothing that the rules look at. -/
def Uniform (cs : List Call) : Prop :=
  ∀ c ∈ cs, ∀ c' ∈ cs, c.cacheKey = c'.cacheKey →
    c.tool = c'.tool ∧ c.subject = c'.subject ∧ c.isDestructiveYoloCall = c'.isDestructiveYoloCall

/-- But for their caches the two policies treat the call alike. -/
structure Concur (c : Call) (s t : State) : Prop where
  denied : s.sessionDenied = t.sessionDenied
  allowed : s.sessionAllowed = t.sessionAllowed
  verdict : s.verdict c = t.verdict c

/-- What an evaluation leaves of the one-shot approvals. -/
def State.allowedAfter (s : State) (c : Call) : JsMap JsString Bool :=
  if s.sessionDenied.has c.cacheKey = false ∧ s.sessionAllowed.has c.cacheKey = true then
    s.sessionAllowed.delete c.cacheKey
  else s.sessionAllowed

variable {s t t' : State} {c c' : Call} {cs : List Call} {kind : RuleKind} {rule : Rule}

theorem allowedAfter_of_none
    (h : s.sessionDenied.has c.cacheKey = true ∨ s.sessionAllowed.has c.cacheKey = false) :
    s.allowedAfter c = s.sessionAllowed := by
  refine if_neg ?_
  rintro ⟨hdenied, hallowed⟩
  rw [hdenied, hallowed] at h
  rcases h with h | h <;> cases h

theorem Fresh.evaluate (hf : Fresh cs s t) (hc : c ∈ cs) (h : Concur c s t) :
    (s.evaluateLoaded c).1 = t.freshDecision c ∧ (s.evaluateLoaded c).2.sessionAllowed = t.allowedAfter c := by
  rw [evaluateLoaded_eq]
  cases hhit : s.hit c with
  | some d =>
      obtain ⟨hsession, hd⟩ := hf c hc d hhit
      rw [allowedAfter_of_none hsession]
      exact ⟨hd, h.allowed⟩
  | none =>
      unfold freshDecision allowedAfter
      simp only [h.denied, h.allowed, h.verdict]
      cases hdenied : t.sessionDenied.has c.cacheKey <;> cases hallowed : t.sessionAllowed.has c.cacheKey <;>
        exact ⟨rfl, rfl⟩

theorem verdict_uniform {d : PermissionDecision} (h : s.verdict c = ⟨d, true⟩) (hname : c'.tool.name ≠ js "write")
    (htool : c.tool = c'.tool) (hsubject : c.subject = c'.subject)
    (hdestructive : c.isDestructiveYoloCall = c'.isDestructiveYoloCall) : (s.verdict c').decision = d := by
  have hmutating : c.isMutating = c'.isMutating := by simp only [Call.isMutating, htool]
  have hsame : s.verdict c' = s.verdict c := by
    simp only [State.verdict, applyRules, htool, hsubject, hdestructive, hmutating, hname, decide_false,
      Bool.false_and]
  rw [hsame, h]

theorem hit_some {d : PermissionDecision} (h : s.hit c = some d) :
    c.tool.name ≠ js "write" ∧ s.evalCache.store.get? c.cacheKey = some d := by
  unfold hit at h
  split at h
  · cases h
  · exact ⟨‹_›, h⟩

theorem hit_of_get? {d : PermissionDecision} (hname : c.tool.name ≠ js "write")
    (h : s.evalCache.store.get? c.cacheKey = some d) : s.hit c = some d := by
  rw [hit, if_neg hname, h]

theorem Fresh.of_empty (h : ∀ k, s.evalCache.store.get? k = none) : Fresh cs s t := by
  intro c _ d hd
  have hget := (hit_some hd).2
  rw [h] at hget
  cases hget

/-- `Fresh` looks at the cache of the one and at the rules of the other. -/
theorem Fresh.extend {s' : State} {P : PermissionDecision → Prop} (hf : Fresh cs s t) (hrules : t'.rules = t.rules)
    (hallowed : t'.sessionAllowed = t.sessionAllowed)
    (hcache : ∀ k v, s'.evalCache.store.get? k = some v →
      (c.cacheKey = k ∧ P v) ∨ s.evalCache.store.get? k = some v)
    (hnew : ∀ c' ∈ cs, c.cacheKey = c'.cacheKey → c'.tool.name ≠ js "write" → ∀ v, P v →
      (t.sessionDenied.has c'.cacheKey = true ∨ t.sessionAllowed.has c'.cacheKey = false) ∧
        v = t.freshDecision c') : Fresh cs s' t' := by
  have hdenied : t'.sessionDenied = t.sessionDenied := congrArg (·.2.2.2) hrules
  intro c' hc' v hv
  obtain ⟨hname, hget⟩ := hit_some hv
  have hfresh : (t.sessionDenied.has c'.cacheKey = true ∨ t.sessionAllowed.has c'.cacheKey = false) ∧
      v = t.freshDecision c' := by
    rcases hcache _ v hget with ⟨hkey, hp⟩ | hold
    · exact hnew c' hc' hkey hname v hp
    · exact hf c' hc' v (hit_of_get? hname hold)
  unfold freshDecision at hfresh ⊢
  rwa [hdenied, hallowed, verdict_congr hrules]

theorem Fresh.congr {s' : State} (hf : Fresh cs s t) (hrules : t'.rules = t.rules)
    (hallowed : t'.sessionAllowed = t.sessionAllowed)
    (hcache : ∀ k v, s'.evalCache.store.get? k = some v → s.evalCache.store.get? k = some v) : Fresh cs s' t' := by
  intro c hc
  exact hf.extend (c := c) (P := fun _ => False) hrules hallowed (fun k v hv => .inr (hcache k v hv))
    (fun _ _ _ _ _ hv => hv.elim) c hc

/-- The cache stays fresh when a call is evaluated in both. -/
theorem Fresh.evaluated (hf : Fresh cs s t) (hu : Uniform cs) (hc : c ∈ cs) (h : Concur c s t)
    (hrules : t'.rules = t.rules) (hallowed' : t'.sessionAllowed = t.allowedAfter c) :
    Fresh cs (s.evaluateLoaded c).2 t' := by
  have hdecision := (hf.evaluate hc h).1
  have he := evaluation s c
  generalize (s.evaluateLoaded c).1 = d at he hdecision
  generalize (s.evaluateLoaded c).2 = s' at he
  cases he with
  | hit hhit hcache =>
      rw [allowedAfter_of_none (hf c hc _ hhit).1] at hallowed'
      exact hf.congr hrules hallowed' fun k v hv => (hcache k).symm.trans hv
  | denied _ hdenied _ hcache =>
      rw [h.denied] at hdenied
      rw [allowedAfter_of_none (.inl hdenied)] at hallowed'
      refine hf.extend hrules hallowed' hcache fun c' _ hkey _ v hv => ?_
      have hdenied' : t.sessionDenied.has c'.cacheKey = true := hkey ▸ hdenied
      refine ⟨.inl hdenied', ?_⟩
      rw [← hv, hdecision, freshDecision, freshDecision, if_pos hdenied, if_pos hdenied']
  | allowed _ hdenied hallowed _ hcache =>
      rw [h.denied] at hdenied
      rw [h.allowed] at hallowed
      have hdenied' : t'.sessionDenied = t.sessionDenied := congrArg (·.2.2.2) hrules
      rw [State.allowedAfter, if_pos ⟨hdenied, hallowed⟩] at hallowed'
      intro c' hc' v hv
      obtain ⟨hname, hv⟩ := hit_some hv
      rw [hcache] at hv
      obtain ⟨hsession, hv⟩ := hf c' hc' v (hit_of_get? hname hv)
      have hne : c.cacheKey ≠ c'.cacheKey := by
        intro hkey
        rw [← hkey, hdenied, hallowed] at hsession
        rcases hsession with h | h <;> cases h
      have hhas : t'.sessionAllowed.has c'.cacheKey = t.sessionAllowed.has c'.cacheKey := by
        rw [hallowed', JsMap.has, JsMap.has, JsMap.get?_delete, if_neg hne]
      unfold freshDecision at hv ⊢
      rw [hdenied', hhas, verdict_congr hrules]
      exact ⟨hsession, hv⟩
  | ruled _ hdenied hallowed hcache =>
      rw [h.denied] at hdenied
      rw [h.allowed] at hallowed
      rw [allowedAfter_of_none (.inr hallowed)] at hallowed'
      refine hf.extend hrules hallowed' hcache fun c' hc' hkey hname v hv => ?_
      obtain ⟨htool, hsubject, hdestructive⟩ := hu c hc c' hc' hkey
      rw [h.verdict] at hv
      rw [hkey] at hdenied hallowed
      refine ⟨.inr hallowed, ?_⟩
      rw [freshDecision, if_neg (by simp [hdenied]), if_neg (by simp [hallowed])]
      exact (verdict_uniform hv hname htool hsubject hdestructive).symm

/-! ## Any reachable policy -/

def Op.calls : Op → List Call
  | .evaluate c => [c]
  | _ => []

theorem Fresh.step (hf : Fresh cs s s) (hu : Uniform cs) {o : Op} (hcalls : ∀ c ∈ o.calls, c ∈ cs) :
    Fresh cs (step s o) (step s o) := by
  have hloaded : Fresh cs s.ensureLoaded s.ensureLoaded := by
    unfold ensureLoaded
    split
    · exact hf
    · exact Fresh.of_empty fun _ => rfl
  cases o with
  | evaluate c =>
      have hc := hcalls c (List.mem_singleton.mpr rfl)
      obtain ⟨-, -, -, hrules⟩ := evaluateLoaded_frame s.ensureLoaded c
      exact hloaded.evaluated hu hc ⟨rfl, rfl, rfl⟩ hrules (hloaded.evaluate hc ⟨rfl, rfl, rfl⟩).2
  | trust r written =>
      refine Fresh.of_empty fun k => ?_
      change (s.change .trust r written).evalCache.store.get? k = none
      rw [change_ensureLoaded, (changed_change (ensureLoaded_loaded s) .trust r written).cache]
      rfl
  | deny r written =>
      refine Fresh.of_empty fun k => ?_
      change (s.change .deny r written).evalCache.store.get? k = none
      rw [change_ensureLoaded, (changed_change (ensureLoaded_loaded s) .deny r written).cache]
      rfl
  | allowOnce r => exact Fresh.of_empty fun _ => rfl
  | denyOnce r => exact Fresh.of_empty fun _ => rfl
  | setYolo enabled =>
      simp only [Permission.step, setYolo]
      split
      · exact Fresh.of_empty fun _ => rfl
      · rename_i hsame
        have hyolo : s.yolo = enabled := not_not.mp hsame
        subst hyolo
        exact hf.congr rfl rfl fun _ _ hv => hv
  | setYoloDestructive enabled =>
      simp only [Permission.step, setYoloDestructive]
      split
      · exact Fresh.of_empty fun _ => rfl
      · exact hf.congr rfl rfl fun _ _ hv => hv
  | reload => exact Fresh.of_empty fun _ => rfl
  | edit file => exact hf.congr rfl rfl fun _ _ hv => hv

theorem fresh_run {os : List Op} (hf : Fresh cs s s) (hu : Uniform cs)
    (hcalls : ∀ c ∈ os.flatMap Op.calls, c ∈ cs) : Fresh cs (run step s os) (run step s os) := by
  induction os generalizing s with
  | nil => exact hf
  | cons o os ih =>
      simp only [List.flatMap_cons, List.mem_append] at hcalls
      exact ih (hf.step hu fun c hc => hcalls c (.inl hc)) fun c hc => hcalls c (.inr hc)

end WrongStack.Permission

/-!
# A write that fails

Two runs side by side: in one a call of `trust` or `deny` fails, in the other it was never made. While the
write is under way the first policy has the pattern on top (`Pending`), afterwards the two look alike to
every evaluation (`Alike`).
-/

namespace WrongStack.Permission

open Lib Utils State

variable {s t t' : State} {c c' : Call} {cs : List Call} {kind : RuleKind} {rule : Rule}

/-! ## Two runs -/

/-- But for what `P` says of the policies and `F` of the trust files, the two states answer alike. -/
structure Beside (P : TrustPolicy → TrustPolicy → Prop) (F : TrustFile → TrustFile → Prop) (cs : List Call)
    (s t : State) : Prop where
  loaded : s.loaded = true
  loaded' : t.loaded = true
  yolo : s.yolo = t.yolo
  destructive : s.yoloDestructive = t.yoloDestructive
  denied : s.sessionDenied = t.sessionDenied
  allowed : s.sessionAllowed = t.sessionAllowed
  wildcards : s.wildcardEntries = t.wildcardEntries
  policy : P s.policy t.policy
  file : F s.trustFile t.trustFile
  fresh : Fresh cs s t
  fresh' : Fresh cs t t

variable {P : TrustPolicy → TrustPolicy → Prop} {F : TrustFile → TrustFile → Prop}

theorem Beside.concur (h : Beside P F cs s t) (hv : s.verdict c = t.verdict c) : Concur c s t :=
  ⟨h.denied, h.allowed, hv⟩

theorem Beside.decision (h : Beside P F cs s t) (hc : c ∈ cs) (hv : s.verdict c = t.verdict c) :
    (s.evaluate c).1 = (t.evaluate c).1 := by
  rw [evaluate_of_loaded h.loaded, evaluate_of_loaded h.loaded', (h.fresh.evaluate hc (h.concur hv)).1,
    (h.fresh'.evaluate hc ⟨rfl, rfl, rfl⟩).1]

theorem Beside.evaluate (h : Beside P F cs s t) (hu : Uniform cs) (hc : c ∈ cs)
    (hv : s.verdict c = t.verdict c) : Beside P F cs (s.evaluate c).2 (t.evaluate c).2 := by
  rw [evaluate_of_loaded h.loaded, evaluate_of_loaded h.loaded']
  obtain ⟨hpolicy, hfile, hloaded, hrules⟩ := evaluateLoaded_frame s c
  obtain ⟨hpolicy', hfile', hloaded', hrules'⟩ := evaluateLoaded_frame t c
  have hallowed := (h.fresh.evaluate hc (h.concur hv)).2
  have hallowed' := (h.fresh'.evaluate hc ⟨rfl, rfl, rfl⟩).2
  have hfresh := h.fresh.evaluated hu hc (h.concur hv) hrules' hallowed'
  have hfresh' := h.fresh'.evaluated hu hc ⟨rfl, rfl, rfl⟩ hrules' hallowed'
  have hdestructive : ∀ s : State, (s.evaluateLoaded c).2.yoloDestructive = s.yoloDestructive := by
    intro s
    have he := evaluation s c
    generalize (s.evaluateLoaded c).1 = d at he
    generalize (s.evaluateLoaded c).2 = s' at he ⊢
    cases he <;> rfl
  simp only [rules, Prod.mk.injEq] at hrules hrules'
  refine ⟨hloaded.trans h.loaded, hloaded'.trans h.loaded', ?_, ?_, ?_, hallowed.trans hallowed'.symm, ?_, ?_, ?_,
    hfresh, hfresh'⟩
  · rw [hrules.2.1, hrules'.2.1, h.yolo]
  · rw [hdestructive, hdestructive, h.destructive]
  · rw [hrules.2.2.2, hrules'.2.2.2, h.denied]
  · rw [hrules.2.2.1, hrules'.2.2.1, h.wildcards]
  · rw [hpolicy, hpolicy']
    exact h.policy
  · rw [hfile, hfile']
    exact h.file

/-- The operations that leave the policy and the rules in it alone. -/
def Op.quiet : Op → Bool
  | .trust _ _ | .deny _ _ | .reload => false
  | _ => true

theorem Beside.quiet (h : Beside P F cs s t) (hF : ∀ f, F f f) (hu : Uniform cs) {o : Op} (hquiet : o.quiet = true)
    (hcalls : ∀ c ∈ o.calls, c ∈ cs ∧ s.verdict c = t.verdict c) : Beside P F cs (step s o) (step t o) := by
  have hempty : ∀ (s : State) (k : JsString), s.evalCache.clear.store.get? k = none := fun _ _ => rfl
  cases o with
  | evaluate c =>
      obtain ⟨hc, hv⟩ := hcalls c (List.mem_singleton.mpr rfl)
      exact h.evaluate hu hc hv
  | trust r written => cases hquiet
  | deny r written => cases hquiet
  | reload => cases hquiet
  | allowOnce r =>
      refine ⟨h.loaded, h.loaded', h.yolo, h.destructive, h.denied, ?_, h.wildcards, h.policy, h.file, ?_, ?_⟩
      · exact congrArg (·.set r.key true) h.allowed
      · exact Fresh.of_empty (hempty s)
      · exact Fresh.of_empty (hempty t)
  | denyOnce r =>
      refine ⟨h.loaded, h.loaded', h.yolo, h.destructive, ?_, h.allowed, h.wildcards, h.policy, h.file, ?_, ?_⟩
      · exact congrArg (·.set r.key true) h.denied
      · exact Fresh.of_empty (hempty s)
      · exact Fresh.of_empty (hempty t)
  | setYolo enabled =>
      refine ⟨h.loaded, h.loaded', rfl, h.destructive, h.denied, h.allowed, h.wildcards, h.policy, h.file, ?_, ?_⟩
      all_goals
        by_cases hsame : t.yolo = enabled
        · subst hsame
          simp only [step, setYolo, h.yolo, ne_eq, not_true_eq_false, ↓reduceIte]
          first
            | exact h.fresh.congr rfl rfl fun _ _ hv => hv
            | exact h.fresh'.congr rfl rfl fun _ _ hv => hv
        · refine Fresh.of_empty fun k => ?_
          simp only [step, setYolo, h.yolo, ne_eq, hsame, not_false_eq_true, ↓reduceIte]
          rfl
  | setYoloDestructive enabled =>
      refine ⟨h.loaded, h.loaded', h.yolo, rfl, h.denied, h.allowed, h.wildcards, h.policy, h.file, ?_, ?_⟩
      all_goals
        simp only [step, setYoloDestructive]
        split
        · exact Fresh.of_empty fun _ => rfl
        · first
            | exact h.fresh.congr rfl rfl fun _ _ hv => hv
            | exact h.fresh'.congr rfl rfl fun _ _ hv => hv
  | edit file =>
      exact ⟨h.loaded, h.loaded', h.yolo, h.destructive, h.denied, h.allowed, h.wildcards, h.policy, hF file,
        h.fresh.congr rfl rfl fun _ _ hv => hv, h.fresh'.congr rfl rfl fun _ _ hv => hv⟩

/-! ## Policies side by side -/

/-- The rules of the two entries say the same about the call. -/
structure SameFor (c : Call) (x y : Option TrustEntry) : Prop where
  auto : x.any TrustEntry.auto = y.any TrustEntry.auto
  rules : ∀ kind : RuleKind, ruleMatches (x.bind kind.patterns) c.subject = ruleMatches (y.bind kind.patterns) c.subject

theorem SameFor.refl (x : Option TrustEntry) : SameFor c x x := ⟨rfl, fun _ => rfl⟩

theorem SameFor.applyRules {x y : Option TrustEntry} (h : SameFor c x y) (yolo : Bool) :
    applyRules x yolo c = applyRules y yolo c := by
  have hdeny : ruleMatches (x.bind TrustEntry.deny) c.subject = ruleMatches (y.bind TrustEntry.deny) c.subject :=
    h.rules .deny
  have hallow : ruleMatches (x.bind TrustEntry.allow) c.subject = ruleMatches (y.bind TrustEntry.allow) c.subject :=
    h.rules .trust
  simp only [Permission.applyRules, hdeny, hallow, h.auto]

/-- The tool has an entry of its own, or no wildcard entry stands in for it. -/
def Unshadowed (tool : JsString) (s : State) : Op → Prop
  | .evaluate c => c.tool.name = tool → s.policy.has tool = false → s.findNamespaceEntry tool = none
  | _ => True

theorem entryFor_sameFor {name : JsString} (hw : s.wildcardEntries = t.wildcardEntries)
    (hsame : ∀ k, k = name ∨ (k ∈ t.wildcardEntries ∧ matchGlob k name = true) →
      SameFor c (s.policy.get? k) (t.policy.get? k))
    (hkept : t.policy.has name = true → s.policy.has name = true)
    (hadded : s.policy.has name = true → t.policy.has name = false → t.findNamespaceEntry name = none) :
    SameFor c (s.entryFor name) (t.entryFor name) := by
  have hown := hsame name (.inl rfl)
  unfold entryFor
  cases ht : t.policy.get? name with
  | some e =>
      obtain ⟨e', hs⟩ := JsMap.has_iff.mp (hkept (JsMap.has_iff.mpr ⟨e, ht⟩))
      rw [hs, ht] at hown
      rw [hs]
      exact hown
  | none =>
      cases hs : s.policy.get? name with
      | some e =>
          have hnone := hadded (JsMap.has_iff.mpr ⟨e, hs⟩) (JsMap.has_eq_false.mpr ht)
          rw [hs, ht] at hown
          rw [hnone]
          exact hown
      | none =>
          change SameFor c (s.findNamespaceEntry name) (t.findNamespaceEntry name)
          unfold findNamespaceEntry
          rw [hw]
          cases hfind : t.wildcardEntries.find? fun pattern => matchGlob pattern name with
          | none => exact SameFor.refl none
          | some k => exact hsame k (.inr ⟨List.mem_of_find?_eq_some hfind, by simpa using List.find?_some hfind⟩)

/-- The same rules, in whatever order and number. -/
structure EntryLike (e e' : TrustEntry) : Prop where
  auto : e.auto = e'.auto
  patterns : ∀ (kind : RuleKind) x, x ∈ (kind.patterns e).getD [] ↔ x ∈ (kind.patterns e').getD []

theorem EntryLike.refl (e : TrustEntry) : EntryLike e e := ⟨rfl, fun _ _ => Iff.rfl⟩

theorem ruleMatches_iff {patterns : Option (List JsString)} {subject : Option JsString} :
    ruleMatches patterns subject = true ↔
      ∃ x ∈ patterns.getD [], ∃ s, truthyString subject = some s ∧ (x = s ∨ matchGlob x s = true) := by
  unfold ruleMatches
  cases patterns with
  | none => simp
  | some ps =>
      cases hs : truthyString subject with
      | none => simp
      | some s =>
          simp only [matchesTrust, matchAny, Bool.or_eq_true, List.contains_iff_mem, List.any_eq_true,
            Option.getD_some, Option.some.injEq, exists_eq_left']
          constructor
          · rintro (hmem | ⟨x, hx, hmatch⟩)
            · exact ⟨s, hmem, .inl rfl⟩
            · exact ⟨x, hx, .inr hmatch⟩
          · rintro ⟨x, hx, rfl | hmatch⟩
            · exact .inl hx
            · exact .inr ⟨x, hx, hmatch⟩

theorem ruleMatches_bind (kind : RuleKind) (x : Option TrustEntry) (subject : Option JsString) :
    ruleMatches (x.bind kind.patterns) subject = ruleMatches (kind.patterns (x.getD {})) subject := by
  cases x with
  | none => cases kind <;> rfl
  | some e => rfl

theorem any_auto (x : Option TrustEntry) : x.any TrustEntry.auto = (x.getD {}).auto := by
  cases x <;> rfl

theorem EntryLike.sameFor {x y : Option TrustEntry} (h : EntryLike (x.getD {}) (y.getD {})) (c : Call) :
    SameFor c x y := by
  refine ⟨by rw [any_auto, any_auto, h.auto], fun kind => ?_⟩
  rw [ruleMatches_bind, ruleMatches_bind, Bool.eq_iff_iff, ruleMatches_iff, ruleMatches_iff]
  simp only [h.patterns kind]

def isWildcard (tool : JsString) : Bool := tool.contains (unit '*')

/-- The policies agree, but the first may have an empty entry for the tool where the second has none. -/
structure PolicyLike (tool : JsString) (p q : TrustPolicy) : Prop where
  entries : ∀ k, EntryLike ((p.get? k).getD {}) ((q.get? k).getD {})
  kept : ∀ k, q.has k = true → p.has k = true
  added : ∀ k, p.has k = true → q.has k = true ∨ (k = tool ∧ isWildcard tool = false)
  wildcards : p.keys.filter isWildcard = q.keys.filter isWildcard

theorem PolicyLike.refl (tool : JsString) (p : TrustPolicy) : PolicyLike tool p p :=
  ⟨fun _ => EntryLike.refl _, fun _ h => h, fun _ h => .inl h, rfl⟩

inductive FileLike (tool : JsString) : TrustFile → TrustFile → Prop
  | unreadable : FileLike tool .unreadable .unreadable
  | unusable : FileLike tool .unusable .unusable
  | parsed {p q : TrustPolicy} : PolicyLike tool p q → FileLike tool (.parsed p) (.parsed q)

theorem FileLike.refl (tool : JsString) (file : TrustFile) : FileLike tool file file := by
  cases file with
  | unreadable => exact .unreadable
  | unusable => exact .unusable
  | parsed p => exact .parsed (.refl tool p)

variable {tool : JsString}

theorem PolicyLike.verdict (h : PolicyLike tool s.policy t.policy) (hw : s.wildcardEntries = t.wildcardEntries)
    (hy : s.yolo = t.yolo) (hshadow : Unshadowed tool t (.evaluate c)) : s.verdict c = t.verdict c := by
  have hentry : SameFor c (s.entryFor c.tool.name) (t.entryFor c.tool.name) := by
    refine entryFor_sameFor hw (fun k _ => (h.entries k).sameFor c) (h.kept _) fun hs ht => ?_
    rcases h.added _ hs with hown | ⟨htool, -⟩
    · rw [hown] at ht
      cases ht
    · rw [htool] at ht ⊢
      exact hshadow htool ht
  rw [State.verdict, State.verdict, hy]
  exact hentry.applyRules t.yolo

/-- Two maps with the same entries but for one key have the same wildcards if both or neither have the key. -/
theorem wildcards_set {p q : TrustPolicy} (h : p.keys.filter isWildcard = q.keys.filter isWildcard)
    {k : JsString} (hk : (k ∈ p.keys ↔ k ∈ q.keys) ∨ isWildcard k = false) (e e' : TrustEntry) :
    (p.set k e).keys.filter isWildcard = (q.set k e').keys.filter isWildcard := by
  have hset : ∀ (p : TrustPolicy) e, (p.set k e).keys.filter isWildcard =
      if k ∈ p.keys then p.keys.filter isWildcard else p.keys.filter isWildcard ++ [k].filter isWildcard := by
    intro p e
    rw [JsMap.keys_set]
    split
    · rfl
    · exact List.filter_append ..
  rw [hset, hset, h]
  rcases hk with hiff | hplain
  · simp only [hiff]
  · simp only [List.filter_cons, hplain, Bool.false_eq_true, ↓reduceIte, List.filter_nil, List.append_nil, ite_self]

theorem PolicyLike.changed {k : RuleKind} {r : Rule} {written : Bool} {s' t' : State}
    (h : PolicyLike tool s.policy t.policy) (hs : Changed k r written s s') (ht : Changed k r written t t') :
    PolicyLike tool s'.policy t'.policy := by
  have hhas : ∀ {s s' : State} (x : JsString), Changed k r written s s' →
      s'.policy.has x = (decide (r.tool = x) || s.policy.has x) := by
    intro s s' x hc
    rw [JsMap.has, JsMap.has, hc.policy]
    by_cases hx : r.tool = x <;> simp [hx]
  refine ⟨fun x => ?_, fun x => ?_, fun x => ?_, ?_⟩
  · rw [hs.policy, ht.policy]
    by_cases hx : r.tool = x
    · rw [if_pos hx, if_pos hx]
      have hentry := h.entries x
      generalize (s.policy.get? x).getD {} = e at hentry ⊢
      generalize (t.policy.get? x).getD {} = e' at hentry ⊢
      refine ⟨by simpa using hentry.auto, fun kind y => ?_⟩
      by_cases hkind : k = kind
      · subst hkind
        simp only [Option.getD_some, RuleKind.patterns_put, mem_settled, hentry.patterns k y]
      · simp only [Option.getD_some, RuleKind.patterns_put_ne hkind, hentry.patterns kind y]
    · rw [if_neg hx, if_neg hx]
      exact h.entries x
  · rw [hhas x hs, hhas x ht, Bool.or_eq_true, Bool.or_eq_true]
    exact Or.imp_right (h.kept x)
  · rw [hhas x hs, hhas x ht, Bool.or_eq_true, Bool.or_eq_true, or_assoc]
    exact Or.imp_right (h.added x)
  · rw [hs.keys {}, ht.keys {}]
    refine wildcards_set h.wildcards ?_ _ _
    by_cases hp : s.policy.has r.tool = true
    · rcases h.added _ hp with hq | ⟨rfl, hplain⟩
      · exact .inl ⟨fun _ => JsMap.mem_keys_iff.mpr (JsMap.has_iff.mp hq),
          fun _ => JsMap.mem_keys_iff.mpr (JsMap.has_iff.mp hp)⟩
      · exact .inr hplain
    · refine .inl ⟨fun hmem => ?_, fun hmem => ?_⟩
      · exact absurd (JsMap.has_iff.mpr (JsMap.mem_keys_iff.mp hmem)) hp
      · exact absurd (h.kept _ (JsMap.has_iff.mpr (JsMap.mem_keys_iff.mp hmem))) hp

/-- The failed call is over, and the two states look alike to every evaluation. -/
abbrev Alike (tool : JsString) (cs : List Call) (s t : State) : Prop :=
  Beside (PolicyLike tool) (FileLike tool) cs s t

theorem Alike.changed {k : RuleKind} {r : Rule} {written : Bool} {s' t' : State} (h : Alike tool cs s t)
    (hs : Changed k r written s s') (ht : Changed k r written t t') : Alike tool cs s' t' := by
  have hpolicy := h.policy.changed hs ht
  refine ⟨hs.loaded, ht.loaded, ?_, ?_, ?_, ?_, ?_, hpolicy, ?_, ?_, ?_⟩
  · rw [hs.yolo, ht.yolo, h.yolo]
  · rw [hs.destructive, ht.destructive, h.destructive]
  · rw [hs.denied, ht.denied, h.denied]
  · rw [hs.allowed, ht.allowed, h.allowed]
  · rw [hs.wildcards, ht.wildcards, h.wildcards]
  · rw [hs.file, ht.file]
    cases written with
    | true => exact .parsed hpolicy
    | false => exact h.file
  · exact Fresh.of_empty fun k => by rw [hs.cache]; rfl
  · exact Fresh.of_empty fun k => by rw [ht.cache]; rfl

theorem Alike.reload (h : Alike tool cs s t) : Alike tool cs s.reload t.reload := by
  have hpolicy : PolicyLike tool s.reload.policy t.reload.policy := by
    have hfile := h.file
    simp only [State.reload]
    generalize s.trustFile = f at hfile ⊢
    generalize t.trustFile = g at hfile ⊢
    cases hfile with
    | unreadable => exact .refl tool _
    | unusable => exact h.policy
    | parsed hp => exact hp
  exact ⟨rfl, rfl, h.yolo, h.destructive, rfl, rfl, hpolicy.wildcards, hpolicy, h.file,
    Fresh.of_empty fun _ => rfl, Fresh.of_empty fun _ => rfl⟩

theorem Alike.step (h : Alike tool cs s t) (hu : Uniform cs) {o : Op} (hcalls : ∀ c ∈ o.calls, c ∈ cs)
    (hshadow : Unshadowed tool t o) : Alike tool cs (step s o) (step t o) := by
  cases o with
  | trust r written =>
      exact h.changed (changed_change h.loaded .trust r written) (changed_change h.loaded' .trust r written)
  | deny r written =>
      exact h.changed (changed_change h.loaded .deny r written) (changed_change h.loaded' .deny r written)
  | reload => exact h.reload
  | evaluate c =>
      exact h.evaluate hu (hcalls c (List.mem_singleton.mpr rfl)) (h.policy.verdict h.wildcards h.yolo hshadow)
  | _ => exact h.quiet (.refl tool) hu rfl fun _ hc => absurd hc List.not_mem_nil

theorem Alike.run {os : List Op} (h : Alike tool cs s t) (hu : Uniform cs)
    (hcalls : ∀ c ∈ os.flatMap Op.calls, c ∈ cs) (hshadow : Under Permission.step (Unshadowed tool) t os) :
    Alike tool cs (Lib.run Permission.step s os) (Lib.run Permission.step t os) := by
  induction os generalizing s t with
  | nil => exact h
  | cons o os ih =>
      simp only [List.flatMap_cons, List.mem_append] at hcalls
      exact ih (h.step hu (fun c hc => hcalls c (.inl hc)) hshadow.1) (fun c hc => hcalls c (.inr hc)) hshadow.2

/-! ## While the write is pending -/

/-- The entry of the tool with the pattern on top. -/
def pendingEntry (kind : RuleKind) (rule : Rule) (p : TrustPolicy) : TrustEntry :=
  kind.put (some (withPattern rule.pattern (kind.patterns ((p.get? rule.tool).getD {}))))
    ((p.get? rule.tool).getD {})

def PendingPolicy (kind : RuleKind) (rule : Rule) (p q : TrustPolicy) : Prop :=
  p = q.set rule.tool (pendingEntry kind rule q)

abbrev Pending (kind : RuleKind) (rule : Rule) (cs : List Call) (s t : State) : Prop :=
  Beside (PendingPolicy kind rule) Eq cs s t

/-- The operation leaves the policy alone, and the pattern has no say in what it evaluates. -/
def Aside (rule : Rule) (s : State) : Op → Prop
  | .evaluate c => ¬ (ruleMatches (some [rule.pattern]) c.subject = true ∧
      (c.tool.name = rule.tool ∨ (rule.tool ∈ s.wildcardEntries ∧ matchGlob rule.tool c.tool.name = true)))
  | o => o.quiet = true

theorem ruleMatches_withPattern {pattern : JsString} {ps : Option (List JsString)} {subject : Option JsString}
    (h : ruleMatches (some [pattern]) subject ≠ true) :
    ruleMatches (some (withPattern pattern ps)) subject = ruleMatches ps subject := by
  rw [ne_eq, ruleMatches_iff] at h
  rw [Bool.eq_iff_iff, ruleMatches_iff, ruleMatches_iff]
  constructor
  · rintro ⟨x, hx, hmatch⟩
    rcases mem_withPattern.mp hx with hold | rfl
    · exact ⟨x, hold, hmatch⟩
    · exact absurd ⟨x, List.mem_singleton.mpr rfl, hmatch⟩ h
  · rintro ⟨x, hx, hmatch⟩
    exact ⟨x, mem_withPattern.mpr (.inl hx), hmatch⟩

theorem Pending.verdict (h : Pending kind rule cs s t) (haside : Aside rule t (.evaluate c))
    (hshadow : Unshadowed rule.tool t (.evaluate c)) : s.verdict c = t.verdict c := by
  have hget : ∀ k, s.policy.get? k =
      if rule.tool = k then some (pendingEntry kind rule t.policy) else t.policy.get? k := by
    intro k
    rw [show s.policy = _ from h.policy, JsMap.get?_set]
  have hentry : SameFor c (s.entryFor c.tool.name) (t.entryFor c.tool.name) := by
    refine entryFor_sameFor h.wildcards (fun k hk => ?_) (fun hown => ?_) fun hs ht => ?_
    · rw [hget k]
      by_cases htool : rule.tool = k
      · have hmatch : ruleMatches (some [rule.pattern]) c.subject ≠ true := by
          intro hmatch
          refine haside ⟨hmatch, ?_⟩
          rw [htool]
          exact hk.imp_left Eq.symm
        rw [if_pos htool, ← htool]
        refine ⟨by simp only [any_auto, Option.getD_some, pendingEntry, RuleKind.put_auto], fun kind' => ?_⟩
        rw [ruleMatches_bind, ruleMatches_bind, Option.getD_some, pendingEntry]
        by_cases hkind : kind = kind'
        · subst hkind
          rw [RuleKind.patterns_put, ruleMatches_withPattern hmatch]
        · rw [RuleKind.patterns_put_ne hkind]
      · rw [if_neg htool]
        exact SameFor.refl _
    · rw [JsMap.has, hget]
      split
      · rfl
      · exact hown
    · by_cases htool : c.tool.name = rule.tool
      · rw [htool] at ht ⊢
        exact hshadow htool ht
      · rw [JsMap.has, hget, if_neg (Ne.symm htool)] at hs
        exact absurd (ht.symm.trans hs) (by decide)
  rw [State.verdict, State.verdict, h.yolo]
  exact hentry.applyRules t.yolo

theorem Pending.step (h : Pending kind rule cs s t) (hu : Uniform cs) {o : Op} (hcalls : ∀ c ∈ o.calls, c ∈ cs)
    (haside : Aside rule t o) (hshadow : Unshadowed rule.tool t o) :
    Pending kind rule cs (step s o) (step t o) := by
  cases o with
  | evaluate c =>
      exact h.evaluate hu (hcalls c (List.mem_singleton.mpr rfl)) (h.verdict haside hshadow)
  | trust _ _ => cases haside
  | deny _ _ => cases haside
  | reload => cases haside
  | _ => exact h.quiet (fun _ => rfl) hu rfl fun _ hc => absurd hc List.not_mem_nil

theorem Aside.frame {o : Op} (ho : Aside rule s o) (hl : s.loaded = true) :
    (Permission.step s o).policy = s.policy ∧ (Permission.step s o).wildcardEntries = s.wildcardEntries ∧
      (Permission.step s o).loaded = true := by
  cases o with
  | evaluate c =>
      obtain ⟨hpolicy, -, hloaded, hrules⟩ := evaluateLoaded_frame s c
      change (s.evaluate c).2.policy = _ ∧ (s.evaluate c).2.wildcardEntries = _ ∧ (s.evaluate c).2.loaded = true
      rw [evaluate_of_loaded hl]
      exact ⟨hpolicy, congrArg (·.2.2.1) hrules, hloaded.trans hl⟩
  | trust _ _ => cases ho
  | deny _ _ => cases ho
  | reload => cases ho
  | _ => exact ⟨rfl, rfl, hl⟩

theorem Aside.step {o o' : Op} (h : Aside rule s o') (ho : Aside rule s o) (hl : s.loaded = true) :
    Aside rule (step s o) o' := by
  cases o' with
  | evaluate c =>
      unfold Aside at h ⊢
      rwa [(ho.frame hl).2.1]
  | _ => exact h

theorem policy_run {os : List Op} (hl : s.loaded = true) (haside : ∀ o ∈ os, Aside rule s o) :
    (run step s os).policy = s.policy := by
  induction os generalizing s with
  | nil => rfl
  | cons o os ih =>
      have ho := haside o List.mem_cons_self
      obtain ⟨hpolicy, -, hloaded⟩ := ho.frame hl
      rw [run_cons, ih hloaded fun o' ho' => (haside o' (List.mem_cons_of_mem o ho')).step ho hl, hpolicy]

theorem Pending.run {os : List Op} (h : Pending kind rule cs s t) (hu : Uniform cs)
    (hcalls : ∀ c ∈ os.flatMap Op.calls, c ∈ cs) (haside : ∀ o ∈ os, Aside rule t o)
    (hshadow : Under Permission.step (Unshadowed rule.tool) t os) :
    Pending kind rule cs (Lib.run Permission.step s os) (Lib.run Permission.step t os) := by
  induction os generalizing s t with
  | nil => exact h
  | cons o os ih =>
      simp only [List.flatMap_cons, List.mem_append] at hcalls
      have ho := haside o List.mem_cons_self
      exact ih (h.step hu (fun c hc => hcalls c (.inl hc)) ho hshadow.1) (fun c hc => hcalls c (.inr hc))
        (fun o' ho' => (haside o' (List.mem_cons_of_mem o ho')).step ho h.loaded') hshadow.2

theorem pending_begin (hl : s.loaded = true) (hf : Fresh cs s s) (kind : RuleKind) (rule : Rule) :
    Pending kind rule cs (s.beginChange kind rule) s := by
  have hs : s.ensureLoaded = s := by rw [State.ensureLoaded, if_pos hl]
  have hbegin : s.beginChange kind rule =
      { s with policy := s.policy.set rule.tool (pendingEntry kind rule s.policy), evalCache := s.evalCache.clear } := by
    simp only [beginChange, hs, pendingEntry]
  rw [hbegin]
  exact ⟨hl, hl, rfl, rfl, rfl, rfl, rfl, rfl, rfl, Fresh.of_empty fun _ => rfl, hf⟩

/-- The write fails, and the pattern is taken out again. -/
theorem Pending.fail (h : Pending kind rule cs s t)
    (habsent : rule.pattern ∉ (kind.patterns ((t.policy.get? rule.tool).getD {})).getD [])
    (hown : t.policy.has rule.tool = true ∨ isWildcard rule.tool = false) :
    Alike rule.tool cs (s.failChange kind rule) t := by
  have hp : s.policy = t.policy.set rule.tool (pendingEntry kind rule t.policy) := h.policy
  have hget : ∀ k, (s.failChange kind rule).policy.get? k = if rule.tool = k then
      some (kind.put (withoutPattern rule.pattern (kind.patterns (pendingEntry kind rule t.policy)))
        (pendingEntry kind rule t.policy)) else t.policy.get? k := by
    intro k
    simp only [failChange, JsMap.get?_modify, hp, JsMap.get?_set]
    split <;> simp only [Option.map_some]
  refine ⟨h.loaded, h.loaded', h.yolo, h.destructive, h.denied, h.allowed, h.wildcards, ?_, ?_, ?_, h.fresh'⟩
  · refine ⟨fun k => ?_, fun k hk => ?_, fun k hk => ?_, ?_⟩
    · rw [hget]
      by_cases htool : rule.tool = k
      · rw [if_pos htool, ← htool, Option.getD_some]
        generalize he : (t.policy.get? rule.tool).getD {} = e at habsent ⊢
        have hpending : pendingEntry kind rule t.policy =
            kind.put (some (withPattern rule.pattern (kind.patterns e))) e := by rw [pendingEntry, he]
        rw [hpending]
        refine ⟨by simp, fun kind' x => ?_⟩
        by_cases hkind : kind = kind'
        · subst hkind
          have hmem := @mem_settled false rule.pattern x (kind.patterns e)
          simp only [RuleKind.patterns_put, withoutPattern, Option.map_some, Option.getD_some]
          rw [settled, if_neg Bool.false_ne_true] at hmem
          rw [hmem]
          split
          · rename_i hx
            subst hx
            exact ⟨fun h => (by cases h), fun h => absurd h habsent⟩
          · exact Iff.rfl
        · rw [RuleKind.patterns_put_ne hkind, RuleKind.patterns_put_ne hkind]
      · rw [if_neg htool]
        exact EntryLike.refl _
    · rw [JsMap.has, hget]
      split
      · rfl
      · exact hk
    · rw [JsMap.has, hget] at hk
      split at hk
      · rename_i htool
        subst htool
        exact hown.imp_right fun hplain => ⟨rfl, hplain⟩
      · exact .inl hk
    · have hkeys : (s.failChange kind rule).policy.keys = s.policy.keys := by rw [failChange, JsMap.keys_modify]
      rw [hkeys, hp, JsMap.keys_set]
      split
      · rfl
      · rename_i hnew
        rcases hown with hown | hplain
        · exact absurd (JsMap.mem_keys_iff.mpr (JsMap.has_iff.mp hown)) hnew
        · simp [List.filter_append, hplain]
  · rw [show (s.failChange kind rule).trustFile = t.trustFile from h.file]
    exact .refl _ _
  · exact h.fresh.congr rfl rfl fun _ _ hv => hv

end WrongStack.Permission

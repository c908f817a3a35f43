import WrongStack.Permission.Lemmas.Rollback
import WrongStack.Utils.Lemmas.Subjects

/-!
# The permission policy over whole runs

What the evaluation cache changes, and what deny rules guarantee.
-/

namespace WrongStack.Permission

open Lib Utils State

/-! ## The evaluation cache -/

/-- The call gets the permission it would get with the cache emptied. -/
def Transparent (s : State) (c : Call) : Prop :=
  (s.evaluate c).1.permission = ({ s with evalCache := s.evalCache.clear }.evaluate c).1.permission

/-- A destructive call under YOLO is approved only by taking a one-shot allow. -/
def DestructionGated (s : State) (c : Call) : Prop :=
  s.yolo = true → c.isDestructiveYoloCall = true → (s.evaluate c).1.permission = .auto →
    s.sessionAllowed.has c.cacheKey = true ∧ (s.evaluate c).2.sessionAllowed.has c.cacheKey = false

/-- A decision that the call finds in the cache was made for a call of the same tool with the same
subject, and it does not approve the call if that is destructive under YOLO. -/
def SharesDecision (sh : State × History) : Op → Prop
  | .evaluate c => ∀ d ∈ sh.1.hit c, sh.1.sessionDenied.has c.cacheKey = false →
      (∀ c' ∈ sh.2.origin c, c'.tool = c.tool ∧ c'.subject = c.subject) ∧
        ¬ (sh.1.yolo = true ∧ c.isDestructiveYoloCall = true ∧ d.permission = .auto)
  | _ => True

instance (sh : State × History) (op : Op) : Decidable (SharesDecision sh op) := by
  cases op <;> unfold SharesDecision <;> infer_instance

instance (s : State) (c : Call) : Decidable (Transparent s c) :=
  inferInstanceAs (Decidable (_ = _))

instance (s : State) (c : Call) : Decidable (DestructionGated s c) := by
  unfold DestructionGated
  infer_instance

theorem ensureLoaded_cleared (s : State) : { s with evalCache := s.evalCache.clear }.ensureLoaded =
    { s.ensureLoaded with evalCache := s.ensureLoaded.evalCache.clear } := by
  unfold ensureLoaded
  split
  · rfl
  · rfl

theorem permission_cleared (s : State) (c : Call) :
    ({ s with evalCache := s.evalCache.clear }.evaluate c).1.permission =
      s.ensureLoaded.freshPermission c := by
  have hmiss : { s.ensureLoaded with evalCache := s.ensureLoaded.evalCache.clear }.hit c = none := by
    unfold hit
    split <;> rfl
  have hverdict : { s.ensureLoaded with evalCache := s.ensureLoaded.evalCache.clear }.verdict c =
      s.ensureLoaded.verdict c := verdict_congr rfl c
  unfold evaluate
  rw [ensureLoaded_cleared, evaluateLoaded_of_miss hmiss]
  simp only [freshPermission, hverdict]

theorem CacheSound.hit_permission {s : State} {h : History} (hs : CacheSound s h) {c : Call}
    {d : PermissionDecision} (hd : s.hit c = some d) (hshare : SharesDecision (s, h) (.evaluate c)) :
    d.permission = s.freshPermission c := by
  have hw : c.tool.name ≠ js "write" := by
    intro hw
    simp [hit, hw] at hd
  have hget : s.evalCache.store.get? c.cacheKey = some d := by simpa [hit, hw] using hd
  rcases hs.origin _ d hget with ⟨hden, hp⟩ | ⟨hden, hall, c', hc', hv⟩
  · simp [freshPermission, hden, hp]
  · obtain ⟨hsame, hgate⟩ := hshare d hd hden
    obtain ⟨htool, hsubject⟩ := hsame c' hc'
    simp only [freshPermission, hden, hall, Bool.false_eq_true, ↓reduceIte]
    exact (verdict_shared hv htool hsubject hw hgate).symm

theorem SharesDecision.ensureLoaded {s : State} {h : History} {c : Call}
    (hshare : SharesDecision (s, h) (.evaluate c)) : SharesDecision (s.ensureLoaded, h) (.evaluate c) := by
  unfold State.ensureLoaded
  split
  · exact hshare
  · intro d hd
    have hmiss : s.reload.hit c = none := by
      unfold hit
      split <;> rfl
    simp [hmiss] at hd

theorem CacheSound.evaluate_transparent {s : State} {h : History} (hs : CacheSound s h) {c : Call}
    (hshare : SharesDecision (s, h) (.evaluate c)) : Transparent s c := by
  unfold Transparent
  rw [permission_cleared]
  unfold evaluate
  cases hd : s.ensureLoaded.hit c with
  | none => exact evaluateLoaded_of_miss hd
  | some d =>
      rw [evaluateLoaded_eq, hd]
      exact hs.ensureLoaded.hit_permission hd hshare.ensureLoaded

theorem CacheSound.evaluate_gated {s : State} {h : History} (hs : CacheSound s h) {c : Call}
    (hshare : SharesDecision (s, h) (.evaluate c)) : DestructionGated s c := by
  intro hy hdes hauto
  have hyolo : s.ensureLoaded.yolo = true := by
    unfold State.ensureLoaded
    split <;> exact hy
  have he := evaluation s.ensureLoaded c
  change (s.ensureLoaded.evaluateLoaded c).1.permission = .auto at hauto
  change _ ∧ (s.ensureLoaded.evaluateLoaded c).2.sessionAllowed.has c.cacheKey = false
  generalize (s.ensureLoaded.evaluateLoaded c).1 = d at he hauto
  generalize (s.ensureLoaded.evaluateLoaded c).2 = s' at he ⊢
  cases he with
  | hit hd _ =>
      have hfresh := hs.ensureLoaded.hit_permission hd hshare.ensureLoaded
      cases hden : s.ensureLoaded.sessionDenied.has c.cacheKey with
      | true => simp [freshPermission, hden, hauto] at hfresh
      | false => exact absurd ⟨hyolo, hdes, hauto⟩ (hshare.ensureLoaded d hd hden).2
  | denied _ _ hp _ => simp [hp] at hauto
  | allowed _ _ hall _ _ =>
      refine ⟨?_, JsMap.has_eq_false.mpr (by rw [JsMap.get?_delete, if_pos rfl])⟩
      -- a policy that was not loaded has lost its one-shot allows
      unfold State.ensureLoaded at hall
      split at hall
      · exact hall
      · cases hall
  | ruled _ _ _ _ => exact absurd hauto (verdict_destructive hyolo hdes)

/-- As long as no call finds a decision that was made for another tool or subject, or one that
approves it although it is destructive, the cache changes nothing. -/
theorem cache_transparent (opts : Options) (trustFile : TrustFile) (ops : List Op) (call : Call)
    (hu : Under tracedStep SharesDecision (init opts trustFile, []) (ops ++ [.evaluate call])) :
    Transparent (run step (init opts trustFile) ops) call ∧
      DestructionGated (run step (init opts trustFile) ops) call := by
  obtain ⟨-, hcall, -⟩ := (under_append _ _).mp hu
  have hs := run_invariant (I := fun sh : State × History => CacheSound sh.1 sh.2)
    (fun sh op h => h.tracedStep op) (s := (init opts trustFile, []))
    (cacheSound_init opts trustFile) ops
  rw [← tracedStep_run _ []]
  exact ⟨hs.evaluate_transparent hcall, hs.evaluate_gated hcall⟩

/-- The `exec` tool (`tools/src/exec.ts`), which names no subject. -/
def execTool : Tool where
  name := js "exec"
  permission := .confirm
  mutating := true
  riskTier := some .standard
  capabilities := ["shell.restricted"]

def execCall (command : String) (args : List String) : Call where
  tool := execTool
  input := .obj [(js "command", .str (js command)), (js "args", .arr (args.map fun a => .str (js a)))]
  ctx := { projectRoot := js "/repo", cwd := js "/repo" }

/-- Two harmless calls of `exec` share a decision. -/
theorem cache_transparent_git :
    Transparent (run step (init { yolo := true } .unreadable) [.evaluate (execCall "git" ["status"])])
        (execCall "git" ["log"]) ∧
      DestructionGated
        (run step (init { yolo := true } .unreadable) [.evaluate (execCall "git" ["status"])])
        (execCall "git" ["log"]) :=
  cache_transparent { yolo := true } .unreadable [.evaluate (execCall "git" ["status"])]
    (execCall "git" ["log"]) (by decide)

/-- After a harmless call a catastrophic one is approved under the same key. -/
theorem cache_transparent_rm :
    ¬ Transparent (run step (init { yolo := true } .unreadable) [.evaluate (execCall "ls" [])])
        (execCall "rm" ["-rf", "/"]) ∧
      ¬ DestructionGated
        (run step (init { yolo := true } .unreadable) [.evaluate (execCall "ls" [])])
        (execCall "rm" ["-rf", "/"]) := by
  decide

/-! ## Deny rules -/

/-- An entry of `p` under the name of the tool, or under a wildcard that matches it, has a deny
pattern for the subject of the call. -/
def SomeEntryDenies (p : TrustPolicy) (c : Call) : Prop :=
  ∃ key ∈ p.keys, (key = c.tool.name ∨ key.contains (unit '*') = true ∧ matchGlob key c.tool.name = true) ∧
    ∃ patterns ∈ (p.get? key).bind TrustEntry.deny, ∃ subject ∈ c.subject,
      matchesTrust patterns subject = true

def EveryEntryDenies (opts : Options) (p : TrustPolicy) (c : Call) : Prop :=
  SomeEntryDenies p c → ((init opts (.parsed p)).evaluate c).1.permission = .deny

/-- A call that a fresh policy denies because of a deny pattern is still denied after the grants. -/
def DenialLasts (opts : Options) (p : TrustPolicy) (c : Call) (gs : List Grant) : Prop :=
  ((init opts (.parsed p)).evaluate c).1.reason = some "matched deny pattern" →
    ((run step ((init opts (.parsed p)).evaluate c).2 (gs.map Grant.toOp)).evaluate c).1.permission =
      .deny

theorem fresh_evaluate (opts : Options) (p : TrustPolicy) (c : Call) :
    ((init opts (.parsed p)).evaluate c).1 = ((init opts (.parsed p)).ensureLoaded.verdict c).decision := by
  unfold evaluate
  rw [evaluateLoaded_eq, fresh_hit]
  rfl

theorem fresh_denies_iff (opts : Options) (p : TrustPolicy) (c : Call) :
    ((init opts (.parsed p)).evaluate c).1.permission = .deny ↔
      EffectiveDenies p c ∨ c.tool.permission = .deny := by
  rw [fresh_evaluate, verdict_deny_iff, fresh_entryFor]
  rfl

theorem fresh_granted (opts : Options) (p : TrustPolicy) (c : Call) :
    Granted p [] ((init opts (.parsed p)).evaluate c).2 := by
  have he := evaluation (init opts (.parsed p)).ensureLoaded c
  change Granted p [] ((init opts (.parsed p)).ensureLoaded.evaluateLoaded c).2
  generalize ((init opts (.parsed p)).ensureLoaded.evaluateLoaded c).1 = d at he
  generalize ((init opts (.parsed p)).ensureLoaded.evaluateLoaded c).2 = s' at he ⊢
  have hbase : ∀ evalCache, Granted p [] { (init opts (.parsed p)).ensureLoaded with evalCache } :=
    fun _ => ⟨rfl, rfl, fun _ => rfl, fun _ => rfl, fun _ => by simp [init, ensureLoaded, reload],
      fun _ => by simp [init, ensureLoaded, reload, JsMap.has]⟩
  cases he with
  | hit hd _ => exact hbase _
  | denied _ _ _ _ => exact hbase _
  | allowed _ _ hall _ _ => cases hall
  | ruled _ _ _ _ => exact hbase _

/-- What the first evaluation of a fresh policy leaves in the cache is its own decision. -/
theorem fresh_cached (opts : Options) (p : TrustPolicy) {c : Call} {d : PermissionDecision}
    (h : ((init opts (.parsed p)).evaluate c).2.hit c = some d) :
    (init opts (.parsed p)).ensureLoaded.verdict c = ⟨d, true⟩ := by
  have he := evaluation (init opts (.parsed p)).ensureLoaded c
  change ((init opts (.parsed p)).ensureLoaded.evaluateLoaded c).2.hit c = some d at h
  generalize ((init opts (.parsed p)).ensureLoaded.evaluateLoaded c).1 = d' at he
  generalize ((init opts (.parsed p)).ensureLoaded.evaluateLoaded c).2 = s' at he h
  cases he with
  | hit hd _ => simp [fresh_hit] at hd
  | denied _ hden _ _ => cases hden
  | allowed _ _ hall _ _ => cases hall
  | ruled _ _ _ hc =>
      simp only [hit] at h
      split at h
      · cases h
      · rcases hc _ _ h with ⟨-, hv⟩ | hv
        · exact hv
        · cases hv

/-- After the grants `gs` a call that was denied is denied unless one of them is a one-shot allow
for it, or makes the first own entry of a tool that is not denied by default. -/
theorem granted_denies_iff {opts : Options} {p : TrustPolicy} {c : Call} {gs : List Grant}
    (hdenies : EffectiveDenies p c) :
    ((run step ((init opts (.parsed p)).evaluate c).2 (gs.map Grant.toOp)).evaluate c).1.permission =
        .deny ↔
      (∀ g ∈ gs, ¬ g.Allows c) ∧
        (c.tool.permission = .deny ∨ p.has c.tool.name = true ∨ ∀ g ∈ gs, ¬ g.Enters c) := by
  have hgranted : Granted p gs (run step ((init opts (.parsed p)).evaluate c).2 (gs.map Grant.toOp)) := by
    have h : Granted p ([] ++ gs) _ := (fresh_granted opts p c).run
    rwa [List.nil_append] at h
  rw [evaluate_of_loaded hgranted.loaded]
  cases hhit : (run step ((init opts (.parsed p)).evaluate c).2 (gs.map Grant.toOp)).hit c with
  | some d =>
      -- a hit: there was no grant, and the cached decision is the first one
      have hnil : gs = [] := by
        by_contra hne
        simp [grants_hit (fresh_granted opts p c) hne c] at hhit
      subst hnil
      have hv := fresh_cached opts p hhit
      have hdeny := (verdict_deny_iff (s := (init opts (.parsed p)).ensureLoaded)).mpr (.inl hdenies)
      rw [hv] at hdeny
      rw [evaluateLoaded_eq, hhit]
      simpa using hdeny
  | none =>
      rw [evaluateLoaded_of_miss hhit, freshPermission]
      simp only [hgranted.noDenials, Bool.false_eq_true, ↓reduceIte]
      split
      · rename_i hall
        obtain ⟨g, hg, hallows⟩ := (hgranted.allowed c).mp hall
        simp only [reduceCtorEq, false_iff, not_and]
        exact fun hno => absurd hallows (hno g hg)
      · rename_i hall
        have hno : ∀ g ∈ gs, ¬ g.Allows c := fun g hg hallows =>
          hall ((hgranted.allowed c).mpr ⟨g, hg, hallows⟩)
        rw [verdict_deny_iff, hgranted.denies_iff hdenies]
        constructor
        · rintro (hkept | htool)
          · exact ⟨hno, .inr hkept⟩
          · exact ⟨hno, .inl htool⟩
        · rintro ⟨-, htool | hkept⟩
          · exact .inr htool
          · exact .inl hkept

/-- Deny is absolute exactly for the entry that `evaluate` looks at: the tool's own one, or else the
first wildcard that matches. -/
theorem deny_absolute (opts : Options) (p : TrustPolicy) (c : Call) (gs : List Grant) :
    EveryEntryDenies opts p c ∧ DenialLasts opts p c gs ↔
      (SomeEntryDenies p c → EffectiveDenies p c ∨ c.tool.permission = .deny) ∧
        (EffectiveDenies p c → (∀ g ∈ gs, ¬ g.Allows c) ∧
          (c.tool.permission = .deny ∨ p.has c.tool.name = true ∨ ∀ g ∈ gs, ¬ g.Enters c)) := by
  refine and_congr (imp_congr_right fun _ => fresh_denies_iff opts p c) ?_
  have hreason : ((init opts (.parsed p)).evaluate c).1.reason = some "matched deny pattern" ↔
      EffectiveDenies p c := by
    rw [fresh_evaluate, verdict_reason_iff, fresh_entryFor]
    rfl
  unfold DenialLasts
  rw [hreason]
  exact imp_congr_right fun hdenies => granted_denies_iff hdenies

/-- A wildcard that denies a subject, and an own entry that only allows another one. -/
def shadowedPolicy : TrustPolicy :=
  (JsMap.empty.set (js "mcp__*") { deny := some [js "prod"] }).set (js "mcp__db")
    { allow := some [js "test"] }

def shadowedCall : Call where
  tool := { name := js "mcp__db", permission := .confirm, mutating := true }
  input := .obj [(js "name", .str (js "prod"))]
  ctx := { projectRoot := js "/repo", cwd := js "/repo" }

/-- The tool's own entry hides the wildcard. -/
theorem deny_absolute_shadowed :
    ¬ ∀ (opts : Options) (p : TrustPolicy) (c : Call) (gs : List Grant),
      EveryEntryDenies opts p c ∧ DenialLasts opts p c gs := by
  intro h
  have hsome : SomeEntryDenies shadowedPolicy shadowedCall :=
    ⟨js "mcp__*", by decide, .inr (by decide), [js "prod"], by decide, js "prod", by decide, by decide⟩
  have hdenied := (h {} shadowedPolicy shadowedCall []).1 hsome
  revert hdenied
  decide

/-! ## Subjects as patterns -/

/-- The escaped command is too long for a pattern, or has nothing special in it, or has a class that does
not compile or holds no character. -/
def Inert (c : JsString) : Prop :=
  MAX_GLOB_PATTERN_LEN < (escapeGlobSubject c).length ∨ Literal c ∨ ∃ b, Opens c b ∧ b.Dead

theorem matchesTrust_escape {c d : JsString} :
    matchesTrust [escapeGlobSubject c] (escapeGlobSubject d) = true ↔
      c = d ∨ (escapeGlobSubject c).length ≤ MAX_GLOB_PATTERN_LEN ∧ Admits c (escapeGlobSubject d) := by
  simp only [matchesTrust, matchAny, List.any_cons, List.any_nil, Bool.or_false, Bool.or_eq_true,
    List.contains_iff_mem, List.mem_singleton, matchGlob_escape]
  exact or_congr_left ⟨fun h => (escape_injective h).symm, fun h => by rw [h]⟩

/-- A trusted command approves another one exactly if that is split along the first, its backslashes taken
for themselves. Only an inert command approves no other. -/
theorem trust_approves_one (c : JsString) :
    (∀ d, (matchesTrust [escapeGlobSubject c] (escapeGlobSubject d) = true → c = d) ↔
        c = d ∨ MAX_GLOB_PATTERN_LEN < (escapeGlobSubject c).length ∨ ¬ Admits c (escapeGlobSubject d)) ∧
      ((∀ d, matchesTrust [escapeGlobSubject c] (escapeGlobSubject d) = true → c = d) ↔ Inert c) := by
  refine ⟨fun d => ?_, fun h => ?_, ?_⟩
  · rw [matchesTrust_escape, or_imp, ← Nat.not_le]
    tauto
  · by_contra hinert
    unfold Inert at hinert
    push Not at hinert
    obtain ⟨hlen, hlit, hlive⟩ := hinert
    obtain ⟨d, hd, hne⟩ := exists_other hlive hlit
    exact hne (h d (matchesTrust_escape.mpr (.inr ⟨hlen, hd⟩)))
  · rintro hinert d hd
    rcases matchesTrust_escape.mp hd with rfl | ⟨hlen, hadmits⟩
    · rfl
    · rcases hinert with hlong | hlit | ⟨b, hb, hdead⟩
      · exact absurd hlen (Nat.not_le.mpr hlong)
      · exact (escape_injective (hadmits.of_literal hlit)).symm
      · exact absurd hdead (hadmits.not_dead hb)

/-- The star of a trusted command stands for anything without a slash behind a backslash. -/
theorem trust_approves_other :
    matchesTrust [escapeGlobSubject (js "ls *")] (escapeGlobSubject (js "ls \\; rm -rf ~")) = true ∧
      js "ls *" ≠ js "ls \\; rm -rf ~" := by
  decide +kernel

/-! ## Recorded answers -/

/-- Whatever the delegate would say, it is not asked, and the call gets the permission. -/
def Decides (s : State) (c : Call) (permission : PermissionKind) : Prop :=
  ∀ answer written, (s.evaluatePrompted c answer written).prompted = false ∧
    ∃ d, (s.evaluatePrompted c answer written).decision = some d ∧ d.permission = permission

theorem decides_of_evaluate {s : State} {c : Call} {permission : PermissionKind}
    (h : (s.evaluate c).1.permission = permission) (hsure : permission ≠ .confirm) :
    Decides s c permission := by
  intro answer written
  obtain ⟨hprompted, hdecision⟩ := @prompted_of_decided s c answer written (h ▸ hsure)
  exact ⟨hprompted, _, hdecision, h⟩

/-- A call with a subject that was denied for good is denied without a question from then on, and one that
was allowed for good is approved unless a deny rule matches, as long as nothing takes the answer back and
the calls under its key are for the same tool and subject. -/
theorem answers_stick (s : State) (c : Call) (ops : List PromptOp) (hsubject : truthyString c.subject ≠ none) :
    (s.ensureLoaded.sessionAllowed.has c.cacheKey = false → (∀ o ∈ ops, KeepsDenial c o) →
        ∀ c', c'.tool = c.tool → c'.input = c.input →
          Decides (run promptStep (s.deny c.rule true) ops) c' .deny) ∧
      (c.tool.permission ≠ .deny → s.ensureLoaded.sessionDenied.has c.cacheKey = false →
        (∀ o ∈ ops, KeepsTrust c o) → (run promptStep (s.trust c.rule true) ops).yolo = false →
        ¬ DenyMatches (run promptStep (s.trust c.rule true) ops) c →
        ∀ c', c'.tool = c.tool → c'.input = c.input →
          Decides (run promptStep (s.trust c.rule true) ops) c' .auto) := by
  constructor
  · intro hallowed hops c' htool hinput
    have hdenied : Denied c (run promptStep (s.deny c.rule true) ops) :=
      run_invariant_under (fun _ _ h ho => h.step hsubject ho) (denied_deny hallowed)
        (under_of_forall (D := KeepsDenial c) hops)
    exact decides_of_evaluate (hdenied.decision hsubject htool hinput) PermissionKind.noConfusion
  · intro hdefault hdenied hops hyolo hno c' htool hinput
    have htrusted : Trusted c (run promptStep (s.trust c.rule true) ops) :=
      run_invariant_under (fun _ _ h ho => h.step ho) (trusted_trust hdenied)
        (under_of_forall (D := KeepsTrust c) hops)
    exact decides_of_evaluate (htrusted.decision hsubject hyolo hdefault hno htool hinput)
      PermissionKind.noConfusion

def bashCall : Call where
  tool := { name := js "bash", permission := .confirm, mutating := true }
  input := .obj [(js "command", .str (js "make"))]
  ctx := { projectRoot := js "/repo", cwd := js "/repo" }

theorem answers_stick_bash :
    Decides (run promptStep ((init {} (.parsed .empty)).deny bashCall.rule true) [.call .reload]) bashCall .deny :=
  (answers_stick (init {} (.parsed .empty)) bashCall [.call .reload] (by decide)).1 (by decide)
    (fun o ho => by
      rw [List.mem_singleton.mp ho]
      exact trivial) bashCall rfl rfl

/-- A call without a subject: its rule is stored under the name of the tool, and never looked at. -/
def todoCall : Call where
  tool := { name := js "todo", permission := .auto, mutating := false }
  input := .obj []
  ctx := { projectRoot := js "/repo", cwd := js "/repo" }

theorem answers_without_subject :
    (((init {} (.parsed .empty)).deny todoCall.rule true).evaluate todoCall).1.permission = .auto := by
  decide

/-! ## Writes that fail -/

/-- A policy that any operations led to, on which `trust` or `deny` fails while the operations `mid` run.
The pattern is new, it has no say in what is evaluated while it is pending, and the entry that is made for a
tool without one stands in front of no wildcard entry. -/
structure RollsBack (kind : RuleKind) (rule : Rule) (before mid post : List Op) (c : Call) (s : State) : Prop where
  reachable : ∃ opts trustFile, s = run step (init opts trustFile) before
  /-- The call of `trust` or `deny` is not what loads the policy before other operations. -/
  loads : s.loaded = true ∨ ∃ c' os, mid ++ post ++ [.evaluate c] = .evaluate c' :: os
  absent : rule.pattern ∉ (kind.patterns ((s.ensureLoaded.policy.get? rule.tool).getD {})).getD []
  own : s.ensureLoaded.policy.has rule.tool = true ∨ isWildcard rule.tool = false
  aside : ∀ o ∈ mid, Aside rule s.ensureLoaded o
  uniform : Uniform ((before ++ (mid ++ post ++ [Op.evaluate c])).flatMap Op.calls)
  unshadowed : Under step (Unshadowed rule.tool) s.ensureLoaded (mid ++ post ++ [.evaluate c])

theorem evaluate_ensureLoaded (s : State) (c : Call) : s.ensureLoaded.evaluate c = s.evaluate c := by
  rw [evaluate_of_loaded (ensureLoaded_loaded s)]
  rfl

/-- It makes no difference whether the policy is loaded before the run or by its first evaluation. -/
theorem run_ensureLoaded {s : State} {os : List Op} {c : Call}
    (h : s.loaded = true ∨ ∃ c' os', os ++ [Op.evaluate c] = Op.evaluate c' :: os') :
    ((run step s.ensureLoaded os).evaluate c).1 = ((run step s os).evaluate c).1 := by
  rcases h with hl | ⟨c', os', hos⟩
  · rw [ensureLoaded, if_pos hl]
  · cases os with
    | nil => exact congrArg Prod.fst (evaluate_ensureLoaded s c)
    | cons o os =>
        obtain ⟨rfl, -⟩ := List.cons.inj hos
        rw [run_cons, run_cons]
        change ((run step (s.ensureLoaded.evaluate c').2 os).evaluate c).1 = _
        rw [evaluate_ensureLoaded]
        rfl

/-- From the point at which a call of `trust` or `deny` has failed, every call is answered as if it had
never been made. -/
theorem failed_write_rolls_back (kind : RuleKind) (rule : Rule) (before mid post : List Op) (c : Call) (s : State)
    (h : RollsBack kind rule before mid post c s) :
    ((run step ((run step (s.beginChange kind rule) mid).failChange kind rule) post).evaluate c).1 =
      ((run step s (mid ++ post)).evaluate c).1 := by
  obtain ⟨opts, trustFile, hs⟩ := h.reachable
  generalize hcs : (before ++ (mid ++ post ++ [Op.evaluate c])).flatMap Op.calls = cs
  have hu : Uniform cs := hcs ▸ h.uniform
  have hcalls : ∀ os, os <:+: before ++ (mid ++ post ++ [Op.evaluate c]) → ∀ c' ∈ os.flatMap Op.calls, c' ∈ cs := by
    intro os hos c' hc'
    obtain ⟨o, ho, hco⟩ := List.mem_flatMap.mp hc'
    exact hcs ▸ List.mem_flatMap.mpr ⟨o, hos.mem ho, hco⟩
  have hfresh : Fresh cs s s := by
    rw [hs]
    exact fresh_run (Fresh.of_empty fun _ => rfl) hu (hcalls before (List.prefix_append _ _).isInfix)
  have hfresh : Fresh cs s.ensureLoaded s.ensureLoaded := by
    unfold ensureLoaded
    split
    · exact hfresh
    · exact Fresh.of_empty fun _ => rfl
  obtain ⟨hshadow, hlast⟩ := (under_append _ _).mp h.unshadowed
  obtain ⟨hmid, hpost⟩ := (under_append _ _).mp hshadow
  have hbegin : s.beginChange kind rule = s.ensureLoaded.beginChange kind rule := by
    have hidem : s.ensureLoaded.ensureLoaded = s.ensureLoaded := by
      conv_lhs => rw [State.ensureLoaded, if_pos (ensureLoaded_loaded s)]
    simp only [beginChange, hidem]
  have hpending := (pending_begin (ensureLoaded_loaded s) hfresh kind rule).run hu
    (hcalls mid ⟨before, post ++ [.evaluate c], by simp⟩) h.aside hmid
  have hpolicy := policy_run (ensureLoaded_loaded s) h.aside
  have halike := (hpending.fail (hpolicy ▸ h.absent) (hpolicy ▸ h.own)).run hu
    (hcalls post ⟨before ++ mid, [.evaluate c], by simp⟩) hpost
  rw [← hbegin] at halike
  rw [← run_ensureLoaded h.loads, run_append]
  refine halike.decision ?_ (halike.policy.verdict halike.wildcards halike.yolo ?_)
  · exact hcalls [.evaluate c] ⟨before ++ (mid ++ post), [], by simp⟩ c (List.mem_singleton.mpr rfl)
  · rw [run_append] at hlast
    exact hlast.1

instance (tool : JsString) (s : State) (o : Op) : Decidable (Unshadowed tool s o) := by
  cases o <;> unfold Unshadowed <;> infer_instance

instance (rule : Rule) (s : State) (o : Op) : Decidable (Aside rule s o) := by
  cases o <;> unfold Aside <;> infer_instance

instance (cs : List Call) : Decidable (Uniform cs) := by
  unfold Uniform
  infer_instance

def lsCall : Call := { bashCall with input := .obj [(js "command", .str (js "ls"))] }

/-- `bash` may run `allowed`. -/
def bashTrust (allowed : List JsString) : TrustPolicy :=
  JsMap.empty.set (js "bash") { allow := some allowed }

theorem failed_write_rolls_back_bash :
    ((run step ((run step ((run step (init {} (.parsed (bashTrust [js "ls"]))) [.evaluate bashCall]).beginChange
        .trust bashCall.rule) [.evaluate lsCall]).failChange .trust bashCall.rule) []).evaluate bashCall).1 =
      ((run step (run step (init {} (.parsed (bashTrust [js "ls"]))) [.evaluate bashCall])
        ([.evaluate lsCall] ++ [])).evaluate bashCall).1 :=
  failed_write_rolls_back .trust bashCall.rule [.evaluate bashCall] [.evaluate lsCall] [] bashCall _
    ⟨⟨_, _, rfl⟩, .inl (by decide), by decide +kernel, by decide, by decide +kernel, by decide +kernel, by decide +kernel⟩

/-- An equal rule that was there before is gone when the write fails: `make` was approved, and is not now. -/
theorem failed_write_drops_rule :
    ((init {} (.parsed (bashTrust [js "make"]))).evaluate bashCall).1.permission = .auto ∧
      (((init {} (.parsed (bashTrust [js "make"]))).trust bashCall.rule false).evaluate bashCall).1.permission =
        .confirm := by
  decide +kernel

end WrongStack.Permission

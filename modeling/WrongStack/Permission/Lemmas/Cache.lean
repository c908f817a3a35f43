import WrongStack.Permission.Policy

/-!
# What is in the evaluation cache

The history of a run lists the calls that changed the cache since it was last cleared, the latest
first. A cached decision is a session deny, or what the rules say about the latest such call under
its key (`CacheSound`). Only the key ties a later call to that call.
-/

namespace WrongStack.Permission

open Lib Utils

namespace State

variable {s s' : State} {c c' : Call}

/-! ## One evaluation -/

/-- The decision that the cache holds for the call; `write` does not ask it. -/
def hit (s : State) (c : Call) : Option PermissionDecision :=
  if c.tool.name = js "write" then none else s.evalCache.store.get? c.cacheKey

/-- What the rules and the session maps read. -/
def rules (s : State) :=
  (s.policy, s.yolo, s.wildcardEntries, s.sessionDenied)

/-- The ways in which `evaluate` can end on a loaded policy. -/
inductive Evaluation (s : State) (c : Call) : PermissionDecision → State → Prop
  | hit {d evalCache} : s.hit c = some d →
      (∀ k, evalCache.store.get? k = s.evalCache.store.get? k) →
      Evaluation s c d { s with evalCache }
  | denied {d evalCache} : s.hit c = none → s.sessionDenied.has c.cacheKey = true →
      d.permission = .deny →
      (∀ k v, evalCache.store.get? k = some v →
        c.cacheKey = k ∧ d = v ∨ s.evalCache.store.get? k = some v) →
      Evaluation s c d { s with evalCache }
  | allowed {d evalCache} : s.hit c = none → s.sessionDenied.has c.cacheKey = false →
      s.sessionAllowed.has c.cacheKey = true → d.permission = .auto →
      (∀ k, evalCache.store.get? k = s.evalCache.store.get? k) →
      Evaluation s c d { s with evalCache, sessionAllowed := s.sessionAllowed.delete c.cacheKey }
  | ruled {evalCache} : s.hit c = none → s.sessionDenied.has c.cacheKey = false →
      s.sessionAllowed.has c.cacheKey = false →
      (∀ k v, evalCache.store.get? k = some v →
        c.cacheKey = k ∧ s.verdict c = ⟨v, true⟩ ∨ s.evalCache.store.get? k = some v) →
      Evaluation s c (s.verdict c).decision { s with evalCache }

theorem verdict_congr (h : s'.rules = s.rules) (c : Call) : s'.verdict c = s.verdict c := by
  simp only [rules, Prod.mk.injEq] at h
  obtain ⟨hp, hy, hw, -⟩ := h
  have hentry : s'.entryFor c.tool.name = s.entryFor c.tool.name := by
    simp only [entryFor, findNamespaceEntry, hp, hw]
  rw [verdict, verdict, hentry, hy]

/-- The cache as `evaluate` leaves it after asking it. -/
def asked (s : State) (c : Call) : LruCache JsString PermissionDecision :=
  if c.tool.name = js "write" then s.evalCache else (s.evalCache.get c.cacheKey).2

theorem asked_get? (s : State) (c : Call) (k : JsString) :
    (s.asked c).store.get? k = s.evalCache.store.get? k := by
  unfold asked
  split
  · rfl
  · exact LruCache.get_snd _ _ _

theorem evaluateLoaded_eq (s : State) (c : Call) : s.evaluateLoaded c =
    match s.hit c with
    | some decision => (decision, { s with evalCache := s.asked c })
    | none =>
        if s.sessionDenied.has c.cacheKey then
          let decision :=
            { permission := .deny, source := .deny
              reason := "session soft deny (user pressed no)" }
          (decision, { s with evalCache := (s.asked c).set c.cacheKey decision })
        else if s.sessionAllowed.has c.cacheKey then
          ({ permission := .auto, source := .trust
             reason := "session one-shot allow (user pressed yes)" },
            { s with
              evalCache := s.asked c
              sessionAllowed := s.sessionAllowed.delete c.cacheKey })
        else
          ((s.verdict c).decision,
            { s with
              evalCache :=
                if (s.verdict c).cached then
                  (s.asked c).set c.cacheKey (s.verdict c).decision
                else s.asked c }) := by
  by_cases hw : c.tool.name = js "write"
  · have hask : s.asked c = s.evalCache := by simp only [asked, hw, ↓reduceIte]
    have hhit : s.hit c = none := by simp only [hit, hw, ↓reduceIte]
    simp only [evaluateLoaded, hask, hhit, hw, ↓reduceIte]
    split
    · rfl
    · split
      · rfl
      · exact Prod.ext rfl (by split <;> rfl)
  · have hask : s.asked c = (s.evalCache.get c.cacheKey).2 := by simp only [asked, hw, ↓reduceIte]
    have hhit : s.hit c = (s.evalCache.get c.cacheKey).1 := by
      simp only [hit, hw, ↓reduceIte, LruCache.get_fst]
    have hverdict : { s with evalCache := (s.evalCache.get c.cacheKey).2 }.verdict c = s.verdict c :=
      verdict_congr rfl c
    simp only [evaluateLoaded, hask, hhit, hw, ↓reduceIte]
    cases (s.evalCache.get c.cacheKey).1 with
    | some d => rfl
    | none =>
        simp only [hverdict]
        split
        · rfl
        · split
          · rfl
          · exact Prod.ext rfl (by split <;> rfl)

theorem evaluation (s : State) (c : Call) :
    Evaluation s c (s.evaluateLoaded c).1 (s.evaluateLoaded c).2 := by
  rw [evaluateLoaded_eq]
  have hset : ∀ (d : PermissionDecision) k v, ((s.asked c).set c.cacheKey d).store.get? k = some v →
      c.cacheKey = k ∧ d = v ∨ s.evalCache.store.get? k = some v := by
    intro d k v hv
    rw [← asked_get? s c k]
    exact LruCache.set_some hv
  cases hh : s.hit c with
  | some d => exact .hit hh (asked_get? s c)
  | none =>
      cases hden : s.sessionDenied.has c.cacheKey with
      | true =>
          simp only [↓reduceIte]
          exact .denied hh hden rfl (hset _)
      | false =>
          cases hall : s.sessionAllowed.has c.cacheKey with
          | true =>
              simp only [Bool.false_eq_true, ↓reduceIte]
              exact .allowed hh hden hall rfl (asked_get? s c)
          | false =>
              simp only [Bool.false_eq_true, ↓reduceIte]
              refine .ruled hh hden hall fun k v hv => ?_
              split at hv
              · rename_i hcached
                rcases hset _ k v hv with ⟨hk, rfl⟩ | hv
                · exact .inl ⟨hk, by rw [← hcached]⟩
                · exact .inr hv
              · exact .inr (asked_get? s c k ▸ hv)

/-! ## Two calls under one key -/

/-- A decision of the rules that went into the cache is the one for any other call of the same tool
on the same subject, unless it approves one that is destructive under YOLO. -/
theorem verdict_shared {d : PermissionDecision} (h : s.verdict c' = ⟨d, true⟩)
    (htool : c'.tool = c.tool) (hsubject : c'.subject = c.subject) (hw : c.tool.name ≠ js "write")
    (hd : ¬ (s.yolo = true ∧ c.isDestructiveYoloCall = true ∧ d.permission = .auto)) :
    (s.verdict c).decision.permission = d.permission := by
  have hmut : c'.isMutating = c.isMutating := by simp only [Call.isMutating, htool]
  simp only [verdict, htool] at h ⊢
  generalize s.entryFor c.tool.name = entry at h ⊢
  simp only [applyRules, htool, hsubject, hmut, hw, decide_false, Bool.false_and, Bool.false_eq_true,
    ↓reduceIte] at h ⊢
  split at h
  · rename_i hdeny
    simp only [hdeny, ↓reduceIte]
    cases h
    rfl
  · rename_i hdeny
    simp only [hdeny, Bool.false_eq_true, ↓reduceIte]
    split at h
    · rename_i htd
      simp only [htd, ↓reduceIte]
      cases h
      rfl
    · rename_i htd
      simp only [htd, ↓reduceIte]
      -- from here on the decision is to approve
      split at h
      · cases h
      · have hauto : d.permission = .auto := by
          split_ifs at h <;> cases h <;> rfl
        have hgate : ¬ (s.yolo && c.isDestructiveYoloCall) = true := by
          simp only [Bool.and_eq_true, not_and]
          exact fun hy hdes => hd ⟨hy, hdes, hauto⟩
        simp only [hgate, Bool.false_eq_true, ↓reduceIte]
        split_ifs at h ⊢ <;> cases h <;> rfl

/-- The rules never approve a destructive call under YOLO. -/
theorem verdict_destructive (hy : s.yolo = true) (hd : c.isDestructiveYoloCall = true) :
    (s.verdict c).decision.permission ≠ .auto := by
  simp only [verdict, applyRules, hy, hd, Bool.and_self, ↓reduceIte]
  split_ifs <;> simp

end State

open State

/-! ## The history -/

abbrev History := List Call

def History.origin (h : History) (c : Call) : Option Call := h.find? (·.cacheKey == c.cacheKey)

def recordOp (s : State) (h : History) : Op → History
  | .evaluate call =>
      if (s.evaluate call).2.evalCache.store.get? call.cacheKey =
          s.ensureLoaded.evalCache.store.get? call.cacheKey then h
      else call :: h
  | .setYolo enabled => if s.yolo ≠ enabled then [] else h
  | .setYoloDestructive enabled => if s.yoloDestructive ≠ enabled then [] else h
  | .edit _ => h
  | .trust _ _ | .deny _ _ | .allowOnce _ | .denyOnce _ | .reload => []

def tracedStep (sh : State × History) (op : Op) : State × History :=
  (step sh.1 op, recordOp sh.1 sh.2 op)

theorem tracedStep_run (s : State) (h : History) (ops : List Op) :
    (run tracedStep (s, h) ops).1 = run step s ops := by
  induction ops generalizing s h with
  | nil => rfl
  | cons op ops ih => exact ih _ _

/-- Where the cached decisions come from. -/
structure CacheSound (s : State) (h : History) : Prop where
  unloaded : s.loaded = false → ∀ k, s.evalCache.store.get? k = none
  origin : ∀ k d, s.evalCache.store.get? k = some d →
    s.sessionDenied.has k = true ∧ d.permission = .deny ∨
      s.sessionDenied.has k = false ∧ s.sessionAllowed.has k = false ∧
        ∃ c, h.find? (·.cacheKey == k) = some c ∧ s.verdict c = ⟨d, true⟩

variable {s s' : State} {h h' : History}

theorem CacheSound.of_empty (hempty : ∀ k, s.evalCache.store.get? k = none) : CacheSound s h :=
  ⟨fun _ => hempty, fun k d hd => by rw [hempty] at hd; cases hd⟩

theorem cacheSound_init (opts : Options) (trustFile : TrustFile) : CacheSound (init opts trustFile) [] :=
  .of_empty fun _ => rfl

theorem CacheSound.ensureLoaded (hs : CacheSound s h) : CacheSound s.ensureLoaded h := by
  unfold State.ensureLoaded
  split
  · exact hs
  · exact .of_empty fun _ => rfl

theorem ensureLoaded_loaded (s : State) : s.ensureLoaded.loaded = true := by
  unfold State.ensureLoaded
  split
  · assumption
  · rfl

theorem CacheSound.keep (hs : CacheSound s h) (s' : State) {k : JsString} {v : PermissionDecision}
    (hv : s.evalCache.store.get? k = some v) (hrules : s'.rules = s.rules)
    (hallow : s.sessionAllowed.has k = false → s'.sessionAllowed.has k = false)
    (hh : h'.find? (·.cacheKey == k) = h.find? (·.cacheKey == k)) :
    s'.sessionDenied.has k = true ∧ v.permission = .deny ∨
      s'.sessionDenied.has k = false ∧ s'.sessionAllowed.has k = false ∧
        ∃ c, h'.find? (·.cacheKey == k) = some c ∧ s'.verdict c = ⟨v, true⟩ := by
  have hden : s'.sessionDenied = s.sessionDenied := congrArg (·.2.2.2) hrules
  rw [hden]
  refine (hs.origin k v hv).imp id fun ⟨h1, h2, c, hc, hr⟩ => ⟨h1, hallow h2, c, ?_, ?_⟩
  · rw [hh, hc]
  · rw [verdict_congr hrules, hr]

/-- The history gets the call exactly if the call changed what is under its key. -/
theorem CacheSound.evaluateLoaded (hs : CacheSound s h) (hl : s.loaded = true) (c : Call) :
    CacheSound (s.evaluateLoaded c).2
      (if (s.evaluateLoaded c).2.evalCache.store.get? c.cacheKey = s.evalCache.store.get? c.cacheKey
        then h else c :: h) := by
  have he := evaluation s c
  generalize (s.evaluateLoaded c).1 = d at he
  generalize (s.evaluateLoaded c).2 = s' at he
  have hother : ∀ {k}, ¬ c.cacheKey = k →
      (if s'.evalCache.store.get? c.cacheKey = s.evalCache.store.get? c.cacheKey then h
        else c :: h).find? (·.cacheKey == k) = h.find? (·.cacheKey == k) := by
    intro k hk
    split
    · rfl
    · simp [hk]
  cases he with
  | hit hh hc =>
      refine ⟨fun hf => absurd hf (by simp [hl]), fun k v hv => ?_⟩
      simp only [hc, ↓reduceIte] at hv ⊢
      exact hs.keep s hv rfl id rfl
  | denied hh hden hp hc =>
      refine ⟨fun hf => absurd hf (by simp [hl]), fun k v hv => ?_⟩
      by_cases hk : c.cacheKey = k
      · rcases hc k v hv with ⟨-, rfl⟩ | hv
        · exact .inl ⟨hk ▸ hden, hp⟩
        · rcases hs.origin k v hv with h1 | ⟨h1, -⟩
          · exact .inl h1
          · rw [← hk, hden] at h1
            cases h1
      · rcases hc k v hv with ⟨hk', -⟩ | hv
        · exact absurd hk' hk
        · exact hs.keep s hv rfl id (hother hk)
  | @allowed d evalCache hh hden hall hp hc =>
      refine ⟨fun hf => absurd hf (by simp [hl]), fun k v hv => ?_⟩
      simp only [hc, ↓reduceIte] at hv ⊢
      have hallow : s.sessionAllowed.has k = false →
          (s.sessionAllowed.delete c.cacheKey).has k = false := by
        intro hk
        rw [JsMap.has_eq_false] at hk ⊢
        rw [JsMap.get?_delete, hk, ite_self]
      exact hs.keep { s with evalCache, sessionAllowed := s.sessionAllowed.delete c.cacheKey } hv rfl
        hallow rfl
  | ruled hh hden hall hc =>
      refine ⟨fun hf => absurd hf (by simp [hl]), fun k v hv => ?_⟩
      by_cases hk : c.cacheKey = k
      · subst hk
        split
        · rename_i heq
          exact hs.keep s (heq ▸ hv) rfl id rfl
        · rename_i hne
          rcases hc _ v hv with ⟨-, hr⟩ | hv'
          · refine .inr ⟨hden, hall, c, by simp, ?_⟩
            rw [← hr]
            exact verdict_congr rfl c
          · exact absurd (hv.trans hv'.symm) hne
      · rcases hc k v hv with ⟨hk', -⟩ | hv
        · exact absurd hk' hk
        · exact hs.keep s hv rfl id (hother hk)

theorem CacheSound.tracedStep (hs : CacheSound s h) (op : Op) :
    CacheSound (tracedStep (s, h) op).1 (tracedStep (s, h) op).2 := by
  have hchange : ∀ tool change revert written,
      CacheSound (s.changeEntry tool change revert written) [] := by
    intro tool change revert written
    unfold changeEntry
    split <;> exact .of_empty fun _ => rfl
  cases op with
  | evaluate call => exact hs.ensureLoaded.evaluateLoaded (ensureLoaded_loaded s) call
  | trust rule written =>
      change CacheSound (s.trust rule written) []
      unfold State.trust
      exact hchange _ _ _ _
  | deny rule written =>
      change CacheSound (s.deny rule written) []
      unfold State.deny
      exact hchange _ _ _ _
  | allowOnce rule => exact .of_empty fun _ => rfl
  | denyOnce rule => exact .of_empty fun _ => rfl
  | setYolo enabled =>
      by_cases heq : s.yolo = enabled
      · simp only [Permission.tracedStep, step, setYolo, recordOp, heq, ne_eq, not_true_eq_false,
          ↓reduceIte]
        exact ⟨hs.unloaded, fun k d hd => hs.keep _ hd (by simp [rules, heq]) id rfl⟩
      · simp only [Permission.tracedStep, step, setYolo, recordOp, heq, ne_eq, not_false_eq_true,
          ↓reduceIte]
        exact .of_empty fun _ => rfl
  | setYoloDestructive enabled =>
      by_cases heq : s.yoloDestructive = enabled
      · simp only [Permission.tracedStep, step, setYoloDestructive, recordOp, heq, ne_eq,
          not_true_eq_false, ↓reduceIte]
        exact ⟨hs.unloaded, fun k d hd => hs.keep _ hd rfl id rfl⟩
      · simp only [Permission.tracedStep, step, setYoloDestructive, recordOp, heq, ne_eq,
          not_false_eq_true, ↓reduceIte]
        exact .of_empty fun _ => rfl
  | reload => exact .of_empty fun _ => rfl
  | edit file => exact ⟨hs.unloaded, hs.origin⟩

end WrongStack.Permission

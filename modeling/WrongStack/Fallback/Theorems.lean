import WrongStack.Fallback.Extension

/-!
# The walk along the chain

When the targets that the loop calls are new ones, and when it stops with one left that could have been tried.
-/

namespace WrongStack.Fallback

open Lib

variable {cfg : Config} {cooling : ℚ → Bool} {tried : List Target} {all rest as : List (JsString × Moment)}
  {a : JsString × Moment} {s : State} {err lastErr : Err}

/-! ## Conditions on the chain -/

/-- The target of an entry of the chain. -/
def aim (cfg : Config) (a : JsString × Moment) : Target := targetOf cfg (parseModelRef a.1)

/-- There is no target to try: it has no model, cannot be built or is the primary in cooldown. -/
def Closed (cfg : Config) (cooling : ℚ → Bool) (a : JsString × Moment) : Prop :=
  (parseModelRef a.1).model = [] ∨ a.2.canBuild (aim cfg a) = false ∨
    (cooling a.2.now = true ∧ aim cfg a = primaryTarget cfg)

instance (cfg : Config) (cooling : ℚ → Bool) (a : JsString × Moment) : Decidable (Closed cfg cooling a) := by
  unfold Closed
  infer_instance

def NothingLeft (cfg : Config) (cooling : ℚ → Bool) (tried : List Target) (as : List (JsString × Moment)) : Prop :=
  ∀ a ∈ as, Closed cfg cooling a ∨ aim cfg a ∈ tried

/-- No target of the chain but the primary can be built. -/
def PrimaryAlone (cfg : Config) (all : List (JsString × Moment)) (canBuild : Target → Bool) : Prop :=
  ∀ a ∈ all, (parseModelRef a.1).model ≠ [] → aim cfg a ≠ primaryTarget cfg → canBuild (aim cfg a) = false

/-- The chain leads on: to no target that has been left before, and `onModelSwitch` does not end the walk with a
fallback-worthy error while there is one left. (The clock is not set back into the cooldown either.) -/
def Onward (cfg : Config) (cooling : ℚ → Bool) (all : List (JsString × Moment)) :
    List Target → Target → List (JsString × Moment) → Prop
  | _, _, [] => True
  | tried, current, a :: rest =>
      if Closed cfg cooling a ∨ aim cfg a = current then Onward cfg cooling all tried current rest
      else match a.2.switchError with
        | some err => err.worthy → NothingLeft cfg cooling tried (a :: rest)
        | none =>
            aim cfg a ∉ tried ∧
              (aim cfg a = primaryTarget cfg → cooling a.2.calledAt = true → PrimaryAlone cfg all a.2.canBuild) ∧
              ∀ err, a.2.error = some err → err.worthy →
                Onward cfg cooling all (aim cfg a :: tried) (aim cfg a) rest

/-! ## Equations -/

theorem walk_unworthy (h : ¬ lastErr.worthy) : walk cfg as s lastErr = (s, [], some lastErr) := by
  unfold Err.worthy at h
  rw [not_not] at h
  cases as with
  | nil => rfl
  | cons a as => simp only [walk, h, ↓reduceIte]

theorem walk_skip (hcooling : s.ladder.primaryInCooldown cfg = cooling) (hworthy : lastErr.worthy)
    (h : Closed cfg cooling a ∨ aim cfg a = s.ctx.target) :
    walk cfg (a :: rest) s lastErr = walk cfg rest s lastErr := by
  obtain ⟨ref, m⟩ := a
  unfold Err.worthy at hworthy
  unfold Closed aim at h
  simp only [walk, if_neg hworthy, hcooling]
  simp only at h
  split
  · rfl
  · split
    · rfl
    · split
      · rfl
      · rw [if_pos]
        tauto

/-- The state in which a target is called. -/
def State.switched (s : State) (t : Target) : State where
  ladder := { s.ladder with dirty := true }
  ctx := build t

theorem walk_visit (hcooling : s.ladder.primaryInCooldown cfg = cooling) (hworthy : lastErr.worthy)
    (h : ¬ (Closed cfg cooling a ∨ aim cfg a = s.ctx.target)) :
    walk cfg (a :: rest) s lastErr =
      match a.2.switchError with
      | some err => (s.switched (aim cfg a), [], some err)
      | none =>
          match a.2.error with
          | none => (s.switched (aim cfg a), [(s.switched (aim cfg a)).call cfg (aim cfg a).model a.2], none)
          | some err =>
              ((walk cfg rest (s.switched (aim cfg a)) err).1,
                (s.switched (aim cfg a)).call cfg (aim cfg a).model a.2 ::
                  (walk cfg rest (s.switched (aim cfg a)) err).2.1,
                (walk cfg rest (s.switched (aim cfg a)) err).2.2) := by
  obtain ⟨ref, m⟩ := a
  unfold Err.worthy at hworthy
  unfold Closed aim at h
  simp only [not_or, not_and] at h
  obtain ⟨⟨hmodel, hbuild, hcool⟩, hcurrent⟩ := h
  simp only [walk, if_neg hworthy, hcooling, if_neg hmodel, if_neg hcurrent, if_neg hbuild, aim, State.switched]
  refine (if_neg fun hcase => hcool hcase.1 hcase.2).trans ?_
  cases m.switchError with
  | some err => rfl
  | none => cases m.error <;> rfl

/-! ## What a walk keeps -/

theorem walk_cooling : ∀ (as : List (JsString × Moment)) (s : State) (lastErr : Err),
    (walk cfg as s lastErr).1.ladder.primaryInCooldown cfg = s.ladder.primaryInCooldown cfg := by
  intro as
  induction as with
  | nil => exact fun _ _ => rfl
  | cons a rest ih =>
      intro s lastErr
      by_cases hworthy : lastErr.worthy
      · by_cases hskip : Closed cfg (s.ladder.primaryInCooldown cfg) a ∨ aim cfg a = s.ctx.target
        · rw [walk_skip rfl hworthy hskip]
          exact ih s lastErr
        · rw [walk_visit rfl hworthy hskip]
          cases a.2.switchError with
          | some err => rfl
          | none =>
              cases a.2.error with
              | none => rfl
              | some err => exact ih _ err
      · rw [walk_unworthy hworthy]

/-- The provider of the context is the one that was built for its model. -/
def Context.Matched (ctx : Context) : Prop := ctx.provider.requested = ctx.target

theorem build_matched (t : Target) : (build t).Matched := rfl

/-- The request is for the model of the context, whose provider was built for it. -/
def Call.Matched (c : Call) : Prop := c.requestModel = c.ctx.model ∧ c.ctx.Matched

structure Settled (cfg : Config) (s : State) : Prop where
  matched : s.ctx.Matched
  /-- A primary that has failed is where the context is, unless that is dirty. -/
  clean : s.ladder.dirty = false → s.ladder.blockedPrimary = some (primaryTarget cfg) → s.ctx.target = primaryTarget cfg

theorem settled_switched (t : Target) : Settled cfg (s.switched t) := ⟨build_matched t, fun h => by cases h⟩

theorem walk_settled : ∀ (as : List (JsString × Moment)) (s : State) (lastErr : Err), Settled cfg s →
    Settled cfg (walk cfg as s lastErr).1 ∧ ∀ c ∈ (walk cfg as s lastErr).2.1, c.Matched := by
  intro as
  induction as with
  | nil => exact fun s lastErr hs => ⟨hs, fun c hc => by cases hc⟩
  | cons a rest ih =>
      intro s lastErr hs
      by_cases hworthy : lastErr.worthy
      · by_cases hskip : Closed cfg (s.ladder.primaryInCooldown cfg) a ∨ aim cfg a = s.ctx.target
        · rw [walk_skip rfl hworthy hskip]
          exact ih s lastErr hs
        · rw [walk_visit rfl hworthy hskip]
          have hcall : ((s.switched (aim cfg a)).call cfg (aim cfg a).model a.2).Matched := ⟨rfl, rfl⟩
          cases a.2.switchError with
          | some err => exact ⟨settled_switched _, fun c hc => by cases hc⟩
          | none =>
              cases a.2.error with
              | none =>
                  refine ⟨settled_switched _, fun c hc => ?_⟩
                  rw [List.mem_singleton.mp hc]
                  exact hcall
              | some err =>
                  obtain ⟨hlast, hcalls⟩ := ih (s.switched (aim cfg a)) err (settled_switched _)
                  refine ⟨hlast, fun c hc => ?_⟩
                  rcases List.mem_cons.mp hc with rfl | hc
                  · exact hcall
                  · exact hcalls c hc
      · rw [walk_unworthy hworthy]
        exact ⟨hs, fun c hc => by cases hc⟩

/-! ## What a walk calls -/

/-- What is asked of the calls of a walk and of its end, when `tried` have been called before. -/
structure Walked (cfg : Config) (cooling : ℚ → Bool) (all : List (JsString × Moment)) (tried : List Target)
    (as : List (JsString × Moment)) (calls : List Call) (result : Option Err) : Prop where
  once : (calls.map Call.target).Nodup ∧ ∀ c ∈ calls, c.target ∉ tried
  cool : ∀ c ∈ calls, c.target = primaryTarget cfg → c.cooling = true → PrimaryAlone cfg all c.canBuild
  exhausted : ∀ err, result = some err → err.worthy → NothingLeft cfg cooling (calls.map Call.target ++ tried) as

theorem walked_nil {result : Option Err}
    (h : ∀ err, result = some err → err.worthy → NothingLeft cfg cooling tried as) :
    Walked cfg cooling all tried as [] result where
  once := ⟨List.nodup_nil, fun _ hc => absurd hc List.not_mem_nil⟩
  cool := fun _ hc => absurd hc List.not_mem_nil
  exhausted := h

theorem nothingLeft_cons (hskip : Closed cfg cooling a ∨ aim cfg a ∈ tried) :
    NothingLeft cfg cooling tried (a :: rest) ↔ NothingLeft cfg cooling tried rest := by
  unfold NothingLeft
  rw [List.forall_mem_cons]
  exact ⟨fun h => h.2, fun h => ⟨hskip, h⟩⟩

theorem NothingLeft.mono {tried' : List Target} (h : NothingLeft cfg cooling tried as) (hsub : tried ⊆ tried') :
    NothingLeft cfg cooling tried' as := fun a ha => (h a ha).imp_right fun hin => hsub hin

theorem walked_skip {calls : List Call} {result : Option Err} (hskip : Closed cfg cooling a ∨ aim cfg a ∈ tried) :
    Walked cfg cooling all tried (a :: rest) calls result ↔ Walked cfg cooling all tried rest calls result := by
  have hleft : NothingLeft cfg cooling (calls.map Call.target ++ tried) (a :: rest) ↔
      NothingLeft cfg cooling (calls.map Call.target ++ tried) rest :=
    nothingLeft_cons (hskip.imp_right fun hin => List.mem_append_right _ hin)
  constructor
  · intro h
    exact ⟨h.once, h.cool, fun err herr hworthy => hleft.mp (h.exhausted err herr hworthy)⟩
  · intro h
    exact ⟨h.once, h.cool, fun err herr hworthy => hleft.mpr (h.exhausted err herr hworthy)⟩

theorem walked_visit {c : Call} {calls : List Call} {result : Option Err} (hc : c.target = aim cfg a) :
    Walked cfg cooling all tried (a :: rest) (c :: calls) result ↔
      c.target ∉ tried ∧ (c.target = primaryTarget cfg → c.cooling = true → PrimaryAlone cfg all c.canBuild) ∧
        Walked cfg cooling all (c.target :: tried) rest calls result := by
  have hleft : NothingLeft cfg cooling ((c :: calls).map Call.target ++ tried) (a :: rest) ↔
      NothingLeft cfg cooling (calls.map Call.target ++ c.target :: tried) rest := by
    rw [nothingLeft_cons (.inr (by rw [← hc]; exact List.mem_cons_self))]
    constructor
    · intro h
      exact h.mono fun t ht => by simpa [or_left_comm] using ht
    · intro h
      exact h.mono fun t ht => by simpa [or_left_comm] using ht
  constructor
  · intro h
    obtain ⟨hnew, hnodup⟩ := List.nodup_cons.mp h.once.1
    obtain ⟨hfresh, hrest⟩ := List.forall_mem_cons.mp h.once.2
    obtain ⟨hcool, hcools⟩ := List.forall_mem_cons.mp h.cool
    refine ⟨hfresh, hcool, ⟨hnodup, fun c' hc' => ?_⟩, hcools,
      fun err herr hworthy => hleft.mp (h.exhausted err herr hworthy)⟩
    rw [List.mem_cons, not_or]
    exact ⟨fun heq => hnew (heq ▸ List.mem_map.mpr ⟨c', hc', rfl⟩), hrest c' hc'⟩
  · rintro ⟨hfresh, hcool, h⟩
    refine ⟨⟨List.nodup_cons.mpr ⟨fun hin => ?_, h.once.1⟩, List.forall_mem_cons.mpr ⟨hfresh, fun c' hc' => ?_⟩⟩,
      List.forall_mem_cons.mpr ⟨hcool, h.cool⟩, fun err herr hworthy => hleft.mpr (h.exhausted err herr hworthy)⟩
    · obtain ⟨c', hc', heq⟩ := List.mem_map.mp hin
      exact h.once.2 c' hc' (heq ▸ List.mem_cons_self)
    · exact fun hin => h.once.2 c' hc' (List.mem_cons_of_mem _ hin)

theorem walked_iff : ∀ (as : List (JsString × Moment)) (tried : List Target) (s : State) (lastErr : Err),
    s.ladder.primaryInCooldown cfg = cooling → s.ctx.target ∈ tried → lastErr.worthy →
    (Walked cfg cooling all tried as (walk cfg as s lastErr).2.1 (walk cfg as s lastErr).2.2 ↔
      Onward cfg cooling all tried s.ctx.target as) := by
  intro as
  induction as with
  | nil =>
      intro tried s lastErr _ _ _
      simp only [Onward, iff_true]
      exact walked_nil fun _ _ _ a ha => absurd ha List.not_mem_nil
  | cons a rest ih =>
      intro tried s lastErr hcooling hcurrent hworthy
      unfold Onward
      by_cases hskip : Closed cfg cooling a ∨ aim cfg a = s.ctx.target
      · rw [walk_skip hcooling hworthy hskip, if_pos hskip,
          walked_skip (hskip.imp_right fun heq => heq ▸ hcurrent)]
        exact ih tried s lastErr hcooling hcurrent hworthy
      · rw [walk_visit hcooling hworthy hskip, if_neg hskip]
        have hcall : ((s.switched (aim cfg a)).call cfg (aim cfg a).model a.2).cooling = cooling a.2.calledAt := by
          rw [← hcooling]
          rfl
        cases a.2.switchError with
        | some err =>
            constructor
            · intro h hw
              exact h.exhausted err rfl hw
            · intro h
              refine walked_nil fun err' herr hw => ?_
              cases herr
              exact h hw
        | none =>
            cases herror : a.2.error with
            | none =>
                simp only [reduceCtorEq, false_imp_iff, implies_true, and_true]
                rw [walked_visit rfl, hcall]
                refine and_congr_right fun _ => and_iff_left_of_imp fun _ => ?_
                exact walked_nil fun err herr => by cases herr
            | some err =>
                simp only [Option.some.injEq, forall_eq']
                rw [walked_visit rfl, hcall]
                refine and_congr_right fun _ => and_congr_right fun _ => ?_
                by_cases hw : err.worthy
                · simp only [hw, true_imp_iff]
                  exact ih (aim cfg a :: tried) (s.switched (aim cfg a)) err hcooling List.mem_cons_self hw
                · rw [walk_unworthy hw]
                  refine iff_of_true ?_ fun h => absurd h hw
                  refine walked_nil fun err' herr hw' => ?_
                  cases herr
                  exact absurd hw' hw

end WrongStack.Fallback

/-!
# The ladder over whole runs

Which calls of the inner runner are made, in terms of the chain and of where the context is.
-/

namespace WrongStack.Fallback

open Lib

variable (deps : FallbackModelDeps) (cfg : Config)

/-! ## Statements -/

/-- What is asked of one call of `wrapProviderRunner`. -/
structure LawfulCall (s : State) (first : Moment) (moments : Nat → Moment) : Prop where
  once : ((wrapProviderRunner deps cfg s first moments).2.1.map Call.target).Nodup
  matched : ∀ c ∈ (wrapProviderRunner deps cfg s first moments).2.1, c.Matched
  cool : ∀ c ∈ (wrapProviderRunner deps cfg s first moments).2.1, c.target = primaryTarget cfg → c.cooling = true →
    PrimaryAlone cfg (attempts deps cfg moments) c.canBuild
  /-- It rejects with a fallback-worthy error only when every target was tried, or could not be. -/
  exhausted : ∀ err, (wrapProviderRunner deps cfg s first moments).2.2 = some err → err.worthy →
    NothingLeft cfg ((wrapProviderRunner deps cfg s first moments).1.ladder.primaryInCooldown cfg)
      ((wrapProviderRunner deps cfg s first moments).2.1.map Call.target) (attempts deps cfg moments)

/-- The primary has failed, its cooldown is over and it can be built: the turn begins with it. -/
def ProbesPrimary (s : State) (m : Moment) : Prop :=
  s.ladder.blockedPrimary = some (primaryTarget cfg) → s.ladder.primaryInCooldown cfg m.now = false →
    m.canBuild (primaryTarget cfg) = true → ∀ first moments,
      (wrapProviderRunner deps cfg (beforeRun deps cfg s m) first moments).2.1.head?.map Call.target =
        some (primaryTarget cfg)

def Lawful (s : State) : Op → Prop
  | .beforeRun m => ProbesPrimary deps cfg s m
  | .wrapProviderRunner first moments => LawfulCall deps cfg s first moments

/-- The call does not begin on the primary in its cooldown while another target can be built, and the chain leads
on from where the context is. -/
def Clear (s : State) : Op → Prop
  | .beforeRun _ => True
  | .wrapProviderRunner first moments =>
      (s.ctx.target = primaryTarget cfg → s.ladder.primaryInCooldown cfg first.calledAt = true →
        PrimaryAlone cfg (attempts deps cfg moments) first.canBuild) ∧
      ∀ err, first.error = some err → err.worthy →
        Onward cfg ((s.afterFailure deps cfg err first.failedAt).primaryInCooldown cfg) (attempts deps cfg moments)
          [s.ctx.target] s.ctx.target (attempts deps cfg moments)

/-! ## Steps -/

variable {deps cfg} {s : State} {m first : Moment} {moments : Nat → Moment}

theorem Settled.afterFailure (h : Settled cfg s) (err : Err) (now : ℚ) :
    Settled cfg { s with ladder := s.afterFailure deps cfg err now } := by
  unfold State.afterFailure
  split
  · rename_i hcase
    exact ⟨h.matched, fun _ _ => hcase.2⟩
  · exact h

theorem Settled.wrap (h : Settled cfg s) : Settled cfg (wrapProviderRunner deps cfg s first moments).1 ∧
    ∀ c ∈ (wrapProviderRunner deps cfg s first moments).2.1, c.Matched := by
  have hfirst : (s.call cfg s.ctx.model first).Matched := ⟨rfl, h.matched⟩
  unfold wrapProviderRunner
  cases first.error with
  | none =>
      refine ⟨⟨h.matched, ?_⟩, fun c hc => ?_⟩
      · simp only
        split
        · intro _ _
          assumption
        · exact h.clean
      · rw [List.mem_singleton.mp hc]
        exact hfirst
  | some err =>
      obtain ⟨hlast, hcalls⟩ := walk_settled (attempts deps cfg moments) _ err (h.afterFailure err first.failedAt)
      refine ⟨hlast, fun c hc => ?_⟩
      rcases List.mem_cons.mp hc with rfl | hc
      · exact hfirst
      · exact hcalls c hc

theorem Settled.beforeRun (h : Settled cfg s) : Settled cfg (beforeRun deps cfg s m) := by
  unfold Fallback.beforeRun
  split
  · exact h
  · rename_i hdirty
    rw [Bool.not_eq_true, Bool.not_eq_false'] at hdirty
    have hmark : ∀ now, (s.ladder.markPrimaryFailure deps cfg now).dirty ≠ false := by
      intro now
      unfold Ladder.markPrimaryFailure
      rw [hdirty]
      exact Bool.noConfusion
    split
    · exact h
    · split
      · simp only
        split
        · exact ⟨build_matched _, fun _ _ => rfl⟩
        · exact ⟨build_matched _, fun hclean => absurd hclean (hmark _)⟩
      · exact ⟨h.matched, fun hclean => absurd hclean (hmark _)⟩

theorem Settled.step (h : Settled cfg s) (o : Op) : Settled cfg (step deps cfg s o) := by
  cases o with
  | beforeRun m => exact h.beforeRun
  | wrapProviderRunner first moments => exact h.wrap.1

theorem wrap_head : (wrapProviderRunner deps cfg s first moments).2.1.head?.map Call.target = some s.ctx.target := by
  unfold wrapProviderRunner
  cases first.error <;> rfl

theorem Settled.probes (h : Settled cfg s) : ProbesPrimary deps cfg s m := by
  intro hblocked hover hbuild first moments
  rw [wrap_head]
  congr 1
  unfold Fallback.beforeRun
  split
  · rename_i hclean
    exact h.clean (by simpa using hclean) hblocked
  · simp only [hover, Bool.false_eq_true, ↓reduceIte]
    split <;> rfl

theorem lawfulCall_response (h : Settled cfg s) (hfirst : first.error = none) :
    LawfulCall deps cfg s first moments ↔
      (s.ctx.target = primaryTarget cfg → s.ladder.primaryInCooldown cfg first.calledAt = true →
        PrimaryAlone cfg (attempts deps cfg moments) first.canBuild) := by
  have hcalls : (wrapProviderRunner deps cfg s first moments).2 = ([s.call cfg s.ctx.model first], none) := by
    simp only [wrapProviderRunner, hfirst]
  constructor
  · intro hlaw
    exact hlaw.cool _ (by rw [hcalls]; exact List.mem_cons_self)
  · intro hcool
    refine ⟨?_, h.wrap.2, fun c hc => ?_, fun err herr => ?_⟩
    · rw [hcalls]
      exact List.nodup_singleton _
    · rw [hcalls] at hc
      rw [List.mem_singleton.mp hc]
      exact hcool
    · rw [hcalls] at herr
      cases herr

/-- The first call fails, and the walk goes on with its target tried. -/
theorem lawfulCall_failure {err : Err} (h : Settled cfg s) (hfirst : first.error = some err) :
    LawfulCall deps cfg s first moments ↔
      (s.ctx.target = primaryTarget cfg →
        (s.ladder.primaryInCooldown cfg first.calledAt = true →
          PrimaryAlone cfg (attempts deps cfg moments) first.canBuild)) ∧
      Walked cfg ((s.afterFailure deps cfg err first.failedAt).primaryInCooldown cfg) (attempts deps cfg moments)
        [s.ctx.target] (attempts deps cfg moments)
        (walk cfg (attempts deps cfg moments) { s with ladder := s.afterFailure deps cfg err first.failedAt } err).2.1
        (walk cfg (attempts deps cfg moments) { s with ladder := s.afterFailure deps cfg err first.failedAt } err).2.2 := by
  have hcooling := @walk_cooling cfg (attempts deps cfg moments)
    { s with ladder := s.afterFailure deps cfg err first.failedAt } err
  have hwrap : wrapProviderRunner deps cfg s first moments =
      ((walk cfg (attempts deps cfg moments) { s with ladder := s.afterFailure deps cfg err first.failedAt } err).1,
        s.call cfg s.ctx.model first :: (walk cfg (attempts deps cfg moments)
          { s with ladder := s.afterFailure deps cfg err first.failedAt } err).2.1,
        (walk cfg (attempts deps cfg moments) { s with ladder := s.afterFailure deps cfg err first.failedAt } err).2.2) := by
    simp only [wrapProviderRunner, hfirst]
  have hmatched : ∀ c ∈ (wrapProviderRunner deps cfg s first moments).2.1, c.Matched := h.wrap.2
  generalize walk cfg (attempts deps cfg moments) { s with ladder := s.afterFailure deps cfg err first.failedAt } err = w
    at hcooling hwrap
  obtain ⟨s', calls, result⟩ := w
  have hleft : NothingLeft cfg (s'.ladder.primaryInCooldown cfg)
      ((s.call cfg s.ctx.model first :: calls).map Call.target) (attempts deps cfg moments) ↔
      NothingLeft cfg ((s.afterFailure deps cfg err first.failedAt).primaryInCooldown cfg)
        (calls.map Call.target ++ [s.ctx.target]) (attempts deps cfg moments) := by
    rw [hcooling]
    refine ⟨fun hl => hl.mono fun t ht => ?_, fun hl => hl.mono fun t ht => ?_⟩
    · rw [List.mem_append, List.mem_singleton]
      exact (List.mem_cons.mp ht).symm
    · rw [List.mem_append, List.mem_singleton] at ht
      exact List.mem_cons.mpr ht.symm
  constructor
  · intro hlaw
    obtain ⟨honce, -, hcool, hexhausted⟩ := hlaw
    rw [hwrap] at honce hcool hexhausted
    obtain ⟨hnew, hnodup⟩ := List.nodup_cons.mp honce
    obtain ⟨hfirst, hrest⟩ := List.forall_mem_cons.mp hcool
    refine ⟨hfirst, ⟨hnodup, fun c hc hin => hnew ?_⟩, hrest, fun err' herr hw => hleft.mp (hexhausted err' herr hw)⟩
    exact List.mem_map.mpr ⟨c, hc, List.mem_singleton.mp hin⟩
  · rintro ⟨hcool, hwalked⟩
    refine ⟨?_, hmatched, ?_, ?_⟩ <;> rw [hwrap]
    · refine List.nodup_cons.mpr ⟨fun hin => ?_, hwalked.once.1⟩
      obtain ⟨c, hc, heq⟩ := List.mem_map.mp hin
      exact hwalked.once.2 c hc (List.mem_singleton.mpr heq)
    · exact List.forall_mem_cons.mpr ⟨hcool, hwalked.cool⟩
    · exact fun err' herr hw => hleft.mpr (hwalked.exhausted err' herr hw)

theorem lawfulCall_iff (h : Settled cfg s) :
    LawfulCall deps cfg s first moments ↔ Clear deps cfg s (.wrapProviderRunner first moments) := by
  unfold Clear
  cases hfirst : first.error with
  | none =>
      rw [lawfulCall_response h hfirst]
      refine ⟨fun hcool => ⟨hcool, fun err herr => ?_⟩, fun hclear => hclear.1⟩
      rw [hfirst] at herr
      cases herr
  | some err =>
      rw [lawfulCall_failure h hfirst]
      simp only [hfirst, Option.some.injEq, forall_eq']
      refine and_congr_right fun _ => ?_
      by_cases hw : err.worthy
      · simp only [hw, true_imp_iff]
        exact walked_iff _ _ { s with ladder := s.afterFailure deps cfg err first.failedAt } err rfl
          List.mem_cons_self hw
      · rw [walk_unworthy hw]
        refine iff_of_true ?_ fun hw' => absurd hw' hw
        refine walked_nil fun err' herr hw' => ?_
        cases herr
        exact absurd hw' hw

/-! ## Runs -/

variable (deps cfg)

/-- The ladder keeps its rules in a run just when no call begins on a cooling primary while another target can be
built, and the chain leads on in every call. -/
theorem ladder_lawful_iff (start : Target) (ops : List Op) :
    Under (step deps cfg) (Lawful deps cfg) (init start) ops ↔
      Under (step deps cfg) (Clear deps cfg) (init start) ops := by
  have hinv : ∀ pre, Settled cfg (run (step deps cfg) (init start) pre) := by
    intro pre
    refine run_invariant (fun s o h => h.step o) ⟨build_matched start, fun _ h => ?_⟩ pre
    cases h
  rw [under_iff_forall_concat, under_iff_forall_concat]
  refine forall_congr' fun pre => forall_congr' fun o => imp_congr_right fun _ => ?_
  cases o with
  | beforeRun m => exact iff_of_true (hinv pre).probes trivial
  | wrapProviderRunner first moments => exact lawfulCall_iff (hinv pre)

def outside : FallbackModelDeps := { localeCompare := fun _ _ => .eq, env := fun _ => none }

def configured : Config := { provider := js "p", model := js "m", fallbackModels := [js "a", js "b", js "a"] }

/-- Everybody is overloaded. -/
def overloaded : Moment := { error := some (.provider 529) }

/-- No provider can be built when the primary fails, and another one can be later. -/
def unbuildable : Moment := { canBuild := fun _ => false, error := some (.provider 529) }

/-- The chain comes back to a target that it has left; and the primary is called in its cooldown. -/
theorem ladder_unlawful :
    ¬ Under (step outside configured) (Lawful outside configured) (init (primaryTarget configured))
        [.wrapProviderRunner overloaded fun _ => overloaded] ∧
      ¬ Under (step outside configured) (Lawful outside configured) (init (primaryTarget configured))
        [.wrapProviderRunner unbuildable fun _ => unbuildable, .wrapProviderRunner overloaded fun _ => overloaded] := by
  constructor
  · intro h
    exact absurd h.1.once (by decide +kernel)
  · intro h
    have hcool := h.2.1.cool _ List.mem_cons_self (by decide +kernel) (by decide +kernel)
    have hmem : (js "a", overloaded) ∈ attempts outside configured fun _ => overloaded :=
      List.mem_map.mpr ⟨(js "a", 0), by decide +kernel, rfl⟩
    exact absurd (hcool _ hmem (by decide +kernel) (by decide +kernel)) Bool.noConfusion

end WrongStack.Fallback

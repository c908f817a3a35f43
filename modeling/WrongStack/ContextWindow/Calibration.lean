import Mathlib.Algebra.Order.Floor.Ring
import Mathlib.Data.Rat.Floor
import Mathlib.Tactic.FieldSimp
import Mathlib.Tactic.Linarith
import WrongStack.Lib.JsMap
import WrongStack.Lib.JsString
import WrongStack.Lib.Run

/-!
# Calibration of the token estimate

The calibrated part of `core/src/utils/token-estimate.ts` and what the agent loop
(`core/src/core/agent-loop.ts`) feeds back after a provider call. Ratios are exact numbers.
-/

namespace WrongStack.ContextWindow

open Lib

structure CalState where
  /-- actual / estimated -/
  ratio : ℚ := 1
  count : Nat := 0
  prevEst : Nat := 0
  deriving DecidableEq

/-- `_cals` -/
abbrev Cals := JsMap JsString CalState

def CAL_ALPHA : ℚ := 3 / 10

def MIN_SAMPLES_FOR_CALIBRATION : Nat := 3

/-- In characters for each token. -/
def MODEL_FAMILY_RATIO : List (JsString × ℚ) :=
  [(js "claude", 19 / 5), (js "gpt-4", 4), (js "gpt-3.5", 4), (js "gemini", 7 / 2), (js "deepseek", 7 / 2)]

/-- What `estimateRequestTokens` counts in the messages, the system prompt and the tools of a request. -/
structure RequestTokenBreakdown where
  messages : Nat := 0
  systemPrompt : Nat := 0
  tools : Nat := 0
  deriving DecidableEq

def RequestTokenBreakdown.total (b : RequestTokenBreakdown) : Nat := b.messages + b.systemPrompt + b.tools

/-- A breakdown with each number rounded by itself. -/
structure CalibratedBreakdown where
  messages : Int
  systemPrompt : Int
  tools : Int
  total : Int
  deriving DecidableEq

/-- `Math.round`: halves go up. -/
def mathRound (x : ℚ) : Int := ⌊x + 1 / 2⌋

/-- `Math.min(1.5, Math.max(0.5, ratio))` -/
def sane (ratio : ℚ) : ℚ := min (3 / 2) (max (1 / 2) ratio)

/-- The state of a bucket. One that is missing is made with the initial values. -/
def calState (cals : Cals) (key : JsString) : CalState := (cals.get? key).getD {}

/-- The part of `estimateRequestTokens` that concerns calibration. -/
def estimateRequestTokens (cals : Cals) (counted : RequestTokenBreakdown) (key : JsString) : Cals :=
  cals.set key { calState cals key with prevEst := counted.total }

def recordActualUsage (cals : Cals) (actualInputTokens : Int) (estimatedInputTokens : Option Int)
    (key : JsString) : Cals :=
  if actualInputTokens ≤ 0 then cals
  else
    let cal := calState cals key
    let est : Int := estimatedInputTokens.getD cal.prevEst
    if est ≤ 0 then cals.set key cal
    else
      let sampleRatio : ℚ := actualInputTokens / est
      let ratio := if cal.count = 0 then sampleRatio else CAL_ALPHA * sampleRatio + (1 - CAL_ALPHA) * cal.ratio
      cals.set key { cal with ratio := sane ratio, count := cal.count + 1 }

def calibrated (cal : CalState) : Bool := MIN_SAMPLES_FOR_CALIBRATION ≤ cal.count

def getModelFamilyRatio (key : JsString) : Option ℚ :=
  ( MODEL_FAMILY_RATIO.find? fun p => decide (p.1 <:+: JsString.toLowerCase key)).map fun p => p.2 / (7 / 2)

def RequestTokenBreakdown.scale (b : RequestTokenBreakdown) (ratio : ℚ) : CalibratedBreakdown where
  messages := mathRound (b.messages * ratio)
  systemPrompt := mathRound (b.systemPrompt * ratio)
  tools := mathRound (b.tools * ratio)
  total := mathRound (b.total * ratio)

def estimateRequestTokensCalibrated (cals : Cals) (counted : RequestTokenBreakdown) (key : JsString) :
    CalibratedBreakdown :=
  let cal := calState (estimateRequestTokens cals counted key) key
  if calibrated cal then counted.scale (sane cal.ratio)
  else
    match getModelFamilyRatio key with
    | some fallbackRatio => counted.scale fallbackRatio
    | none => ⟨counted.messages, counted.systemPrompt, counted.tools, counted.total⟩

/-! ## The agent loop -/

/-- A request of the agent loop that the provider answers. -/
structure Iteration where
  /-- `provider/model` -/
  key : JsString
  /-- what the request is counted as -/
  preFlight : RequestTokenBreakdown
  /-- `res.usage.input` -/
  usage : Nat
  deriving DecidableEq

/-- The pre-flight estimate, the calibrated total and `recordActualUsage`. -/
def iterate (cals : Cals) (it : Iteration) : Cals :=
  let cals := estimateRequestTokens cals it.preFlight it.key
  let cal := calState cals it.key
  let calibratedTotal : Int :=
    if calibrated cal then mathRound (it.preFlight.total * sane cal.ratio) else it.preFlight.total
  recordActualUsage cals it.usage (some calibratedTotal) it.key

/-! ## One bucket -/

/-- What one report of usage does to the bucket. -/
def CalState.sample (cal : CalState) (actual est : Int) : CalState :=
  if actual ≤ 0 ∨ est ≤ 0 then cal
  else
    let sampleRatio : ℚ := actual / est
    { cal with
      ratio := sane (if cal.count = 0 then sampleRatio
        else CAL_ALPHA * sampleRatio + (1 - CAL_ALPHA) * cal.ratio)
      count := cal.count + 1 }

/-- What is fed back as the estimate. -/
def CalState.fedBack (cal : CalState) (preFlight : RequestTokenBreakdown) : Int :=
  if calibrated cal then mathRound (preFlight.total * sane cal.ratio) else preFlight.total

/-- What an iteration does to the bucket of its own key. -/
def CalState.after (cal : CalState) (it : Iteration) : CalState :=
  { cal with prevEst := it.preFlight.total }.sample it.usage (cal.fedBack it.preFlight)

theorem calState_set (cals : Cals) (key key' : JsString) (cal : CalState) :
    calState (cals.set key cal) key' = if key = key' then cal else calState cals key' := by
  unfold calState
  rw [JsMap.get?_set]
  split <;> rfl

@[simp] theorem calState_set_self (cals : Cals) (key : JsString) (cal : CalState) :
    calState (cals.set key cal) key = cal := by
  simp [calState_set]

@[simp] theorem calState_estimate_self (cals : Cals) (counted : RequestTokenBreakdown) (key : JsString) :
    calState (estimateRequestTokens cals counted key) key =
      { calState cals key with prevEst := counted.total } := by
  simp [estimateRequestTokens]

theorem calState_record (cals : Cals) (actual est : Int) (key key' : JsString) :
    calState (recordActualUsage cals actual (some est) key) key' =
      if key = key' then (calState cals key).sample actual est else calState cals key' := by
  by_cases hkey : key = key'
  · subst hkey
    simp only [recordActualUsage, CalState.sample, Option.getD_some, ↓reduceIte]
    by_cases hactual : actual ≤ 0
    · simp only [hactual, ↓reduceIte, true_or]
    · by_cases hest : est ≤ 0
      · simp only [hactual, hest, ↓reduceIte, or_true, calState_set_self]
      · simp only [hactual, hest, ↓reduceIte, or_self, calState_set_self]
  · simp only [recordActualUsage, hkey, ↓reduceIte]
    split
    · rfl
    · split
      · simp only [calState_set, hkey, ↓reduceIte]
      · simp only [calState_set, hkey, ↓reduceIte]

/-- An iteration changes the bucket of its key and no other. -/
theorem calState_iterate (cals : Cals) (it : Iteration) (key : JsString) :
    calState (iterate cals it) key =
      if it.key = key then (calState cals key).after it else calState cals key := by
  unfold iterate
  rw [calState_record]
  split
  · rename_i hkey
    subst hkey
    simp only [calState_estimate_self, CalState.after]
    rfl
  · rename_i hkey
    simp [estimateRequestTokens, calState_set, hkey]

/-! ## Rounding and bounds -/

theorem mathRound_intCast (n : Int) : mathRound n = n := by
  unfold mathRound
  rw [Int.floor_eq_iff]
  constructor <;> linarith

theorem sane_eq {ratio : ℚ} (hlow : 1 / 2 ≤ ratio) (hhigh : ratio ≤ 3 / 2) : sane ratio = ratio := by
  rw [sane, max_eq_right hlow, min_eq_right hhigh]

theorem scaled_total {t : ℚ} {it : Iteration} (husage : (it.usage : ℚ) = t * it.preFlight.total) :
    mathRound (it.preFlight.total * t) = it.usage := by
  have hint : (it.preFlight.total : ℚ) * t = ((it.usage : Int) : ℚ) := by
    rw [Int.cast_natCast, husage, mul_comm]
  rw [hint, mathRound_intCast]

/-! ## A constant true ratio -/

variable {t : ℚ} {cal : CalState} {it : Iteration}

theorem after_empty (husage : (it.usage : ℚ) = t * it.preFlight.total) (hzero : it.preFlight.total = 0) :
    cal.after it = { cal with prevEst := 0 } := by
  have hnone : it.usage = 0 := by simpa [hzero] using husage
  simp [CalState.after, CalState.sample, hzero, hnone]

theorem usage_pos (hlow : 1 / 2 ≤ t) (husage : (it.usage : ℚ) = t * it.preFlight.total)
    (hpos : 0 < it.preFlight.total) : 0 < it.usage := by
  have hp : (0 : ℚ) < it.preFlight.total := by exact_mod_cast hpos
  have ht : (0 : ℚ) < t := by linarith
  have hmul : (0 : ℚ) < it.usage := husage ▸ mul_pos ht hp
  exact_mod_cast hmul

/-- Before the calibration applies, every sample is the true ratio, and the average of the true ratio
with itself is the true ratio. -/
theorem after_sample (hlow : 1 / 2 ≤ t) (hhigh : t ≤ 3 / 2) (husage : (it.usage : ℚ) = t * it.preFlight.total)
    (hpos : 0 < it.preFlight.total) (hcount : cal.count < 3) (hratio : cal.count = 0 ∨ cal.ratio = t) :
    cal.after it = ⟨t, cal.count + 1, it.preFlight.total⟩ := by
  have hu := usage_pos hlow husage hpos
  have hp : (it.preFlight.total : ℚ) ≠ 0 := by exact_mod_cast hpos.ne'
  have hsample : (it.usage : ℚ) / it.preFlight.total = t := by
    rw [husage]
    field_simp
  have hfed : cal.fedBack it.preFlight = it.preFlight.total := by
    have hcal : ¬ 3 ≤ cal.count := by omega
    simp [CalState.fedBack, calibrated, MIN_SAMPLES_FOR_CALIBRATION, hcal]
  have hboth : ¬ ((it.usage : Int) ≤ 0 ∨ (it.preFlight.total : Int) ≤ 0) := by omega
  have hnew : (if cal.count = 0 then t else CAL_ALPHA * t + (1 - CAL_ALPHA) * cal.ratio) = t := by
    cases hratio with
    | inl hzero => rw [if_pos hzero]
    | inr hr =>
        rw [hr]
        split
        · rfl
        · ring
  simp only [CalState.after, CalState.sample, hfed, hboth, ↓reduceIte, Int.cast_natCast, hsample, hnew,
    sane_eq hlow hhigh]

/-- Once the calibration applies, the estimate that is fed back is already the actual usage: the sample
is 1, and the ratio moves towards it. -/
theorem after_calibrated (hlow : 1 / 2 ≤ t) (hhigh : t ≤ 3 / 2)
    (husage : (it.usage : ℚ) = t * it.preFlight.total) (hpos : 0 < it.preFlight.total)
    (hcount : 3 ≤ cal.count) (hratio : cal.ratio = t) :
    cal.after it = ⟨CAL_ALPHA + (1 - CAL_ALPHA) * t, cal.count + 1, it.preFlight.total⟩ := by
  have hu := usage_pos hlow husage hpos
  have hq : (it.usage : ℚ) ≠ 0 := by exact_mod_cast hu.ne'
  have hfed : cal.fedBack it.preFlight = it.usage := by
    simp only [CalState.fedBack, calibrated, MIN_SAMPLES_FOR_CALIBRATION, hcount, decide_true, ↓reduceIte]
    rw [hratio, sane_eq hlow hhigh, scaled_total husage]
  have hboth : ¬ ((it.usage : Int) ≤ 0 ∨ (it.usage : Int) ≤ 0) := by omega
  have hzero : ¬ cal.count = 0 := by omega
  have hsane : sane (CAL_ALPHA + (1 - CAL_ALPHA) * t) = CAL_ALPHA + (1 - CAL_ALPHA) * t :=
    sane_eq (by norm_num [CAL_ALPHA]; linarith) (by norm_num [CAL_ALPHA]; linarith)
  simp only [CalState.after, CalState.sample, hfed, hboth, hzero, ↓reduceIte, Int.cast_natCast, div_self hq,
    mul_one, hratio, hsane]

/-- The fixed point of the average with the sample 1. -/
theorem pulled_eq_iff : CAL_ALPHA + (1 - CAL_ALPHA) * t = t ↔ t = 1 := by
  norm_num [CAL_ALPHA]
  constructor
  · intro h
    linarith
  · rintro rfl
    norm_num

/-! ## Runs of the loop -/

/-- After this iteration the ratio of the bucket is the true one; and if the bucket was calibrated, the
calibrated estimate of the request was its actual usage. -/
def Tracks (t : ℚ) (key : JsString) (cals : Cals) (it : Iteration) : Prop :=
  it.key = key →
    (calState (iterate cals it) key).ratio = t ∧
      (calibrated (calState cals key) = true →
        (estimateRequestTokensCalibrated cals it.preFlight key).total = it.usage)

/-- The actual usage of every request of the bucket is the true ratio times its raw estimate. -/
def Proportional (t : ℚ) (key : JsString) (its : List Iteration) : Prop :=
  ∀ it ∈ its, it.key = key → (it.usage : ℚ) = t * it.preFlight.total

instance (t : ℚ) (key : JsString) (cals : Cals) (it : Iteration) : Decidable (Tracks t key cals it) :=
  inferInstanceAs (Decidable (_ → _))

instance (t : ℚ) (key : JsString) (its : List Iteration) : Decidable (Proportional t key its) :=
  inferInstanceAs (Decidable (∀ it ∈ its, _))

/-- The raw estimates of the requests of a bucket. -/
def estimates (key : JsString) (its : List Iteration) : List Nat :=
  (its.filter fun it => it.key = key).map fun it => it.preFlight.total

theorem estimates_cons_self (its : List Iteration) :
    estimates it.key (it :: its) = it.preFlight.total :: estimates it.key its := by
  simp [estimates]

theorem estimates_cons_other {key : JsString} (its : List Iteration) (hkey : it.key ≠ key) :
    estimates key (it :: its) = estimates key its := by
  simp [estimates, hkey]

theorem tracks_calibrated_total {cals : Cals} (hlow : 1 / 2 ≤ t) (hhigh : t ≤ 3 / 2)
    (husage : (it.usage : ℚ) = t * it.preFlight.total) (hratio : (calState cals it.key).ratio = t)
    (hcal : calibrated (calState cals it.key) = true) :
    (estimateRequestTokensCalibrated cals it.preFlight it.key).total = it.usage := by
  have hcal' : calibrated { calState cals it.key with prevEst := it.preFlight.total } = true := hcal
  simp only [estimateRequestTokensCalibrated, calState_estimate_self, hcal', ↓reduceIte,
    RequestTokenBreakdown.scale]
  rw [hratio, sane_eq hlow hhigh, scaled_total husage]

/-- With the ratio 1 the bucket keeps it: a sample is 1 in both forms. -/
theorem ratio_after_one (husage : it.usage = it.preFlight.total) (hratio : cal.ratio = 1) :
    (cal.after it).ratio = 1 := by
  have husage' : (it.usage : ℚ) = 1 * it.preFlight.total := by
    rw [husage, one_mul]
  rcases Nat.eq_zero_or_pos it.preFlight.total with hzero | hpos
  · rw [after_empty husage' hzero]
    exact hratio
  · rcases Nat.lt_or_ge cal.count 3 with hcount | hcount
    · rw [after_sample (by norm_num) (by norm_num) husage' hpos hcount (Or.inr hratio)]
    · rw [after_calibrated (by norm_num) (by norm_num) husage' hpos hcount hratio]
      exact pulled_eq_iff.mpr rfl

theorem under_tracks_one {key : JsString} {cals : Cals} {its : List Iteration} (hp : Proportional 1 key its)
    (hratio : (calState cals key).ratio = 1) : Under iterate (Tracks 1 key) cals its := by
  induction its generalizing cals with
  | nil => trivial
  | cons it its ih =>
      have hrest : Proportional 1 key its := fun i hi => hp i (List.mem_cons_of_mem it hi)
      have hnext : (calState (iterate cals it) key).ratio = 1 := by
        rw [calState_iterate]
        split
        · rename_i hkey
          have husage := hp it List.mem_cons_self hkey
          rw [one_mul] at husage
          exact ratio_after_one (by exact_mod_cast husage) hratio
        · exact hratio
      refine ⟨?_, ih hrest hnext⟩
      rintro rfl
      exact ⟨hnext, tracks_calibrated_total (by norm_num) (by norm_num) (hp it List.mem_cons_self rfl) hratio⟩

/-- From a bucket with up to three samples of another ratio than 1, the ratio stays true while there are no
more than three samples, provided that a fresh bucket is first shown a request that is not empty. -/
theorem under_tracks_iff {key : JsString} {cals : Cals} {its : List Iteration} (hlow : 1 / 2 ≤ t)
    (hhigh : t ≤ 3 / 2) (hne : t ≠ 1) (hp : Proportional t key its) (hcount : (calState cals key).count ≤ 3)
    (hfresh : (calState cals key).count = 0 → (calState cals key).ratio = 1)
    (hratio : (calState cals key).count ≠ 0 → (calState cals key).ratio = t) :
    Under iterate (Tracks t key) cals its ↔
      ((calState cals key).count = 0 → (estimates key its).head? ≠ some 0) ∧
        (calState cals key).count + (estimates key its).countP (0 < ·) ≤ 3 := by
  induction its generalizing cals with
  | nil => simp [Under, estimates, hcount]
  | cons it its ih =>
      have hrest : Proportional t key its := fun i hi => hp i (List.mem_cons_of_mem it hi)
      by_cases hkey : it.key = key
      · subst hkey
        have husage := hp it List.mem_cons_self rfl
        have hstep := calState_iterate cals it it.key
        rw [if_pos rfl] at hstep
        rw [estimates_cons_self, Under, List.head?_cons, List.countP_cons]
        rcases Nat.eq_zero_or_pos it.preFlight.total with hzero | hpos
        · rw [after_empty husage hzero] at hstep
          by_cases hc : (calState cals it.key).count = 0
          · -- a fresh bucket keeps the initial ratio
            have hfalse : ¬ Tracks t it.key cals it := by
              intro htracks
              have hr := (htracks rfl).1
              rw [hstep] at hr
              exact hne (hr.symm.trans (hfresh hc))
            simp [hfalse, hc, hzero]
          · have htracks : Tracks t it.key cals it := by
              intro _
              rw [hstep]
              exact ⟨hratio hc, tracks_calibrated_total hlow hhigh husage (hratio hc)⟩
            rw [ih hrest (by rwa [hstep]) (by rwa [hstep]) (by rwa [hstep]), hstep]
            simp [htracks, hc, hzero]
        · have hhead : (some it.preFlight.total ≠ some 0) = True := by simp [hpos.ne']
          rcases Nat.lt_or_ge (calState cals it.key).count 3 with hlt | hge
          · have hor : (calState cals it.key).count = 0 ∨ (calState cals it.key).ratio = t :=
              (eq_or_ne _ 0).imp_right hratio
            rw [after_sample hlow hhigh husage hpos hlt hor] at hstep
            have htracks : Tracks t it.key cals it := by
              intro _
              rw [hstep]
              refine ⟨rfl, fun hcal => ?_⟩
              have hge : 3 ≤ (calState cals it.key).count := of_decide_eq_true hcal
              omega
            rw [ih hrest (by rw [hstep]; exact hlt) (by rw [hstep]; simp) (by rw [hstep]; simp), hstep, hhead]
            simp only [htracks, hpos, decide_true, ↓reduceIte, Nat.succ_ne_zero, false_implies, implies_true,
              true_and]
            omega
          · have hc : (calState cals it.key).count ≠ 0 := by omega
            rw [after_calibrated hlow hhigh husage hpos hge (hratio hc)] at hstep
            have hfalse : ¬ Tracks t it.key cals it := by
              intro htracks
              have hr := (htracks rfl).1
              rw [hstep] at hr
              exact hne (pulled_eq_iff.mp hr)
            simp only [hfalse, hpos, decide_true, ↓reduceIte, false_and, false_iff]
            omega
      · have hstep : calState (iterate cals it) key = calState cals key := by
          rw [calState_iterate, if_neg hkey]
        have htracks : Tracks t key cals it := fun h => absurd h hkey
        rw [Under, ih hrest (by rwa [hstep]) (by rwa [hstep]) (by rwa [hstep]), hstep, estimates_cons_other its hkey]
        simp only [htracks, true_and]

/-- **The bucket of a model whose true ratio is constant keeps that ratio exactly when the ratio is 1, or
the first request is not empty and at most three requests are not.** From the fourth on the loop
feeds back an estimate that is calibrated already, and the ratio drifts to 1. -/
theorem calibration_tracks_iff (t : ℚ) (hlow : 1 / 2 ≤ t) (hhigh : t ≤ 3 / 2) (key : JsString) (cals : Cals)
    (its : List Iteration) (hfresh : cals.get? key = none) (hp : Proportional t key its) :
    Under iterate (Tracks t key) cals its ↔
      t = 1 ∨ (estimates key its).head? ≠ some 0 ∧ (estimates key its).countP (0 < ·) ≤ 3 := by
  have hcal : calState cals key = {} := by
    rw [calState, hfresh]
    rfl
  by_cases hone : t = 1
  · subst hone
    simp only [true_or, iff_true]
    apply under_tracks_one hp
    rw [hcal]
  · rw [under_tracks_iff hlow hhigh hone hp (by rw [hcal]; decide) (by simp [hcal]) (by simp [hcal]), hcal]
    simp [hone]

/-- Requests of 2 tokens by the raw estimate and 1 token by the provider. -/
def halved (n : Nat) : List Iteration :=
  List.replicate n ⟨js "anthropic/claude", { messages := 2 }, 1⟩

theorem calibration_tracks_halved :
    Under iterate (Tracks (1 / 2) (js "anthropic/claude")) .empty (halved 3) :=
  (calibration_tracks_iff (1 / 2) (by norm_num) (by norm_num) (js "anthropic/claude") .empty (halved 3) rfl
    (by decide +kernel)).mpr (Or.inr (by decide +kernel))

/-- The fourth request moves the ratio from 0.5 to 0.65. -/
theorem fourth_request_drifts :
    Proportional (1 / 2) (js "anthropic/claude") (halved 4) ∧
      ¬ Under iterate (Tracks (1 / 2) (js "anthropic/claude")) .empty (halved 4) ∧
        (calState (run iterate .empty (halved 4)) (js "anthropic/claude")).ratio = 13 / 20 := by
  decide +kernel

end WrongStack.ContextWindow

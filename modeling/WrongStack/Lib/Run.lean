import Mathlib.Data.List.Infix

/-!
# Runs of a step function

A system is a step function `step : σ → ο → σ` on states and operations. `run` folds it over a list
of operations. Every reachable state is the end of a run, so a property of all reachable states is a
property of `run step s os` for every `os`.
-/

namespace WrongStack.Lib

variable {σ ο : Type*} {step : σ → ο → σ} {I J : σ → Prop} {C : σ → ο → Prop} {s : σ}

/-- The state that the operations `os` lead to from `s`. -/
def run (step : σ → ο → σ) (s : σ) (os : List ο) : σ := os.foldl step s

@[simp] theorem run_nil : run step s [] = s := rfl

@[simp] theorem run_cons (o : ο) (os : List ο) : run step s (o :: os) = run step (step s o) os := rfl

theorem run_append (os os' : List ο) : run step s (os ++ os') = run step (run step s os) os' :=
  List.foldl_append

theorem run_concat (os : List ο) (o : ο) : run step s (os ++ [o]) = step (run step s os) o :=
  run_append os [o]

/-- Every step of the run meets `C`, a condition on the state before the step and the operation. -/
def Under (step : σ → ο → σ) (C : σ → ο → Prop) : σ → List ο → Prop
  | _, [] => True
  | s, o :: os => C s o ∧ Under step C (step s o) os

instance Under.decidable [∀ s o, Decidable (C s o)] :
    (s : σ) → (os : List ο) → Decidable (Under step C s os)
  | _, [] => inferInstanceAs (Decidable True)
  | s, o :: os =>
      have := Under.decidable (step s o) os
      inferInstanceAs (Decidable (C s o ∧ Under step C (step s o) os))

theorem under_append (os os' : List ο) :
    Under step C s (os ++ os') ↔ Under step C s os ∧ Under step C (run step s os) os' := by
  induction os generalizing s with
  | nil => simp [Under]
  | cons o os ih => simp only [List.cons_append, Under, run_cons, ih, and_assoc]

theorem under_iff_forall_concat {os : List ο} :
    Under step C s os ↔ ∀ pre o, pre ++ [o] <+: os → C (run step s pre) o := by
  induction os generalizing s with
  | nil => simp [Under]
  | cons o os ih =>
      rw [Under, ih]
      constructor
      · rintro ⟨hc, hu⟩ pre p hpre
        cases pre with
        | nil =>
            obtain ⟨rfl, -⟩ := List.cons_prefix_cons.mp hpre
            exact hc
        | cons q pre =>
            obtain ⟨rfl, htail⟩ := List.cons_prefix_cons.mp hpre
            exact hu pre p htail
      · intro h
        exact ⟨h [] o ⟨os, rfl⟩, fun pre p hpre => h (o :: pre) p (List.cons_prefix_cons.mpr ⟨rfl, hpre⟩)⟩

theorem under_congr {D : σ → ο → Prop} (h : ∀ s o, C s o ↔ D s o) {os : List ο} :
    Under step C s os ↔ Under step D s os := by
  simp only [under_iff_forall_concat, h]

theorem under_of_forall {D : ο → Prop} {os : List ο} (h : ∀ o ∈ os, D o) : Under step (fun _ o => D o) s os := by
  induction os generalizing s with
  | nil => trivial
  | cons o os ih => exact ⟨h o List.mem_cons_self, ih fun p hp => h p (List.mem_cons_of_mem o hp)⟩

theorem under_and {D : σ → ο → Prop} {os : List ο} :
    Under step (fun s o => C s o ∧ D s o) s os ↔ Under step C s os ∧ Under step D s os := by
  simp only [under_iff_forall_concat, forall_and]

/-- The run rule: what every step preserves holds at the end of every run. -/
theorem run_invariant (hstep : ∀ s o, I s → I (step s o)) (hs : I s) (os : List ο) :
    I (run step s os) := by
  induction os generalizing s with
  | nil => exact hs
  | cons o os ih => exact ih (hstep s o hs)

/-- The run rule for runs whose steps all meet a condition. -/
theorem run_invariant_under (hstep : ∀ s o, I s → C s o → I (step s o)) (hs : I s) {os : List ο}
    (h : Under step C s os) : I (run step s os) := by
  induction os generalizing s with
  | nil => exact hs
  | cons o os ih => exact ih (hstep s o hs h.1) h.2

/-- What every step of such a run meets, given what holds before it. -/
theorem under_of_invariant {D : σ → ο → Prop} (hstep : ∀ s o, I s → C s o → I (step s o))
    (hD : ∀ s o, I s → C s o → D s o) (hs : I s) {os : List ο} (h : Under step C s os) : Under step D s os := by
  induction os generalizing s with
  | nil => trivial
  | cons o os ih => exact ⟨hD s o hs h.1, ih (hstep s o hs h.1) h.2⟩

/-- Two systems that stay related step by step are related after the same operations. -/
theorem run_related {τ : Type*} {step' : τ → ο → τ} {R : σ → τ → Prop} {D : ο → Prop} {t : τ}
    (hstep : ∀ s t o, R s t → D o → R (step s o) (step' t o)) (h : R s t) {os : List ο} (hos : ∀ o ∈ os, D o) :
    R (run step s os) (run step' t os) := by
  induction os generalizing s t with
  | nil => exact h
  | cons o os ih =>
      obtain ⟨ho, hos⟩ := List.forall_mem_cons.mp hos
      exact ih (hstep s t o h ho) hos

/-- A condition that is exactly what one step needs to keep `J` (in a state that meets the
invariant `I`) is exactly what a run needs for `J` to hold in every state it reaches. -/
theorem forall_prefix_iff_under (hI : ∀ s o, I s → I (step s o))
    (hstep : ∀ s o, I s → J s → (J (step s o) ↔ C s o)) (hs : I s) (hj : J s) (os : List ο) :
    (∀ pre, pre <+: os → J (run step s pre)) ↔ Under step C s os := by
  induction os generalizing s with
  | nil => simpa [Under] using hj
  | cons o os ih =>
      constructor
      · intro h
        have hj' : J (step s o) := h [o] ⟨os, rfl⟩
        refine ⟨(hstep s o hs hj).mp hj', (ih (hI s o hs) hj').mp ?_⟩
        intro pre hpre
        exact h (o :: pre) (List.cons_prefix_cons.mpr ⟨rfl, hpre⟩)
      · rintro ⟨hc, hu⟩ pre hpre
        have hj' : J (step s o) := (hstep s o hs hj).mpr hc
        cases pre with
        | nil => exact hj
        | cons p pre =>
            obtain ⟨rfl, htail⟩ := List.cons_prefix_cons.mp hpre
            exact (ih (hI s p hs) hj').mpr hu pre htail

/-- The same for what a step establishes: from any state that meets the weaker `I`, the condition is
exactly what one step needs to lead to `J`. Where a run starts, `J` need not hold. -/
theorem forall_concat_iff_under (hstep : ∀ s o, I s → (J (step s o) ↔ C s o))
    (hweaken : ∀ s, J s → I s) (hs : I s) (os : List ο) :
    (∀ pre o, pre ++ [o] <+: os → J (run step s (pre ++ [o]))) ↔ Under step C s os := by
  induction os generalizing s with
  | nil => simp [Under]
  | cons o os ih =>
      constructor
      · intro h
        have hj : J (step s o) := h [] o ⟨os, rfl⟩
        refine ⟨(hstep s o hs).mp hj, (ih (hweaken _ hj)).mp ?_⟩
        intro pre p hpre
        exact h (o :: pre) p (List.cons_prefix_cons.mpr ⟨rfl, hpre⟩)
      · rintro ⟨hc, hu⟩ pre p hpre
        have hj : J (step s o) := (hstep s o hs).mpr hc
        cases pre with
        | nil =>
            obtain ⟨rfl, -⟩ := List.cons_prefix_cons.mp hpre
            exact hj
        | cons q pre =>
            obtain ⟨rfl, htail⟩ := List.cons_prefix_cons.mp hpre
            exact (ih (hweaken _ hj)).mpr hu pre p htail

/-! ## History variables -/

/-- A step that also updates a variable of the history, which it never reads. -/
def withHistory {γ : Type*} (step : σ → ο → σ) (upd : γ → σ → ο → γ) (sg : σ × γ) (o : ο) : σ × γ :=
  (step sg.1 o, upd sg.2 sg.1 o)

@[simp] theorem run_withHistory {γ : Type*} (upd : γ → σ → ο → γ) (g : γ) (os : List ο) :
    (run (withHistory step upd) (s, g) os).1 = run step s os := by
  induction os generalizing s g with
  | nil => rfl
  | cons o os ih => exact ih _

end WrongStack.Lib

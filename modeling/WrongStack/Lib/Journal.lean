import Mathlib.Data.List.Basic
import Mathlib.Data.List.Induction
import Mathlib.Logic.Function.Basic

/-!
# Chains

Entries in a row, each of which follows on the mark that the one before it leaves.
-/

namespace WrongStack.Lib

variable {ε κ : Type*} (follows : κ → ε → Prop) (mark : ε → κ)

/-- Each entry follows on the mark of the one before it, the first one on `start`. -/
def Chained : κ → List ε → Prop
  | _, [] => True
  | start, e :: es => follows start e ∧ Chained (mark e) es

/-- The mark that the last entry leaves. -/
def chainTip (start : κ) (es : List ε) : κ := es.foldl (fun _ e => mark e) start

@[simp] theorem chainTip_nil (start : κ) : chainTip mark start [] = start := rfl

@[simp] theorem chainTip_cons (start : κ) (e : ε) (es : List ε) :
    chainTip mark start (e :: es) = chainTip mark (mark e) es := rfl

@[simp] theorem chainTip_concat (start : κ) (es : List ε) (e : ε) : chainTip mark start (es ++ [e]) = mark e := by
  simp [chainTip]

theorem chainTip_eq_getLast? (start : κ) (es : List ε) :
    chainTip mark start es = (es.getLast?.map mark).getD start := by
  induction es using List.reverseRecOn with
  | nil => rfl
  | append_singleton es e => simp

variable {follows mark} {start : κ} {es fs : List ε}

theorem chained_append :
    Chained follows mark start (es ++ fs) ↔
      Chained follows mark start es ∧ Chained follows mark (chainTip mark start es) fs := by
  induction es generalizing start with
  | nil => simp [Chained]
  | cons e es ih => simp only [List.cons_append, Chained, chainTip_cons, ih, and_assoc]

theorem chained_concat {e : ε} :
    Chained follows mark start (es ++ [e]) ↔
      Chained follows mark start es ∧ follows (chainTip mark start es) e := by
  simp [chained_append, Chained]

end WrongStack.Lib

/-!
# Journals of a store

A store maps keys to values. A journal lists changes of it, each with the value before and after.
Undoing changes in some order leaves at each key what the last of them to touch it found there.
-/

namespace WrongStack.Lib

variable {κ ν : Type*} [DecidableEq κ]

structure Change (κ ν : Type*) where
  key : κ
  before : ν
  after : ν

namespace Change

variable {s : κ → ν} {cs ds : List (Change κ ν)} {k : κ}

def redo (s : κ → ν) (c : Change κ ν) : κ → ν := Function.update s c.key c.after

def undo (s : κ → ν) (c : Change κ ν) : κ → ν := Function.update s c.key c.before

/-- The journal is true of what happened from `s` on. -/
def Recorded (s : κ → ν) : List (Change κ ν) → Prop
  | [] => True
  | c :: cs => s c.key = c.before ∧ Recorded (redo s c) cs

instance Recorded.decidable [DecidableEq ν] (s : κ → ν) : (cs : List (Change κ ν)) → Decidable (Recorded s cs)
  | [] => inferInstanceAs (Decidable True)
  | c :: cs =>
      have := Recorded.decidable (redo s c) cs
      inferInstanceAs (Decidable (s c.key = c.before ∧ Recorded (redo s c) cs))

/-- What the first change of `k` found. -/
def firstBefore (cs : List (Change κ ν)) (k : κ) : Option ν :=
  (cs.find? fun c => c.key = k).map before

/-- What the last change of `k` found. -/
def lastBefore (cs : List (Change κ ν)) (k : κ) : Option ν := firstBefore cs.reverse k

theorem firstBefore_cons (c : Change κ ν) (cs : List (Change κ ν)) (k : κ) :
    firstBefore (c :: cs) k = if c.key = k then some c.before else firstBefore cs k := by
  unfold firstBefore
  by_cases h : c.key = k <;> simp [h]

theorem firstBefore_append (cs ds : List (Change κ ν)) (k : κ) :
    firstBefore (cs ++ ds) k = (firstBefore cs k).or (firstBefore ds k) := by
  simp [firstBefore, List.find?_append, Option.map_or]

theorem lastBefore_append (cs ds : List (Change κ ν)) (k : κ) :
    lastBefore (cs ++ ds) k = (lastBefore ds k).or (lastBefore cs k) := by
  rw [lastBefore, List.reverse_append, firstBefore_append]
  rfl

theorem firstBefore_eq_none : firstBefore cs k = none ↔ ∀ c ∈ cs, c.key ≠ k := by
  simp [firstBefore]

theorem lastBefore_eq_none : lastBefore cs k = none ↔ ∀ c ∈ cs, c.key ≠ k := by
  simp [lastBefore, firstBefore_eq_none]

theorem firstBefore_filter (p : κ → Bool) (cs : List (Change κ ν)) (k : κ) :
    firstBefore (cs.filter fun c => p c.key) k = if p k then firstBefore cs k else none := by
  unfold firstBefore
  rw [List.find?_filter]
  cases hp : p k with
  | true =>
      have hkey : ∀ c : Change κ ν, (p c.key && decide (c.key = k)) = decide (c.key = k) := by
        intro c
        by_cases h : c.key = k <;> simp [h, hp]
      simp only [Bool.decide_and, Bool.decide_eq_true, hkey, ↓reduceIte]
  | false =>
      have hkey : ∀ c : Change κ ν, (p c.key && decide (c.key = k)) = false := by
        intro c
        by_cases h : c.key = k <;> simp [h, hp]
      simp [hkey]

theorem lastBefore_filter (p : κ → Bool) (cs : List (Change κ ν)) (k : κ) :
    lastBefore (cs.filter fun c => p c.key) k = if p k then lastBefore cs k else none := by
  rw [lastBefore, ← List.filter_reverse, firstBefore_filter]
  rfl

theorem foldl_undo_apply (s : κ → ν) (cs : List (Change κ ν)) (k : κ) :
    cs.foldl undo s k = (lastBefore cs k).getD (s k) := by
  induction cs generalizing s with
  | nil => rfl
  | cons c cs ih =>
      have hcons : lastBefore (c :: cs) k = (lastBefore cs k).or (lastBefore [c] k) :=
        lastBefore_append [c] cs k
      rw [List.foldl_cons, ih, hcons]
      cases lastBefore cs k with
      | some v => rfl
      | none =>
          by_cases h : c.key = k
          · simp [undo, lastBefore, firstBefore_cons, h]
          · simp [undo, lastBefore, firstBefore_cons, h, Function.update_of_ne (Ne.symm h)]
            rfl

theorem recorded_append :
    Recorded s (cs ++ ds) ↔ Recorded s cs ∧ Recorded (cs.foldl redo s) ds := by
  induction cs generalizing s with
  | nil => simp [Recorded]
  | cons c cs ih => simp only [List.cons_append, Recorded, List.foldl_cons, ih, and_assoc]

/-- The first change of a key found what was there at the start; an unchanged key is as it was. -/
theorem Recorded.start_apply (h : Recorded s cs) (k : κ) :
    s k = (firstBefore cs k).getD (cs.foldl redo s k) := by
  induction cs generalizing s with
  | nil => rfl
  | cons c cs ih =>
      rw [firstBefore_cons]
      by_cases hk : c.key = k
      · rw [if_pos hk, Option.getD_some, ← h.1, hk]
      · rw [if_neg hk, List.foldl_cons, ← ih h.2, redo, Function.update_of_ne (Ne.symm hk)]

end Change

end WrongStack.Lib

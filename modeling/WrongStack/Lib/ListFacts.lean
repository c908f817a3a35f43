import Mathlib.Data.List.Basic
import Mathlib.Data.List.Nodup
import Mathlib.Data.List.Perm.Basic

/-!
# Facts about lists

Lists whose elements have distinct keys, and the neighbours of an element.
-/

namespace WrongStack.Lib

variable {α β : Type*} [DecidableEq β] {f : α → β} {l : List α}

/-! ## Distinct keys -/

theorem perm_cons_filter_ne {a : α} (hn : (l.map f).Nodup) (ha : a ∈ l) :
    l.Perm (a :: l.filter fun x => decide (f x ≠ f a)) := by
  induction l with
  | nil => cases ha
  | cons b l ih =>
      rw [List.map_cons, List.nodup_cons] at hn
      rcases List.mem_cons.mp ha with rfl | hmem
      · have hall : l.filter (fun x => decide (f x ≠ f a)) = l := by
          rw [List.filter_eq_self]
          intro x hx
          have hne : f x ≠ f a := fun e => hn.1 (e ▸ List.mem_map_of_mem (f := f) hx)
          simpa using hne
        rw [List.filter_cons_of_neg (by simp), hall]
      · have hne : f b ≠ f a := fun e => hn.1 (e ▸ List.mem_map_of_mem (f := f) hmem)
        simp only [List.filter_cons, hne, ne_eq, not_false_eq_true, decide_true, ↓reduceIte]
        exact ((ih hn.2 hmem).cons b).trans (List.Perm.swap a b _)

theorem length_filter_ne {a : α} (hn : (l.map f).Nodup) (ha : a ∈ l) :
    (l.filter fun x => decide (f x ≠ f a)).length = l.length - 1 := by
  have h := (perm_cons_filter_ne hn ha).length_eq
  rw [List.length_cons] at h
  omega

theorem nodup_eraseDups [BEq α] [LawfulBEq α] (as : List α) : as.eraseDups.Nodup := by
  induction hn : as.length using Nat.strongRecOn generalizing as with
  | ind n ih =>
      subst hn
      cases as with
      | nil => exact List.nodup_nil
      | cons a as =>
          rw [List.eraseDups_cons, List.nodup_cons, List.mem_eraseDups, List.mem_filter]
          refine ⟨fun h => by simp at h, ih _ ?_ _ rfl⟩
          exact Nat.lt_succ_of_le (List.length_filter_le _ _)

theorem filterMap_ite_none {γ : Type*} (g : α → γ) (p : γ → Bool) (as : List α) :
    (as.filterMap fun a => if p (g a) then none else some (g a)) =
      (as.map g).filter fun c => !p c := by
  induction as with
  | nil => rfl
  | cons a as ih => cases h : p (g a) <;> simp [h, ih]

/-! ## Neighbours -/

/-- The elements of a list, each with the one before it and the one after it; `prev` is what comes
before the first one. -/
def neighbours (prev : Option α) : List α → List (Option α × α × Option α)
  | [] => []
  | a :: as => (prev, a, as.head?) :: neighbours (some a) as

@[simp] theorem neighbours_nil (prev : Option α) : neighbours prev [] = [] := rfl

@[simp] theorem neighbours_cons (prev : Option α) (a : α) (as : List α) :
    neighbours prev (a :: as) = (prev, a, as.head?) :: neighbours (some a) as := rfl

theorem map_neighbours (prev : Option α) (as : List α) : (neighbours prev as).map (·.2.1) = as := by
  induction as generalizing prev with
  | nil => rfl
  | cons a as ih => rw [neighbours_cons, List.map_cons, ih]

theorem mem_of_mem_neighbours {prev p n : Option α} {a : α} {as : List α}
    (h : (p, a, n) ∈ neighbours prev as) : a ∈ as := by
  induction as generalizing prev with
  | nil => cases h
  | cons b bs ih =>
      rcases List.mem_cons.mp h with h | h
      · simp only [Prod.mk.injEq] at h
        exact h.2.1 ▸ List.mem_cons_self
      · exact List.mem_cons_of_mem _ (ih h)

end WrongStack.Lib

/-!
# Words that occur in order

`Occurs ws segs`: the words `ws` can be found in the segments, one after the other and without overlap.
A segment may hold several words and other text between them.
-/

namespace WrongStack.Lib

variable {α β : Type*} {ws vs : List (List α)} {segs segs' : List (List α)} {seg w pre : List α}

inductive Occurs : List (List α) → List (List α) → Prop
  | nil (segs : List (List α)) : Occurs [] segs
  | skip {ws : List (List α)} {seg : List α} {segs : List (List α)} (h : Occurs ws segs) :
      Occurs ws (seg :: segs)
  | find {ws : List (List α)} {pre w rest : List α} {segs : List (List α)} (h : Occurs ws (rest :: segs)) :
      Occurs (w :: ws) ((pre ++ w ++ rest) :: segs)

namespace Occurs

theorem prepend (h : Occurs ws (seg :: segs)) (pre : List α) : Occurs ws ((pre ++ seg) :: segs) := by
  cases h with
  | nil => exact .nil _
  | skip h => exact .skip h
  | @find ws pre' w rest _ h =>
      have heq : pre ++ (pre' ++ w ++ rest) = pre ++ pre' ++ w ++ rest := by simp only [List.append_assoc]
      rw [heq]
      exact .find h

theorem cons (h : Occurs ws (seg :: segs)) (w : List α) : Occurs (w :: ws) ((w ++ seg) :: segs) :=
  @find _ ws [] w seg segs h

theorem whole (h : Occurs ws segs) (w : List α) : Occurs (w :: ws) (w :: segs) := by
  have h' : Occurs ws ([] :: segs) := .skip h
  simpa using h'.cons w

theorem skips (h : Occurs ws segs) (front : List (List α)) : Occurs ws (front ++ segs) := by
  induction front with
  | nil => exact h
  | cons seg front ih => exact .skip ih

theorem append (h : Occurs ws segs) (h' : Occurs vs segs') : Occurs (ws ++ vs) (segs ++ segs') := by
  induction h with
  | nil segs => exact h'.skips segs
  | skip _ ih => exact .skip ih
  | find _ ih => exact .find ih

theorem flatMap {f g : β → List (List α)} {xs : List β} (h : ∀ x ∈ xs, Occurs (f x) (g x)) :
    Occurs (xs.flatMap f) (xs.flatMap g) := by
  induction xs with
  | nil => exact .nil []
  | cons x xs ih =>
      rw [List.flatMap_cons, List.flatMap_cons]
      exact (h x List.mem_cons_self).append (ih fun y hy => h y (List.mem_cons_of_mem x hy))

/-- Pieces that are strung together, of which some are the words. -/
theorem flatMap_filterMap {word : β → Option (List α)} {piece : β → List α} {xs : List β}
    (h : ∀ x ∈ xs, ∀ w, word x = some w → piece x = w) :
    Occurs (xs.filterMap word) [xs.flatMap piece] := by
  induction xs with
  | nil => exact .nil _
  | cons x xs ih =>
      have hrest := ih fun y hy => h y (List.mem_cons_of_mem x hy)
      rw [List.flatMap_cons]
      cases hx : word x with
      | none =>
          rw [List.filterMap_cons_none hx]
          exact hrest.prepend _
      | some w =>
          rw [List.filterMap_cons_some hx, h x List.mem_cons_self w hx]
          exact hrest.cons w

theorem joined (ws : List (List α)) : Occurs ws [ws.flatten] := by
  induction ws with
  | nil => exact .nil _
  | cons w ws ih => exact ih.cons w

theorem refl (ws : List (List α)) : Occurs ws ws := by
  induction ws with
  | nil => exact .nil _
  | cons w ws ih => exact ih.whole w

theorem of_sublist (h : Occurs ws segs) (hsub : vs.Sublist ws) : Occurs vs segs := by
  induction h generalizing vs with
  | nil segs =>
      rw [List.sublist_nil.mp hsub]
      exact .nil segs
  | skip _ ih => exact .skip (ih hsub)
  | @find ws pre w rest _ _ ih =>
      cases hsub with
      | cons _ hsub =>
          rw [List.append_assoc]
          exact ((ih hsub).prepend w).prepend pre
      | cons_cons _ hsub => exact .find (ih hsub)

/-- The length of all the words. -/
def total (ws : List (List α)) : Nat := ws.flatten.length

@[simp] theorem total_nil : total ([] : List (List α)) = 0 := rfl

@[simp] theorem total_cons : total (w :: ws) = w.length + total ws := by simp [total]

theorem total_append : total (ws ++ vs) = total ws + total vs := by simp [total]

/-- Without overlap the words are no longer than the segments. -/
theorem total_le (h : Occurs ws segs) : total ws ≤ total segs := by
  induction h with
  | nil => exact Nat.zero_le _
  | skip _ ih =>
      rw [total_cons]
      exact Nat.le_add_left_of_le ih
  | find _ ih =>
      simp only [total_cons, List.length_append] at ih ⊢
      omega

end Occurs

end WrongStack.Lib

/-!
# Lazy copies

A loop that goes through a list and replaces some of its elements, in a copy that is made at the first
replacement: `copy ??= original.slice(); copy[i] = v`. `Tracks` is its invariant.
-/

namespace WrongStack.Lib

variable {α : Type*} {original : List α} {p : α → Bool} {f : α → α} {k : Nat} {copy : Option (List α)} {x : α}

/-- `copy ??= original.slice(); copy[i] = v` -/
def writeCopy (original : List α) (copy : Option (List α)) (i : Nat) (v : α) : Option (List α) :=
  some ((copy.getD original).set i v)

/-- The first `k` elements have been dealt with: those that meet `p` are replaced by `f`, and there is a copy if
there is such an element. -/
def Tracks (original : List α) (p : α → Bool) (f : α → α) (k : Nat) (copy : Option (List α)) : Prop :=
  copy = if (original.take k).any p then
    some ((original.take k).map (fun x => if p x then f x else x) ++ original.drop k) else none

theorem map_replace_of_none {xs : List α} (h : xs.any p = false) : xs.map (fun x => if p x then f x else x) = xs := by
  rw [List.any_eq_false] at h
  conv_rhs => rw [← List.map_id xs]
  exact List.map_congr_left fun x hx => if_neg (h x hx)

/-- Nothing is to be replaced among the elements that are passed over. -/
theorem Tracks.skip (h : (original.take k).any p = false) : Tracks original p f k none := by
  unfold Tracks
  rw [h]
  rfl

/-- What a read of the copy, or else of the original, finds. -/
theorem Tracks.getD (h : Tracks original p f k copy) :
    copy.getD original = (original.take k).map (fun x => if p x then f x else x) ++ original.drop k := by
  unfold Tracks at h
  rw [h]
  cases hany : (original.take k).any p with
  | true => rfl
  | false =>
      rw [map_replace_of_none hany]
      exact (List.take_append_drop k original).symm

theorem take_succ_any (hx : original[k]? = some x) :
    (original.take (k + 1)).any p = ((original.take k).any p || p x) := by
  rw [List.take_add_one, hx, List.any_append]
  simp

theorem Tracks.keep (h : Tracks original p f k copy) (hx : original[k]? = some x) (hp : p x = false) :
    Tracks original p f (k + 1) copy := by
  obtain ⟨hlt, hget⟩ := List.getElem?_eq_some_iff.mp hx
  unfold Tracks at h ⊢
  rw [take_succ_any hx, hp, Bool.or_false, h]
  split
  · rw [List.take_add_one, hx, List.map_append, List.append_assoc, List.drop_eq_getElem_cons hlt, hget]
    simp [hp]
  · rfl

theorem Tracks.write (h : Tracks original p f k copy) (hx : original[k]? = some x) (hp : p x = true) :
    Tracks original p f (k + 1) (writeCopy original copy k (f x)) := by
  obtain ⟨hlt, hget⟩ := List.getElem?_eq_some_iff.mp hx
  have hlength : ((original.take k).map fun x => if p x then f x else x).length = k := by
    rw [List.length_map, List.length_take]
    omega
  unfold writeCopy
  rw [h.getD]
  unfold Tracks
  rw [take_succ_any hx, hp, Bool.or_true, if_pos rfl, List.set_append_right _ _ (Nat.le_of_eq hlength), hlength, Nat.sub_self,
    List.drop_eq_getElem_cons hlt, List.set_cons_zero, List.take_add_one, hx, List.map_append, List.append_assoc]
  simp [hp]

end WrongStack.Lib

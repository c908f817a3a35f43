import Mathlib.Algebra.Order.Group.Nat
import Mathlib.Logic.Relation
import Mathlib.Data.List.Basic
import Mathlib.Data.List.Nodup

/-!
# Depth-first walks

A graph is the function `next` that lists the successors of a vertex. Three walks decide or collect
what a vertex reaches: `walk` keeps its own stack, `search` recurses until it meets its target and
`visit` recurses and lists what it has finished. Each has fuel. `unseen` counts the vertices that
may still be expanded, and with that much fuel a walk is complete.
-/

namespace WrongStack.Lib

variable {κ : Type*} {next : κ → List κ}

def Reaches (next : κ → List κ) : κ → κ → Prop := Relation.ReflTransGen fun a b => b ∈ next a

/-- No edge leads to a vertex that reaches its source. -/
def Acyclic (next : κ → List κ) : Prop := ∀ a b, b ∈ next a → ¬ Reaches next b a

theorem Reaches.refl (a : κ) : Reaches next a a := Relation.ReflTransGen.refl

theorem Reaches.cons {a b c : κ} (h : b ∈ next a) (hr : Reaches next b c) : Reaches next a c :=
  Relation.ReflTransGen.head h hr

theorem Reaches.trans {a b c : κ} (h : Reaches next a b) (hr : Reaches next b c) :
    Reaches next a c :=
  Relation.ReflTransGen.trans h hr

theorem Reaches.mono {next' : κ → List κ} (h : ∀ a, next a ⊆ next' a) {a b : κ}
    (hr : Reaches next a b) : Reaches next' a b :=
  Relation.ReflTransGen.mono (fun a _ hb => h a hb) _ _ hr

/-- A map that takes edges to edges takes paths to paths. -/
theorem Reaches.map {ι : Type*} {next' : ι → List ι} {f : κ → ι}
    (hf : ∀ a, ∀ b ∈ next a, f b ∈ next' (f a)) {a b : κ} (hr : Reaches next a b) :
    Reaches next' (f a) (f b) := by
  induction hr with
  | refl => exact Reaches.refl _
  | tail _ hbc ih => exact ih.tail (hf _ _ hbc)

/-- What is reached from a set closed under `next` is in it. -/
theorem Reaches.mem_of_closed {V : List κ} (hV : ∀ v ∈ V, ∀ w ∈ next v, w ∈ V) {a b : κ}
    (hr : Reaches next a b) (ha : a ∈ V) : b ∈ V := by
  induction hr with
  | refl => exact ha
  | tail _ hbc ih => exact hV _ ih _ hbc

/-- New edges from one vertex close a cycle only if one of their targets already reached it. -/
theorem Acyclic.add_edges {next' : κ → List κ} {src : κ} {tgts : List κ} (h : Acyclic next)
    (hsub : ∀ a b, b ∈ next' a → b ∈ next a ∨ (a = src ∧ b ∈ tgts)) (hr : ∀ t ∈ tgts, ¬ Reaches next t src) :
    Acyclic next' := by
  -- a path of the new graph is one of the old graph, or it runs through a new edge
  have hsplit : ∀ a b, Reaches next' a b →
      Reaches next a b ∨ (Reaches next a src ∧ ∃ t ∈ tgts, Reaches next t b) := by
    intro a b hab
    induction hab with
    | refl => exact Or.inl (Reaches.refl a)
    | tail _ hbc ih =>
        rcases hsub _ _ hbc with hold | ⟨rfl, hnew⟩
        · rcases ih with hp | ⟨hs, t, ht, hreach⟩
          · exact Or.inl (hp.tail hold)
          · exact Or.inr ⟨hs, t, ht, hreach.tail hold⟩
        · rcases ih with hp | ⟨hs, t, ht, hreach⟩
          · exact Or.inr ⟨hp, _, hnew, Reaches.refl _⟩
          · exact absurd hreach (hr t ht)
  intro a b hb hba
  rcases hsub a b hb with hold | ⟨rfl, hnew⟩
  · rcases hsplit b a hba with hp | ⟨hs, t, ht, hreach⟩
    · exact h a b hold hp
    · exact hr t ht (hreach.trans (Reaches.cons hold hs))
  · rcases hsplit b a hba with hp | ⟨hs, -⟩
    · exact hr b hnew hp
    · exact hr b hnew hs

/-- A new edge closes a cycle only if its target already reached its source. -/
theorem Acyclic.add_edge {next' : κ → List κ} {src tgt : κ} (h : Acyclic next)
    (hsub : ∀ a b, b ∈ next' a → b ∈ next a ∨ (a = src ∧ b = tgt)) (hr : ¬ Reaches next tgt src) :
    Acyclic next' :=
  h.add_edges (fun a b hb => (hsub a b hb).imp_right fun hnew => ⟨hnew.1, List.mem_singleton.mpr hnew.2⟩)
    fun _ ht => List.mem_singleton.mp ht ▸ hr

theorem Acyclic.mono {next' : κ → List κ} (h : Acyclic next) (hsub : ∀ a, next' a ⊆ next a) :
    Acyclic next' :=
  fun a b hb hr => h a b (hsub a hb) (hr.mono hsub)

theorem acyclic_of_rank (rank : κ → ℕ) (h : ∀ a, ∀ b ∈ next a, rank b < rank a) : Acyclic next := by
  have hle : ∀ {a b}, Reaches next a b → rank b ≤ rank a := by
    intro a b hr
    induction hr with
    | refl => exact le_rfl
    | tail _ hstep ih => exact (h _ _ hstep).le.trans ih
  intro a b hb hr
  exact absurd (h a b hb) (Nat.not_lt.mpr (hle hr))

/-! ## What a walk has expanded -/

/-- Between `seen` and `seen'` a walk has expanded everything it added. -/
structure Explored (next : κ → List κ) (seen seen' : List κ) : Prop where
  mono : seen ⊆ seen'
  closed : ∀ v ∈ seen', v ∉ seen → ∀ w ∈ next v, w ∈ seen'

theorem Explored.refl (seen : List κ) : Explored next seen seen :=
  ⟨fun _ h => h, fun _ hv hn => absurd hv hn⟩

theorem Explored.trans {s₁ s₂ s₃ : List κ} (h : Explored next s₁ s₂) (h' : Explored next s₂ s₃) :
    Explored next s₁ s₃ := by
  refine ⟨fun v hv => h'.mono (h.mono hv), ?_⟩
  intro v hv hn w hw
  by_cases hm : v ∈ s₂
  · exact h'.mono (h.closed v hm hn w hw)
  · exact h'.closed v hv hm w hw

/-- Expanding a vertex: it is marked first, then its successors are walked. -/
theorem Explored.of_cons {x : κ} {seen seen' : List κ} (h : Explored next (x :: seen) seen')
    (hx : ∀ w ∈ next x, w ∈ seen') : Explored next seen seen' := by
  refine ⟨fun v hv => h.mono (List.mem_cons_of_mem x hv), ?_⟩
  intro v hv hn
  by_cases hvx : v = x
  · exact hvx ▸ hx
  · exact h.closed v hv (by simp [hvx, hn])

theorem Explored.mem_of_reaches {x y : κ} {seen : List κ} (h : Explored next [] seen) (hx : x ∈ seen)
    (hr : Reaches next x y) : y ∈ seen :=
  hr.mem_of_closed (fun v hv => h.closed v hv List.not_mem_nil) hx

/-- Walk from each vertex of a list until one finds its target, handing on what was seen. -/
def anyOf (go : κ → List κ → Bool × List κ) : List κ → List κ → Bool × List κ
  | [], seen => (false, seen)
  | y :: ys, seen =>
      match go y seen with
      | (true, seen) => (true, seen)
      | (false, seen) => anyOf go ys seen

theorem anyOf_true {go : κ → List κ → Bool × List κ} {ys seen : List κ}
    (h : (anyOf go ys seen).1 = true) : ∃ y ∈ ys, ∃ seen, (go y seen).1 = true := by
  induction ys generalizing seen with
  | nil => cases h
  | cons y ys ih =>
      rw [anyOf] at h
      split at h
      · rename_i hgo
        exact ⟨y, List.mem_cons_self, seen, by rw [hgo]⟩
      · obtain ⟨z, hz, hgo⟩ := ih h
        exact ⟨z, List.mem_cons_of_mem y hz, hgo⟩

/-- What a fruitless walk from each of `ys` leaves behind. -/
theorem anyOf_false {go : κ → List κ → Bool × List κ} {P : List κ → Prop} {target : κ}
    {ys seen : List κ} (hP : ∀ s s', Explored next s s' → P s → P s')
    (hgo : ∀ y ∈ ys, ∀ s, P s → target ∉ s → (go y s).1 = false →
      Explored next s (go y s).2 ∧ y ∈ (go y s).2 ∧ target ∉ (go y s).2)
    (hseen : P seen) (htarget : target ∉ seen) (h : (anyOf go ys seen).1 = false) :
    Explored next seen (anyOf go ys seen).2 ∧ (∀ y ∈ ys, y ∈ (anyOf go ys seen).2) ∧
      target ∉ (anyOf go ys seen).2 := by
  induction ys generalizing seen with
  | nil => exact ⟨Explored.refl seen, by simp, htarget⟩
  | cons y ys ih =>
      rw [anyOf] at h ⊢
      split at h
      · cases h
      · rename_i seen' heq
        obtain ⟨he, hy, ht⟩ := hgo y List.mem_cons_self seen hseen htarget (by rw [heq])
        rw [heq] at he hy ht
        obtain ⟨he', hys, ht'⟩ := ih (fun z hz => hgo z (List.mem_cons_of_mem y hz))
          (hP _ _ he hseen) ht h
        refine ⟨he.trans he', ?_, ht'⟩
        intro z hz
        rcases List.mem_cons.mp hz with rfl | hz
        · exact he'.mono hy
        · exact hys z hz

/-- `st'` is what walks make of `st`: what they marked is expanded and listed. -/
structure Visited (next : κ → List κ) (st st' : List κ × List κ) : Prop where
  explored : Explored next st.1 st'.1
  keeps : st.2 ⊆ st'.2
  listed : ∀ v ∈ st'.1, v ∉ st.1 → v ∈ st'.2

theorem Visited.refl (st : List κ × List κ) : Visited next st st :=
  ⟨Explored.refl _, fun _ h => h, fun _ hv hn => absurd hv hn⟩

theorem Visited.trans {st₁ st₂ st₃ : List κ × List κ} (h : Visited next st₁ st₂)
    (h' : Visited next st₂ st₃) : Visited next st₁ st₃ := by
  refine ⟨h.explored.trans h'.explored, fun v hv => h'.keeps (h.keeps hv), ?_⟩
  intro v hv hn
  by_cases hm : v ∈ st₂.1
  · exact h'.keeps (h.listed v hm hn)
  · exact h'.listed v hv hm

/-! ## Post-order -/

/-- Every vertex is listed once, after its successors. -/
structure PostOrder (next : κ → List κ) (order : List κ) : Prop where
  nodup : order.Nodup
  after : ∀ pre v post, order = pre ++ v :: post → ∀ w ∈ next v, w ∈ pre

theorem PostOrder.nil : PostOrder next [] :=
  ⟨List.nodup_nil, fun pre _ _ h => absurd h.symm (List.append_ne_nil_of_right_ne_nil pre (List.cons_ne_nil _ _))⟩

theorem PostOrder.concat {order : List κ} {x : κ} (h : PostOrder next order) (hx : x ∉ order)
    (hnext : ∀ w ∈ next x, w ∈ order) : PostOrder next (order ++ [x]) := by
  refine ⟨List.nodup_append.mpr ⟨h.nodup, List.nodup_singleton x, fun a ha b hb hab => hx ?_⟩, ?_⟩
  · rw [← List.mem_singleton.mp hb, ← hab]
    exact ha
  · intro pre v post heq w hw
    rcases List.eq_nil_or_concat post with rfl | ⟨post, y, rfl⟩
    · obtain ⟨rfl, hv⟩ := List.append_inj' heq rfl
      cases hv
      exact hnext w hw
    · rw [List.concat_eq_append, ← List.cons_append, ← List.append_assoc] at heq
      exact h.after pre v post (List.append_inj' heq rfl).1 w hw

/-- A walk from `x` in an acyclic graph: all that is marked is listed, or it is being expanded and leads to `x`. -/
structure Listed (next : κ → List κ) (st : List κ × List κ) (x : κ) : Prop where
  order : PostOrder next st.2
  marked : st.2 ⊆ st.1
  pending : ∀ v ∈ st.1, v ∈ st.2 ∨ Reaches next v x

/-- A walk leaves behind what it started from, and all that it marks is listed. -/
theorem Listed.later {st st' : List κ × List κ} {x : κ} (h : Listed next st x) (hv : Visited next st st')
    (horder : PostOrder next st'.2) (hmarked : st'.2 ⊆ st'.1) : Listed next st' x := by
  refine ⟨horder, hmarked, fun v hmem => ?_⟩
  by_cases hold : v ∈ st.1
  · exact (h.pending v hold).imp_left fun hlisted => hv.keeps hlisted
  · exact Or.inl (hv.listed v hmem hold)

theorem Listed.edge {st : List κ × List κ} {x y : κ} (h : Listed next st x) (hy : y ∈ next x) : Listed next st y :=
  ⟨h.order, h.marked, fun v hv => (h.pending v hv).imp_right fun hr => hr.tail hy⟩

/-! ## What is left to expand -/

section Fuel

variable [DecidableEq κ] {keys : List κ}

/-- How many of the vertices `keys` are not in `seen`. -/
def unseen (keys seen : List κ) : Nat := (keys.filter fun k => decide (k ∉ seen)).length

theorem unseen_le {seen : List κ} : unseen keys seen ≤ keys.length := List.length_filter_le _ _

theorem unseen_mono {seen seen' : List κ} (h : seen ⊆ seen') : unseen keys seen' ≤ unseen keys seen := by
  refine (List.monotone_filter_right keys ?_).length_le
  intro k hk
  simp only [decide_eq_true_eq] at hk ⊢
  exact fun hs => hk (h hs)

theorem unseen_cons_lt {seen : List κ} {x : κ} (hx : x ∈ keys) (hs : x ∉ seen) :
    unseen keys (x :: seen) < unseen keys seen := by
  induction keys with
  | nil => cases hx
  | cons k keys ih =>
      have hle : unseen keys (x :: seen) ≤ unseen keys seen := unseen_mono (List.subset_cons_self x seen)
      by_cases hk : k = x
      · subst hk
        simp only [unseen, List.filter_cons, List.mem_cons, true_or, not_true_eq_false, decide_false,
          Bool.false_eq_true, ↓reduceIte, hs, not_false_eq_true, decide_true, List.length_cons] at hle ⊢
        omega
      · have hmem : x ∈ keys := (List.mem_cons.mp hx).resolve_left fun e => hk e.symm
        have hlt := ih hmem
        by_cases hks : k ∈ seen
        · simpa [unseen, List.filter_cons, hk, hks] using hlt
        · simpa [unseen, List.filter_cons, hk, hks] using hlt

/-- A set of vertices of a finite acyclic graph has one with no successor in the set. -/
theorem Acyclic.exists_sink (h : Acyclic next) {P : κ → Prop} (hkeys : ∀ x, P x → x ∈ keys) {x : κ}
    (hx : P x) : ∃ y, P y ∧ ∀ z ∈ next y, ¬ P z := by
  by_contra hno
  push Not at hno
  -- a path inside the set never comes back to where it was, and the vertices run out
  have hpath : ∀ n (seen : List κ) (x : κ), P x → (∀ v ∈ seen, ∃ w ∈ next v, Reaches next w x) →
      unseen keys seen ≤ n → False := by
    intro n
    induction n with
    | zero =>
        intro seen x hx hseen hle
        have hnot : x ∉ seen := fun hm => by
          obtain ⟨w, hw, hr⟩ := hseen x hm
          exact h x w hw hr
        have := unseen_cons_lt (hkeys x hx) hnot
        omega
    | succ n ih =>
        intro seen x hx hseen hle
        have hnot : x ∉ seen := fun hm => by
          obtain ⟨w, hw, hr⟩ := hseen x hm
          exact h x w hw hr
        have hlt := unseen_cons_lt (hkeys x hx) hnot
        obtain ⟨y, hy, hPy⟩ := hno x hx
        refine ih (x :: seen) y hPy ?_ (by omega)
        intro v hv
        rcases List.mem_cons.mp hv with rfl | hv
        · exact ⟨y, hy, Reaches.refl y⟩
        · obtain ⟨w, hw, hr⟩ := hseen v hv
          exact ⟨w, hw, hr.trans (Reaches.cons hy (Reaches.refl y))⟩
  exact hpath (unseen keys []) [] x hx (by simp) le_rfl

/-! ## The walk with a stack -/

/-- Pop, stop at `goal`, skip what was visited, push the successors. The head of `stack` is its
top. -/
def walk (next : κ → List κ) (goal : κ) : Nat → List κ → List κ → Bool
  | 0, _, _ => false
  | _ + 1, [], _ => false
  | fuel + 1, current :: stack, visited =>
      if current = goal then true
      else if current ∈ visited then walk next goal fuel stack visited
      else walk next goal fuel ((next current).reverse ++ stack) (current :: visited)

/-- The pushes that are still to come. -/
def pushes (next : κ → List κ) (keys visited : List κ) : Nat :=
  ((keys.filter fun k => !visited.contains k).flatMap next).length

theorem pushes_keys_cons (next : κ → List κ) (k : κ) (keys visited : List κ) :
    pushes next (k :: keys) visited =
      (if k ∈ visited then 0 else (next k).length) + pushes next keys visited := by
  by_cases hv : k ∈ visited
  · simp [pushes, hv]
  · simp [pushes, hv]

theorem pushes_cons_le {visited : List κ} {x : κ} :
    pushes next keys (x :: visited) ≤ pushes next keys visited := by
  induction keys with
  | nil => exact le_refl _
  | cons k keys ih =>
      rw [pushes_keys_cons, pushes_keys_cons]
      refine Nat.add_le_add ?_ ih
      by_cases hv : k ∈ visited
      · rw [if_pos (List.mem_cons_of_mem x hv)]
        exact Nat.zero_le _
      · rw [if_neg hv]
        split
        · exact Nat.zero_le _
        · exact le_refl _

theorem pushes_cons (next : κ → List κ) {visited : List κ} {x : κ} (hx : x ∈ keys) (hv : x ∉ visited) :
    pushes next keys (x :: visited) + (next x).length ≤ pushes next keys visited := by
  induction keys with
  | nil => cases hx
  | cons k keys ih =>
      rw [pushes_keys_cons, pushes_keys_cons]
      by_cases hk : k = x
      · subst hk
        have hle : pushes next keys (k :: visited) ≤ pushes next keys visited := pushes_cons_le
        rw [if_pos List.mem_cons_self, if_neg hv]
        omega
      · have hlt := ih ((List.mem_cons.mp hx).resolve_left fun e => hk e.symm)
        have hmem : k ∈ x :: visited ↔ k ∈ visited := by simp [hk]
        simp only [hmem]
        omega

theorem walk_sound {goal : κ} {fuel : Nat} {stack visited : List κ}
    (h : walk next goal fuel stack visited = true) : ∃ x ∈ stack, Reaches next x goal := by
  induction fuel generalizing stack visited with
  | zero => cases h
  | succ fuel ih =>
      cases stack with
      | nil => cases h
      | cons current stack =>
          rw [walk] at h
          split at h
          · rename_i hgoal
            exact ⟨current, List.mem_cons_self, hgoal ▸ Reaches.refl current⟩
          · split at h
            · obtain ⟨x, hx, hr⟩ := ih h
              exact ⟨x, List.mem_cons_of_mem current hx, hr⟩
            · obtain ⟨x, hx, hr⟩ := ih h
              rcases List.mem_append.mp hx with hn | hs
              · exact ⟨current, List.mem_cons_self, Reaches.cons (List.mem_reverse.mp hn) hr⟩
              · exact ⟨x, List.mem_cons_of_mem current hs, hr⟩

/-- With fuel for every pop, a walk that does not find `goal` has visited all it could reach. -/
theorem walk_complete {goal : κ} (hkeys : ∀ x, next x ≠ [] → x ∈ keys) {fuel : Nat}
    {stack visited : List κ} (hfuel : stack.length + pushes next keys visited < fuel)
    (hgoal : goal ∉ visited) (hclosed : ∀ v ∈ visited, ∀ w ∈ next v, w ∈ visited ++ stack)
    (h : walk next goal fuel stack visited = false) :
    ∀ x ∈ visited ++ stack, ¬ Reaches next x goal := by
  induction fuel generalizing stack visited with
  | zero => omega
  | succ fuel ih =>
      cases stack with
      | nil =>
          simp only [List.append_nil] at hclosed ⊢
          exact fun x hx hr => hgoal (hr.mem_of_closed hclosed hx)
      | cons current stack =>
          rw [walk] at h
          split at h
          · cases h
          · rename_i hne
            split at h
            · rename_i hv
              have hsub : ∀ x ∈ visited ++ current :: stack, x ∈ visited ++ stack := by
                intro x hx
                rcases List.mem_append.mp hx with hx | hx
                · exact List.mem_append_left _ hx
                · rcases List.mem_cons.mp hx with rfl | hx
                  · exact List.mem_append_left _ hv
                  · exact List.mem_append_right _ hx
              have hall := ih (by simp only [List.length_cons] at hfuel; omega) hgoal
                (fun v hv w hw => hsub w (hclosed v hv w hw)) h
              exact fun x hx => hall x (hsub x hx)
            · rename_i hv
              have hsub : ∀ x ∈ visited ++ current :: stack,
                  x ∈ current :: visited ++ ((next current).reverse ++ stack) := by
                intro x hx
                simp only [List.mem_append, List.mem_cons, List.mem_reverse] at hx ⊢
                tauto
              have hpush : (next current).length + pushes next keys (current :: visited) ≤
                  pushes next keys visited := by
                by_cases hnil : next current = []
                · rw [hnil, List.length_nil, Nat.zero_add]
                  exact pushes_cons_le
                · have := pushes_cons next (hkeys current hnil) hv
                  omega
              have hall := ih (by simp only [List.length_append, List.length_reverse,
                  List.length_cons] at hfuel ⊢; omega)
                (by simp [hgoal, Ne.symm hne]) (by
                  intro v hmem w hw
                  rcases List.mem_cons.mp hmem with rfl | hmem
                  · simp [hw]
                  · exact hsub w (hclosed v hmem w hw)) h
              exact fun x hx => hall x (hsub x hx)

theorem walk_iff {goal : κ} (hkeys : ∀ x, next x ≠ [] → x ∈ keys) {fuel : Nat} {stack : List κ}
    (hfuel : stack.length + (keys.flatMap next).length < fuel) :
    walk next goal fuel stack [] = true ↔ ∃ x ∈ stack, Reaches next x goal := by
  refine ⟨walk_sound, ?_⟩
  rintro ⟨x, hx, hr⟩
  by_contra hf
  have hpushes : pushes next keys [] = (keys.flatMap next).length := by
    simp [pushes]
  exact walk_complete hkeys (hpushes ▸ hfuel) List.not_mem_nil (fun _ hv => absurd hv List.not_mem_nil)
    (Bool.eq_false_iff.mpr hf) x (by simpa using hx) hr

/-! ## The recursive walks -/

def search (next : κ → List κ) (target : κ) : Nat → κ → List κ → Bool × List κ
  | 0, _, seen => (false, seen)
  | fuel + 1, x, seen =>
      if x = target then (true, seen)
      else if x ∈ seen then (false, seen)
      else anyOf (search next target fuel) (next x) (x :: seen)

theorem search_sound {target x : κ} {fuel : Nat} {seen : List κ}
    (h : (search next target fuel x seen).1 = true) : Reaches next x target := by
  induction fuel generalizing x seen with
  | zero => cases h
  | succ fuel ih =>
      rw [search] at h
      split at h
      · rename_i hx
        exact hx ▸ Reaches.refl x
      · split at h
        · cases h
        · obtain ⟨y, hy, seen', hgo⟩ := anyOf_true h
          exact Reaches.cons hy (ih hgo)

theorem search_complete {target x : κ} (hkeys : ∀ x, next x ≠ [] → x ∈ keys) {fuel : Nat}
    {seen : List κ} (hfuel : unseen keys seen < fuel) (htarget : target ∉ seen)
    (h : (search next target fuel x seen).1 = false) :
    Explored next seen (search next target fuel x seen).2 ∧
      x ∈ (search next target fuel x seen).2 ∧ target ∉ (search next target fuel x seen).2 := by
  induction fuel generalizing x seen with
  | zero => omega
  | succ fuel ih =>
      rw [search] at h ⊢
      split at h
      · cases h
      · rename_i hx
        split at h
        · rename_i hs
          rw [if_neg hx, if_pos hs]
          exact ⟨Explored.refl seen, hs, htarget⟩
        · rename_i hs
          rw [if_neg hx, if_neg hs]
          have htarget' : target ∉ x :: seen := by simp [htarget, Ne.symm hx]
          by_cases hnil : next x = []
          · rw [hnil, anyOf]
            refine ⟨Explored.of_cons (Explored.refl _) (by simp [hnil]), List.mem_cons_self, htarget'⟩
          · have hlt := unseen_cons_lt (hkeys x hnil) hs
            obtain ⟨he, hys, ht⟩ := anyOf_false (P := fun s => unseen keys s < fuel)
              (fun s s' he hs => lt_of_le_of_lt (unseen_mono he.mono) hs)
              (fun y _ s hs ht hgo => ih hs ht hgo) (by omega) htarget' h
            exact ⟨he.of_cons hys, he.mono List.mem_cons_self, ht⟩

theorem search_iff {target x : κ} (hkeys : ∀ x, next x ≠ [] → x ∈ keys) {fuel : Nat}
    (hfuel : keys.length < fuel) : (search next target fuel x []).1 = true ↔ Reaches next x target := by
  refine ⟨search_sound, fun hr => ?_⟩
  by_contra hf
  obtain ⟨he, hx, ht⟩ := search_complete hkeys (lt_of_le_of_lt unseen_le hfuel) List.not_mem_nil
    (Bool.eq_false_iff.mpr hf)
  exact ht (he.mem_of_reaches hx hr)

/-- Mark, recurse into the successors, then list the vertex: the second list is in post-order. -/
def visit (next : κ → List κ) : Nat → κ → List κ × List κ → List κ × List κ
  | 0, _, st => st
  | fuel + 1, x, st =>
      if x ∈ st.1 then st
      else
        let st := (next x).foldl (fun st y => visit next fuel y st) (x :: st.1, st.2)
        (st.1, st.2 ++ [x])

theorem foldl_visit_mono {fuel : Nat} (hgo : ∀ x st, st.1 ⊆ (visit next fuel x st).1) (xs : List κ)
    (st : List κ × List κ) : st.1 ⊆ (xs.foldl (fun st x => visit next fuel x st) st).1 := by
  induction xs generalizing st with
  | nil => exact List.Subset.refl _
  | cons x xs ih => exact List.Subset.trans (hgo x st) (ih _)

theorem visit_mono (fuel : Nat) (x : κ) (st : List κ × List κ) : st.1 ⊆ (visit next fuel x st).1 := by
  induction fuel generalizing x st with
  | zero => exact List.Subset.refl _
  | succ fuel ih =>
      rw [visit]
      split
      · exact List.Subset.refl _
      · exact List.Subset.trans (List.subset_cons_self x st.1) (foldl_visit_mono ih _ (x :: st.1, st.2))

theorem mem_foldl_visit {fuel : Nat} {xs : List κ} {st : List κ × List κ} {v : κ}
    (hgo : ∀ x ∈ xs, ∀ st, v ∈ (visit next fuel x st).2 → v ∈ st.2 ∨ Reaches next x v)
    (h : v ∈ (xs.foldl (fun st x => visit next fuel x st) st).2) :
    v ∈ st.2 ∨ ∃ x ∈ xs, Reaches next x v := by
  induction xs generalizing st with
  | nil => exact Or.inl h
  | cons x xs ih =>
      rcases ih (fun y hy => hgo y (List.mem_cons_of_mem x hy)) h with hv | ⟨y, hy, hr⟩
      · rcases hgo x List.mem_cons_self st hv with hv | hr
        · exact Or.inl hv
        · exact Or.inr ⟨x, List.mem_cons_self, hr⟩
      · exact Or.inr ⟨y, List.mem_cons_of_mem x hy, hr⟩

theorem mem_visit {fuel : Nat} {x v : κ} {st : List κ × List κ}
    (h : v ∈ (visit next fuel x st).2) : v ∈ st.2 ∨ Reaches next x v := by
  induction fuel generalizing x st with
  | zero => exact Or.inl h
  | succ fuel ih =>
      rw [visit] at h
      split at h
      · exact Or.inl h
      · rcases List.mem_append.mp h with h | h
        · rcases mem_foldl_visit (fun y _ st hv => ih hv) h with hv | ⟨y, hy, hr⟩
          · exact Or.inl hv
          · exact Or.inr (Reaches.cons hy hr)
        · rw [List.mem_singleton.mp h]
          exact Or.inr (Reaches.refl x)

theorem foldl_visit {fuel : Nat} {xs : List κ} {st : List κ × List κ} {P : List κ → Prop}
    (hP : ∀ s s', Explored next s s' → P s → P s')
    (hgo : ∀ x ∈ xs, ∀ st, P st.1 →
      Visited next st (visit next fuel x st) ∧ x ∈ (visit next fuel x st).1) (hst : P st.1) :
    Visited next st (xs.foldl (fun st x => visit next fuel x st) st) ∧
      ∀ x ∈ xs, x ∈ (xs.foldl (fun st x => visit next fuel x st) st).1 := by
  induction xs generalizing st with
  | nil => exact ⟨Visited.refl st, by simp⟩
  | cons x xs ih =>
      obtain ⟨hv, hx⟩ := hgo x List.mem_cons_self st hst
      obtain ⟨hv', hxs⟩ := ih (fun y hy => hgo y (List.mem_cons_of_mem x hy)) (hP _ _ hv.explored hst)
      refine ⟨hv.trans hv', ?_⟩
      intro y hy
      rcases List.mem_cons.mp hy with rfl | hy
      · exact hv'.explored.mono hx
      · exact hxs y hy

theorem visit_visited (hkeys : ∀ x, next x ≠ [] → x ∈ keys) {fuel : Nat} {x : κ}
    {st : List κ × List κ} (hfuel : unseen keys st.1 < fuel) :
    Visited next st (visit next fuel x st) ∧ x ∈ (visit next fuel x st).1 := by
  induction fuel generalizing x st with
  | zero => omega
  | succ fuel ih =>
      rw [visit]
      split
      · rename_i hx
        exact ⟨Visited.refl st, hx⟩
      · rename_i hx
        have hfold : Visited next (x :: st.1, st.2)
            ((next x).foldl (fun st y => visit next fuel y st) (x :: st.1, st.2)) ∧
            ∀ y ∈ next x, y ∈ ((next x).foldl (fun st y => visit next fuel y st) (x :: st.1, st.2)).1 := by
          by_cases hnil : next x = []
          · rw [hnil]
            exact ⟨Visited.refl _, by simp⟩
          · have hlt := unseen_cons_lt (hkeys x hnil) hx
            refine foldl_visit (P := fun s => unseen keys s < fuel)
              (fun s s' he hs => lt_of_le_of_lt (unseen_mono he.mono) hs) (fun y _ st hs => ih hs) ?_
            simp only
            omega
        obtain ⟨hv, hys⟩ := hfold
        refine ⟨⟨hv.explored.of_cons hys, fun v h => List.mem_append_left _ (hv.keeps h), ?_⟩,
          hv.explored.mono List.mem_cons_self⟩
        intro v hm hn
        by_cases hvx : v = x
        · exact List.mem_append_right _ (by simp [hvx])
        · exact List.mem_append_left _ (hv.listed v hm (by simp [hvx, hn]))

/-- Walking from each root lists exactly what the roots reach. -/
theorem mem_foldl_visit_iff (hkeys : ∀ x, next x ≠ [] → x ∈ keys) {fuel : Nat}
    (hfuel : keys.length < fuel) {roots : List κ} {v : κ} :
    v ∈ (roots.foldl (fun st x => visit next fuel x st) ([], [])).2 ↔
      ∃ r ∈ roots, Reaches next r v := by
  constructor
  · intro h
    rcases mem_foldl_visit (fun x _ st hv => mem_visit hv) h with hv | hr
    · cases hv
    · exact hr
  · rintro ⟨r, hr, hreach⟩
    obtain ⟨hv, hroots⟩ :
        Visited next ([], []) (roots.foldl (fun st x => visit next fuel x st) ([], [])) ∧
          ∀ x ∈ roots, x ∈ (roots.foldl (fun st x => visit next fuel x st) ([], [])).1 :=
      foldl_visit (P := fun s => unseen keys s < fuel)
      (fun s s' he hs => lt_of_le_of_lt (unseen_mono he.mono) hs)
      (fun x _ st hs => visit_visited hkeys hs) (lt_of_le_of_lt unseen_le hfuel)
    exact hv.listed v (hv.explored.mem_of_reaches (hroots r hr) hreach) List.not_mem_nil

/-! ## The order of the recursive walk -/

theorem visit_listed (h : Acyclic next) (hkeys : ∀ x, next x ≠ [] → x ∈ keys) {fuel : Nat} {x : κ}
    {st : List κ × List κ} (hfuel : unseen keys st.1 < fuel) (hst : Listed next st x) :
    Listed next (visit next fuel x st) x := by
  induction fuel generalizing x st with
  | zero => omega
  | succ fuel ih =>
      have hvisited := (visit_visited (x := x) hkeys hfuel).1
      rw [visit] at hvisited ⊢
      split
      · exact hst
      · rename_i hx
        rw [if_neg hx] at hvisited
        have hself : Listed next (x :: st.1, st.2) x := by
          refine ⟨hst.order, fun v hv => List.mem_cons_of_mem x (hst.marked hv), fun v hv => ?_⟩
          rcases List.mem_cons.mp hv with rfl | hv
          · exact Or.inr (Reaches.refl v)
          · exact hst.pending v hv
        have hlt : next x ≠ [] → unseen keys (x :: st.1) < fuel := by
          intro hne
          have := unseen_cons_lt (hkeys x hne) hx
          omega
        -- the successors are walked one after the other, each from what the one before has left
        have hfold : ∀ (ys : List κ) (s : List κ × List κ), ys ⊆ next x → (ys ≠ [] → unseen keys s.1 < fuel) →
            Listed next s x → Listed next (ys.foldl (fun st y => visit next fuel y st) s) x ∧
              Visited next s (ys.foldl (fun st y => visit next fuel y st) s) ∧
              ∀ y ∈ ys, y ∈ (ys.foldl (fun st y => visit next fuel y st) s).1 := by
          intro ys
          induction ys with
          | nil => exact fun s _ _ hs => ⟨hs, Visited.refl s, List.forall_mem_nil _⟩
          | cons y ys ihys =>
              intro s hsub hlt hs
              have hlt := hlt (List.cons_ne_nil y ys)
              have hy := hsub List.mem_cons_self
              obtain ⟨hv, hmem⟩ := visit_visited (x := y) hkeys hlt
              have hnext := ih hlt (hs.edge hy)
              obtain ⟨hl, hv', hmem'⟩ := ihys _ (fun z hz => hsub (List.mem_cons_of_mem y hz))
                (fun _ => lt_of_le_of_lt (unseen_mono hv.explored.mono) hlt) (hs.later hv hnext.order hnext.marked)
              refine ⟨hl, hv.trans hv', fun z hz => ?_⟩
              rcases List.mem_cons.mp hz with rfl | hz
              · exact hv'.explored.mono hmem
              · exact hmem' z hz
        obtain ⟨hl, hv, hall⟩ := hfold (next x) (x :: st.1, st.2) (List.Subset.refl _) hlt hself
        have hnot : x ∉ ((next x).foldl (fun st y => visit next fuel y st) (x :: st.1, st.2)).2 := by
          intro hmem
          rcases mem_foldl_visit (fun y _ s hv => mem_visit hv) hmem with hmem | ⟨y, hy, hr⟩
          · exact hx (hst.marked hmem)
          · exact h x y hy hr
        refine hst.later hvisited (hl.order.concat hnot fun w hw => ?_) ?_
        · -- a successor that is still being expanded would close a cycle
          exact (hl.pending w (hall w hw)).resolve_right (h x w hw)
        · intro v hmem
          rcases List.mem_append.mp hmem with hmem | hmem
          · exact hl.marked hmem
          · rw [List.mem_singleton.mp hmem]
            exact hv.explored.mono List.mem_cons_self

/-- Walking from each root in turn lists what they reach in post-order. -/
theorem foldl_visit_postOrder (h : Acyclic next) (hkeys : ∀ x, next x ≠ [] → x ∈ keys) {fuel : Nat}
    (hfuel : keys.length < fuel) (roots : List κ) :
    PostOrder next (roots.foldl (fun st x => visit next fuel x st) ([], [])).2 := by
  have hwalk : ∀ (roots : List κ) (st : List κ × List κ), (∀ x, Listed next st x) →
      ∀ x, Listed next (roots.foldl (fun st x => visit next fuel x st) st) x := by
    intro roots
    induction roots with
    | nil => exact fun _ hst => hst
    | cons r roots ih =>
        intro st hst
        refine ih _ fun x => ?_
        have hlt := lt_of_le_of_lt (unseen_le : unseen keys st.1 ≤ keys.length) hfuel
        have hr := visit_listed h hkeys hlt (hst r)
        exact (hst x).later (visit_visited (x := r) hkeys hlt).1 hr.order hr.marked
  have hstart : ∀ x, Listed next (([], []) : List κ × List κ) x := fun x =>
    ⟨PostOrder.nil, List.Subset.refl _, List.forall_mem_nil _⟩
  cases roots with
  | nil => exact PostOrder.nil
  | cons r roots => exact (hwalk (r :: roots) _ hstart r).order

end Fuel

end WrongStack.Lib

import Mathlib.Algebra.Order.BigOperators.Group.List
import Mathlib.Algebra.Order.Group.Defs
import Mathlib.Data.Finset.Card
import Mathlib.Data.List.Chain
import Mathlib.Data.List.Perm.Subperm
import Mathlib.Logic.Function.Basic
import WrongStack.Lib.Graph

/-!
# Depth in an acyclic graph

The depth of a vertex is the length of the longest path that leaves it. The vertices of one depth form a level: all
that leave it lead to lower ones.
-/

namespace WrongStack.Lib

variable {κ : Type*} [DecidableEq κ] {next : κ → List κ} {keys : List κ}

/-- A finite acyclic graph has a function that goes down along every edge, by no more than there are vertices. -/
theorem Acyclic.exists_rank (h : Acyclic next) (hkeys : ∀ x, next x ≠ [] → x ∈ keys) :
    ∃ rank : κ → ℕ, (∀ a, ∀ b ∈ next a, rank b < rank a) ∧ ∀ a, rank a ≤ keys.length := by
  classical
  refine ⟨fun a => (keys.toFinset.filter fun k => Reaches next a k).card, ?_, ?_⟩
  · intro a b hb
    refine Finset.card_lt_card (Finset.ssubset_iff_of_subset ?_ |>.mpr ⟨a, ?_, ?_⟩)
    · intro k hk
      obtain ⟨hmem, hreach⟩ := Finset.mem_filter.mp hk
      exact Finset.mem_filter.mpr ⟨hmem, Reaches.cons hb hreach⟩
    · exact Finset.mem_filter.mpr ⟨List.mem_toFinset.mpr (hkeys a (List.ne_nil_of_mem hb)), Reaches.refl a⟩
    · exact fun hk => h a b hb (Finset.mem_filter.mp hk).2
  · intro a
    exact (Finset.card_filter_le _ _).trans (List.toFinset_card_le keys)

/-! ## Depth -/

def depthWithin (next : κ → List κ) : ℕ → κ → ℕ
  | 0, _ => 0
  | fuel + 1, x => ((next x).map fun y => depthWithin next fuel y + 1).foldr max 0

theorem foldr_max_le_iff {ns : List ℕ} {k : ℕ} : ns.foldr max 0 ≤ k ↔ ∀ n ∈ ns, n ≤ k := by
  induction ns with
  | nil => simp
  | cons n ns ih => simp [ih]

omit [DecidableEq κ] in
theorem depthWithin_succ_le_iff {fuel k : ℕ} {x : κ} :
    depthWithin next (fuel + 1) x ≤ k ↔ ∀ y ∈ next x, depthWithin next fuel y < k := by
  rw [depthWithin, foldr_max_le_iff]
  simp only [List.mem_map, forall_exists_index, and_imp, forall_apply_eq_imp_iff₂, Nat.succ_le_iff]

omit [DecidableEq κ] in
/-- More fuel than the rank of a vertex changes nothing. -/
theorem depthWithin_succ_eq {rank : κ → ℕ} (hrank : ∀ a, ∀ b ∈ next a, rank b < rank a) {fuel : ℕ} {x : κ}
    (hfuel : rank x ≤ fuel) : depthWithin next (fuel + 1) x = depthWithin next fuel x := by
  induction fuel generalizing x with
  | zero =>
      have hnil : next x = [] := by
        rw [List.eq_nil_iff_forall_not_mem]
        intro y hy
        have := hrank x y hy
        omega
      simp [depthWithin, hnil]
  | succ fuel ih =>
      rw [depthWithin, depthWithin]
      congr 1
      refine List.map_congr_left fun y hy => ?_
      have := hrank x y hy
      rw [ih (by omega)]

section Depth

variable (h : Acyclic next) (hkeys : ∀ x, next x ≠ [] → x ∈ keys) {fuel : ℕ} (hfuel : keys.length ≤ fuel)
include h hkeys hfuel

/-- The depth of a vertex is one more than the greatest of those that its edges lead to. -/
theorem depthWithin_le_iff {x : κ} {k : ℕ} :
    depthWithin next fuel x ≤ k ↔ ∀ y ∈ next x, depthWithin next fuel y < k := by
  obtain ⟨rank, hrank, hle⟩ := h.exists_rank hkeys
  rw [← depthWithin_succ_eq hrank ((hle x).trans hfuel)]
  exact depthWithin_succ_le_iff

theorem depthWithin_lt {x y : κ} (hy : y ∈ next x) : depthWithin next fuel y < depthWithin next fuel x :=
  (depthWithin_le_iff h hkeys hfuel).mp le_rfl y hy

theorem exists_depthWithin_eq {x : κ} {k : ℕ} (hk : k ≤ depthWithin next fuel x) :
    ∃ y, Reaches next x y ∧ depthWithin next fuel y = k := by
  induction hn : depthWithin next fuel x using Nat.strongRecOn generalizing x with
  | ind n ih =>
      rcases hk.eq_or_lt with heq | hlt
      · exact ⟨x, Reaches.refl x, heq.symm⟩
      · have hdeep := mt (depthWithin_le_iff h hkeys hfuel).mpr (Nat.not_le.mpr hlt)
        push Not at hdeep
        obtain ⟨y, hy, hky⟩ := hdeep
        obtain ⟨z, hz, heq⟩ := ih _ (hn ▸ depthWithin_lt h hkeys hfuel hy) hky rfl
        exact ⟨z, Reaches.cons hy hz, heq⟩

end Depth

/-! ## Order in a list -/

/-- In a list without repetitions, what comes first has the smaller index. -/
theorem idxOf_pairwise {xs : List κ} (hn : xs.Nodup) : xs.Pairwise fun a b => xs.idxOf a < xs.idxOf b := by
  rw [List.pairwise_iff_getElem]
  intro i j hi hj hij
  rw [hn.idxOf_getElem i hi, hn.idxOf_getElem j hj]
  exact hij

end WrongStack.Lib

/-!
# Longest paths by relaxation

The vertices of a weighted graph take turns in a fixed order, lap after lap. In its turn a vertex relaxes the edges that
leave it: a target that is reached by a longer path than it has been so far is relabelled. A path is listed from its
last vertex back.
-/

namespace WrongStack.Lib

variable {κ K : Type*} [DecidableEq κ] [AddCommGroup K] [LinearOrder K]

structure Labels (κ K : Type*) where
  dist : κ → K
  prev : κ → Option κ

variable (next : κ → List κ) (order : List κ) (w : κ → K)

def relax (u : κ) (st : Labels κ K) (v : κ) : Labels κ K :=
  if st.dist v < st.dist u + w v then
    ⟨Function.update st.dist v (st.dist u + w v), Function.update st.prev v (some u)⟩
  else st

/-- The turn of `u`. -/
def relaxFrom (st : Labels κ K) (u : κ) : Labels κ K := (next u).foldl (relax w u) st

def lap (st : Labels κ K) : Labels κ K := order.foldl (relaxFrom next w) st

/-- Only the vertices of `order` relax their edges. -/
def IsPath (c : List κ) : Prop := c.IsChain fun v u => v ∈ next u ∧ u ∈ order

/-- The laps that have ended when it is the turn of the last vertex, and the path has been followed to it. -/
def laps : List κ → ℕ
  | v :: u :: c => if order.idxOf u < order.idxOf v then laps (u :: c) else laps (u :: c) + 1
  | _ => 0

/-- The turns after which a path has been followed to its end. -/
def arrival : List κ → ℕ
  | _ :: u :: c => laps order (u :: c) * order.length + order.idxOf u + 1
  | _ => 0

/-- Every part of the path up to one of its vertices is a longest path there, and no other is followed sooner. -/
def Settled (c : List κ) : Prop :=
  IsPath next order c ∧ ∀ v s, v :: s <:+ c → ∀ d, IsPath next order (v :: d) →
    ((v :: d).map w).sum ≤ ((v :: s).map w).sum ∧
      (((v :: d).map w).sum = ((v :: s).map w).sum → arrival order (v :: s) ≤ arrival order (v :: d))

variable {next order w} {u v : κ} {c d : List κ} {st : Labels κ K} {t r : ℕ}

/-! ## Turns -/

omit [DecidableEq κ] in
theorem isPath_cons : IsPath next order (v :: u :: c) ↔ (v ∈ next u ∧ u ∈ order) ∧ IsPath next order (u :: c) :=
  List.isChain_cons_cons

theorem laps_le_iff (hu : u ∈ order) (hp : IsPath next order (u :: c)) :
    laps order (u :: c) ≤ r ↔ arrival order (u :: c) ≤ r * order.length + order.idxOf u := by
  cases c with
  | nil => simp [laps, arrival]
  | cons x c =>
      have hx : order.idxOf x < order.length := List.idxOf_lt_length_iff.mpr (isPath_cons.mp hp).1.2
      have hu : order.idxOf u < order.length := List.idxOf_lt_length_iff.mpr hu
      rw [laps, arrival]
      rcases Nat.lt_or_ge (laps order (x :: c)) r with hlt | hge
      · have hmul := Nat.mul_le_mul_right order.length hlt
        rw [Nat.succ_mul] at hmul
        split
        · omega
        · omega
      · rcases hge.eq_or_lt with heq | hlt
        · rw [← heq]
          split
          · omega
          · omega
        · have hmul := Nat.mul_le_mul_right order.length hlt
          rw [Nat.succ_mul] at hmul
          split
          · omega
          · omega

theorem turn_inj {a b i j n : ℕ} (hi : i < n) (hj : j < n) (h : a * n + i = b * n + j) : a = b ∧ i = j := by
  have hdiv := congrArg (· / n) h
  simp only [Nat.mul_comm _ n, Nat.mul_add_div (Nat.zero_lt_of_lt hi), Nat.div_eq_of_lt hi, Nat.div_eq_of_lt hj,
    Nat.add_zero] at hdiv
  subst hdiv
  exact ⟨rfl, by omega⟩

/-- A path that arrives in the turn of `u` came through `u`, to which it had been followed before. -/
theorem arrival_le_succ_iff (hu : u ∈ order) (hp : IsPath next order (v :: c)) :
    arrival order (v :: c) ≤ r * order.length + order.idxOf u + 1 ↔
      arrival order (v :: c) ≤ r * order.length + order.idxOf u ∨
        ∃ c', c = u :: c' ∧ arrival order (u :: c') ≤ r * order.length + order.idxOf u := by
  have hidx : order.idxOf u < order.length := List.idxOf_lt_length_iff.mpr hu
  cases c with
  | nil => simp [arrival]
  | cons x c =>
      obtain ⟨⟨-, hx⟩, hp'⟩ := isPath_cons.mp hp
      constructor
      · intro hle
        rcases hle.lt_or_eq with hlt | heq
        · exact Or.inl (Nat.le_of_lt_succ hlt)
        · rw [arrival] at heq
          obtain ⟨hlaps, hsame⟩ := turn_inj (List.idxOf_lt_length_iff.mpr hx) hidx (Nat.succ.inj heq)
          have hxu : x = u := (List.idxOf_inj hx).mp hsame
          subst hxu
          exact Or.inr ⟨c, rfl, (laps_le_iff hx hp').mp hlaps.le⟩
      · rintro (hle | ⟨c', hc, hle⟩)
        · exact Nat.le_succ_of_le hle
        · cases hc
          rw [arrival]
          have hmul := Nat.mul_le_mul_right order.length ((laps_le_iff hu hp').mpr hle)
          omega

/-! ## The labels -/

theorem relaxFrom_labels (st : Labels κ K) {vs : List κ} (hu : u ∉ vs) (v : κ) :
    ((vs.foldl (relax w u) st).dist v, (vs.foldl (relax w u) st).prev v) =
      if v ∈ vs ∧ st.dist v < st.dist u + w v then (st.dist u + w v, some u) else (st.dist v, st.prev v) := by
  induction vs generalizing st with
  | nil => simp
  | cons x vs ih =>
      obtain ⟨hux, hu⟩ := not_or.mp (mt List.mem_cons.mpr hu)
      rw [List.foldl_cons, ih _ hu]
      unfold relax
      by_cases hlt : st.dist x < st.dist u + w x
      · rw [if_pos hlt]
        by_cases hv : v = x
        · subst hv
          simp only [Function.update_self, Function.update_of_ne hux, lt_irrefl, and_false, ↓reduceIte,
            List.mem_cons_self, hlt, and_self]
        · simp only [Function.update_of_ne hv, Function.update_of_ne hux, List.mem_cons, hv, false_or]
      · rw [if_neg hlt]
        by_cases hv : v = x
        · subst hv
          simp only [hlt, and_false]
        · simp only [List.mem_cons, hv, false_or]

section Order

variable [IsOrderedAddMonoid K]

/-- After `t` turns a label is the greatest weight of a path that has been followed, and points back along one that
arrived first. -/
structure Followed (next : κ → List κ) (order : List κ) (w : κ → K) (t : ℕ) (st : Labels κ K) : Prop where
  upper : ∀ v ∈ order, ∀ c, IsPath next order (v :: c) → arrival order (v :: c) ≤ t →
    ((v :: c).map w).sum ≤ st.dist v
  reached : ∀ v ∈ order, ∃ c, IsPath next order (v :: c) ∧ arrival order (v :: c) ≤ t ∧
    ((v :: c).map w).sum = st.dist v ∧ st.prev v = c.head? ∧
    ∀ d, IsPath next order (v :: d) → ((v :: d).map w).sum = st.dist v →
      arrival order (v :: c) ≤ arrival order (v :: d)

omit [IsOrderedAddMonoid K] in
theorem followed_start (hdist : ∀ v ∈ order, st.dist v = w v) (hprev : ∀ v ∈ order, st.prev v = none) :
    Followed next order w 0 st where
  upper v hv c hp ht := by
    cases c with
    | nil => simp [hdist v hv]
    | cons u c => exact absurd ht (by simp [arrival])
  reached v hv := by
    refine ⟨[], List.isChain_singleton v, le_rfl, by simp [hdist v hv], hprev v hv, fun d _ _ => Nat.zero_le _⟩

theorem Followed.turn (h : Followed next order w (r * order.length + order.idxOf u) st) (hu : u ∈ order)
    (hself : u ∉ next u) :
    Followed next order w (r * order.length + order.idxOf u + 1) (relaxFrom next w st u) := by
  have hlabel := relaxFrom_labels (w := w) st hself
  simp only [Prod.ext_iff] at hlabel
  obtain ⟨cu, hcu, htu, hsumu, -, -⟩ := h.reached u hu
  constructor
  · intro v hv c hp ht
    unfold relaxFrom
    rw [(hlabel v).1]
    rcases (arrival_le_succ_iff hu hp).mp ht with hold | ⟨c', rfl, hold⟩
    · have hle := h.upper v hv c hp hold
      split
      · rename_i hnew
        exact hle.trans hnew.2.le
      · exact hle
    · obtain ⟨⟨hmem, -⟩, hp'⟩ := isPath_cons.mp hp
      have hle : ((v :: u :: c').map w).sum ≤ st.dist u + w v := by
        rw [List.map_cons, List.sum_cons, add_comm]
        exact add_le_add_left (h.upper u hu c' hp' hold) (w v)
      split
      · exact hle
      · rename_i hnot
        exact hle.trans (not_lt.mp fun hlt => hnot ⟨hmem, hlt⟩)
  · intro v hv
    unfold relaxFrom
    rw [(hlabel v).1, (hlabel v).2]
    obtain ⟨c, hp, hct, hsum, hprev, hfirst⟩ := h.reached v hv
    split
    · rename_i hnew
      refine ⟨u :: cu, isPath_cons.mpr ⟨⟨hnew.1, hu⟩, hcu⟩, ?_, ?_, rfl, fun d hd hdsum => ?_⟩
      · exact (arrival_le_succ_iff hu (isPath_cons.mpr ⟨⟨hnew.1, hu⟩, hcu⟩)).mpr (Or.inr ⟨cu, rfl, htu⟩)
      · rw [List.map_cons, List.sum_cons, hsumu, add_comm]
      · -- whatever is longer than the old label has not arrived before
        have hnow : arrival order (v :: u :: cu) ≤ r * order.length + order.idxOf u + 1 :=
          (arrival_le_succ_iff hu (isPath_cons.mpr ⟨⟨hnew.1, hu⟩, hcu⟩)).mpr (Or.inr ⟨cu, rfl, htu⟩)
        refine hnow.trans (Nat.lt_of_not_le fun hbefore => ?_)
        exact absurd (h.upper v hv d hd hbefore) (not_le.mpr (hdsum ▸ hnew.2))
    · exact ⟨c, hp, Nat.le_succ_of_le hct, hsum, hprev, hfirst⟩

theorem Followed.turns (hn : order.Nodup) (hself : ∀ u ∈ order, u ∉ next u) {pre post : List κ}
    (horder : order = pre ++ post) (h : Followed next order w (r * order.length + pre.length) st) :
    Followed next order w (r * order.length + order.length) (post.foldl (relaxFrom next w) st) := by
  induction post generalizing pre st with
  | nil =>
      rw [List.append_nil] at horder
      rw [← horder] at h
      exact h
  | cons u post ih =>
      have hu : u ∈ order := by simp [horder]
      have hidx : order.idxOf u = pre.length := by
        have hnot : u ∉ pre := by
          intro hmem
          rw [horder] at hn
          exact (List.nodup_append.mp hn).2.2 u hmem u List.mem_cons_self rfl
        rw [horder, List.idxOf_append_of_notMem hnot, List.idxOf_cons_self, Nat.add_zero]
      rw [← hidx] at h
      have horder' : order = (pre ++ [u]) ++ post := by simp [horder]
      refine ih horder' ?_
      rw [List.length_append, List.length_singleton, ← Nat.add_assoc, ← hidx]
      exact h.turn hu (hself u hu)

/-- After `r` laps all paths are followed that cross the end of a lap less than `r` times. -/
theorem followed_laps (hn : order.Nodup) (hself : ∀ u ∈ order, u ∉ next u) (h : Followed next order w 0 st) (r : ℕ) :
    Followed next order w (r * order.length) ((lap next order w)^[r] st) := by
  induction r with
  | zero => simpa using h
  | succ r ih =>
      rw [Function.iterate_succ_apply', Nat.succ_mul]
      exact ih.turns hn hself (List.nil_append order).symm

end Order

/-! ## Acyclic graphs -/

theorem laps_lt_length (c : List κ) (hne : c ≠ []) : laps order c < c.length := by
  induction c with
  | nil => exact absurd rfl hne
  | cons v c ih =>
      cases c with
      | nil => simp [laps]
      | cons u c =>
          have := ih (List.cons_ne_nil u c)
          rw [laps, List.length_cons]
          split
          · omega
          · omega

section Rank

variable {rank : κ → ℕ} (hrank : ∀ u, ∀ v ∈ next u, rank u < rank v)
include hrank

omit [DecidableEq κ] in
theorem IsPath.nodup (hp : IsPath next order c) : c.Nodup := by
  have hchain : c.IsChain fun v u => rank u < rank v := hp.imp fun v u h => hrank u v h.1
  have htrans : IsTrans κ fun v u => rank u < rank v := ⟨fun _ _ _ hab hbc => hbc.trans hab⟩
  refine hchain.pairwise.imp ?_
  rintro v u hlt rfl
  exact lt_irrefl _ hlt

omit [DecidableEq κ] hrank in
theorem IsPath.subset (hv : v ∈ order) (hp : IsPath next order (v :: c)) : v :: c ⊆ order := by
  induction c generalizing v with
  | nil => exact fun x hx => List.mem_singleton.mp hx ▸ hv
  | cons u c ih =>
      obtain ⟨⟨-, hu⟩, hp⟩ := isPath_cons.mp hp
      exact List.cons_subset.mpr ⟨hv, ih hu hp⟩

/-- In an acyclic graph every path has arrived after one lap less than there are vertices. -/
theorem arrival_le (hv : v ∈ order) (hp : IsPath next order (v :: c)) :
    arrival order (v :: c) ≤ (order.length - 1) * order.length := by
  cases c with
  | nil => simp [arrival]
  | cons u c =>
      have hlen : (v :: u :: c).length ≤ order.length :=
        (List.subperm_of_subset (hp.nodup hrank) (hp.subset hv)).length_le
      have hlaps : laps order (u :: c) < (u :: c).length := laps_lt_length (u :: c) (List.cons_ne_nil u c)
      have hu : order.idxOf u < order.length := List.idxOf_lt_length_iff.mpr (isPath_cons.mp hp).1.2
      simp only [List.length_cons] at hlen hlaps
      have hmul : (laps order (u :: c) + 1) * order.length ≤ (order.length - 1) * order.length :=
        Nat.mul_le_mul_right _ (by omega)
      rw [Nat.succ_mul] at hmul
      rw [arrival]
      omega

end Rank

/-! ## Tracing back -/

/-- The vertices that the labels point back to, one after the other. -/
def Traced (prev : κ → Option κ) : List κ → Prop
  | [] => True
  | v :: c => prev v = c.head? ∧ Traced prev c

section Trace

variable [IsOrderedAddMonoid K] {rank : κ → ℕ} (hrank : ∀ u, ∀ v ∈ next u, rank u < rank v)
  (h : Followed next order w ((order.length - 1) * order.length) st)
include hrank h

omit [IsOrderedAddMonoid K] in
theorem exists_traced (hv : v ∈ order) : ∃ c, Traced st.prev (v :: c) := by
  induction hr : rank v using Nat.strongRecOn generalizing v with
  | ind n ih =>
      obtain ⟨c, hp, -, -, hprev, -⟩ := h.reached v hv
      cases c with
      | nil => exact ⟨[], hprev, trivial⟩
      | cons u c =>
          obtain ⟨⟨hmem, hu⟩, -⟩ := isPath_cons.mp hp
          obtain ⟨c', hc'⟩ := ih (rank u) (hr ▸ hrank u v hmem) hu rfl
          exact ⟨u :: c', hprev, hc'⟩

/-- What the final labels lead back along is settled. -/
theorem Traced.settled (hv : v ∈ order) (ht : Traced st.prev (v :: c)) :
    Settled next order w (v :: c) ∧ ((v :: c).map w).sum = st.dist v := by
  have hmax : ∀ v ∈ order, ∀ d, IsPath next order (v :: d) → ((v :: d).map w).sum ≤ st.dist v :=
    fun v hv d hd => h.upper v hv d hd (arrival_le hrank hv hd)
  -- what a vertex that is the last of a settled path with the weight of its label has to offer
  have hextend : ∀ v ∈ order, ∀ c, IsPath next order (v :: c) → ((v :: c).map w).sum = st.dist v →
      (∀ d, IsPath next order (v :: d) → ((v :: d).map w).sum = st.dist v →
        arrival order (v :: c) ≤ arrival order (v :: d)) →
      (∀ x s, x :: s <:+ c → ∀ d, IsPath next order (x :: d) →
        ((x :: d).map w).sum ≤ ((x :: s).map w).sum ∧
          (((x :: d).map w).sum = ((x :: s).map w).sum → arrival order (x :: s) ≤ arrival order (x :: d))) →
      Settled next order w (v :: c) := by
    intro v hv c hp hsum hfirst hrest
    refine ⟨hp, fun x s hs d hd => ?_⟩
    rcases List.suffix_cons_iff.mp hs with heq | hs
    · cases heq
      rw [hsum]
      exact ⟨hmax v hv d hd, hfirst d hd⟩
    · exact hrest x s hs d hd
  induction c generalizing v with
  | nil =>
      obtain ⟨c, hp, -, hsum, hprev, hfirst⟩ := h.reached v hv
      have hnil : c = [] := List.head?_eq_none_iff.mp (hprev.symm.trans ht.1)
      subst hnil
      exact ⟨hextend v hv [] hp hsum hfirst fun x s hs => by simp at hs, hsum⟩
  | cons u c ih =>
      obtain ⟨hprev, ht⟩ := ht
      obtain ⟨c₀, hp₀, -, hsum₀, hprev₀, hfirst₀⟩ := h.reached v hv
      obtain ⟨c₁, rfl⟩ : ∃ c₁, c₀ = u :: c₁ :=
        List.head?_eq_some_iff.mp (hprev₀.symm.trans hprev)
      obtain ⟨⟨hmem, hu⟩, hp₁⟩ := isPath_cons.mp hp₀
      obtain ⟨hsettled, hsumu⟩ := ih hu ht
      have hp : IsPath next order (v :: u :: c) := isPath_cons.mpr ⟨⟨hmem, hu⟩, hsettled.1⟩
      have hle₁ : ((u :: c₁).map w).sum ≤ st.dist u := hmax u hu c₁ hp₁
      have hle : ((v :: u :: c).map w).sum ≤ st.dist v := hmax v hv (u :: c) hp
      rw [List.map_cons, List.sum_cons] at hsum₀ hle
      rw [hsumu] at hle
      have hsum₁ : ((u :: c₁).map w).sum = st.dist u := by
        refine le_antisymm hle₁ ?_
        rw [← hsum₀] at hle
        exact le_of_add_le_add_left hle
      have hsum : ((v :: u :: c).map w).sum = st.dist v := by
        rw [List.map_cons, List.sum_cons, hsumu, ← hsum₁]
        exact hsum₀
      refine ⟨hextend v hv (u :: c) hp hsum (fun d hd hdsum => ?_) hsettled.2, hsum⟩
      -- the settled path to `u` ends no later a lap than the one that was relabelled along
      have hsooner : arrival order (u :: c) ≤ arrival order (u :: c₁) :=
        (hsettled.2 u c List.suffix_rfl c₁ hp₁).2 (hsum₁.trans hsumu.symm)
      have hlaps : laps order (u :: c) ≤ laps order (u :: c₁) :=
        (laps_le_iff hu hsettled.1).mpr (hsooner.trans ((laps_le_iff hu hp₁).mp le_rfl))
      refine le_trans ?_ (hfirst₀ d hd hdsum)
      rw [arrival, arrival]
      have := Nat.mul_le_mul_right order.length hlaps
      omega

end Trace

theorem Settled.unique (hv : v ∈ order) (hc : Settled next order w (v :: c)) (hd : Settled next order w (v :: d)) :
    c = d := by
  induction c generalizing v d with
  | nil =>
      obtain ⟨hle, hsooner⟩ := hd.2 v d List.suffix_rfl [] hc.1
      have hsum := le_antisymm hle (hc.2 v [] List.suffix_rfl d hd.1).1
      cases d with
      | nil => rfl
      | cons u d => exact absurd (hsooner hsum) (by simp [arrival])
  | cons u c ih =>
      obtain ⟨hle, hsooner⟩ := hd.2 v d List.suffix_rfl (u :: c) hc.1
      obtain ⟨hle', hsooner'⟩ := hc.2 v (u :: c) List.suffix_rfl d hd.1
      have hsum := le_antisymm hle hle'
      have harrival := Nat.le_antisymm (hsooner hsum) (hsooner' hsum.symm)
      cases d with
      | nil => exact absurd harrival (by simp [arrival])
      | cons u' d =>
          obtain ⟨⟨-, hu⟩, hpc⟩ := isPath_cons.mp hc.1
          obtain ⟨⟨-, hu'⟩, hpd⟩ := isPath_cons.mp hd.1
          rw [arrival, arrival] at harrival
          obtain ⟨-, hidx⟩ := turn_inj (List.idxOf_lt_length_iff.mpr hu') (List.idxOf_lt_length_iff.mpr hu)
            (Nat.succ.inj harrival)
          have huu : u' = u := (List.idxOf_inj hu').mp hidx
          subst huu
          rw [ih hu' ⟨hpc, fun x s hs => hc.2 x s (hs.trans (List.suffix_cons v _))⟩
            ⟨hpd, fun x s hs => hd.2 x s (hs.trans (List.suffix_cons v _))⟩]

end WrongStack.Lib

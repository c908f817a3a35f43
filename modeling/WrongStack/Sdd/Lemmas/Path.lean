import Mathlib.Data.List.MinMax
import Mathlib.Tactic.Linarith
import WrongStack.Sdd.Lemmas.Groups

/-!
# The critical path is traced along the final labels

The maps of `computeCriticalPath` are the labels of `Lib.LongestPath`: a missing distance is 0, a missing predecessor is
`null`. The tasks that a task blocks are those that wait for it.
-/

namespace WrongStack.Sdd

open Lib TaskGraph

variable {g : TaskGraph} {estimateHours : TaskId → Option ℚ} {st : Relaxation} {id : TaskId}

/-! ## The edges -/

def blocks (g : TaskGraph) (id : TaskId) : List TaskId := (g.blocksMap.get? id).getD []

theorem mem_foldl_addBlocked (a : TaskId) (bs : List TaskId) (m : JsMap TaskId (List TaskId)) {v : TaskId} :
    v ∈ ((bs.foldl (addBlocked a) m).get? id).getD [] ↔ v ∈ (m.get? id).getD [] ∨ (v = a ∧ id ∈ bs) := by
  induction bs generalizing m with
  | nil => simp
  | cons b bs ih =>
      rw [List.foldl_cons, ih, addBlocked, JsMap.get?_set, List.mem_cons]
      by_cases hid : b = id
      · subst hid
        by_cases ha : a ∈ (m.get? b).getD []
        · simp only [ha, ↓reduceIte, Option.getD_some, true_or, and_true]
          constructor
          · rintro (hv | ⟨rfl, -⟩)
            · exact Or.inl hv
            · exact Or.inr rfl
          · rintro (hv | rfl)
            · exact Or.inl hv
            · exact Or.inl ha
        · simp only [ha, ↓reduceIte, Option.getD_some, List.mem_append, List.mem_singleton, true_or, and_true]
          tauto
      · simp [hid, Ne.symm hid]

theorem mem_blocks {v : TaskId} : v ∈ blocks g id ↔ id ∈ g.waitsFor v := by
  have hfold : ∀ (entries : List (TaskId × List TaskId)) (m : JsMap TaskId (List TaskId)),
      v ∈ ((entries.foldl (fun m entry => entry.2.foldl (addBlocked entry.1) m) m).get? id).getD [] ↔
        v ∈ (m.get? id).getD [] ∨ ∃ entry ∈ entries, v = entry.1 ∧ id ∈ entry.2 := by
    intro entries
    induction entries with
    | nil => simp
    | cons entry entries ih =>
        intro m
        rw [List.foldl_cons, ih, mem_foldl_addBlocked, List.exists_mem_cons_iff, or_assoc]
  rw [blocks, blocksMap, hfold, waitsFor]
  simp only [JsMap.get?_empty, Option.getD_none, List.not_mem_nil, false_or, Prod.exists]
  constructor
  · rintro ⟨a, bs, hentry, rfl, hid⟩
    rw [JsMap.mem_entries_iff.mp hentry]
    exact hid
  · intro hid
    cases hget : g.blockedByMap.get? v with
    | none => simp [hget] at hid
    | some bs => exact ⟨v, bs, JsMap.mem_entries_iff.mpr hget, rfl, by simpa [hget] using hid⟩

/-! ## The labels -/

def labels (st : Relaxation) : Labels TaskId ℚ where
  dist id := (st.dist.get? id).getD 0
  prev id := (st.prev.get? id).join

theorem labels_relaxEdge (v : TaskId) :
    labels (g.relaxEdge estimateHours id st v) = relax (g.hoursOr estimateHours 1) id (labels st) v := by
  unfold relaxEdge relax
  by_cases hlt : (st.dist.get? v).getD 0 < (st.dist.get? id).getD 0 + g.hoursOr estimateHours 1 v
  · simp only [labels, hlt, ↓reduceIte, Labels.mk.injEq]
    constructor
    · funext x
      rw [JsMap.get?_set, Function.update_apply]
      by_cases hx : v = x
      · simp [hx]
      · simp [hx, Ne.symm hx]
    · funext x
      rw [JsMap.get?_set, Function.update_apply]
      by_cases hx : v = x
      · simp [hx]
      · simp [hx, Ne.symm hx]
  · simp only [labels, hlt, ↓reduceIte]

theorem labels_relaxTask :
    labels (g.relaxTask estimateHours st id) = relaxFrom (blocks g) (g.hoursOr estimateHours 1) (labels st) id := by
  have hfold : ∀ (vs : List TaskId) (st : Relaxation),
      labels (vs.foldl (g.relaxEdge estimateHours id) st) =
        vs.foldl (relax (g.hoursOr estimateHours 1) id) (labels st) := by
    intro vs
    induction vs with
    | nil => exact fun _ => rfl
    | cons v vs ih =>
        intro st
        rw [List.foldl_cons, List.foldl_cons, ih, labels_relaxEdge]
  unfold relaxTask relaxFrom blocks
  cases g.blocksMap.get? id with
  | none => rfl
  | some vs => exact hfold vs st

theorem labels_relaxRound (g : TaskGraph) (estimateHours : TaskId → Option ℚ) (st : Relaxation) :
    labels (g.relaxRound estimateHours st) =
      lap (blocks g) g.nodes.keys (g.hoursOr estimateHours 1) (labels st) := by
  have hfold : ∀ (ids : List TaskId) (st : Relaxation),
      labels (ids.foldl (g.relaxTask estimateHours) st) =
        ids.foldl (relaxFrom (blocks g) (g.hoursOr estimateHours 1)) (labels st) := by
    intro ids
    induction ids with
    | nil => exact fun _ => rfl
    | cons id ids ih =>
        intro st
        rw [List.foldl_cons, List.foldl_cons, ih, labels_relaxTask]
  exact hfold g.nodes.keys { st with changed := false }

theorem foldl_unchanged {f : Relaxation → TaskId → Relaxation}
    (hf : ∀ st v, (f st v).changed = false → f st v = st) (vs : List TaskId) (st : Relaxation)
    (h : (vs.foldl f st).changed = false) : vs.foldl f st = st := by
  induction vs generalizing st with
  | nil => rfl
  | cons v vs ih =>
      rw [List.foldl_cons] at h ⊢
      have heq := ih (f st v) h
      rw [heq] at h ⊢
      exact hf st v h

theorem relaxRound_unchanged (h : (g.relaxRound estimateHours st).changed = false) :
    labels (g.relaxRound estimateHours st) = labels st := by
  have hround := foldl_unchanged (f := g.relaxTask estimateHours) (fun st id h => ?_) g.nodes.keys
    { st with changed := false } h
  · unfold relaxRound
    rw [hround]
    rfl
  · unfold relaxTask at h ⊢
    cases hblocked : g.blocksMap.get? id with
    | none => rfl
    | some vs =>
        simp only [hblocked] at h ⊢
        refine foldl_unchanged (fun st v h => ?_) vs st h
        unfold relaxEdge at h ⊢
        dsimp only at h ⊢
        split at h
        · cases h
        · rename_i hnot
          rw [if_neg hnot]

/-- The break after a round without changes is one after the last lap. -/
theorem labels_relaxRounds (n : ℕ) (st : Relaxation) :
    labels (g.relaxRounds estimateHours n st) =
      (lap (blocks g) g.nodes.keys (g.hoursOr estimateHours 1))^[n] (labels st) := by
  induction n generalizing st with
  | zero => rfl
  | succ n ih =>
      rw [relaxRounds, Function.iterate_succ_apply, ← labels_relaxRound]
      cases hchanged : (g.relaxRound estimateHours st).changed with
      | true =>
          simp only [↓reduceIte]
          exact ih _
      | false =>
          simp only [Bool.false_eq_true, ↓reduceIte]
          have hfix := (labels_relaxRound g estimateHours st).symm.trans
            (relaxRound_unchanged hchanged)
          rw [relaxRound_unchanged hchanged, Function.iterate_fixed hfix]

theorem labels_ownEstimates (g : TaskGraph) (estimateHours : TaskId → Option ℚ) :
    (∀ v ∈ g.nodes.keys, (labels (g.ownEstimates estimateHours)).dist v = g.hoursOr estimateHours 1 v) ∧
      ∀ v, (labels (g.ownEstimates estimateHours)).prev v = none := by
  have hfold : ∀ (ids : List TaskId) (st : Relaxation) (v : TaskId),
      let st' := ids.foldl (fun st id => { st with
        dist := st.dist.set id (g.hoursOr estimateHours 1 id), prev := st.prev.set id none }) st
      (labels st').dist v = (if v ∈ ids then g.hoursOr estimateHours 1 v else (labels st).dist v) ∧
        ((labels st).prev v = none → (labels st').prev v = none) := by
    intro ids
    induction ids with
    | nil => exact fun st v => ⟨rfl, id⟩
    | cons x ids ih =>
        intro st v
        obtain ⟨hdist, hprev⟩ := ih { st with
          dist := st.dist.set x (g.hoursOr estimateHours 1 x), prev := st.prev.set x none } v
        refine ⟨hdist.trans ?_, fun hnone => hprev ?_⟩
        · simp only [labels, JsMap.get?_set, List.mem_cons]
          by_cases hv : v = x
          · subst hv
            simp
          · simp [hv, Ne.symm hv]
        · simp only [labels, JsMap.get?_set] at hnone ⊢
          split
          · rfl
          · exact hnone
  refine ⟨fun v hv => ?_, fun v => ?_⟩
  · exact ((hfold g.nodes.keys {} v).1).trans (if_pos hv)
  · exact (hfold g.nodes.keys {} v).2 rfl

/-! ## The end of the path -/

/-- The first task with the greatest distance, where no distance is negative. -/
theorem farthest_eq (dist : JsMap TaskId ℚ) (first : TaskId) (rest : List TaskId)
    (hfirst : 0 ≤ (dist.get? first).getD 0) :
    (farthest dist first (first :: rest)).2 ∈ List.argmax (fun v => (dist.get? v).getD 0) (first :: rest) := by
  have hfold : ∀ (ids : List TaskId) (v : TaskId), ∃ x,
      ids.foldl (fun best id =>
        if best.1 < (dist.get? id).getD 0 then ((dist.get? id).getD 0, id) else best) ((dist.get? v).getD 0, v) =
          ((dist.get? x).getD 0, x) ∧
        ids.foldl (List.argAux fun b c => (dist.get? c).getD 0 < (dist.get? b).getD 0) (some v) = some x := by
    intro ids
    induction ids with
    | nil => exact fun v => ⟨v, rfl, rfl⟩
    | cons y ids ih =>
        intro v
        rw [List.foldl_cons, List.foldl_cons]
        by_cases hlt : (dist.get? v).getD 0 < (dist.get? y).getD 0
        · simp only [hlt, ↓reduceIte, List.argAux]
          exact ih y
        · simp only [hlt, ↓reduceIte, List.argAux]
          exact ih v
  have hstart : (if (0 : ℚ) < (dist.get? first).getD 0 then ((dist.get? first).getD 0, first) else (0, first)) =
      ((dist.get? first).getD 0, first) := by
    split
    · rfl
    · rename_i hnot
      rw [le_antisymm (not_lt.mp hnot) hfirst]
  obtain ⟨x, hx, hargmax⟩ := hfold rest first
  unfold farthest
  rw [List.foldl_cons]
  simp only [hstart, hx]
  exact hargmax

/-! ## The way back -/

theorem traceBack_none (prev : JsMap TaskId (Option TaskId)) (fuel : ℕ) (path : List TaskId) :
    traceBack prev fuel path none = path := by
  cases fuel with
  | zero => rfl
  | succ fuel => rfl

theorem traceBack_eq {prev : JsMap TaskId (Option TaskId)} {c path : List TaskId} {v : TaskId} {fuel : ℕ}
    (ht : Traced (fun id => (prev.get? id).join) (v :: c)) (hn : (v :: c).Nodup)
    (hnew : ∀ x ∈ v :: c, x ∉ path) (hfuel : (v :: c).length ≤ fuel) :
    traceBack prev fuel path (some v) = (v :: c).reverse ++ path := by
  induction c generalizing v path fuel with
  | nil =>
      obtain ⟨fuel, rfl⟩ : ∃ n, fuel = n + 1 := ⟨fuel - 1, by simp at hfuel; omega⟩
      have hprev : (prev.get? v).join = none := ht.1
      rw [traceBack, if_neg (hnew v List.mem_cons_self), hprev]
      exact traceBack_none prev fuel (v :: path)
  | cons u c ih =>
      obtain ⟨fuel, rfl⟩ : ∃ n, fuel = n + 1 := ⟨fuel - 1, by simp at hfuel; omega⟩
      obtain ⟨hv, hn⟩ := List.nodup_cons.mp hn
      have hprev : (prev.get? v).join = some u := ht.1
      have hnew' : ∀ x ∈ u :: c, x ∉ v :: path := by
        intro x hx hmem
        rcases List.mem_cons.mp hmem with rfl | hmem
        · exact hv hx
        · exact hnew x (List.mem_cons_of_mem v hx) hmem
      rw [traceBack, if_neg (hnew v List.mem_cons_self), hprev, ih ht.2 hn hnew' (Nat.le_of_succ_le_succ hfuel),
        List.reverse_cons (a := v), List.append_assoc]
      rfl

/-! ## Chains of tasks -/

/-- Each task blocks the next. -/
def Chain (g : TaskGraph) (c : List TaskId) : Prop := c ⊆ g.nodes.keys ∧ c.IsChain fun a b => a ∈ g.waitsFor b

/-- The hours of a chain; a task without an estimate counts as one. -/
def weight (g : TaskGraph) (estimateHours : TaskId → Option ℚ) (c : List TaskId) : ℚ :=
  (c.map (g.hoursOr estimateHours 1)).sum

def LongestChain (g : TaskGraph) (estimateHours : TaskId → Option ℚ) (c : List TaskId) : Prop :=
  Chain g c ∧ ∀ d, Chain g d → weight g estimateHours d ≤ weight g estimateHours c

/-- Listed from its last task back, a longest chain that ends in the first task in which one ends, and of those the one
that is followed first if in the order of the nodes, round by round, every task hands on the chains it has. -/
structure FollowedFirst (g : TaskGraph) (estimateHours : TaskId → Option ℚ) (c : List TaskId) : Prop where
  chain : Chain g c.reverse
  settled : Settled (blocks g) g.nodes.keys (g.hoursOr estimateHours 1) c
  longest : ∀ d, Chain g d.reverse → weight g estimateHours d ≤ weight g estimateHours c
  first : ∀ d, Chain g d.reverse → weight g estimateHours d = weight g estimateHours c →
    ∀ v ∈ c.head?, ∀ u ∈ d.head?, g.nodes.keys.idxOf v ≤ g.nodes.keys.idxOf u

variable {c d : List TaskId}

theorem chain_reverse_iff : Chain g c.reverse ↔ c ⊆ g.nodes.keys ∧ IsPath (blocks g) g.nodes.keys c := by
  have hsub : c.reverse ⊆ g.nodes.keys ↔ c ⊆ g.nodes.keys := by simp [List.subset_def]
  rw [Chain, hsub, List.isChain_reverse]
  refine and_congr_right fun hkeys => ?_
  clear hsub
  induction c with
  | nil => exact iff_of_true List.isChain_nil List.isChain_nil
  | cons v c ih =>
      cases c with
      | nil => exact iff_of_true (List.isChain_singleton v) (List.isChain_singleton v)
      | cons u c =>
          obtain ⟨-, hkeys⟩ := List.cons_subset.mp hkeys
          rw [List.isChain_cons_cons, isPath_cons, ih hkeys, mem_blocks]
          have hu : u ∈ g.nodes.keys := hkeys List.mem_cons_self
          simp only [hu, and_true]

theorem weight_reverse : weight g estimateHours c.reverse = weight g estimateHours c :=
  ((List.reverse_perm c).map _).sum_eq

theorem hoursOr_nonneg (hhours : ∀ id, ∀ hours ∈ estimateHours id, 0 ≤ hours) (id : TaskId) :
    0 ≤ g.hoursOr estimateHours 1 id := by
  unfold hoursOr
  split
  · cases hid : estimateHours id with
    | none => exact zero_le_one
    | some hours => exact hhours id hours hid
  · exact zero_le_one

/-- What is traced back is the chain that is followed first. -/
theorem computeCriticalPath_eq (h : Acyclic g.waitsFor) (hhours : ∀ id, ∀ hours ∈ estimateHours id, 0 ≤ hours)
    (hne : g.nodes.keys ≠ []) :
    ∃ c, c ≠ [] ∧ g.computeCriticalPath estimateHours = c.reverse ∧ FollowedFirst g estimateHours c := by
  have hkeys : ∀ x, g.waitsFor x ≠ [] → x ∈ g.edges.map TaskEdge.src := by
    intro x hx
    obtain ⟨b, hb⟩ := List.exists_mem_of_ne_nil _ hx
    obtain ⟨e, he, rfl, -, -⟩ := mem_waitsFor.mp hb
    exact List.mem_map_of_mem he
  obtain ⟨rank, hrank, -⟩ := h.exists_rank hkeys
  have hrank : ∀ u, ∀ v ∈ blocks g u, rank u < rank v := fun u v hv => hrank v u (mem_blocks.mp hv)
  have hself : ∀ u ∈ g.nodes.keys, u ∉ blocks g u := fun u _ hu => lt_irrefl _ (hrank u u hu)
  obtain ⟨first, rest, hcons⟩ := List.exists_cons_of_ne_nil hne
  have hlen : g.nodes.keys.length - 1 = rest.length := by rw [hcons, List.length_cons, Nat.add_sub_cancel]
  -- the labels after all rounds
  obtain ⟨relaxed, hrelaxed⟩ : ∃ st, g.relaxRounds estimateHours rest.length (g.ownEstimates estimateHours) = st :=
    ⟨_, rfl⟩
  have hfollowed : Followed (blocks g) g.nodes.keys (g.hoursOr estimateHours 1)
      ((g.nodes.keys.length - 1) * g.nodes.keys.length) (labels relaxed) := by
    obtain ⟨hdist, hprev⟩ := labels_ownEstimates g estimateHours
    rw [← hrelaxed, labels_relaxRounds, hlen]
    exact followed_laps g.nodes.nodup hself (followed_start hdist fun v _ => hprev v) rest.length
  have hdist : ∀ v ∈ g.nodes.keys, 0 ≤ (labels relaxed).dist v := by
    intro v hv
    have hown := hfollowed.upper v hv [] (List.isChain_singleton v) (Nat.zero_le _)
    simp only [List.map_cons, List.map_nil, List.sum_cons, List.sum_nil, add_zero] at hown
    exact (hoursOr_nonneg hhours v).trans hown
  -- no chain to a task is longer than its label
  have hbound : ∀ u d, Chain g (u :: d).reverse →
      u ∈ g.nodes.keys ∧ weight g estimateHours (u :: d) ≤ (labels relaxed).dist u := by
    intro u d hd
    obtain ⟨hsub, hpath⟩ := chain_reverse_iff.mp hd
    have hu := hsub List.mem_cons_self
    exact ⟨hu, hfollowed.upper u hu d hpath (arrival_le hrank hu hpath)⟩
  obtain ⟨last, hlast, hmax⟩ : ∃ last, (farthest relaxed.dist first (first :: rest)).2 = last ∧
      last ∈ List.argmax (labels relaxed).dist g.nodes.keys := by
    refine ⟨_, rfl, ?_⟩
    rw [hcons]
    exact farthest_eq relaxed.dist first rest (hdist first (hcons ▸ List.mem_cons_self))
  obtain ⟨hmem, hle, hidx⟩ := List.mem_argmax_iff.mp hmax
  obtain ⟨c, htraced⟩ := exists_traced hrank hfollowed hmem
  obtain ⟨hsettled, hsum⟩ := htraced.settled hrank hfollowed hmem
  have hsub := hsettled.1.subset hmem
  refine ⟨last :: c, List.cons_ne_nil _ _, ?_, chain_reverse_iff.mpr ⟨hsub, hsettled.1⟩, hsettled, fun d hd => ?_,
    fun d hd heq v hv u hu => ?_⟩
  · have hnodup := hsettled.1.nodup hrank
    have hlength : (last :: c).length ≤ rest.length + 1 := by
      rw [← List.length_cons (a := first), ← hcons]
      exact (List.subperm_of_subset hnodup hsub).length_le
    unfold computeCriticalPath
    simp only [hcons, hrelaxed, hlast]
    rw [traceBack_eq htraced hnodup (fun x _ => List.not_mem_nil) hlength, List.append_nil]
  · unfold weight at hbound ⊢
    rw [hsum]
    cases d with
    | nil => exact hdist last hmem
    | cons u d =>
        obtain ⟨hu, hud⟩ := hbound u d hd
        exact hud.trans (hle u hu)
  · cases d with
    | nil => cases hu
    | cons u' d =>
        cases hu
        cases hv
        obtain ⟨hu, hud⟩ := hbound u d hd
        refine hidx u hu ?_
        unfold weight at heq hud
        rw [heq, hsum] at hud
        exact hud

theorem FollowedFirst.unique (hc : FollowedFirst g estimateHours c) (hd : FollowedFirst g estimateHours d)
    (hcne : c ≠ []) (hdne : d ≠ []) : c = d := by
  obtain ⟨v, c, rfl⟩ := List.exists_cons_of_ne_nil hcne
  obtain ⟨u, d, rfl⟩ := List.exists_cons_of_ne_nil hdne
  have hweight := le_antisymm (hd.longest _ hc.chain) (hc.longest _ hd.chain)
  have hv := (chain_reverse_iff.mp hc.chain).1 List.mem_cons_self
  have hidx : g.nodes.keys.idxOf v = g.nodes.keys.idxOf u :=
    Nat.le_antisymm (hc.first _ hd.chain hweight.symm v rfl u rfl) (hd.first _ hc.chain hweight u rfl v rfl)
  have hvu : v = u := (List.idxOf_inj hv).mp hidx
  subst hvu
  rw [hc.settled.unique hv hd.settled]

/-! ## The total -/

theorem sum_map_eq_iff {f f' : TaskId → ℚ} (hle : ∀ id ∈ c, f id ≤ f' id) :
    (c.map f).sum = (c.map f').sum ↔ ∀ id ∈ c, f id = f' id := by
  induction c with
  | nil => simp
  | cons id c ih =>
      obtain ⟨hid, hc⟩ := List.forall_mem_cons.mp hle
      have hsum : (c.map f).sum ≤ (c.map f').sum := List.sum_le_sum hc
      rw [List.forall_mem_cons, ← ih hc, List.map_cons, List.map_cons, List.sum_cons, List.sum_cons]
      constructor
      · intro heq
        constructor
        · linarith
        · linarith
      · rintro ⟨hid, hsum⟩
        rw [hid, hsum]

theorem totalHours_eq : g.totalHours estimateHours =
    ((g.computeCriticalPath estimateHours).map (g.hoursOr estimateHours 0)).sum := by
  rw [List.sum_eq_foldl, List.foldl_map]
  rfl

theorem hoursOr_zero_le (id : TaskId) : g.hoursOr estimateHours 0 id ≤ g.hoursOr estimateHours 1 id := by
  unfold hoursOr
  cases (if g.nodes.has id then estimateHours id else none) with
  | none => exact zero_le_one
  | some hours => exact le_rfl

theorem hoursOr_zero_eq_iff (hid : id ∈ g.nodes.keys) :
    g.hoursOr estimateHours 0 id = g.hoursOr estimateHours 1 id ↔ (estimateHours id).isSome = true := by
  have hhas : g.nodes.has id = true := JsMap.has_iff.mpr (JsMap.mem_keys_iff.mp hid)
  unfold hoursOr
  rw [if_pos hhas]
  cases estimateHours id with
  | none => simp
  | some hours => simp

end WrongStack.Sdd

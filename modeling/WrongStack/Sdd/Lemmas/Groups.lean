import WrongStack.Lib.LongestPath
import WrongStack.Sdd.Lemmas.Tracker

/-!
# Groups and levels

The level of an open task is the length of the longest chain of open tasks that it waits for. A round of
`computeParallelGroups` takes all tasks of the next level but those that wait for a completed task, for that one is
never assigned; such a task is only taken when no other one qualifies and it is the first that remains.
-/

namespace WrongStack.Sdd

open Lib TaskGraph

variable {g : TaskGraph} {id : TaskId} {k : Nat} {assigned remaining : List TaskId} {groups : List (List TaskId)}

/-! ## Blockers and levels -/

theorem mem_waitsFor {b : TaskId} :
    b ∈ g.waitsFor id ↔ ∃ e ∈ g.edges, e.src = id ∧ e.tgt = b ∧ e.type = .dependsOn := by
  rw [waitsFor, blockedByMap, mem_foldl_addBlockedBy]
  simp

def openBlockers (g : TaskGraph) (id : TaskId) : List TaskId := (g.waitsFor id).filter g.isOpen

def level (g : TaskGraph) (id : TaskId) : Nat := depthWithin (openBlockers g) g.edges.length id

section Level

variable (h : Acyclic g.waitsFor)
include h

theorem acyclic_openBlockers : Acyclic (openBlockers g) := h.mono fun _ => List.filter_sublist.subset

omit h in
theorem openBlockers_keys (g : TaskGraph) (x : TaskId) (hx : openBlockers g x ≠ []) :
    x ∈ g.edges.map TaskEdge.src := by
  obtain ⟨b, hb⟩ := List.exists_mem_of_ne_nil _ hx
  obtain ⟨e, he, rfl, -, -⟩ := mem_waitsFor.mp (List.mem_of_mem_filter hb)
  exact List.mem_map_of_mem he

theorem level_le_iff : level g id ≤ k ↔ ∀ b ∈ g.waitsFor id, g.isOpen b = true → level g b < k := by
  refine (depthWithin_le_iff (acyclic_openBlockers h) (openBlockers_keys g) (by simp)).trans ?_
  simp only [openBlockers, List.mem_filter, and_imp]
  exact Iff.rfl

theorem exists_level (ho : g.isOpen id = true) (hk : k ≤ level g id) : ∃ x, g.isOpen x = true ∧ level g x = k := by
  obtain ⟨x, hreach, hx⟩ := exists_depthWithin_eq (acyclic_openBlockers h) (openBlockers_keys g) (by simp) hk
  refine ⟨x, ?_, hx⟩
  cases hreach with
  | refl => exact ho
  | tail _ hstep => exact (List.mem_filter.mp hstep).2

end Level

/-! ## What the groups should be -/

/-- All that the task waits for is completed or in one of the first `k` groups. -/
def StartsAt (g : TaskGraph) (groups : List (List TaskId)) (k : Nat) (id : TaskId) : Prop :=
  ∀ b ∈ g.waitsFor id, g.statusOf b = some .completed ∨ b ∈ (groups.take k).flatten

/-- The groups are the open tasks, each in the first group in which it can start. -/
structure Levelled (g : TaskGraph) (groups : List (List TaskId)) : Prop where
  partition : groups.flatten.Perm (g.nodes.keys.filter g.isOpen)
  nonempty : [] ∉ groups
  earliest : ∀ k, ∀ id ∈ groups.getD k [], StartsAt g groups k id ∧ ∀ j < k, ¬ StartsAt g groups j id

def BlockersPresent (g : TaskGraph) : Prop :=
  ∀ id, g.isOpen id = true → ∀ b ∈ g.waitsFor id, g.nodes.has b = true

def WaitsForCompleted (g : TaskGraph) (id : TaskId) : Prop :=
  g.isOpen id = true ∧ ∃ b ∈ g.waitsFor id, g.statusOf b = some .completed

/-- No other open task is of its level, and those of higher levels come after it among the nodes. -/
def Alone (g : TaskGraph) (id : TaskId) : Prop :=
  ∀ other, g.isOpen other = true → other ≠ id → level g other < level g id ∨
    (level g id < level g other ∧ g.nodes.keys.idxOf id < g.nodes.keys.idxOf other)

def LevelsFrom (g : TaskGraph) (k : Nat) (groups : List (List TaskId)) : Prop :=
  ∀ j id, id ∈ groups.getD j [] ↔ g.isOpen id = true ∧ level g id = k + j

theorem mem_flatten_take {b : TaskId} : b ∈ (groups.take k).flatten ↔ ∃ j < k, b ∈ groups.getD j [] := by
  simp only [List.mem_flatten, List.getD_eq_getElem?_getD]
  constructor
  · rintro ⟨group, hgroup, hb⟩
    obtain ⟨j, hj⟩ := List.mem_iff_getElem?.mp hgroup
    rw [List.getElem?_take] at hj
    split at hj
    · rename_i hlt
      exact ⟨j, hlt, by rw [hj]; exact hb⟩
    · cases hj
  · rintro ⟨j, hlt, hb⟩
    cases hj : groups[j]? with
    | none => simp [hj] at hb
    | some group =>
        refine ⟨group, List.mem_iff_getElem?.mpr ⟨j, ?_⟩, by simpa [hj] using hb⟩
        rw [List.getElem?_take, if_pos hlt, hj]

theorem mem_flatten_iff_getD {b : TaskId} : b ∈ groups.flatten ↔ ∃ j, b ∈ groups.getD j [] := by
  constructor
  · intro hb
    rw [← List.take_length (l := groups)] at hb
    obtain ⟨j, -, hj⟩ := mem_flatten_take.mp hb
    exact ⟨j, hj⟩
  · rintro ⟨j, hj⟩
    obtain ⟨group, hgroup, hb⟩ := List.mem_flatten.mp (mem_flatten_take.mpr ⟨j, j.lt_succ_self, hj⟩)
    exact List.mem_flatten.mpr ⟨group, List.mem_of_mem_take hgroup, hb⟩

theorem isOpen_of_mem_partition (hp : groups.flatten.Perm (g.nodes.keys.filter g.isOpen)) {j : Nat}
    (hid : id ∈ groups.getD j []) : g.isOpen id = true :=
  (List.mem_filter.mp (hp.mem_iff.mp (mem_flatten_iff_getD.mpr ⟨j, hid⟩))).2

theorem not_completed_of_isOpen (ho : g.isOpen id = true) : g.statusOf id ≠ some .completed := (isOpen_iff.mp ho).2

theorem mem_keys_of_isOpen (ho : g.isOpen id = true) : id ∈ g.nodes.keys :=
  JsMap.mem_keys_iff.mpr (JsMap.has_iff.mp (isOpen_iff.mp ho).1)

/-- Groups in which every task is as early as it can be are the levels. -/
theorem Levelled.levelsFrom (h : Acyclic g.waitsFor) (hl : Levelled g groups) : LevelsFrom g 0 groups := by
  have hlevel : ∀ k, ∀ id ∈ groups.getD k [], level g id = k := by
    intro k
    induction k using Nat.strongRecOn with
    | ind k ih =>
        intro id hid
        obtain ⟨hstarts, hearlier⟩ := hl.earliest k id hid
        -- where an open task that `id` waits for is
        have hblocker : ∀ b ∈ g.waitsFor id, g.isOpen b = true → level g b < k ∧ b ∈ groups.getD (level g b) [] := by
          intro b hb ho
          rcases hstarts b hb with hdone | hmem
          · exact absurd hdone (not_completed_of_isOpen ho)
          · obtain ⟨j, hj, hmem⟩ := mem_flatten_take.mp hmem
            rw [ih j hj b hmem]
            exact ⟨hj, hmem⟩
        have hle : level g id ≤ k := (level_le_iff h).mpr fun b hb ho => (hblocker b hb ho).1
        by_contra hne
        refine hearlier (level g id) (Nat.lt_of_le_of_ne hle hne) fun b hb => ?_
        refine (hstarts b hb).imp_right fun hmem => ?_
        have ho : g.isOpen b = true := by
          obtain ⟨j, -, hmem⟩ := mem_flatten_take.mp hmem
          exact isOpen_of_mem_partition hl.partition hmem
        exact mem_flatten_take.mpr ⟨_, (level_le_iff h).mp le_rfl b hb ho, (hblocker b hb ho).2⟩
  intro j id
  rw [Nat.zero_add]
  constructor
  · exact fun hid => ⟨isOpen_of_mem_partition hl.partition hid, hlevel j id hid⟩
  · rintro ⟨ho, rfl⟩
    have hmem : id ∈ groups.flatten :=
      hl.partition.mem_iff.mpr (List.mem_filter.mpr ⟨mem_keys_of_isOpen ho, ho⟩)
    obtain ⟨k, hk⟩ := mem_flatten_iff_getD.mp hmem
    rw [hlevel k id hk]
    exact hk

theorem LevelsFrom.levelled (h : Acyclic g.waitsFor) (hpresent : BlockersPresent g) (hl : LevelsFrom g 0 groups)
    (hp : groups.flatten.Perm (g.nodes.keys.filter g.isOpen)) (hne : [] ∉ groups) : Levelled g groups := by
  refine ⟨hp, hne, fun k id hid => ?_⟩
  obtain ⟨ho, hk⟩ := (hl k id).mp hid
  rw [Nat.zero_add] at hk
  subst hk
  constructor
  · intro b hb
    by_cases hdone : g.statusOf b = some .completed
    · exact Or.inl hdone
    · have hob : g.isOpen b = true := isOpen_iff.mpr ⟨hpresent id ho b hb, hdone⟩
      refine Or.inr (mem_flatten_take.mpr ⟨level g b, (level_le_iff h).mp le_rfl b hb hob, ?_⟩)
      exact (hl _ b).mpr ⟨hob, (Nat.zero_add _).symm⟩
  · intro j hj hstarts
    refine absurd ((level_le_iff h).mpr fun b hb hob => ?_) (Nat.not_le.mpr hj)
    rcases hstarts b hb with hdone | hmem
    · exact absurd hdone (not_completed_of_isOpen hob)
    · obtain ⟨i, hi, hmem⟩ := mem_flatten_take.mp hmem
      rw [((hl i b).mp hmem).2, Nat.zero_add]
      exact hi

/-- What an open task waits for is in the graph, if it can ever start. -/
theorem Levelled.blockersPresent (hl : Levelled g groups) : BlockersPresent g := by
  intro id ho b hb
  have hmem : id ∈ groups.flatten := hl.partition.mem_iff.mpr (List.mem_filter.mpr ⟨mem_keys_of_isOpen ho, ho⟩)
  obtain ⟨k, hk⟩ := mem_flatten_iff_getD.mp hmem
  rcases (hl.earliest k id hk).1 b hb with hdone | hmem
  · exact has_iff_statusOf.mpr ⟨_, hdone⟩
  · obtain ⟨j, -, hmem⟩ := mem_flatten_take.mp hmem
    exact (isOpen_iff.mp (isOpen_of_mem_partition hl.partition hmem)).1

/-! ## The rounds -/

theorem allAssigned_iff : g.allAssigned assigned id = true ↔ ∀ b ∈ g.waitsFor id, b ∈ assigned := by
  rw [allAssigned, waitsFor]
  cases g.blockedByMap.get? id with
  | none => simp
  | some blockers =>
      simp only [Bool.or_eq_true, List.isEmpty_iff, List.all_eq_true, List.contains_iff_mem, Option.getD_some,
        or_iff_right_iff_imp]
      rintro rfl
      simp

theorem nextGroup_subset (g : TaskGraph) (assigned remaining : List TaskId) :
    g.nextGroup assigned remaining ⊆ remaining := by
  unfold nextGroup
  dsimp only
  split
  · intro x hx
    cases remaining with
    | nil => cases hx
    | cons y ys => exact List.mem_singleton.mp hx ▸ List.mem_cons_self
  · exact List.filter_sublist.subset

theorem nextGroup_ne_nil (assigned : List TaskId) (hne : remaining ≠ []) : g.nextGroup assigned remaining ≠ [] := by
  unfold nextGroup
  dsimp only
  split
  · cases remaining with
    | nil => exact absurd rfl hne
    | cons y ys => exact List.cons_ne_nil _ _
  · rename_i hgroup
    exact fun hnil => hgroup (by rw [hnil]; rfl)

theorem nextGroup_nodup (hn : remaining.Nodup) (assigned : List TaskId) : (g.nextGroup assigned remaining).Nodup := by
  unfold nextGroup
  dsimp only
  split
  · cases remaining with
    | nil => exact List.nodup_nil
    | cons y ys => exact List.nodup_singleton y
  · exact hn.filter _

theorem length_remaining_lt (g : TaskGraph) (assigned : List TaskId) (hne : remaining ≠ []) :
    (remaining.filter fun id => !(g.nextGroup assigned remaining).contains id).length < remaining.length := by
  obtain ⟨x, hx⟩ := List.exists_mem_of_ne_nil _ (nextGroup_ne_nil (g := g) assigned hne)
  refine List.length_filter_lt_length_iff_exists.mpr ⟨x, nextGroup_subset g assigned remaining hx, ?_⟩
  simpa using hx

/-- Whatever the graph, the groups are the tasks that remain. -/
theorem groupsFrom_partition (g : TaskGraph) (assigned : List TaskId) {fuel : Nat} (hn : remaining.Nodup)
    (hfuel : remaining.length ≤ fuel) :
    (g.groupsFrom fuel assigned remaining).flatten.Perm remaining ∧ [] ∉ g.groupsFrom fuel assigned remaining := by
  induction fuel generalizing assigned remaining with
  | zero =>
      rw [List.length_eq_zero_iff.mp (Nat.le_zero.mp hfuel)]
      exact ⟨List.Perm.refl _, List.not_mem_nil⟩
  | succ fuel ih =>
      rw [groupsFrom]
      cases hempty : remaining.isEmpty with
      | true =>
          rw [List.isEmpty_iff.mp hempty]
          exact ⟨List.Perm.refl _, List.not_mem_nil⟩
      | false =>
          have hne : remaining ≠ [] := fun hnil => by simp [hnil] at hempty
          simp only [Bool.false_eq_true, ↓reduceIte, List.flatten_cons, List.mem_cons, not_or]
          have hlt := length_remaining_lt g assigned hne
          obtain ⟨hperm, hnot⟩ := ih (assigned ++ g.nextGroup assigned remaining) (hn.filter _)
            (Nat.le_of_lt_succ (hlt.trans_le hfuel))
          refine ⟨(hperm.append_left _).trans ?_, (nextGroup_ne_nil assigned hne).symm, hnot⟩
          refine (List.perm_ext_iff_of_nodup ?_ hn).mpr fun x => ?_
          · refine List.nodup_append.mpr ⟨nextGroup_nodup hn assigned, hn.filter _, ?_⟩
            rintro x hx y hy rfl
            simp [hx] at hy
          · have hsub := @nextGroup_subset g assigned remaining x
            simp only [List.mem_append, List.mem_filter, Bool.not_eq_true', List.contains_eq_mem,
              decide_eq_false_iff_not]
            tauto

/-- After `k` rounds that took the levels below `k`. -/
structure Peeled (g : TaskGraph) (k : Nat) (assigned remaining : List TaskId) : Prop where
  assigned : ∀ b, b ∈ assigned ↔ g.isOpen b = true ∧ level g b < k
  remaining : remaining = g.nodes.keys.filter fun id => g.isOpen id && decide (k ≤ level g id)

theorem Peeled.mem (hp : Peeled g k assigned remaining) : id ∈ remaining ↔ g.isOpen id = true ∧ k ≤ level g id := by
  rw [hp.remaining, List.mem_filter, Bool.and_eq_true, decide_eq_true_eq, and_iff_right_iff_imp]
  exact fun hid => mem_keys_of_isOpen hid.1

/-- The first task that remains comes before the others among the nodes. -/
theorem Peeled.idxOf_lt (hp : Peeled g k assigned remaining) {y : TaskId} {ys : List TaskId}
    (hremaining : remaining = y :: ys) {x : TaskId} (hx : x ∈ ys) :
    g.nodes.keys.idxOf y < g.nodes.keys.idxOf x := by
  have hsub : (y :: ys).Sublist g.nodes.keys := by
    rw [← hremaining, hp.remaining]
    exact List.filter_sublist
  exact List.rel_of_pairwise_cons ((idxOf_pairwise g.nodes.nodup).sublist hsub) hx

theorem Peeled.next (hp : Peeled g k assigned remaining) {group : List TaskId}
    (hgroup : ∀ id, id ∈ group ↔ g.isOpen id = true ∧ level g id = k) :
    Peeled g (k + 1) (assigned ++ group) (remaining.filter fun id => !group.contains id) := by
  refine ⟨fun b => ?_, ?_⟩
  · rw [List.mem_append, hp.assigned, hgroup, ← and_or_left, Nat.lt_succ_iff_lt_or_eq]
  · rw [hp.remaining, List.filter_filter]
    refine List.filter_congr fun x _ => ?_
    rw [Bool.eq_iff_iff]
    simp only [Bool.and_eq_true, Bool.not_eq_true', List.contains_eq_mem, decide_eq_false_iff_not, hgroup,
      decide_eq_true_eq]
    constructor
    · rintro ⟨hnot, ho, hle⟩
      exact ⟨ho, Nat.lt_of_le_of_ne hle fun heq => hnot ⟨ho, heq.symm⟩⟩
    · rintro ⟨ho, hle⟩
      exact ⟨fun hgr => by omega, ho, by omega⟩

theorem levelsFrom_cons {group : List TaskId} :
    LevelsFrom g k (group :: groups) ↔
      (∀ id, id ∈ group ↔ g.isOpen id = true ∧ level g id = k) ∧ LevelsFrom g (k + 1) groups := by
  constructor
  · intro hl
    refine ⟨fun id => hl 0 id, fun j id => ?_⟩
    rw [Nat.add_assoc, Nat.add_comm 1 j]
    exact hl (j + 1) id
  · rintro ⟨hgroup, hl⟩ j id
    cases j with
    | zero => exact hgroup id
    | succ j =>
        rw [← Nat.add_assoc, Nat.add_right_comm]
        exact hl j id

theorem Peeled.levelsFrom_nil (hp : Peeled g k assigned []) :
    LevelsFrom g k [] ↔ ∀ t, WaitsForCompleted g t → k ≤ level g t → Alone g t := by
  have hnone : ∀ id, g.isOpen id = true → ¬ k ≤ level g id := fun id ho hk => by cases hp.mem.mpr ⟨ho, hk⟩
  refine iff_of_true (fun j id => ?_) fun t ht hk => absurd hk (hnone t ht.1)
  refine iff_of_false (by simp) ?_
  rintro ⟨ho, hk⟩
  exact hnone id ho (hk ▸ Nat.le_add_right k j)

section Round

variable (h : Acyclic g.waitsFor) (hpresent : BlockersPresent g)
include h hpresent

/-- Of the tasks that remain, those of the next level qualify that do not wait for a completed one. -/
theorem Peeled.allAssigned_iff (hp : Peeled g k assigned remaining) (hid : id ∈ remaining) :
    g.allAssigned assigned id = true ↔ level g id = k ∧ ¬ WaitsForCompleted g id := by
  obtain ⟨ho, hk⟩ := hp.mem.mp hid
  rw [Sdd.allAssigned_iff]
  constructor
  · intro hall
    refine ⟨Nat.le_antisymm ((level_le_iff h).mpr fun b hb _ => ((hp.assigned b).mp (hall b hb)).2) hk, ?_⟩
    rintro ⟨-, b, hb, hdone⟩
    exact not_completed_of_isOpen ((hp.assigned b).mp (hall b hb)).1 hdone
  · rintro ⟨hlevel, hnot⟩ b hb
    have hob : g.isOpen b = true :=
      isOpen_iff.mpr ⟨hpresent id ho b hb, fun hdone => hnot ⟨ho, b, hb, hdone⟩⟩
    exact (hp.assigned b).mpr ⟨hob, (level_le_iff h).mp hlevel.le b hb hob⟩

theorem Peeled.mem_nextGroup_iff (hp : Peeled g k assigned remaining) (hne : remaining ≠ []) :
    (∀ id, id ∈ g.nextGroup assigned remaining ↔ g.isOpen id = true ∧ level g id = k) ↔
      ∀ t, WaitsForCompleted g t → level g t = k → Alone g t := by
  have hready : ∀ id, id ∈ remaining.filter (g.allAssigned assigned) ↔
      g.isOpen id = true ∧ level g id = k ∧ ¬ WaitsForCompleted g id := by
    intro id
    rw [List.mem_filter]
    constructor
    · rintro ⟨hid, hall⟩
      exact ⟨(hp.mem.mp hid).1, (hp.allAssigned_iff h hpresent hid).mp hall⟩
    · rintro ⟨ho, hlevel, hnot⟩
      have hid := hp.mem.mpr ⟨ho, hlevel.ge⟩
      exact ⟨hid, (hp.allAssigned_iff h hpresent hid).mpr ⟨hlevel, hnot⟩⟩
  unfold nextGroup
  dsimp only
  cases hempty : (remaining.filter (g.allAssigned assigned)).isEmpty with
  | false =>
      obtain ⟨r, hr⟩ := List.exists_mem_of_ne_nil (remaining.filter (g.allAssigned assigned))
        fun hnil => by rw [hnil] at hempty; cases hempty
      obtain ⟨hro, hrk, hrnot⟩ := (hready r).mp hr
      simp only [Bool.false_eq_true, ↓reduceIte, hready]
      constructor
      · intro hgroup t ht hk
        exact absurd ht ((hgroup t).mpr ⟨ht.1, hk⟩).2.2
      · intro halone id
        refine ⟨fun hid => ⟨hid.1, hid.2.1⟩, fun hid => ⟨hid.1, hid.2, fun ht => ?_⟩⟩
        have hne : r ≠ id := fun heq => hrnot (heq ▸ ht)
        rcases halone id ht hid.2 r hro hne with hlt | ⟨hlt, -⟩
        · omega
        · omega
  | true =>
      -- every task of the level waits for a completed one
      have hall : ∀ id, g.isOpen id = true → level g id = k → WaitsForCompleted g id := by
        intro id ho hk
        by_contra hnot
        have hmem := (hready id).mpr ⟨ho, hk, hnot⟩
        rw [List.isEmpty_iff.mp hempty] at hmem
        cases hmem
      obtain ⟨y, ys, hremaining⟩ := List.exists_cons_of_ne_nil hne
      obtain ⟨hyo, hyk⟩ := hp.mem.mp (hremaining ▸ List.mem_cons_self)
      simp only [↓reduceIte, hremaining, List.head?_cons, Option.toList_some, List.mem_singleton]
      constructor
      · intro hgroup t ht hk other ho hother
        have hty : t = y := (hgroup t).mpr ⟨ht.1, hk⟩
        subst hty
        rcases Nat.lt_or_ge (level g other) (level g t) with hlt | hge
        · exact Or.inl hlt
        · have hmem : other ∈ ys := by
            have hmem := hp.mem.mpr ⟨ho, hk ▸ hge⟩
            rw [hremaining] at hmem
            exact (List.mem_cons.mp hmem).resolve_left hother
          refine Or.inr ⟨Nat.lt_of_le_of_ne hge fun heq => ?_, hp.idxOf_lt hremaining hmem⟩
          exact hother ((hgroup other).mpr ⟨ho, heq ▸ hk⟩)
      · intro halone
        obtain ⟨x, hxo, hxk⟩ := exists_level h hyo hyk
        have hxalone := halone x (hall x hxo hxk) hxk
        have hyx : y = x := by
          by_contra hyx
          have hmem : x ∈ ys := by
            have hmem := hp.mem.mpr ⟨hxo, hxk.ge⟩
            rw [hremaining] at hmem
            exact (List.mem_cons.mp hmem).resolve_left (Ne.symm hyx)
          have hidx := hp.idxOf_lt hremaining hmem
          rcases hxalone y hyo hyx with hlt | ⟨-, hlt⟩
          · omega
          · omega
        subst hyx
        intro id
        constructor
        · rintro rfl
          exact ⟨hxo, hxk⟩
        · rintro ⟨ho, hk⟩
          by_contra hne
          rcases hxalone id ho hne with hlt | ⟨hlt, -⟩
          · omega
          · omega

/-- From any round on, the groups are the levels exactly if every task that waits for a completed one is alone. -/
theorem Peeled.groupsFrom_iff {fuel : Nat} (hp : Peeled g k assigned remaining) (hfuel : remaining.length ≤ fuel) :
    LevelsFrom g k (g.groupsFrom fuel assigned remaining) ↔
      ∀ t, WaitsForCompleted g t → k ≤ level g t → Alone g t := by
  induction fuel generalizing k assigned remaining with
  | zero =>
      rw [List.length_eq_zero_iff.mp (Nat.le_zero.mp hfuel)] at hp ⊢
      exact hp.levelsFrom_nil
  | succ fuel ih =>
      rw [groupsFrom]
      cases hempty : remaining.isEmpty with
      | true =>
          rw [List.isEmpty_iff.mp hempty] at hp
          exact hp.levelsFrom_nil
      | false =>
          have hne : remaining ≠ [] := fun hnil => by simp [hnil] at hempty
          have hlt := length_remaining_lt g assigned hne
          simp only [Bool.false_eq_true, ↓reduceIte]
          rw [levelsFrom_cons, hp.mem_nextGroup_iff h hpresent hne]
          have hsplit : (∀ t, WaitsForCompleted g t → k ≤ level g t → Alone g t) ↔
              (∀ t, WaitsForCompleted g t → level g t = k → Alone g t) ∧
                ∀ t, WaitsForCompleted g t → k + 1 ≤ level g t → Alone g t := by
            constructor
            · exact fun hall => ⟨fun t ht hk => hall t ht hk.ge, fun t ht hk => hall t ht (Nat.le_of_succ_le hk)⟩
            · rintro ⟨hnow, hlater⟩ t ht hk
              rcases hk.eq_or_lt with heq | hlt
              · exact hnow t ht heq.symm
              · exact hlater t ht hlt
          rw [hsplit]
          refine and_congr_right fun hnow => ?_
          exact ih (hp.next ((hp.mem_nextGroup_iff h hpresent hne).mpr hnow)) (by omega)

end Round

end WrongStack.Sdd

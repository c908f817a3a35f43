import WrongStack.ParallelRun.Lemmas.Blockers
import WrongStack.ParallelRun.Lemmas.Cancelled

/-!
# Splits and verdicts

What `splitTask` makes of the graph, and what each verdict of the supervisor makes of its task.
-/

namespace WrongStack.ParallelRun

open Lib Sdd

/-! ## The new edges -/

/-- A dependency that closes no loop holds afterwards, and no other one is new. -/
theorem mem_getBlockers_addDependency {g : TaskGraph} {dep task : TaskId}
    (hdep : g.nodes.has dep = true) (htask : g.nodes.has task = true)
    (hr : ¬ Reaches g.getBlockers dep task) :
    g.edges <+: (g.addDependency dep task).1.edges ∧ ∀ x y,
      y ∈ (g.addDependency dep task).1.getBlockers x ↔ y ∈ g.getBlockers x ∨ (y, x) = (dep, task) := by
  have hne : dep ≠ task := fun heq => hr (heq ▸ Reaches.refl dep)
  unfold TaskGraph.addDependency
  rw [if_neg hne, if_neg (by simp [hdep, htask])]
  by_cases hmem : dep ∈ g.getBlockers task
  · rw [if_pos hmem]
    refine ⟨List.prefix_refl _, fun x y => ⟨.inl, ?_⟩⟩
    rintro (h | h)
    · exact h
    · obtain ⟨rfl, rfl⟩ := Prod.mk.inj h
      exact hmem
  · rw [if_neg hmem, if_neg fun hd => hr (dependsOnTransitively_iff.mp hd)]
    refine ⟨List.prefix_append _ _, fun x y => ?_⟩
    rw [getBlockers_addEdge]
    by_cases hx : x = task
    · simp [hx]
    · simp [hx]

namespace Board

variable {b b' : Board} {t x y : TaskId}

/-- New dependencies that a map of the tasks takes to old ones close no loop, so all of them hold. -/
theorem foldl_addDependency {g : TaskGraph} {f : TaskId → TaskId} (hac : Acyclic g.getBlockers)
    (ps : List (TaskId × TaskId)) (b : Board)
    (hnodes : ∀ p ∈ ps, b.graph.nodes.has p.1 = true ∧ b.graph.nodes.has p.2 = true)
    (hps : ∀ p ∈ ps, f p.1 ∈ g.getBlockers (f p.2))
    (hb : ∀ x, ∀ y ∈ b.graph.getBlockers x, f y ∈ g.getBlockers (f x)) :
    b.graph.edges <+: (ps.foldl (fun b p => b.addDependency p.1 p.2) b).graph.edges ∧ ∀ x y,
      y ∈ (ps.foldl (fun b p => b.addDependency p.1 p.2) b).graph.getBlockers x ↔
        y ∈ b.graph.getBlockers x ∨ (y, x) ∈ ps := by
  induction ps generalizing b with
  | nil => exact ⟨List.prefix_refl _, fun x y => by simp⟩
  | cons p ps ih =>
      obtain ⟨hdep, htask⟩ := hnodes p List.mem_cons_self
      have hp := hps p List.mem_cons_self
      have hopen : ¬ Reaches b.graph.getBlockers p.1 p.2 := fun hr => hac _ _ hp (hr.map hb)
      obtain ⟨hpre, hone⟩ := mem_getBlockers_addDependency hdep htask hopen
      have hn := (nodes_addDependency b p.1 p.2).1
      obtain ⟨hpre', hmem⟩ := ih (b.addDependency p.1 p.2)
        (fun q hq => by rw [hn]; exact hnodes q (List.mem_cons_of_mem p hq))
        (fun q hq => hps q (List.mem_cons_of_mem p hq)) fun x y hy => by
          rcases (hone x y).mp hy with hold | heq
          · exact hb x y hold
          · obtain ⟨rfl, rfl⟩ := Prod.mk.inj heq
            exact hp
      refine ⟨hpre.trans hpre', fun x y => ?_⟩
      rw [List.foldl_cons, hmem, List.mem_cons, ← or_assoc]
      exact or_congr_left (hone x y)

/-! ## The split -/

/-- The task is completed, and new pending leaves stand in its place: what blocked the task blocks each
leaf, and each leaf blocks what the task blocked. No other edge is new and none is gone. -/
structure SplitInto (b b' : Board) (t : TaskId) (leafIds : List TaskId) : Prop where
  completed : b'.statusOf t = some .completed
  nodup : leafIds.Nodup
  pending : ∀ leaf ∈ leafIds, b.graph.nodes.has leaf = false ∧ b'.statusOf leaf = some .pending
  nodes : ∀ x, b'.graph.nodes.has x = true ↔ b.graph.nodes.has x = true ∨ x ∈ leafIds
  edges : b.graph.edges <+: b'.graph.edges
  blockers : ∀ x y, y ∈ b'.graph.getBlockers x ↔ y ∈ b.graph.getBlockers x ∨
    x ∈ leafIds ∧ y ∈ b.graph.getBlockers t ∨ y ∈ leafIds ∧ t ∈ b.graph.getBlockers x
  acyclic : Acyclic b'.graph.getBlockers

theorem mem_newDependencies {blockers dependents leafIds : List TaskId} :
    (y, x) ∈ newDependencies blockers dependents leafIds ↔
      x ∈ leafIds ∧ y ∈ blockers ∨ y ∈ leafIds ∧ x ∈ dependents := by
  simp only [newDependencies, List.mem_flatMap, List.mem_append, List.mem_map, Prod.mk.injEq]
  constructor
  · rintro ⟨leaf, hleaf, ⟨d, hd, rfl, rfl⟩ | ⟨d, hd, rfl, rfl⟩⟩
    · exact .inl ⟨hleaf, hd⟩
    · exact .inr ⟨hleaf, hd⟩
  · rintro (⟨hx, hy⟩ | ⟨hy, hx⟩)
    · exact ⟨x, hx, .inl ⟨y, hy, rfl, rfl⟩⟩
    · exact ⟨y, hy, .inr ⟨x, hx, rfl, rfl⟩⟩

/-- The new dependencies all hold: a map that takes the leaves to their task takes them to old ones. -/
theorem rewire_spec {grown : Board} {leafIds : List TaskId} (hwf : Wf b.tracker)
    (hedges : grown.graph.edges = b.graph.edges) (hnew : ∀ z ∈ leafIds, b.graph.nodes.has z = false)
    (hgrown : ∀ z, b.graph.nodes.has z = true ∨ z ∈ leafIds → grown.graph.nodes.has z = true) :
    b.graph.edges <+: (grown.rewire (b.graph.getBlockers t) (b.graph.getDependents t) leafIds).graph.edges ∧
      ∀ x y, y ∈ (grown.rewire (b.graph.getBlockers t) (b.graph.getDependents t) leafIds).graph.getBlockers x ↔
        y ∈ b.graph.getBlockers x ∨ x ∈ leafIds ∧ y ∈ b.graph.getBlockers t ∨
          y ∈ leafIds ∧ t ∈ b.graph.getBlockers x := by
  have hblock : grown.graph.getBlockers = b.graph.getBlockers := by
    unfold TaskGraph.getBlockers
    rw [hedges]
  have hends : ∀ z w, w ∈ b.graph.getBlockers z →
      b.graph.nodes.has w = true ∧ b.graph.nodes.has z = true := by
    intro z w hw
    obtain ⟨e, he, rfl, rfl, -⟩ := mem_getBlockers.mp hw
    exact hwf.ends e he
  let f : TaskId → TaskId := fun z => if z ∈ leafIds then t else z
  have hleaf : ∀ z ∈ leafIds, f z = t := fun z hz => if_pos hz
  have hnode : ∀ z, b.graph.nodes.has z = true → f z = z := by
    intro z hz
    refine if_neg fun hm => ?_
    rw [hnew z hm] at hz
    cases hz
  have hfold := foldl_addDependency (f := f) hwf.acyclic
    (newDependencies (b.graph.getBlockers t) (b.graph.getDependents t) leafIds) grown ?_ ?_ ?_
  · rw [← rewire_eq_foldl, hedges] at hfold
    refine ⟨hfold.1, fun x y => (hfold.2 x y).trans ?_⟩
    rw [mem_newDependencies, hblock, mem_getDependents]
  · rintro ⟨y, x⟩ hp
    rcases mem_newDependencies.mp hp with ⟨hx, hy⟩ | ⟨hy, hx⟩
    · exact ⟨hgrown y (.inl (hends t y hy).1), hgrown x (.inr hx)⟩
    · exact ⟨hgrown y (.inr hy), hgrown x (.inl (hends x t (mem_getDependents.mp hx)).2)⟩
  · rintro ⟨y, x⟩ hp
    rcases mem_newDependencies.mp hp with ⟨hx, hy⟩ | ⟨hy, hx⟩
    · rw [hleaf x hx, hnode y (hends t y hy).1]
      exact hy
    · rw [hleaf y hy, hnode x (hends x t (mem_getDependents.mp hx)).2]
      exact mem_getDependents.mp hx
  · intro x y hy
    rw [hblock] at hy
    rw [hnode x (hends x y hy).2, hnode y (hends x y hy).1]
    exact hy

/-- What `splitTask` makes of a task, once its leaves are wired. -/
theorem splitInto_wired {grown wired : Board} {leafIds : List TaskId} (hwf : Wf b.tracker)
    (ht : b.graph.nodes.has t = true) (hnodup : leafIds.Nodup)
    (hnew : ∀ z ∈ leafIds, b.graph.nodes.has z = false) (hedges : grown.graph.edges = b.graph.edges)
    (hstatus : ∀ x, grown.statusOf x = if x ∈ leafIds then some .pending else b.statusOf x)
    (hwired : wired.tracker =
      (grown.rewire (b.graph.getBlockers t) (b.graph.getDependents t) leafIds).tracker)
    (hw : Wrote t .completed wired b') (hwf' : Wf b'.tracker) : SplitInto b b' t leafIds := by
  have hgrown : ∀ z, grown.graph.nodes.has z = true ↔ b.graph.nodes.has z = true ∨ z ∈ leafIds := by
    intro z
    rw [has_iff_statusOf, has_iff_statusOf]
    have hz := hstatus z
    by_cases hm : z ∈ leafIds
    · rw [if_pos hm] at hz
      simp only [hm, or_true, iff_true]
      exact ⟨_, hz⟩
    · rw [if_neg hm] at hz
      simp only [hm, or_false]
      exact iff_of_eq (congrArg (fun o => ∃ st, o = some st) hz)
  obtain ⟨hn, -, -⟩ := nodes_rewire (b.graph.getBlockers t) (b.graph.getDependents t) leafIds grown
  obtain ⟨hpre, hblock⟩ := rewire_spec (t := t) hwf hedges hnew fun z hz => (hgrown z).mpr hz
  have hgraph : wired.graph =
      (grown.rewire (b.graph.getBlockers t) (b.graph.getDependents t) leafIds).graph :=
    congrArg TaskTracker.graph hwired
  rw [← hgraph] at hn hpre hblock
  refine ⟨?_, hnodup, fun leaf hl => ⟨hnew leaf hl, ?_⟩, fun x => ?_, ?_, fun x y => ?_, hwf'.acyclic⟩
  · exact hw.own.resolve_right (by simp)
  · -- a leaf is not the task, and pending when the task is completed
    have hne : leaf ≠ t := by
      rintro rfl
      rw [hnew leaf hl] at ht
      cases ht
    have hpend : wired.statusOf leaf = some .pending := by
      rw [statusOf, TaskGraph.statusOf, hn]
      exact (hstatus leaf).trans (if_pos hl)
    exact (hw.spares.status leaf hne).elim (fun heq => heq.trans hpend) And.left
  · rw [hw.shape.has, ← hgrown x, hn]
  · rw [hw.shape.edges]
    exact hpre
  · rw [hw.shape.getBlockers]
    exact hblock x y

/-- `splitTask` refuses what is not there, is running or has no subtasks, and nothing else. -/
theorem splitTask_cases (hwf : Wf b.tracker) (subs : JsMap TaskId String) (t : TaskId) (now : Nat)
    (subtasks : List SddSubtaskSpec) :
    ((b.graph.nodes.has t = false ∨ b.isRunning subs t = true ∨ subtasks = []) ∧
      b.splitTask subs t now subtasks = (b, [])) ∨
    (b.graph.nodes.has t = true ∧ b.isRunning subs t = false ∧ subtasks ≠ []) ∧
      (b.splitTask subs t now subtasks).2.length = subtasks.length ∧
      SplitInto b (b.splitTask subs t now subtasks).1 t (b.splitTask subs t now subtasks).2 := by
  by_cases hif : (!b.graph.nodes.has t || b.isRunning subs t || subtasks.isEmpty) = true
  · refine .inl ⟨?_, by rw [splitTask, if_pos hif]⟩
    simpa [or_assoc] using hif
  · have hgo : b.graph.nodes.has t = true ∧ b.isRunning subs t = false ∧ subtasks ≠ [] := by
      simpa [or_assoc] using hif
    obtain ⟨hids, hedges, hstatus⟩ := addLeaves_spec b t now subtasks
    have hwfend : Wf (b.splitTask subs t now subtasks).1.tracker := by
      rcases splitTask_spec (b := b) (t := t) subs now subtasks with heq | ⟨-, hsp, -, -⟩
      · rw [heq]
        exact hwf
      · exact hsp.wf hwf
    refine .inr ⟨hgo, ?_⟩
    rw [splitTask, if_neg hif] at hwfend ⊢
    generalize b.addLeaves t now subtasks = p at hids hedges hstatus hwfend ⊢
    obtain ⟨grown, leafIds⟩ := p
    simp only at hids hedges hstatus hwfend ⊢
    have hnew : ∀ z ∈ leafIds, b.graph.nodes.has z = false := by
      intro z hz
      rw [hids] at hz
      have hle := (List.mem_range'_1.mp hz).1
      by_contra hhas
      exact absurd (hwf.fresh z (by simpa using hhas)) (Nat.not_lt.mpr hle)
    rw [← hids] at hstatus
    refine ⟨by rw [hids, List.length_range'], ?_⟩
    refine splitInto_wired hwf hgo.1 (hids ▸ List.nodup_range') hnew hedges hstatus ?_
      ((setStatus_cases _ t .completed _).resolve_left fun h => ?_).2 hwfend
    · rw [persistRetries_tracker]
    · -- the task is still there
      have hnone := statusOf_eq_none.mp h.1
      rw [graph, persistRetries_tracker] at hnone
      have hn := (nodes_rewire (b.graph.getBlockers t) (b.graph.getDependents t) leafIds grown).1
      rw [graph, graph] at hn
      rw [hn, ← statusOf_eq_none, hstatus] at hnone
      split at hnone
      · cases hnone
      · rw [statusOf_eq_none.mp hnone] at hgo
        cases hgo.1

theorem setStatus_eq (b : Board) (t : TaskId) (status : TaskStatus) (reason : Option String) :
    ∃ tracker, b.setStatus t status reason = { b with tracker } := by
  unfold setStatus updateNodeStatus
  cases b.tracker.updateNodeStatus t status reason with
  | error e => exact ⟨b.tracker, rfl⟩
  | ok tracker => exact ⟨tracker, rfl⟩

/-- A requeued task is pending, when it is there, and none of its retries is used up. -/
theorem requeue_spec (b : Board) (t : TaskId) (reason : String) :
    (b.requeue t reason).statusOf t = (b.statusOf t).map (fun _ => .pending) ∧
      (b.requeue t reason).retryMap.get? t = none ∧
      (b.graph.nodes.has t = true → ((b.requeue t reason).infoOf t).retries = 0) := by
  have hstatus := statusOf_setStatus_self (t := t) (some reason)
    (b := { b with retryMap := b.retryMap.delete t }.persistRetries t 0)
    (by simp : TaskStatus.pending ≠ .inProgress)
  obtain ⟨tracker, heq⟩ := setStatus_eq ({ b with retryMap := b.retryMap.delete t }.persistRetries t 0) t
    .pending (some reason)
  have hsame : ({ b with retryMap := b.retryMap.delete t }.persistRetries t 0).statusOf t =
      b.statusOf t := by
    rw [statusOf, graph, persistRetries_tracker]
  refine ⟨hsame ▸ hstatus, ?_, fun hhas => ?_⟩
  · rw [requeue, heq]
    simp only [persistRetries, patch]
    split <;> exact (JsMap.get?_delete ..).trans (if_pos rfl)
  · rw [requeue, heq]
    simp only [persistRetries, patch, infoOf]
    rw [if_pos hhas, JsMap.get?_set, if_pos rfl]
    rfl

end Board

namespace State

open Board

variable {s s' : State} {t : TaskId} {st : TaskStatus}

/-! ## Verdicts -/

theorem board_afterFailure (s : State) (t : TaskId) (resolve : Bool) :
    (s.afterFailure t resolve).board = s.board := by
  unfold afterFailure resolveWorktrees
  split
  · split <;> rfl
  · rfl

/-- The status is written, or there is no node and the call throws. -/
theorem write_cases (s : State) (t : TaskId) (st : TaskStatus) (reason : Option String)
    (next : State → State) :
    (s.board.statusOf t = none ∧ (s.write t st reason next).board = s.board) ∨
      s.board.statusOf t ≠ none ∧
        s.write t st reason next = next { s with board := s.board.setStatus t st reason } := by
  unfold write setStatus
  cases hw : s.board.updateNodeStatus t st reason with
  | ok board =>
      refine .inr ⟨fun hnone => ?_, rfl⟩
      have hown := (updateNodeStatus_ok hw).shape.has t
      rw [statusOf_eq_none.mp hnone, ← statusOf_eq_none] at hown
      exact absurd ((updateNodeStatus_ok hw).own) (by simp [hown])
  | error e =>
      refine .inl ⟨updateNodeStatus_error hw, ?_⟩
      rcases goOn_cases s t (.threw e.message) with ⟨a, h, -⟩ | ⟨h, -⟩ | ⟨-, -, ⟨board, hfail, -⟩ | ⟨-, heq⟩⟩
      · cases h
      · cases h
      · have hown := hfail.shape.has t
        rw [statusOf_eq_none.mp (updateNodeStatus_error hw), ← statusOf_eq_none] at hown
        exact absurd hfail.own (by simp [hown])
      · change (s.goOn t (.threw e.message)).board = s.board
        rw [heq]

theorem setStatus_of_none {reason : Option String} (h : s.board.statusOf t = none) :
    s.board.setStatus t st reason = s.board := by
  rcases setStatus_cases s.board t st reason with ⟨-, heq⟩ | ⟨hhas, -⟩
  · exact heq
  · rw [statusOf_eq_none.mp h] at hhas
    cases hhas

theorem board_write {reason : Option String} {next : State → State}
    (hnext : ∀ s₁ : State, (next s₁).board = s₁.board) :
    (s.write t st reason next).board = s.board.setStatus t st reason := by
  rcases write_cases s t st reason next with ⟨hnone, heq⟩ | ⟨-, heq⟩
  · rw [heq, setStatus_of_none hnone]
  · rw [heq, hnext]

theorem board_terminalFail (s : State) (t : TaskId) (errMsg : String) (resolve : Bool) :
    (s.terminalFail t errMsg resolve).board = s.board.setStatus t .failed (some errMsg) :=
  board_write fun s₁ => board_afterFailure s₁ t resolve

theorem statusOf_terminalFail (s : State) (t : TaskId) (errMsg : String) (resolve : Bool) :
    (s.terminalFail t errMsg resolve).board.statusOf t = (s.board.statusOf t).map fun _ => .failed := by
  rw [board_terminalFail]
  exact statusOf_setStatus_self _ (by simp)

theorem board_rescue (s : State) (t : TaskId) (reason : String) (resolve : Bool) :
    (s.rescue t reason resolve).board = s.board.requeue t reason :=
  board_write fun s₁ => board_afterFailure s₁ t resolve

/-- What the verdict of a supervisor promises for its task. -/
def TakesEffect (s s' : State) (t : TaskId) : Option SddSupervisorVerdict → Prop
  | none | some .fail => True
  | some .retry | some (.reassign _) =>
      s'.board.statusOf t = some .pending ∧ s'.retries t = 0 ∧ (s'.board.infoOf t).retries = 0
  | some (.split []) => s'.board.statusOf t = some .failed → s.board.statusOf t = some .failed
  | some (.split subtasks) =>
      ∃ leafIds, leafIds.length = subtasks.length ∧ SplitInto s.board s'.board t leafIds

/-- The verdict is one that can take effect: its task is still there, and not running when it is to be
split. -/
def Effective (s : State) (t : TaskId) : Option SddSupervisorVerdict → Prop
  | none | some .fail => True
  | some .retry | some (.reassign _) => s.board.graph.nodes.has t = true
  | some (.split []) => s.board.graph.nodes.has t = false ∨ s.board.statusOf t = some .failed
  | some (.split _) => s.board.graph.nodes.has t = true ∧ s.board.isRunning s.taskSubagents t = false

theorem rescue_iff (s : State) (t : TaskId) (attempts : Nat) (reason : String) (resolve : Bool) :
    (((s.escalated t attempts).rescue t reason resolve).board.statusOf t = some .pending ∧
        ((s.escalated t attempts).rescue t reason resolve).retries t = 0 ∧
        (((s.escalated t attempts).rescue t reason resolve).board.infoOf t).retries = 0) ↔
      s.board.graph.nodes.has t = true := by
  obtain ⟨hstatus, hretries, hinfo⟩ := requeue_spec (s.escalated t attempts).board t reason
  rw [retries, board_rescue, hstatus, hretries]
  constructor
  · rintro ⟨h, -⟩
    obtain ⟨st, hst, -⟩ := Option.map_eq_some_iff.mp h
    exact has_iff_statusOf.mpr ⟨st, hst⟩
  · intro hhas
    obtain ⟨st, hst⟩ := has_iff_statusOf.mp hhas
    have hst' : (s.escalated t attempts).board.statusOf t = some st := hst
    exact ⟨by rw [hst']; rfl, rfl, hinfo hhas⟩

theorem statusOf_terminalFail_iff (s : State) (t : TaskId) (errMsg : String) (resolve : Bool) :
    ((s.terminalFail t errMsg resolve).board.statusOf t = some .failed → s.board.statusOf t = some .failed) ↔
      s.board.graph.nodes.has t = false ∨ s.board.statusOf t = some .failed := by
  rw [statusOf_terminalFail, ← statusOf_eq_none]
  cases s.board.statusOf t with
  | none => simp
  | some st => simp

theorem delegate_iff (hwf : Wf s.board.tracker) (t : TaskId) (attempts : Nat) (errMsg : String)
    (resolve : Bool) (now : Nat) (subtasks : List SddSubtaskSpec) :
    TakesEffect s ((s.escalated t attempts).delegate t errMsg resolve now subtasks) t
      (some (.split subtasks)) ↔ Effective s t (some (.split subtasks)) := by
  have hboard : (s.escalated t attempts).board.graph = s.board.graph := rfl
  simp only [delegate]
  rcases splitTask_cases (b := (s.escalated t attempts).board) hwf (s.escalated t attempts).taskSubagents t
    now subtasks with ⟨hrefused, heq⟩ | ⟨⟨hhas, hrun, hne⟩, hlen, hsplit⟩
  · rw [heq]
    cases subtasks with
    | nil => exact statusOf_terminalFail_iff (s.escalated t attempts) t errMsg resolve
    | cons sub subtasks =>
        constructor
        · rintro ⟨leafIds, -, hsplit⟩
          have hcompleted := hsplit.completed
          have hstatus := statusOf_terminalFail (s.escalated t attempts) t errMsg resolve
          rw [if_pos List.isEmpty_nil, hstatus] at hcompleted
          obtain ⟨st, -, hst⟩ := Option.map_eq_some_iff.mp hcompleted
          cases hst
        · rintro ⟨hhas, hrun⟩
          rcases hrefused with h | h | h
          · exact absurd (hhas.symm.trans h) (by simp)
          · exact absurd (h.symm.trans hrun) (by simp)
          · cases h
  · cases subtasks with
    | nil => exact absurd rfl hne
    | cons sub subtasks =>
        refine ⟨fun _ => ⟨hhas, hrun⟩, fun _ => ?_⟩
        generalize (s.escalated t attempts).board.splitTask _ t now (sub :: subtasks) = p at hlen hsplit
        obtain ⟨board, leafIds⟩ := p
        have hsome : leafIds.isEmpty = false := by
          cases leafIds with
          | nil => cases hlen
          | cons _ _ => rfl
        simp only [hsome, Bool.false_eq_true, if_false]
        refine ⟨leafIds, hlen, ?_⟩
        rw [board_afterFailure]
        exact ⟨hsplit.completed, hsplit.nodup, hsplit.pending, hsplit.nodes, hsplit.edges,
          hsplit.blockers, hsplit.acyclic⟩

theorem supervised_iff (hwf : Wf s.board.tracker) (t : TaskId) (errMsg : String) (attempts : Nat)
    (resolve : Bool) (now : Nat) (verdict : Option SddSupervisorVerdict) :
    TakesEffect s (s.supervised t errMsg attempts resolve now verdict) t verdict ↔
      Effective s t verdict := by
  match verdict with
  | none | some .fail => exact Iff.rfl
  | some .retry => exact rescue_iff s t attempts "supervisor retry" resolve
  | some (.reassign model) => exact rescue_iff s t attempts _ resolve
  | some (.split subtasks) => exact delegate_iff hwf t attempts errMsg resolve now subtasks

/-! ## Failures -/

/-- The retries of the task are used up, and no supervisor is left to ask. -/
def Exhausted (s : State) (t : TaskId) : Prop :=
  s.config.maxRetries ≤ s.retries t ∧
    (s.config.superviseFailure = false ∨ s.config.maxSupervisorEscalations ≤ s.escalations t)

/-- The task fails only when it is exhausted. -/
def FailsExhausted (s s' : State) (t : TaskId) : Prop :=
  s'.board.statusOf t = some .failed → s.board.statusOf t = some .failed ∨ s.Exhausted t

theorem failsExhausted_of_board (h : s'.board = s.board) : FailsExhausted s s' t :=
  fun hst => .inl (h ▸ hst)

theorem failsExhausted_applyTaskFailure (s : State) (t : TaskId) (errMsg : String) (resolve : Bool) :
    FailsExhausted s (s.applyTaskFailure t errMsg resolve) t := by
  unfold applyTaskFailure
  split
  · intro hst
    rw [board_write fun s₁ => board_afterFailure s₁ t resolve,
      statusOf_setStatus_self _ (by simp)] at hst
    obtain ⟨st, -, hst⟩ := Option.map_eq_some_iff.mp hst
    cases hst
  · rename_i hretries
    split
    · exact failsExhausted_of_board rfl
    · rename_i hask
      intro hst
      rw [statusOf_terminalFail] at hst
      obtain ⟨st, hst, -⟩ := Option.map_eq_some_iff.mp hst
      have hhas : s.board.graph.nodes.has t = true := has_iff_statusOf.mpr ⟨st, hst⟩
      refine .inr ⟨Nat.not_lt.mp hretries, ?_⟩
      simpa [canEscalate, hhas, or_iff_not_imp_left] using hask

theorem failsExhausted_integrated (s : State) (t : TaskId) (outcome : Worktree.Outcome) :
    FailsExhausted s (s.integrated t outcome) t := by
  cases outcome with
  | ok =>
      intro hst
      rcases write_cases s t .completed none fun s =>
        { s with
          board := { s.board with retryMap := s.board.retryMap.delete t }.persistRetries t 0 }.goOn t .done
        with ⟨hnone, heq⟩ | ⟨-, heq⟩
      · rw [integrated, heq] at hst
        exact .inl hst
      · rw [integrated, heq] at hst
        have hdone := statusOf_setStatus_self (b := s.board) (t := t) none
          (by simp : TaskStatus.completed ≠ .inProgress)
        simp only [goOn, statusOf, graph, persistRetries_tracker] at hst hdone
        rw [hdone] at hst
        obtain ⟨st, -, hst⟩ := Option.map_eq_some_iff.mp hst
        cases hst
  | regressed reason => exact failsExhausted_applyTaskFailure s t _ false
  | conflict files => exact failsExhausted_applyTaskFailure s t _ false

theorem failsExhausted_integrateWorktree (s : State) (t : TaskId) :
    FailsExhausted s (s.integrateWorktree t) t := by
  unfold integrateWorktree
  split
  · exact failsExhausted_of_board rfl
  · exact failsExhausted_integrated s t .ok

theorem failsExhausted_afterWorker (s : State) (t : TaskId) (result : Coordination.TaskResult) :
    FailsExhausted s (s.afterWorker t result) t := by
  simp only [afterWorker]
  split
  · exact failsExhausted_of_board (board_afterFailure _ t true)
  · split
    · split
      · exact failsExhausted_of_board rfl
      · exact failsExhausted_integrateWorktree _ t
    · exact failsExhausted_applyTaskFailure _ t _ true

theorem failsExhausted_verified (s : State) (t : TaskId) (verdict : Worktree.Verdict) :
    FailsExhausted s (s.verified t verdict) t := by
  unfold verified
  split
  · exact failsExhausted_applyTaskFailure s t _ true
  · exact failsExhausted_integrateWorktree s t

end State

/-- The task whose call learns how its worker, its verifier or its merge has ended. -/
def Op.outcome : Op → Option TaskId
  | .awaitTasks t | .awaitTimeout t | .verified t _ | .git t _ => some t
  | _ => none

namespace State

open Board

variable {op : Op} {a : Await}

theorem failsExhausted_resumeOne (hop : op.outcome = some t) (h : s.resumeOne t a op = some s') :
    FailsExhausted s s' t := by
  cases op with
  | awaitTasks x =>
      cases a <;> simp only [resumeOne, reduceCtorEq] at h
      obtain ⟨result, -, rfl⟩ := Option.map_eq_some_iff.mp h
      exact failsExhausted_afterWorker s t result
  | awaitTimeout x =>
      cases a <;> simp only [resumeOne, reduceCtorEq] at h
      simp only [Option.ite_none_left_eq_some] at h
      obtain rfl := Option.some.inj h.2
      exact failsExhausted_afterWorker s t _
  | verified x verdict =>
      cases a <;> simp only [resumeOne, reduceCtorEq] at h
      obtain rfl := Option.some.inj h
      exact failsExhausted_verified s t verdict
  | git x answer =>
      cases a <;> simp only [resumeOne, reduceCtorEq] at h
      · obtain rfl := Option.some.inj h
        simp only [integrateAnswer]
        split
        · exact failsExhausted_of_board rfl
        · exact failsExhausted_integrated _ t _
      · obtain rfl := Option.some.inj h
        exact failsExhausted_of_board (board_resolveAnswer s t answer _)
  | _ => cases hop

theorem failsExhausted_step (s : State) (hop : op.outcome = some t) : FailsExhausted s (step s op) t := by
  rcases step_eq s op with heq | hs
  · rw [heq]
    exact failsExhausted_of_board rfl
  · rcases step?_cases hs with ⟨-, x, a, hx, -, hone⟩ | ⟨e, rfl, -⟩ | ⟨e, rfl, -⟩ | ⟨e, rfl, -⟩ |
      ⟨d, rfl, -⟩ | ⟨hsys, -⟩
    · have hxt : x = t := by
        cases op <;> cases hop <;> cases hx <;> rfl
      exact failsExhausted_resumeOne hop (hxt ▸ hone)
    · cases hop
    · cases hop
    · cases hop
    · cases hop
    · cases op <;> cases hop <;> cases hsys

/-! ## Every step -/

theorem wf_step (h : Wf s.board.tracker) (op : Op) : Wf (step s op).board.tracker := by
  have hshape : ∀ {b b' : Board}, Wf b.tracker → SameShape b.graph b'.graph →
      b'.tracker.nextId = b.tracker.nextId → Wf b'.tracker := fun h hs hn => h.sameShape hs hn
  rcases step_eq s op with heq | hs
  · rw [heq]
    exact h
  · generalize step s op = s' at hs ⊢
    rcases step?_cases hs with ⟨-, t, a, -, -, hone⟩ | ⟨e, rfl, -, rfl⟩ | ⟨e, rfl, -, rfl⟩ |
      ⟨e, rfl, ⟨-, rfl⟩ | ⟨-, rfl⟩⟩ | ⟨d, rfl, -, -, rfl⟩ | ⟨hsys, -⟩
    · exact (resumeOne_resumed hone).spares.wf h
    · obtain ⟨-, hb, -⟩ := head_fields { s with board := s.board.restoreRetryMap, stopRequested := false } e
      have hb' : (s.start e).board = s.board.restoreRetryMap := hb
      rw [hb']
      exact h
    · exact hshape h (shaped_turn s e).shape (shaped_turn s e).nextId
    · obtain ⟨-, hb, -⟩ := head_fields s e
      rw [hb]
      exact h
    · exact h
    · unfold finish
      split
      · have hreq := requeued_resetInProgress (b := s.board) "run stopped"
        exact hshape h hreq.shape hreq.nextId
      · exact h
    · cases op with
      | settle _ _ | stop | pause | resume =>
          obtain rfl := Option.some.inj hs
          exact h
      | cancelTask x =>
          obtain rfl := Option.some.inj hs
          rw [board_cancelTask]
          rcases cancelTask_spec (b := s.board) (t := x) with ⟨-, heq⟩ | ⟨-, -, b₁, htr, -, hw⟩
          · rw [heq]
            exact h
          · exact hshape (htr ▸ h) hw.shape hw.nextId
      | retryTask x =>
          obtain rfl := Option.some.inj hs
          obtain ⟨b₁, htr, -, hreq⟩ := retryTask_spec (b := s.board) (t := x)
          exact hshape (htr ▸ h) hreq.shape hreq.nextId
      | retryAllFailed =>
          obtain rfl := Option.some.inj hs
          obtain ⟨b₁, htr, -, hreq⟩ := retryAllFailed_spec (b := s.board)
          exact hshape (htr ▸ h) hreq.shape hreq.nextId
      | deleteTask x =>
          obtain rfl := Option.some.inj hs
          rcases deleteTask_spec (b := s.board) (t := x) s.taskSubagents with heq | ⟨-, -, hsp, -⟩
          · rw [heq]
            exact h
          · exact hsp.wf h
      | splitTask x now subtasks =>
          obtain rfl := Option.some.inj hs
          rcases splitTask_spec (b := s.board) (t := x) s.taskSubagents now subtasks with heq | ⟨-, hsp, -⟩
          · rw [heq]
            exact h
          · exact hsp.wf h
      | _ => cases hsys

/-- The verdict that is given is one that can take effect. -/
def VerdictEffective (s : State) : Op → Prop
  | .supervised t verdict _ => ∀ errMsg attempts resolve,
      s.running.get? t = some (.superviseFailure errMsg attempts resolve) → Effective s t verdict
  | _ => True

/-- What is promised of a step: a verdict takes effect, and an attempt that has failed lets its task fail
only when that is exhausted. -/
structure Rescues (s : State) (op : Op) : Prop where
  effect : ∀ t verdict now errMsg attempts resolve, op = .supervised t verdict now →
    s.running.get? t = some (.superviseFailure errMsg attempts resolve) →
    TakesEffect s (step s op) t verdict
  fails : ∀ t, op.outcome = some t → FailsExhausted s (step s op) t

theorem rescues_iff_effective (h : Wf s.board.tracker) (op : Op) : Rescues s op ↔ VerdictEffective s op := by
  have hfails : ∀ t, op.outcome = some t → FailsExhausted s (step s op) t := fun t hop =>
    failsExhausted_step s hop
  cases op with
  | supervised t verdict now =>
      have hstep : ∀ errMsg attempts resolve,
          s.running.get? t = some (.superviseFailure errMsg attempts resolve) →
          step s (.supervised t verdict now) = s.supervised t errMsg attempts resolve now verdict := by
        intro errMsg attempts resolve hget
        simp only [step, step?, hget, Option.bind_some, resumeOne, Option.getD_some]
      constructor
      · intro hr errMsg attempts resolve hget
        have heffect := hr.effect t verdict now errMsg attempts resolve rfl hget
        rw [hstep errMsg attempts resolve hget] at heffect
        exact (supervised_iff h t errMsg attempts resolve now verdict).mp heffect
      · intro heff
        refine ⟨fun x v n errMsg attempts resolve heq hget => ?_, hfails⟩
        cases heq
        rw [hstep errMsg attempts resolve hget]
        exact (supervised_iff h t errMsg attempts resolve now verdict).mpr (heff errMsg attempts resolve hget)
  | _ =>
      refine ⟨fun _ => trivial, fun _ => ⟨fun x v n errMsg attempts resolve heq _ => ?_, hfails⟩⟩
      cases heq

end State

end WrongStack.ParallelRun

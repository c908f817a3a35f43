import WrongStack.ParallelRun.Board
import WrongStack.Sdd.Lemmas.Tracker

/-!
# What the methods of the board change

Every method writes the status of one task, or of a kind of tasks. The others keep theirs, up to blocked
ones that become pending and new ones that start out so.
-/

namespace WrongStack.ParallelRun

open Lib Sdd

namespace Board

variable {b b' b₁ b₂ : Board} {P Q : TaskId → Prop} {t x : TaskId} {status : TaskStatus}

abbrev statusOf (b : Board) (x : TaskId) : Option TaskStatus := b.graph.statusOf x

/-- `crypto.randomUUID()` returns no id that a node has. -/
def Fresh (b : Board) : Prop := ∀ x, b.graph.nodes.has x = true → x < b.tracker.nextId

theorem Fresh.lt (h : Fresh b) (hx : b.statusOf x = some status) : x < b.tracker.nextId :=
  h x (has_iff_statusOf.mpr ⟨status, hx⟩)

theorem statusOf_eq_none : b.statusOf x = none ↔ b.graph.nodes.has x = false := by
  rw [JsMap.has_eq_false]
  exact Option.map_eq_none_iff

/-- The tasks outside `P` keep their status; a blocked one may become pending, and a new node is. -/
structure Spares (P : TaskId → Prop) (b b' : Board) : Prop where
  nextId : b.tracker.nextId ≤ b'.tracker.nextId
  fresh : Fresh b → Fresh b'
  wf : Wf b.tracker → Wf b'.tracker
  status : ∀ x, ¬ P x → b'.statusOf x = b.statusOf x ∨ b'.statusOf x = some .pending ∧
    (b.statusOf x = some .blocked ∨ b.tracker.nextId ≤ x)

theorem Spares.of_tracker (h : b'.tracker = b.tracker) : Spares P b b' :=
  ⟨h ▸ le_refl _, fun hf => by simpa only [Fresh, graph, h] using hf, fun hwf => h ▸ hwf,
    fun x _ => .inl (by rw [statusOf, graph, h])⟩

theorem Spares.refl (b : Board) : Spares P b b := .of_tracker rfl

theorem Spares.trans (h : Spares P b b₁) (h' : Spares P b₁ b₂) : Spares P b b₂ := by
  refine ⟨h.nextId.trans h'.nextId, fun hf => h'.fresh (h.fresh hf), fun hwf => h'.wf (h.wf hwf),
    fun x hx => ?_⟩
  rcases h'.status x hx with heq | ⟨hp, hold⟩
  · rw [heq]
    exact h.status x hx
  · refine (h.status x hx).elim (fun heq => .inr ⟨hp, ?_⟩) fun ⟨_, h⟩ => .inr ⟨hp, h⟩
    rw [← heq]
    exact hold.imp_right fun hle => h.nextId.trans hle

/-- A change of one node's status that `P` allows for, and of blocked ones. -/
theorem Spares.of_sameShape (hs : SameShape b.graph b'.graph)
    (hn : b'.tracker.nextId = b.tracker.nextId)
    (h : ∀ x, ¬ P x → b'.statusOf x = b.statusOf x ∨
      b'.statusOf x = some .pending ∧ b.statusOf x = some .blocked) : Spares P b b' :=
  ⟨hn.ge, fun hf x hx => hn ▸ hf x (hs.has x ▸ hx), fun hwf => hwf.sameShape hs hn,
    fun x hx => (h x hx).imp_right fun ⟨hp, hb⟩ => ⟨hp, .inl hb⟩⟩

theorem Spares.keeps (h : Spares P b b') (hf : Fresh b) (hx : ¬ P x) (hs : b.statusOf x = some status)
    (hb : status ≠ .blocked) : b'.statusOf x = some status := by
  rcases h.status x hx with heq | ⟨-, hold | hle⟩
  · rw [heq, hs]
  · exact absurd (Option.some.inj (hs.symm.trans hold)) hb
  · exact absurd (hf.lt hs) (Nat.not_lt.mpr hle)

/-- No spared task comes to a status other than pending. -/
theorem Spares.came (h : Spares P b b') (hx : ¬ P x) (hs : b'.statusOf x = some status)
    (hp : status ≠ .pending) : b.statusOf x = some status := by
  rcases h.status x hx with heq | ⟨hnew, -⟩
  · rw [← heq, hs]
  · exact absurd (Option.some.inj (hs.symm.trans hnew)) hp

theorem Spares.stays (h : Spares P b b') (hx : ¬ P x) (hs : b.statusOf x ≠ none) :
    b'.statusOf x ≠ none := by
  rcases h.status x hx with heq | ⟨hp, -⟩
  · rwa [heq]
  · simp [hp]

/-! ## Statuses -/

@[simp] theorem patch_tracker (f : NodeInfo → NodeInfo) : (b.patch x f).tracker = b.tracker := by
  unfold patch
  split <;> rfl

@[simp] theorem patch_cancelledTasks (f : NodeInfo → NodeInfo) :
    (b.patch x f).cancelledTasks = b.cancelledTasks := by
  unfold patch
  split <;> rfl

@[simp] theorem persistRetries_tracker (n : Nat) : (b.persistRetries x n).tracker = b.tracker :=
  patch_tracker _

@[simp] theorem persistRetries_cancelledTasks (n : Nat) :
    (b.persistRetries x n).cancelledTasks = b.cancelledTasks := patch_cancelledTasks _

theorem updateNodeStatus_error {reason : Option String} {e : SddError}
    (h : b.updateNodeStatus t status reason = .error e) : b.statusOf t = none := by
  cases hget : b.graph.nodes.get? t with
  | none => simp [statusOf, TaskGraph.statusOf, hget]
  | some node => simp [updateNodeStatus, TaskTracker.updateNodeStatus, hget, Except.map] at h

theorem Spares.of_shape (h : SameShape b.graph b'.graph) (hn : b'.tracker.nextId = b.tracker.nextId) :
    Spares (fun x => b.statusOf x ≠ none) b b' := by
  refine .of_sameShape h hn fun x hx => .inl ?_
  have hnone : b.statusOf x = none := not_not.mp hx
  rw [hnone, statusOf_eq_none, h.has x]
  exact statusOf_eq_none.mp hnone

theorem stays_of_shape (h : SameShape b.graph b'.graph) (hs : b.statusOf x ≠ none) :
    b'.statusOf x ≠ none := by
  rw [Ne, statusOf_eq_none] at hs ⊢
  rwa [h.has x]

/-- What writing a status leaves: the node has it, or was blocked instead of started. -/
structure Wrote (t : TaskId) (status : TaskStatus) (b b' : Board) : Prop where
  spares : Spares (· = t) b b'
  shape : SameShape b.graph b'.graph
  nextId : b'.tracker.nextId = b.tracker.nextId
  own : b'.statusOf t = some status ∨ status = .inProgress ∧ b'.statusOf t = some .blocked
  others : status ≠ .completed → ∀ x, x ≠ t → b'.statusOf x = b.statusOf x
  cancelledTasks : b'.cancelledTasks = b.cancelledTasks
  info : b'.info = b.info

theorem updateNodeStatus_ok {reason : Option String}
    (h : b.updateNodeStatus t status reason = .ok b') : Wrote t status b b' := by
  cases hget : b.graph.nodes.get? t with
  | none => simp [updateNodeStatus, TaskTracker.updateNodeStatus, hget, Except.map] at h
  | some node =>
      simp only [updateNodeStatus, TaskTracker.updateNodeStatus, hget, Except.map, Except.ok.injEq] at h
      subst h
      have hset := sameShape_setStatus b.graph t status
      have hown : (b.graph.setStatus t status).statusOf t = some status := by
        rw [statusOf_setStatus, if_pos rfl, TaskGraph.statusOf, hget]
        rfl
      have hoff : ∀ x, x ≠ t → (b.graph.setStatus t status).statusOf x = b.graph.statusOf x := by
        intro x hx
        rw [statusOf_setStatus, if_neg (Ne.symm hx)]
      have key : ∀ tracker : TaskTracker, SameShape b.graph tracker.graph →
          tracker.nextId = b.tracker.nextId →
          (tracker.graph.statusOf t = some status ∨
            status = .inProgress ∧ tracker.graph.statusOf t = some .blocked) →
          (∀ x, x ≠ t → tracker.graph.statusOf x = b.graph.statusOf x ∨ status = .completed ∧
            tracker.graph.statusOf x = some .pending ∧ b.graph.statusOf x = some .blocked) →
          Wrote t status b { b with tracker } := by
        intro tracker hshape hn hst ho
        refine ⟨.of_sameShape hshape hn fun x hx => (ho x hx).imp_right And.right, hshape, hn, hst, ?_, rfl,
          rfl⟩
        exact fun hne x hx => (ho x hx).resolve_right fun h => hne h.1
      by_cases hc : status = .completed
      · -- the blocked dependents of a completed task are freed
        subst hc
        simp only [reduceCtorEq, if_false, if_true]
        obtain ⟨hsame, -, hstat⟩ := statusOf_foldl_unblock ((b.graph.setStatus t .completed).getDependents t)
          (b.graph.setStatus t .completed)
        refine key _ (hset.trans hsame) rfl (.inl ?_) fun x hx => ?_
        · exact (hstat t).trans (by simp [hown])
        · have hx' := hstat x
          split at hx'
          · rename_i hfree
            exact .inr ⟨rfl, hx', (hoff x hx).symm.trans hfree.2.1⟩
          · exact .inl (hx'.trans (hoff x hx))
      · by_cases hp : status = .inProgress
        · subst hp
          simp only [reduceCtorEq, if_false, if_true]
          refine key _ (hset.trans (sameShape_checkAndBlock _ t)) rfl ?_ fun x hx => .inl ?_
          · simp only [TaskGraph.checkAndBlockIfNeeded]
            split
            · exact .inr ⟨trivial, by rw [statusOf_setStatus, if_pos rfl, hown]; rfl⟩
            · exact .inl hown
          · simp only [TaskGraph.checkAndBlockIfNeeded]
            split
            · rw [statusOf_setStatus, if_neg (Ne.symm hx), hoff x hx]
            · exact hoff x hx
        · simp only [hc, hp, if_false]
          exact key _ hset rfl (.inl hown) fun x hx => .inl (hoff x hx)

/-- `setStatus` writes the status when there is a node, and nothing else. -/
theorem setStatus_cases (b : Board) (t : TaskId) (status : TaskStatus) (reason : Option String) :
    (b.statusOf t = none ∧ b.setStatus t status reason = b) ∨
      b.graph.nodes.has t = true ∧ Wrote t status b (b.setStatus t status reason) := by
  unfold setStatus
  cases h : b.updateNodeStatus t status reason with
  | error e => exact .inl ⟨updateNodeStatus_error h, rfl⟩
  | ok b' =>
      have hw := updateNodeStatus_ok h
      refine .inr ⟨?_, hw⟩
      rw [← hw.shape.has t, has_iff_statusOf]
      exact hw.own.elim (fun h => ⟨_, h⟩) fun h => ⟨_, h.2⟩

theorem spares_setStatus (reason : Option String) : Spares (· = t) b (b.setStatus t status reason) := by
  rcases setStatus_cases b t status reason with ⟨-, heq⟩ | ⟨-, hw⟩
  · rw [heq]
    exact .refl b
  · exact hw.spares

theorem setStatus_cancelledTasks (reason : Option String) :
    (b.setStatus t status reason).cancelledTasks = b.cancelledTasks := by
  rcases setStatus_cases b t status reason with ⟨-, heq⟩ | ⟨-, hw⟩
  · rw [heq]
  · exact hw.cancelledTasks

/-- A written status other than `inProgress` is there, unless the node is not. -/
theorem statusOf_setStatus_self (reason : Option String) (hp : status ≠ .inProgress) :
    (b.setStatus t status reason).statusOf t = (b.statusOf t).map fun _ => status := by
  rcases setStatus_cases b t status reason with ⟨hn, heq⟩ | ⟨hhas, hw⟩
  · rw [heq, hn]
    rfl
  · obtain ⟨st, hst⟩ := has_iff_statusOf.mp hhas
    rw [hw.own.resolve_right fun h => hp h.1, statusOf, hst]
    rfl

/-! ## Requeueing -/

/-- The tasks of `P` may have become pending, and nothing else has changed. -/
structure Requeued (P : TaskId → Prop) (b b' : Board) : Prop where
  shape : SameShape b.graph b'.graph
  nextId : b'.tracker.nextId = b.tracker.nextId
  status : ∀ x, b'.statusOf x = b.statusOf x ∨ P x ∧ b'.statusOf x = some .pending
  cancelledTasks : b'.cancelledTasks = b.cancelledTasks

theorem Requeued.of_tracker (h : b'.tracker = b.tracker) (hc : b'.cancelledTasks = b.cancelledTasks) :
    Requeued P b b' :=
  ⟨by simp only [graph, h]; exact SameShape.refl _, by rw [h], fun x => .inl (by rw [statusOf, graph, h]),
    hc⟩

theorem Requeued.refl (b : Board) : Requeued P b b := .of_tracker rfl rfl

theorem Requeued.mono (h : Requeued P b b') (hPQ : ∀ x, P x → Q x) : Requeued Q b b' :=
  ⟨h.shape, h.nextId, fun x => (h.status x).imp_right fun ⟨hp, hs⟩ => ⟨hPQ x hp, hs⟩, h.cancelledTasks⟩

theorem Requeued.trans (h : Requeued P b b₁) (h' : Requeued P b₁ b₂) : Requeued P b b₂ := by
  refine ⟨h.shape.trans h'.shape, h'.nextId.trans h.nextId, fun x => ?_,
    h'.cancelledTasks.trans h.cancelledTasks⟩
  rcases h'.status x with heq | hnew
  · rw [heq]
    exact h.status x
  · exact .inr hnew

theorem Requeued.spares (h : Requeued P b b') : Spares P b b' :=
  .of_sameShape h.shape h.nextId fun x hx => .inl ((h.status x).resolve_right fun h => hx h.1)

theorem Requeued.came (h : Requeued P b b') (hs : b'.statusOf x = some status) (hp : status ≠ .pending) :
    b.statusOf x = some status := by
  rcases h.status x with heq | ⟨-, hnew⟩
  · rw [← heq, hs]
  · exact absurd (Option.some.inj (hs.symm.trans hnew)) hp

theorem Requeued.of_wrote (h : Wrote t .pending b b') : Requeued (· = t) b b' := by
  refine ⟨h.shape, ?_, fun x => ?_, h.cancelledTasks⟩
  · exact h.nextId
  · by_cases hx : x = t
    · exact .inr ⟨hx, hx ▸ h.own.resolve_right (by simp)⟩
    · exact .inl (h.others (by simp) x hx)

theorem requeued_setStatus (reason : Option String) :
    Requeued (· = t) b (b.setStatus t .pending reason) := by
  rcases setStatus_cases b t .pending reason with ⟨-, heq⟩ | ⟨-, hw⟩
  · rw [heq]
    exact .refl b
  · exact .of_wrote hw

theorem requeued_requeue (reason : String) : Requeued (· = t) b (b.requeue t reason) := by
  have h : Requeued (· = t) b ({ b with retryMap := b.retryMap.delete t }.persistRetries t 0) :=
    .of_tracker (by rw [persistRetries_tracker]) (by rw [persistRetries_cancelledTasks])
  exact h.trans (requeued_setStatus (some reason))

theorem mem_allNodes : x ∈ b.allNodes status ↔ b.statusOf x = some status := by
  simp only [allNodes, List.mem_map, List.mem_filter, Prod.exists, exists_and_right, exists_eq_right,
    JsMap.mem_entries_iff, statusOf, TaskGraph.statusOf, Option.map_eq_some_iff, beq_iff_eq]

theorem requeued_resetInProgress (reason : String) :
    Requeued (fun x => b.statusOf x = some .inProgress) b (b.resetInProgress reason) := by
  have key : ∀ (l : List TaskId) (b₁ : Board),
      Requeued (· ∈ l) b₁ (l.foldl (fun b id => b.setStatus id .pending (some reason)) b₁) := by
    intro l
    induction l with
    | nil => exact fun b₁ => .refl b₁
    | cons id l ih =>
        intro b₁
        refine .trans ((requeued_setStatus (some reason)).mono ?_) ((ih _).mono ?_)
        · rintro x rfl
          exact List.mem_cons_self
        · exact fun x hx => List.mem_cons_of_mem id hx
  exact (key _ b).mono fun x hx => mem_allNodes.mp hx

/-- What is still in progress was not in the list, and was so before. -/
theorem resetInProgress_ne (reason : String) : (b.resetInProgress reason).statusOf x ≠ some .inProgress := by
  have key : ∀ (l : List TaskId) (b₁ : Board),
      (l.foldl (fun b id => b.setStatus id .pending (some reason)) b₁).statusOf x = some .inProgress →
        x ∉ l ∧ b₁.statusOf x = some .inProgress := by
    intro l
    induction l with
    | nil => exact fun b₁ h => ⟨List.not_mem_nil, h⟩
    | cons id l ih =>
        intro b₁ h
        obtain ⟨hnot, hst⟩ := ih _ h
        have hne : x ≠ id := by
          rintro rfl
          rw [statusOf_setStatus_self (some reason) (by simp)] at hst
          simp at hst
        refine ⟨fun hm => (List.mem_cons.mp hm).elim hne hnot, ?_⟩
        rcases (requeued_setStatus (b := b₁) (t := id) (some reason)).status x with heq | ⟨-, hp⟩
        · rw [← heq, hst]
        · simp [hst] at hp
  intro h
  obtain ⟨hnot, hst⟩ := key _ b h
  exact hnot (mem_allNodes.mpr hst)

theorem requeued_requeueFailedTasks (reason : String) :
    Requeued (· ∉ b.cancelledTasks) b (b.requeueFailedTasks reason).1 := by
  have key : ∀ (l : List TaskId) (acc : Board × Nat), Requeued (· ∉ acc.1.cancelledTasks) acc.1
      (l.foldl (fun acc id =>
        if acc.1.cancelledTasks.contains id || (acc.1.infoOf id).cancelled then acc
        else (acc.1.requeue id reason, acc.2 + 1)) acc).1 := by
    intro l
    induction l with
    | nil => exact fun acc => .refl acc.1
    | cons id l ih =>
        intro acc
        simp only [List.foldl_cons]
        split
        · exact ih acc
        · rename_i hnot
          have hone := requeued_requeue (b := acc.1) (t := id) reason
          refine .trans (hone.mono ?_) ((ih (acc.1.requeue id reason, acc.2 + 1)).mono ?_)
          · rintro x rfl
            simp only [Bool.or_eq_true, List.contains_iff_mem, not_or] at hnot
            exact hnot.1
          · exact fun x hx => hone.cancelledTasks ▸ hx
  exact key _ (b, 0)

/-- The failed blockers that the deadlock recovery requeues. -/
def recoveredTasks (b : Board) : List TaskId :=
  ((b.allNodes .failed).foldl (fun (b, ids) id =>
    if b.blocksIncomplete id then (b.requeue id "deadlock recovery", ids ++ [id]) else (b, ids)) (b, [])).2

theorem requeued_recoverFailedBlockers :
    Requeued (· ∈ b.recoveredTasks) b b.recoverFailedBlockers.1 := by
  have key : ∀ (l : List TaskId) (b₁ : Board) (recovered : Bool) (ids : List TaskId),
      let both := l.foldl (fun acc id => if acc.1.blocksIncomplete id
        then (acc.1.requeue id "deadlock recovery", acc.2 ++ [id]) else acc) (b₁, ids)
      ids ⊆ both.2 ∧ Requeued (· ∈ both.2) b₁ (l.foldl (fun acc id =>
        if acc.1.blocksIncomplete id then (acc.1.requeue id "deadlock recovery", true)
        else acc) (b₁, recovered)).1 := by
    intro l
    induction l with
    | nil => exact fun b₁ _ ids => ⟨fun _ h => h, .refl b₁⟩
    | cons id l ih =>
        intro b₁ recovered ids
        simp only [List.foldl_cons]
        split
        · obtain ⟨hsub, hreq⟩ := ih (b₁.requeue id "deadlock recovery") true (ids ++ [id])
          refine ⟨fun x hx => hsub (List.mem_append_left _ hx), ?_⟩
          refine .trans ((requeued_requeue _).mono ?_) hreq
          rintro x rfl
          exact hsub (List.mem_append_right _ List.mem_cons_self)
        · exact ih b₁ recovered ids
  exact (key _ b false []).2

@[simp] theorem uncancel_tracker : (b.uncancel x).tracker = b.tracker := by
  rw [uncancel, patch_tracker]

theorem mem_uncancel : t ∈ (b.uncancel x).cancelledTasks ↔ t ∈ b.cancelledTasks ∧ t ≠ x := by
  rw [uncancel, patch_cancelledTasks]
  simp

/-- The failed tasks lose their marker before they are requeued. -/
theorem retryAllFailed_spec : ∃ b₁ : Board, b₁.tracker = b.tracker ∧
    b₁.cancelledTasks ⊆ b.cancelledTasks ∧
    Requeued (· ∉ b₁.cancelledTasks) b₁ b.retryAllFailed.1 := by
  have key : ∀ (l : List TaskId) (b₁ : Board), (l.foldl uncancel b₁).tracker = b₁.tracker ∧
      (l.foldl uncancel b₁).cancelledTasks ⊆ b₁.cancelledTasks := by
    intro l
    induction l with
    | nil => exact fun b₁ => ⟨rfl, fun _ h => h⟩
    | cons id l ih =>
        intro b₁
        obtain ⟨ht, hc⟩ := ih (b₁.uncancel id)
        exact ⟨ht.trans uncancel_tracker, fun x hx => (mem_uncancel.mp (hc hx)).1⟩
  obtain ⟨ht, hc⟩ := key (b.allNodes .failed) b
  exact ⟨_, ht, hc, requeued_requeueFailedTasks "manual retry all"⟩

theorem retryTask_spec : ∃ b₁ : Board, b₁.tracker = b.tracker ∧
    (∀ x, x ∈ b₁.cancelledTasks ↔ x ∈ b.cancelledTasks ∧ (x ≠ t ∨ b.graph.nodes.has t = false)) ∧
    Requeued (· = t) b₁ (b.retryTask t).1 := by
  unfold retryTask
  split
  · rename_i hhas
    have h := requeued_setStatus (b := ({ b with retryMap := b.retryMap.delete t }.persistRetries t
      0).uncancel t) (t := t) (some "manual retry")
    refine ⟨_, ?_, fun x => ?_, h⟩
    · rw [uncancel_tracker, persistRetries_tracker]
    · rw [mem_uncancel, persistRetries_cancelledTasks]
      simp [hhas]
  · rename_i hhas
    simp only [Bool.not_eq_true] at hhas
    exact ⟨b, rfl, fun x => by simp [hhas], .refl b⟩

/-! ## The other controls -/

theorem cancelTask_spec : (b.graph.nodes.has t = false ∧ b.cancelTask t = (b, false)) ∨
    b.graph.nodes.has t = true ∧ (b.cancelTask t).2 = true ∧ ∃ b₁ : Board, b₁.tracker = b.tracker ∧
      (∀ x, x ∈ b₁.cancelledTasks ↔ x = t ∨ x ∈ b.cancelledTasks) ∧
      Wrote t .failed b₁ (b.cancelTask t).1 := by
  unfold cancelTask
  split
  · rename_i hhas
    have hw := setStatus_cases ({ b with cancelledTasks := b.cancelledTasks.insert t }.patch t
      ({ · with cancelled := true })) t .failed (some "cancelled by user")
    refine .inr ⟨hhas, rfl, _, ?_, fun x => ?_, (hw.resolve_left fun h => ?_).2⟩
    · rw [patch_tracker]
    · rw [patch_cancelledTasks]
      exact List.mem_insert_iff
    · have hnone := statusOf_eq_none.mp h.1
      rw [graph, patch_tracker] at hnone
      exact absurd (hhas.symm.trans hnone) (by simp)
  · rename_i hhas
    exact .inl ⟨by simpa using hhas, rfl⟩

theorem deleteTask_spec (subs : JsMap TaskId String) :
    (b.deleteTask subs t = (b, false)) ∨ b.graph.nodes.has t = true ∧ b.isRunning subs t = false ∧
      Spares (· = t) b (b.deleteTask subs t).1 ∧ (b.deleteTask subs t).1.statusOf t = none ∧
      ∀ x, x ∈ (b.deleteTask subs t).1.cancelledTasks ↔ x ∈ b.cancelledTasks ∧ x ≠ t := by
  unfold deleteTask
  split
  · exact .inl rfl
  · rename_i hif
    simp only [Bool.or_eq_true, Bool.not_eq_eq_eq_not, Bool.not_true, not_or, Bool.not_eq_false,
      Bool.not_eq_true] at hif
    obtain ⟨hhas, hrun⟩ := hif
    refine .inr ⟨hhas, hrun, ⟨le_refl _, fun hf x hx => ?_, fun hwf => hwf.removeNode t,
      fun x hx => .inl ?_⟩, ?_, fun x => ?_⟩
    · change (b.graph.removeNode t).1.nodes.has x = true at hx
      rw [has_removeNode hhas, Bool.and_eq_true] at hx
      exact hf x hx.2
    · exact (statusOf_removeNode hhas).trans (if_neg (Ne.symm hx))
    · exact (statusOf_removeNode hhas).trans (if_pos rfl)
    · simp [List.mem_filter]

/-! ## Splitting -/

theorem nodes_addDependency (b : Board) (dep id : TaskId) :
    (b.addDependency dep id).graph.nodes = b.graph.nodes ∧
      (b.addDependency dep id).tracker.nextId = b.tracker.nextId ∧
      (b.addDependency dep id).cancelledTasks = b.cancelledTasks := by
  refine ⟨?_, rfl, rfl⟩
  change (b.graph.addDependency dep id).1.nodes = b.graph.nodes
  rcases addDependency_cases b.graph dep id with ⟨h, -⟩ | ⟨-, -, -, h, -⟩ | ⟨-, -, -, h, -⟩ <;>
    rw [h]
  rfl

/-- The dependencies that `rewire` adds, as pairs of a blocker and the task it blocks. -/
def newDependencies (blockers dependents leafIds : List TaskId) : List (TaskId × TaskId) :=
  leafIds.flatMap fun leaf => blockers.map (fun d => (d, leaf)) ++ dependents.map fun d => (leaf, d)

theorem rewire_eq_foldl (blockers dependents leafIds : List TaskId) (b : Board) :
    b.rewire blockers dependents leafIds =
      (newDependencies blockers dependents leafIds).foldl (fun b p => b.addDependency p.1 p.2) b := by
  unfold rewire newDependencies
  rw [List.foldl_flatMap]
  simp only [List.foldl_append, List.foldl_map]

theorem rewire_induction {I : Board → Prop} (hI : ∀ b dep id, I b → I (b.addDependency dep id))
    (blockers dependents leafIds : List TaskId) (b : Board) (h : I b) :
    I (b.rewire blockers dependents leafIds) := by
  rw [rewire_eq_foldl]
  induction newDependencies blockers dependents leafIds generalizing b with
  | nil => exact h
  | cons p l ih => exact ih _ (hI b p.1 p.2 h)

theorem nodes_rewire (blockers dependents leafIds : List TaskId) (b : Board) :
    (b.rewire blockers dependents leafIds).graph.nodes = b.graph.nodes ∧
      (b.rewire blockers dependents leafIds).tracker.nextId = b.tracker.nextId ∧
      (b.rewire blockers dependents leafIds).cancelledTasks = b.cancelledTasks := by
  refine rewire_induction (I := fun b' => b'.graph.nodes = b.graph.nodes ∧
    b'.tracker.nextId = b.tracker.nextId ∧ b'.cancelledTasks = b.cancelledTasks) ?_ _ _ _ b ⟨rfl, rfl, rfl⟩
  rintro b' dep id ⟨h1, h2, h3⟩
  obtain ⟨h1', h2', h3'⟩ := nodes_addDependency b' dep id
  exact ⟨h1'.trans h1, h2'.trans h2, h3'.trans h3⟩

theorem wf_rewire (blockers dependents leafIds : List TaskId) (b : Board) (h : Wf b.tracker) :
    Wf (b.rewire blockers dependents leafIds).tracker :=
  rewire_induction (I := fun b => Wf b.tracker) (fun _ dep id h => h.addDependency dep id) blockers
    dependents leafIds b h

theorem spares_addNode (b : Board) (parentId : TaskId) (info : NodeInfo) :
    Spares P b (b.addNode parentId info) where
  nextId := Nat.le_succ _
  fresh := fun hf x hx => by
    change (b.tracker.addNode _).graph.nodes.has x = true at hx
    rw [has_addNode, Bool.or_eq_true, decide_eq_true_eq] at hx
    exact hx.elim (fun h => h ▸ Nat.lt_succ_self _) fun h => Nat.lt_succ_of_lt (hf x h)
  wf := fun hwf => hwf.addNode _
  status := fun x _ => by
    change ((b.tracker.graph.nodes.set b.tracker.nextId _).get? x).map TaskNode.status = _ ∨
      ((b.tracker.graph.nodes.set b.tracker.nextId _).get? x).map TaskNode.status = _ ∧ _
    rw [JsMap.get?_set]
    split
    · rename_i hx
      exact .inr ⟨rfl, .inr hx.le⟩
    · exact .inl rfl

theorem spares_addLeaves (b : Board) (taskId : TaskId) (now : Nat) (subtasks : List SddSubtaskSpec) :
    Spares P b (b.addLeaves taskId now subtasks).1 ∧
      (b.addLeaves taskId now subtasks).1.cancelledTasks = b.cancelledTasks := by
  have key : ∀ (priority : Priority) (l : List SddSubtaskSpec) (b : Board) (leafIds : List TaskId),
      let both := l.foldl (fun (b, leafIds) (s : SddSubtaskSpec) =>
        (b.addNode taskId { priority := s.priority.getD priority, createdAt := now },
          leafIds ++ [b.tracker.nextId])) (b, leafIds)
      Spares P b both.1 ∧ both.1.cancelledTasks = b.cancelledTasks := by
    intro priority l
    induction l with
    | nil => exact fun b _ => ⟨.refl b, rfl⟩
    | cons sub l ih =>
        intro b leafIds
        obtain ⟨hs, hc⟩ := ih (b.addNode taskId
          { priority := sub.priority.getD priority, createdAt := now }) (leafIds ++ [b.tracker.nextId])
        exact ⟨(spares_addNode b taskId _).trans hs, hc⟩
  exact key _ subtasks b []

theorem statusOf_addNode (b : Board) (parentId : TaskId) (info : NodeInfo) (x : TaskId) :
    (b.addNode parentId info).statusOf x =
      if x = b.tracker.nextId then some .pending else b.statusOf x := by
  change ((b.tracker.graph.nodes.set b.tracker.nextId _).get? x).map TaskNode.status = _
  rw [JsMap.get?_set]
  by_cases hx : x = b.tracker.nextId
  · rw [if_pos hx.symm, if_pos hx]
    rfl
  · rw [if_neg (Ne.symm hx), if_neg hx]
    rfl

theorem addLeaves_spec (b : Board) (taskId : TaskId) (now : Nat) (subtasks : List SddSubtaskSpec) :
    (b.addLeaves taskId now subtasks).2 = List.range' b.tracker.nextId subtasks.length ∧
      (b.addLeaves taskId now subtasks).1.graph.edges = b.graph.edges ∧
      ∀ x, (b.addLeaves taskId now subtasks).1.statusOf x =
        if x ∈ List.range' b.tracker.nextId subtasks.length then some .pending else b.statusOf x := by
  have key : ∀ (priority : Priority) (l : List SddSubtaskSpec) (b : Board) (leafIds : List TaskId),
      let both := l.foldl (fun (b, leafIds) (s : SddSubtaskSpec) =>
        (b.addNode taskId { priority := s.priority.getD priority, createdAt := now },
          leafIds ++ [b.tracker.nextId])) (b, leafIds)
      both.2 = leafIds ++ List.range' b.tracker.nextId l.length ∧
        both.1.graph.edges = b.graph.edges ∧
        ∀ x, both.1.statusOf x =
          if x ∈ List.range' b.tracker.nextId l.length then some .pending else b.statusOf x := by
    intro priority l
    induction l with
    | nil => simp
    | cons sub l ih =>
        intro b leafIds
        obtain ⟨hids, hedges, hstatus⟩ := ih (b.addNode taskId
          { priority := sub.priority.getD priority, createdAt := now }) (leafIds ++ [b.tracker.nextId])
        refine ⟨?_, hedges, fun x => ?_⟩
        · rw [List.length_cons, List.range'_succ, List.append_cons]
          exact hids
        · refine (hstatus x).trans ?_
          rw [statusOf_addNode]
          simp only [List.length_cons, List.range'_succ, List.mem_cons]
          by_cases hx : x = b.tracker.nextId
          · simp [hx]
          · simp only [hx, if_false, false_or]
            rfl
  exact key _ subtasks b []

/-- A split that is not refused completes the task. -/
theorem splitTask_spec (subs : JsMap TaskId String) (now : Nat) (subtasks : List SddSubtaskSpec) :
    b.splitTask subs t now subtasks = (b, []) ∨ b.graph.nodes.has t = true ∧
      Spares (· = t) b (b.splitTask subs t now subtasks).1 ∧
        (b.splitTask subs t now subtasks).1.statusOf t = some .completed ∧
        (b.splitTask subs t now subtasks).1.cancelledTasks = b.cancelledTasks := by
  unfold splitTask
  split
  · exact .inl rfl
  · rename_i hif
    simp only [Bool.or_eq_true, Bool.not_eq_eq_eq_not, Bool.not_true, not_or, Bool.not_eq_false,
      Bool.not_eq_true] at hif
    obtain ⟨⟨hhas, -⟩, -⟩ := hif
    obtain ⟨hgrow, hgc⟩ := spares_addLeaves (P := (· = t)) b t now subtasks
    obtain ⟨hone, -⟩ := spares_addLeaves (P := fun _ => False) b t now subtasks
    generalize b.addLeaves t now subtasks = grown at hgrow hgc hone
    obtain ⟨grown, leafIds⟩ := grown
    obtain ⟨hn, hnext, hrc⟩ := nodes_rewire (b.graph.getBlockers t) (b.graph.getDependents t) leafIds grown
    have hwf := wf_rewire (b.graph.getBlockers t) (b.graph.getDependents t) leafIds grown
    simp only at hgrow hgc hone ⊢
    generalize grown.rewire (b.graph.getBlockers t) (b.graph.getDependents t) leafIds = wired at hn hnext hrc hwf
    have hstat : ∀ x, wired.statusOf x = grown.statusOf x := fun x => by
      rw [statusOf, statusOf, TaskGraph.statusOf, TaskGraph.statusOf, hn]
    have hwire : Spares (· = t) grown wired :=
      ⟨hnext.ge, fun h x hx => hnext ▸ h x (hn ▸ hx), hwf, fun x _ => .inl (hstat x)⟩
    have hpers : Spares (· = t) wired
        ({ wired with retryMap := wired.retryMap.delete t }.persistRetries t 0) :=
      .of_tracker (by rw [persistRetries_tracker])
    refine .inr ⟨hhas, hgrow.trans (hwire.trans (hpers.trans (spares_setStatus _))), ?_, ?_⟩
    · rw [statusOf_setStatus_self _ (by simp)]
      obtain ⟨st, hst⟩ := has_iff_statusOf.mp hhas
      have hsome : ∃ st', grown.statusOf t = some st' := by
        rcases hone.status t not_false with heq | ⟨hp, -⟩
        · exact ⟨st, heq.trans hst⟩
        · exact ⟨_, hp⟩
      obtain ⟨st', hst'⟩ := hsome
      rw [statusOf, graph, persistRetries_tracker]
      exact congrArg (Option.map _) ((hstat t).trans hst')
    · rw [setStatus_cancelledTasks, persistRetries_cancelledTasks]
      exact hrc.trans hgc

end Board

end WrongStack.ParallelRun

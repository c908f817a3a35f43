import Mathlib.Data.List.Chain
import WrongStack.Conversation.Lemmas.Repair
import WrongStack.Conversation.State

/-!
# Adjacency along the conversation

Whether a list is paired depends on the roles and the ids of its tool blocks only. Read as a chain of
these, a list is paired if every two messages in a row fit and the last one uses no tool, so that
appending a message is one more link.
-/

namespace WrongStack.Conversation

open Lib

/-! ## What adjacency sees of a message -/

structure ToolView where
  role : MessageRole
  uses : List JsString
  results : List JsString
  deriving DecidableEq

def toolView (m : Message) : ToolView where
  role := m.role
  uses := m.blocks.filterMap ContentBlock.toolUseId?
  results := m.blocks.filterMap ContentBlock.toolResultId?

def usesOf (x : Option ToolView) : List JsString := (x.map ToolView.uses).getD []

/-- `y` may follow `x`: the uses of `x` are answered in `y`, and the results of `y` answer `x`. -/
def Fits (x y : Option ToolView) : Prop :=
  (∀ id ∈ usesOf x, ∃ v, y = some v ∧ v.role = .user ∧ id ∈ v.results) ∧
    ∀ id ∈ (y.map ToolView.results).getD [], ∃ v, x = some v ∧ v.role = .assistant ∧ id ∈ v.uses

/-- A message of the user or the system uses no tool that `y` answers. -/
def Clear (x y : Option ToolView) : Prop :=
  ∀ v, x = some v → v.role ≠ .assistant → ∀ id ∈ v.uses,
    ¬ ∃ u, y = some u ∧ u.role = .user ∧ id ∈ u.results

/-- Every two messages in a row are related, the first one to nothing before it. -/
def Linked (R : Option ToolView → Option ToolView → Prop) (ms : List Message) : Prop :=
  List.IsChain R (none :: ms.map fun m => some (toolView m))

def lastView (ms : List Message) : Option ToolView := ms.getLast?.map toolView

theorem mem_toolUseIds_view {m : Option Message} {id : JsString} : id ∈ toolUseIds m ↔
    ∃ v, m.map toolView = some v ∧ v.role = .assistant ∧ id ∈ v.uses := by
  rw [mem_toolUseIds]
  cases m with
  | none => simp
  | some x => simp [toolView]

theorem mem_toolResultIds_view {m : Option Message} {id : JsString} : id ∈ toolResultIds m ↔
    ∃ v, m.map toolView = some v ∧ v.role = .user ∧ id ∈ v.results := by
  rw [mem_toolResultIds]
  cases m with
  | none => simp
  | some x => simp [toolView]

theorem answered_iff {w : Window} : Answered w ↔
    (∀ id ∈ (toolView w.2.1).uses, id ∈ toolResultIds w.2.2) ∧
      ∀ id ∈ (toolView w.2.1).results, id ∈ toolUseIds w.1 := by
  simp only [Answered, toolView, List.mem_filterMap, forall_exists_index, and_imp]
  exact and_congr ⟨fun h id b hb hid => h b hb id hid, fun h b hb id hid => h id b hb hid⟩
    ⟨fun h id b hb hid => h b hb id hid, fun h b hb id hid => h id b hb hid⟩

theorem stray_iff {w : Window} : Stray w ↔
    w.2.1.role ≠ .assistant ∧ ∃ id ∈ (toolView w.2.1).uses, id ∈ toolResultIds w.2.2 := by
  simp only [Stray, toolView, List.mem_filterMap]
  exact and_congr_right fun _ =>
    ⟨fun ⟨b, hb, id, hid, hres⟩ => ⟨id, ⟨b, hb, hid⟩, hres⟩,
      fun ⟨id, ⟨b, hb, hid⟩, hres⟩ => ⟨b, hb, id, hid, hres⟩⟩

instance (w : Window) : Decidable (Answered w) := decidable_of_iff _ answered_iff.symm

instance (w : Window) : Decidable (Stray w) := decidable_of_iff _ stray_iff.symm

instance (ms : List Message) : Decidable (Paired ms) := inferInstanceAs (Decidable (∀ w ∈ neighbours none ms, _))

instance (ms : List Message) : Decidable (NoStray ms) :=
  inferInstanceAs (Decidable (∀ w ∈ neighbours none ms, _))

/-! ## Lists as chains -/

section Linked

variable {R : Option ToolView → Option ToolView → Prop} {ms ns : List Message}

theorem getLast?_views (ms : List Message) :
    (none :: ms.map fun m => some (toolView m)).getLast? = some (lastView ms) := by
  cases ms using List.reverseRecOn with
  | nil => rfl
  | append_singleton ms m =>
      rw [List.map_append, ← List.cons_append, List.map_singleton, List.getLast?_concat]
      simp [lastView]

theorem linked_concat {m : Message} :
    Linked R (ms ++ [m]) ↔ Linked R ms ∧ R (lastView ms) (some (toolView m)) := by
  unfold Linked
  rw [List.map_append, ← List.cons_append, List.isChain_append, getLast?_views]
  simp

theorem linked_congr (h : ms.map toolView = ns.map toolView) : Linked R ms ↔ Linked R ns := by
  unfold Linked
  have hsome : ∀ ks : List Message, (ks.map fun m => some (toolView m)) = (ks.map toolView).map some :=
    fun ks => by rw [List.map_map]; rfl
  rw [hsome, hsome, h]

theorem lastView_congr (h : ms.map toolView = ns.map toolView) : lastView ms = lastView ns := by
  have := congrArg List.getLast? h
  rwa [List.getLast?_map, List.getLast?_map] at this

end Linked

theorem pairedFrom_iff (ms : List Message) (prev : Option Message) :
    List.IsChain Fits (prev.map toolView :: ms.map fun m => some (toolView m)) ∧
        usesOf (lastView (prev.toList ++ ms)) = [] ↔
      PairedFrom prev ms ∧ ∀ id ∈ usesOf (prev.map toolView), id ∈ toolResultIds ms.head? := by
  induction ms generalizing prev with
  | nil =>
      cases prev with
      | none => simp [PairedFrom, usesOf, lastView]
      | some p => simp [PairedFrom, usesOf, lastView, toolResultIds, List.eq_nil_iff_forall_not_mem]
  | cons m ms ih =>
      have hlast : lastView (prev.toList ++ m :: ms) = lastView ((some m).toList ++ ms) := by
        cases prev <;> simp [lastView]
      have hih := ih (some m)
      simp only [Option.map_some] at hih
      rw [List.map_cons, List.isChain_cons_cons, pairedFrom_cons, hlast, and_assoc, hih, answered_iff]
      simp only [Fits, List.head?_cons, mem_toolResultIds_view, mem_toolUseIds_view, Option.map_some,
        Option.getD_some, usesOf]
      tauto

theorem paired_iff (ms : List Message) : Paired ms ↔ Linked Fits ms ∧ usesOf (lastView ms) = [] := by
  have h := pairedFrom_iff ms none
  simp only [Option.map_none, Option.toList_none, List.nil_append, usesOf, Option.getD_none,
    List.not_mem_nil, false_implies, implies_true, and_true] at h
  exact h.symm

theorem noStrayFrom_iff (ms : List Message) (prev : Option Message) :
    List.IsChain Clear (prev.map toolView :: ms.map fun m => some (toolView m)) ↔
      (∀ w ∈ neighbours prev ms, ¬ Stray w) ∧ Clear (prev.map toolView) (ms.head?.map toolView) := by
  induction ms generalizing prev with
  | nil => simp [Clear]
  | cons m ms ih =>
      have hih := ih (some m)
      simp only [Option.map_some] at hih
      have hm : ¬ Stray (prev, m, ms.head?) ↔ Clear (some (toolView m)) (ms.head?.map toolView) := by
        simp only [stray_iff, Clear, mem_toolResultIds_view, not_and, not_exists, Option.some.injEq,
          forall_eq', toolView]
      rw [List.map_cons, List.isChain_cons_cons, hih, neighbours_cons, List.forall_mem_cons, hm,
        List.head?_cons, Option.map_some]
      tauto

theorem noStray_iff (ms : List Message) : NoStray ms ↔ Linked Clear ms := by
  have h := noStrayFrom_iff ms none
  have hnone : Clear none (ms.head?.map toolView) := fun v hv => by cases hv
  simp only [Option.map_none, hnone, and_true] at h
  exact h.symm

/-! ## Appending a message -/

section Append

variable {ms : List Message} {m : Message}

theorem toolUses_eq_nil : (toolView m).uses = [] ↔ hasToolUse m = false := by
  simp [toolView, hasToolUse, List.filterMap_eq_nil_iff, ContentBlock.isToolUse]

theorem toolResults_eq_nil : (toolView m).results = [] ↔ hasToolResult m = false := by
  simp [toolView, hasToolResult, List.filterMap_eq_nil_iff, ContentBlock.isToolResult]

theorem noStray_concat : NoStray (ms ++ [m]) ↔
    NoStray ms ∧ Clear (lastView ms) (some (toolView m)) := by
  rw [noStray_iff, noStray_iff, linked_concat]

/-- The last message of a paired list uses no tool, so nothing can follow that answers one. -/
theorem paired_concat (h : Paired ms) : Paired (ms ++ [m]) ↔ hasToolBlock m = false := by
  obtain ⟨hlinked, hlast⟩ := (paired_iff ms).mp h
  have hfits : Fits (lastView ms) (some (toolView m)) ↔ (toolView m).results = [] := by
    unfold Fits
    rw [hlast, List.eq_nil_iff_forall_not_mem]
    simp only [List.not_mem_nil, false_implies, implies_true, true_and, Option.map_some,
      Option.getD_some]
    refine forall₂_congr fun id _ => ?_
    simp only [iff_false, not_exists, not_and]
    rintro v hv - hid
    rw [hv] at hlast
    simp only [usesOf, Option.map_some, Option.getD_some] at hlast
    simp [hlast] at hid
  have hend : usesOf (lastView (ms ++ [m])) = [] ↔ (toolView m).uses = [] := by
    simp [lastView, usesOf]
  rw [paired_iff, linked_concat, hfits, hend, toolUses_eq_nil, toolResults_eq_nil]
  simp only [hlinked, true_and, hasToolBlock, Bool.or_eq_false_iff]
  exact and_comm

theorem clear_assistant (hrole : m.role = .assistant) (x : Option ToolView) :
    Clear x (some (toolView m)) := by
  rintro v - - id - ⟨u, hu, huser, -⟩
  cases hu
  simp [toolView, hrole] at huser

theorem clear_of_no_results (hres : hasToolResult m = false) (x : Option ToolView) :
    Clear x (some (toolView m)) := by
  rintro v - - id - ⟨u, hu, -, hid⟩
  cases hu
  simp [toolResults_eq_nil.mpr hres] at hid

end Append

/-! ## Rewritten messages look the same -/

@[simp] theorem toolView_withEstimate (m : Message) : toolView (withEstimate m) = toolView m := by
  unfold withEstimate
  cases m.estTokens <;> rfl

@[simp] theorem map_toolView_withEstimate (ms : List Message) :
    (ms.map withEstimate).map toolView = ms.map toolView := by
  rw [List.map_map]
  exact List.map_congr_left fun m _ => toolView_withEstimate m

theorem toolView_withBlock (last : Message) (text : JsString) :
    toolView (State.withBlock last (.text text)) = toolView last := by
  unfold State.withBlock toolView Message.blocks
  cases last.content <;> simp [ContentBlock.toolUseId?, ContentBlock.toolResultId?]

theorem eliseBlock_ids {t : Nat} {b : ContentBlock} {e : ContentBlock × Nat}
    (h : eliseBlock t b = some e) :
    e.1.toolUseId? = b.toolUseId? ∧ e.1.toolResultId? = b.toolResultId? := by
  cases b with
  | text text => cases h
  | other block => cases h
  | toolUse id name input =>
      simp only [eliseBlock] at h
      split at h
      · cases h
      · cases h
        exact ⟨rfl, rfl⟩
  | toolResult id name content isError =>
      simp only [eliseBlock] at h
      split at h
      · cases h
      · cases h
        exact ⟨rfl, rfl⟩

theorem eliseBlock_getD_ids (t : Nat) (b : ContentBlock) :
    (((eliseBlock t b).map Prod.fst).getD b).toolUseId? = b.toolUseId? ∧
      (((eliseBlock t b).map Prod.fst).getD b).toolResultId? = b.toolResultId? := by
  cases h : eliseBlock t b with
  | none => exact ⟨rfl, rfl⟩
  | some e => exact eliseBlock_ids h

theorem eliseMessage_cases (t : Nat) (m : Message) : eliseMessage t m = m ∨
    ∃ bs, m.content = .blocks bs ∧ eliseMessage t m = { m with content := .blocks (eliseBlocks t bs) } := by
  unfold eliseMessage
  cases hc : m.content with
  | text s => exact Or.inl rfl
  | blocks bs =>
      simp only
      split
      · exact Or.inr ⟨bs, rfl, rfl⟩
      · exact Or.inl rfl

theorem toolView_eliseMessage (t : Nat) (m : Message) : toolView (eliseMessage t m) = toolView m := by
  rcases eliseMessage_cases t m with h | ⟨bs, hc, h⟩
  · rw [h]
  · rw [h]
    simp only [toolView, Message.blocks, hc, eliseBlocks, List.filterMap_map, ToolView.mk.injEq, true_and]
    exact ⟨List.filterMap_congr fun b _ => (eliseBlock_getD_ids t b).1,
      List.filterMap_congr fun b _ => (eliseBlock_getD_ids t b).2⟩

theorem map_toolView_elise (ms : List Message) (preserveK t : Nat) :
    (eliseOldToolResults ms preserveK t).messages.map toolView = ms.map toolView := by
  have hview : toolView ∘ eliseMessage t = toolView := funext (toolView_eliseMessage t)
  simp only [eliseOldToolResults, List.map_append, List.map_map]
  rw [hview, ← List.map_append, List.take_append_drop]

section Congr

variable {ms ns : List Message}

theorem paired_congr (h : ms.map toolView = ns.map toolView) : Paired ms ↔ Paired ns := by
  rw [paired_iff, paired_iff, linked_congr h, lastView_congr h]

theorem noStray_congr (h : ms.map toolView = ns.map toolView) : NoStray ms ↔ NoStray ns := by
  rw [noStray_iff, noStray_iff, linked_congr h]

@[simp] theorem paired_withEstimate : Paired (ms.map withEstimate) ↔ Paired ms :=
  paired_congr (map_toolView_withEstimate ms)

@[simp] theorem noStray_withEstimate : NoStray (ms.map withEstimate) ↔ NoStray ms :=
  noStray_congr (map_toolView_withEstimate ms)

end Congr

/-! ## States ready for a request -/

/-- Without the flag the messages are paired already, and with it repair can pair them. -/
structure Good (s : State) : Prop where
  noStray : NoStray s.messages
  paired : s.toolAdjacencyDirty = false → Paired s.messages

theorem Good.of_paired {s : State} (h : Paired s.messages) : Good s := ⟨h.noStray, fun _ => h⟩

theorem messages_of_unchanged {ms : List Message}
    (h : (repairToolUseAdjacency ms).report.changed = false) :
    (repairToolUseAdjacency ms).messages = ms := by
  simp only [repairToolUseAdjacency] at h ⊢
  rw [h, if_neg Bool.false_ne_true]

theorem map_toolView_repair (s : State) :
    s.repair.messages.map toolView = (repaired s.messages).map toolView := by
  unfold State.repair
  rw [← repairToolUseAdjacency_messages]
  simp only
  split
  · exact map_toolView_withEstimate _
  · rename_i hsame
    rw [messages_of_unchanged (by simpa using hsame)]

theorem map_toolView_buildRequest (s : State) : s.buildRequest.messages.map toolView =
    (if s.toolAdjacencyDirty then repaired s.messages else s.messages).map toolView := by
  unfold State.buildRequest
  rw [← repairToolUseAdjacency_messages]
  cases s.toolAdjacencyDirty with
  | false => rfl
  | true =>
      simp only [↓reduceIte]
      split
      · exact map_toolView_withEstimate _
      · rename_i hsame
        rw [messages_of_unchanged (by simpa using hsame)]

theorem paired_buildRequest (s : State) : Paired s.buildRequest.messages ↔ Good s := by
  rw [paired_congr (map_toolView_buildRequest s)]
  cases hdirty : s.toolAdjacencyDirty with
  | false =>
      simp only [Bool.false_eq_true, ↓reduceIte]
      exact ⟨Good.of_paired, fun h => h.paired hdirty⟩
  | true =>
      simp only [↓reduceIte, paired_repaired_iff]
      exact ⟨fun h => ⟨h, fun hclean => by simp [hdirty] at hclean⟩, Good.noStray⟩

variable {s : State}

theorem good_replaceMessages (ms : List Message) : Good (s.replaceMessages ms) ↔
    NoStray ms ∧ ((s.replaceMessages ms).toolAdjacencyDirty = false → Paired ms) := by
  constructor
  · exact fun h => ⟨noStray_withEstimate.mp h.noStray, fun hd => paired_withEstimate.mp (h.paired hd)⟩
  · exact fun h => ⟨noStray_withEstimate.mpr h.1, fun hd => paired_withEstimate.mpr (h.2 hd)⟩

theorem paired_repair (h : NoStray s.messages) : Paired s.repair.messages :=
  (paired_congr (map_toolView_repair s)).mpr ((paired_repaired_iff _).mpr h)

theorem Good.repair (h : NoStray s.messages) : Good s.repair := Good.of_paired (paired_repair h)

theorem noStray_elise (h : NoStray s.messages) (preserveK t : Nat) :
    NoStray (s.elise preserveK t).messages := by
  unfold State.elise
  simp only
  split
  · exact noStray_withEstimate.mpr ((noStray_congr (map_toolView_elise _ _ _)).mpr h)
  · exact h

/-- A message without tool blocks stands for the first ones, and what stands behind it has its neighbours still. -/
theorem noStray_cons_drop {ms : List Message} {m : Message} (h : NoStray ms) (n : Nat)
    (huses : (toolView m).uses = []) : NoStray (m :: ms.drop n) := by
  rw [noStray_iff] at h ⊢
  have hrest : List.IsChain Clear ((ms.drop n).map fun m => some (toolView m)) := by
    rw [List.map_drop]
    exact h.tail.drop _
  refine (hrest.cons ?_).cons ?_
  · intro y _ v hv _ id hid
    cases hv
    simp [huses] at hid
  · intro y _ v hv
    cases hv

theorem noStray_collapse (h : NoStray s.messages) (c : HybridCompactor) (digest : JsString) :
    NoStray (s.collapseAncientTurns c digest).messages := by
  unfold State.collapseAncientTurns
  simp only
  split
  · exact h
  · exact noStray_withEstimate.mpr (noStray_cons_drop h _ rfl)

theorem Good.compact (h : Good s) (c : HybridCompactor) (aggressive : Bool) (digest : JsString) :
    Good (s.compact c aggressive digest) := by
  unfold State.compact
  have helise := noStray_elise h.noStray c.preserveK c.eliseThreshold
  refine Good.repair ?_
  split
  · exact noStray_collapse helise c digest
  · exact helise

theorem Good.foldBlock (h : Good s) (text : JsString) : Good (s.foldBlockIntoConversation (.text text)) := by
  have happend : Good (s.appendMessage { role := .user, content := .blocks [.text text] }) := by
    constructor
    · exact noStray_concat.mpr ⟨h.noStray, by
        rw [toolView_withEstimate]
        exact clear_of_no_results rfl _⟩
    · intro hclean
      refine (paired_concat (h.paired hclean)).mpr ?_
      rfl
  unfold State.foldBlockIntoConversation State.appendBlockToLastUserMessage
  cases hlast : s.messages.getLast? with
  | none => exact happend
  | some last =>
      simp only
      split
      · have hview : (s.messages.dropLast ++ [State.withBlock last (.text text)]).map toolView =
            s.messages.map toolView := by
          obtain ⟨init, hinit⟩ := List.getLast?_eq_some_iff.mp hlast
          rw [hinit, List.dropLast_concat]
          simp [toolView_withBlock]
        exact ⟨(noStray_congr hview).mpr h.noStray, fun hclean => (paired_congr hview).mpr (h.paired hclean)⟩
      · exact happend

theorem Good.buildRequest (h : Good s) : Good s.buildRequest :=
  Good.of_paired ((paired_buildRequest s).mpr h)

end WrongStack.Conversation

import WrongStack.Conversation.Lemmas.Adjacency

/-!
# Messages of the user

A checkpoint is numbered by the messages of the user that are in context. `Tally` keeps the books on
them between two checkpoints: what tool results and folded blocks add, and what the collapse of old
turns and repair drop.
-/

namespace WrongStack.Conversation

open Lib

def isUser (m : Message) : Bool := m.role = .user

def userCount (ms : List Message) : Nat := ms.countP isUser

/-- The message has no text of its own: repair may leave it empty. -/
def isBare (m : Message) : Bool :=
  match m.content with
  | .text s => (JsString.trim s).isEmpty
  | .blocks bs => bs.all fun b => b.isToolUse || b.isToolResult

def emptiedFrom (prev : Option Message) (ms : List Message) : Nat :=
  (neighbours prev ms).countP fun w => isUser w.2.1 && isEmptyMessage (fixMessage w.1 w.2.1 w.2.2)

def emptiedUsers (ms : List Message) : Nat := emptiedFrom none ms

/-- The messages of the user added and dropped since the last checkpoint. -/
structure Tally where
  added : Nat := 0
  dropped : Nat := 0

def Tally.next (t : Tally) (s : State) : Op → Tally
  | .userTurn _ => {}
  | .processResponse _ => t
  | .executeTools _ => { t with added := t.added + 1 }
  | .foldBlock _ => if s.messages.getLast?.any isUser then t else { t with added := t.added + 1 }
  | .replaceMessages messages =>
      { added := t.added + userCount messages, dropped := t.dropped + userCount s.messages }
  | .compact c aggressive _ =>
      let cut := if aggressive then collapseLength c.preserveK s.messages else 0
      { t with
        dropped := t.dropped + userCount (s.messages.take cut) + emptiedUsers (s.messages.drop cut) }
  | .buildRequest =>
      if s.toolAdjacencyDirty then { t with dropped := t.dropped + emptiedUsers s.messages } else t

/-! ## Counting -/

@[simp] theorem userCount_append (ms ns : List Message) :
    userCount (ms ++ ns) = userCount ms + userCount ns := List.countP_append

theorem userCount_congr {ms ns : List Message} (h : ms.map toolView = ns.map toolView) :
    userCount ms = userCount ns := by
  have hview : ∀ ks : List Message,
      userCount ks = (ks.map toolView).countP fun v => decide (v.role = .user) := fun ks => by
    rw [List.countP_map]
    rfl
  rw [hview, hview, h]

theorem userCount_withEstimate (ms : List Message) : userCount (ms.map withEstimate) = userCount ms :=
  userCount_congr (map_toolView_withEstimate ms)

theorem userCount_repaired (ms : List Message) : userCount (repaired ms) + emptiedUsers ms = userCount ms := by
  have hall : userCount ms = (neighbours none ms).countP fun w => isUser w.2.1 := by
    conv_lhs => rw [← map_neighbours none ms]
    exact List.countP_map
  have hkept : userCount (repaired ms) =
      (neighbours none ms).countP fun w => isUser w.2.1 && !isEmptyMessage (fixMessage w.1 w.2.1 w.2.2) := by
    unfold userCount repaired
    rw [List.countP_filterMap]
    refine List.countP_congr fun w _ => ?_
    unfold survivor
    cases isEmptyMessage (fixMessage w.1 w.2.1 w.2.2) <;> simp [isUser, fixMessage]
  rw [hall, hkept, emptiedUsers, emptiedFrom]
  induction neighbours none ms with
  | nil => rfl
  | cons w ws ih =>
      simp only [List.countP_cons]
      cases isUser w.2.1 <;> cases isEmptyMessage (fixMessage w.1 w.2.1 w.2.2) <;> simp <;> omega

/-! ## Elision changes nothing that is counted -/

def shape (m : Message) : Bool × Bool × ToolView := (isBare m, m.hasTextContent, toolView m)

theorem isEmptyMessage_fix (prev next : Option Message) (m : Message) :
    isEmptyMessage (fixMessage prev m next) = true ↔ isBare m = true ∧
      (∀ id ∈ (toolView m).uses, id ∉ toolResultIds next) ∧
      ∀ id ∈ (toolView m).results, m.role = .user → id ∉ toolUseIds prev := by
  unfold isBare toolView fixMessage mapContent isEmptyMessage Message.blocks
  cases hc : m.content with
  | text s => simp [hc]
  | blocks bs =>
      simp only [List.isEmpty_iff, List.filter_eq_nil_iff, List.all_eq_true, List.mem_filterMap,
        forall_exists_index, and_imp]
      constructor
      · intro h
        refine ⟨fun b hb => ?_, fun id b hb hid hres => ?_, fun id b hb hid hrole huse => ?_⟩
        · by_contra hother
          simp only [Bool.or_eq_true, ContentBlock.isToolUse, ContentBlock.isToolResult, not_or,
            Bool.not_eq_true, Option.isSome_eq_false_iff, Option.isNone_iff_eq_none] at hother
          exact h b hb (by simp [survives, orphanUse, orphanResult, hother.1, hother.2])
        · exact h b hb ((survives_use hid).mpr hres)
        · exact h b hb ((survives_result hid).mpr ⟨hrole, huse⟩)
      · rintro ⟨hbare, huse, hres⟩ b hb hs
        have htool := hbare b hb
        simp only [Bool.or_eq_true, ContentBlock.isToolUse, ContentBlock.isToolResult,
          Option.isSome_iff_exists] at htool
        rcases htool with ⟨id, hid⟩ | ⟨id, hid⟩
        · exact huse id b hb hid ((survives_use hid).mp hs)
        · obtain ⟨hrole, hoffer⟩ := (survives_result hid).mp hs
          exact hres id b hb hid hrole hoffer

theorem emptied_congr {prev prev' next next' : Option Message} {m m' : Message}
    (hp : prev.map toolView = prev'.map toolView) (hm : shape m = shape m')
    (hn : next.map toolView = next'.map toolView) :
    (isUser m && isEmptyMessage (fixMessage prev m next)) =
      (isUser m' && isEmptyMessage (fixMessage prev' m' next')) := by
  simp only [shape, Prod.mk.injEq] at hm
  obtain ⟨hbare, -, hview⟩ := hm
  have hrole : m.role = m'.role := congrArg ToolView.role hview
  rw [Bool.eq_iff_iff]
  simp only [Bool.and_eq_true, isEmptyMessage_fix, isUser, hrole, hbare, hview,
    mem_toolResultIds_view, mem_toolUseIds_view, hp, hn]

theorem emptiedFrom_congr {ms ns : List Message} (h : ms.map shape = ns.map shape)
    {prev prev' : Option Message} (hp : prev.map toolView = prev'.map toolView) :
    emptiedFrom prev ms = emptiedFrom prev' ns := by
  induction ms generalizing ns prev prev' with
  | nil =>
      obtain rfl : ns = [] := by simpa using h.symm
      rfl
  | cons m ms ih =>
      cases ns with
      | nil => cases h
      | cons n ns =>
          obtain ⟨hm, hrest⟩ := List.cons.inj h
          have hview : toolView m = toolView n := congrArg (·.2.2) hm
          have hnext : ms.head?.map toolView = ns.head?.map toolView := by
            have := congrArg (fun l => l.head?.map fun x => x.2.2) hrest
            simpa [shape, List.head?_map, Function.comp_def] using this
          have htail : emptiedFrom (some m) ms = emptiedFrom (some n) ns :=
            ih hrest (congrArg some hview)
          unfold emptiedFrom at htail ⊢
          rw [neighbours_cons, neighbours_cons, List.countP_cons, List.countP_cons, htail,
            emptied_congr hp hm hnext]

theorem eliseBlock_text {t : Nat} {b : ContentBlock} {e : ContentBlock × Nat}
    (h : eliseBlock t b = some e) : (∀ text, b ≠ .text text) ∧ ∀ text, e.1 ≠ .text text := by
  have hids := eliseBlock_ids h
  cases b with
  | text text => cases h
  | other block => cases h
  | toolUse id name input =>
      refine ⟨nofun, fun text he => ?_⟩
      rw [he] at hids
      cases hids.1
  | toolResult id name content isError =>
      refine ⟨nofun, fun text he => ?_⟩
      rw [he] at hids
      cases hids.2

theorem shape_eliseMessage (t : Nat) (m : Message) : shape (eliseMessage t m) = shape m := by
  have hview := toolView_eliseMessage t m
  rcases eliseMessage_cases t m with h | ⟨bs, hc, h⟩
  · rw [h]
  · unfold shape
    rw [hview, h]
    unfold isBare Message.hasTextContent
    simp only [hc, eliseBlocks, List.all_map, List.any_map, Prod.mk.injEq, and_true]
    refine ⟨List.all_congr rfl fun b => ?_, List.any_congr rfl fun b => ?_⟩
    · obtain ⟨huse, hresult⟩ := eliseBlock_getD_ids t b
      simp only [Function.comp_apply, ContentBlock.isToolUse, ContentBlock.isToolResult, huse, hresult]
    · cases he : eliseBlock t b with
      | none => simp only [Function.comp_apply, he, Option.map_none, Option.getD_none]
      | some e =>
          obtain ⟨hb, htext⟩ := eliseBlock_text he
          simp only [Function.comp_apply, he, Option.map_some, Option.getD_some]

theorem map_shape_elise (ms : List Message) (preserveK t : Nat) :
    (eliseOldToolResults ms preserveK t).messages.map shape = ms.map shape := by
  have hshape : shape ∘ eliseMessage t = shape := funext (shape_eliseMessage t)
  simp only [eliseOldToolResults, List.map_append, List.map_map]
  rw [hshape, ← List.map_append, List.take_append_drop]

/-! ## What one step counts -/

theorem userCount_repair (s : State) :
    userCount s.repair.messages + emptiedUsers s.messages = userCount s.messages := by
  rw [userCount_congr (map_toolView_repair s), userCount_repaired]

theorem userCount_buildRequest (s : State) : userCount s.buildRequest.messages +
    (if s.toolAdjacencyDirty then emptiedUsers s.messages else 0) = userCount s.messages := by
  rw [userCount_congr (map_toolView_buildRequest s)]
  cases s.toolAdjacencyDirty with
  | false => rfl
  | true => exact userCount_repaired s.messages

theorem map_toolView_of_shape {ms ns : List Message} (h : ms.map shape = ns.map shape) :
    ms.map toolView = ns.map toolView := by
  have := congrArg (List.map fun x => x.2.2) h
  rwa [List.map_map, List.map_map] at this

theorem emptiedUsers_congr {ms ns : List Message} (h : ms.map shape = ns.map shape) :
    emptiedUsers ms = emptiedUsers ns := emptiedFrom_congr h rfl

theorem map_shape_withEstimate (ms : List Message) : (ms.map withEstimate).map shape = ms.map shape := by
  rw [List.map_map]
  refine List.map_congr_left fun m _ => ?_
  simp only [Function.comp_apply, withEstimate]
  cases m.estTokens <;> rfl

theorem map_shape_state_elise (s : State) (preserveK t : Nat) :
    (s.elise preserveK t).messages.map shape = s.messages.map shape := by
  unfold State.elise
  simp only
  split
  · exact (map_shape_withEstimate _).trans (map_shape_elise _ _ _)
  · rfl

theorem collapseLength_congr {ms ns : List Message} (h : ms.map shape = ns.map shape) (preserveK : Nat) :
    collapseLength preserveK ms = collapseLength preserveK ns := by
  have hlen : ms.length = ns.length := by simpa using congrArg List.length h
  have hfind : ∀ (ks : List Message) (cut : Nat), findBoundary ks cut =
      ((((ks.map shape).drop cut).findIdx? fun x => decide (x.2.2.role = .user) && x.2.1).map (cut + ·)) := by
    intro ks cut
    rw [← List.map_drop, List.findIdx?_map]
    rfl
  simp only [collapseLength, hlen, hfind, h]

/-- The digest stands where nothing stood: it offers nothing, and is no message of the user. -/
theorem emptiedUsers_summary (c : HybridCompactor) (removed rest : List Message) (digest : JsString) :
    emptiedUsers (summaryMessage c removed digest :: rest) = emptiedUsers rest := by
  have hsummary : isUser (summaryMessage c removed digest) = false := rfl
  unfold emptiedUsers emptiedFrom
  rw [neighbours_cons, List.countP_cons_of_neg (by simp [hsummary])]
  cases rest with
  | nil => rfl
  | cons m rest =>
      have hoffer : ∀ id, id ∈ toolUseIds (some (summaryMessage c removed digest)) ↔ id ∈ toolUseIds none := by
        simp [toolUseIds, summaryMessage]
      have hm : isEmptyMessage (fixMessage (some (summaryMessage c removed digest)) m rest.head?) =
          isEmptyMessage (fixMessage none m rest.head?) := by
        rw [Bool.eq_iff_iff, isEmptyMessage_fix, isEmptyMessage_fix]
        simp only [hoffer]
      simp only [neighbours_cons, List.countP_cons, hm]

/-- The old turns are dropped, and a digest stands for them if there were any. -/
theorem collapse_messages (s : State) (c : HybridCompactor) (digest : JsString) :
    (s.collapseAncientTurns c digest).messages = s.messages.drop (collapseLength c.preserveK s.messages) ∨
      ∃ removed, (s.collapseAncientTurns c digest).messages =
        (summaryMessage c removed digest ::
          s.messages.drop (collapseLength c.preserveK s.messages)).map withEstimate := by
  unfold State.collapseAncientTurns
  simp only
  split
  · rename_i hzero
    left
    rw [hzero, List.drop_zero]
  · right
    exact ⟨_, rfl⟩

theorem emptiedUsers_collapse (s : State) (c : HybridCompactor) (digest : JsString) :
    emptiedUsers (s.collapseAncientTurns c digest).messages =
      emptiedUsers (s.messages.drop (collapseLength c.preserveK s.messages)) := by
  rcases collapse_messages s c digest with heq | ⟨removed, heq⟩
  · rw [heq]
  · rw [heq]
    exact (emptiedUsers_congr (map_shape_withEstimate _)).trans (emptiedUsers_summary c removed _ digest)

theorem userCount_collapse (s : State) (c : HybridCompactor) (digest : JsString) :
    userCount (s.collapseAncientTurns c digest).messages =
      userCount (s.messages.drop (collapseLength c.preserveK s.messages)) := by
  rcases collapse_messages s c digest with heq | ⟨removed, heq⟩
  · rw [heq]
  · rw [heq, userCount_withEstimate]
    exact List.countP_cons_of_neg (by simp [isUser, summaryMessage])

theorem userCount_compact (s : State) (c : HybridCompactor) (aggressive : Bool) (digest : JsString) :
    userCount (s.compact c aggressive digest).messages +
        userCount (s.messages.take (if aggressive then collapseLength c.preserveK s.messages else 0)) +
        emptiedUsers (s.messages.drop (if aggressive then collapseLength c.preserveK s.messages else 0)) =
      userCount s.messages := by
  have hshape := map_shape_state_elise s c.preserveK c.eliseThreshold
  have hview := userCount_congr (map_toolView_of_shape hshape)
  have hcut := collapseLength_congr hshape c.preserveK
  have hdrop : ∀ n, ((s.elise c.preserveK c.eliseThreshold).messages.drop n).map shape =
      (s.messages.drop n).map shape := fun n => by rw [List.map_drop, hshape, ← List.map_drop]
  unfold State.compact
  cases aggressive with
  | false =>
      have hrepair := userCount_repair (s.elise c.preserveK c.eliseThreshold)
      rw [hview, emptiedUsers_congr hshape] at hrepair
      simpa [userCount] using hrepair
  | true =>
      have hrepair := userCount_repair
        ((s.elise c.preserveK c.eliseThreshold).collapseAncientTurns c digest)
      rw [userCount_collapse, emptiedUsers_collapse, hcut, emptiedUsers_congr (hdrop _),
        userCount_congr (map_toolView_of_shape (hdrop _))] at hrepair
      have hsplit := userCount_append (s.messages.take (collapseLength c.preserveK s.messages))
        (s.messages.drop (collapseLength c.preserveK s.messages))
      rw [List.take_append_drop] at hsplit
      simp only [↓reduceIte]
      omega

theorem userCount_foldBlock (s : State) (text : JsString) :
    userCount (s.foldBlockIntoConversation (.text text)).messages =
      userCount s.messages + if s.messages.getLast?.any isUser then 0 else 1 := by
  unfold State.foldBlockIntoConversation State.appendBlockToLastUserMessage
  have happend : userCount (s.appendMessage { role := .user, content := .blocks [.text text] }).messages =
      userCount s.messages + 1 := userCount_append _ _
  cases hlast : s.messages.getLast? with
  | none => simpa [hlast] using happend
  | some last =>
      by_cases hrole : last.role = .user
      · obtain ⟨init, hinit⟩ := List.getLast?_eq_some_iff.mp hlast
        simp [hrole, isUser, hinit, userCount, State.withBlock]
      · simpa [hrole, isUser] using happend

theorem tally_balance (s : State) (t : Tally) (o : Op) (ho : ∀ content, o ≠ .userTurn content) :
    userCount (step s o).messages + (t.next s o).dropped + t.added =
      userCount s.messages + t.dropped + (t.next s o).added := by
  cases o with
  | userTurn content => exact absurd rfl (ho content)
  | processResponse content =>
      have happend : userCount (s.processResponse content).messages = userCount s.messages + 0 :=
        userCount_append _ _
      simp only [step, Tally.next]
      omega
  | executeTools results =>
      have happend : userCount (s.executeTools results).messages = userCount s.messages + 1 :=
        userCount_append _ _
      simp only [step, Tally.next]
      omega
  | foldBlock text =>
      simp only [step, userCount_foldBlock, Tally.next]
      split
      · omega
      · simp only
        omega
  | replaceMessages messages =>
      have hcount : userCount (s.replaceMessages messages).messages = userCount messages :=
        userCount_withEstimate messages
      simp only [step, Tally.next]
      omega
  | compact c aggressive digest =>
      have hcount := userCount_compact s c aggressive digest
      simp only [step, Tally.next]
      omega
  | buildRequest =>
      have hcount := userCount_buildRequest s
      simp only [step, Tally.next]
      cases hdirty : s.toolAdjacencyDirty with
      | false =>
          simp only [hdirty, Bool.false_eq_true, ↓reduceIte] at hcount ⊢
          omega
      | true =>
          simp only [hdirty, ↓reduceIte] at hcount ⊢
          omega

/-! ## What one step numbers -/

theorem checkpoints_userTurn (s : State) (content : Content) :
    (s.userTurn content).checkpoints = s.checkpoints ++ [(userCount s.messages : Int)] := by
  have happend : ((s.messages ++ [withEstimate { role := .user, content }]).countP
      fun m => decide (m.role = .user)) = userCount s.messages + 1 := userCount_append _ _
  simp only [State.userTurn, State.appendMessage, happend]
  rw [Int.natCast_add, Int.natCast_one, Int.add_sub_cancel]

theorem checkpoints_step (s : State) (o : Op) (ho : ∀ content, o ≠ .userTurn content) :
    (step s o).checkpoints = s.checkpoints := by
  have hrepair : ∀ s : State, s.repair.checkpoints = s.checkpoints := fun s => by
    unfold State.repair
    simp only
    split <;> rfl
  cases o with
  | userTurn content => exact absurd rfl (ho content)
  | processResponse content => rfl
  | executeTools results => rfl
  | foldBlock text =>
      simp only [step, State.foldBlockIntoConversation, State.appendBlockToLastUserMessage]
      cases s.messages.getLast? with
      | none => rfl
      | some last =>
          simp only
          split <;> rfl
  | replaceMessages messages => rfl
  | compact c aggressive digest =>
      simp only [step, State.compact, hrepair, State.collapseAncientTurns, State.elise]
      repeat (first | rfl | split)
  | buildRequest =>
      simp only [step, State.buildRequest]
      repeat (first | rfl | split)

/-- The last number and the books give the messages of the user in context. -/
def Balanced (st : State × Tally) : Prop :=
  ∀ last, st.1.checkpoints.getLast? = some last →
    (userCount st.1.messages : Int) + st.2.dropped = last + 1 + st.2.added

theorem Balanced.step {st : State × Tally} (h : Balanced st) (o : Op) :
    Balanced (withHistory Conversation.step Tally.next st o) := by
  intro last hlast
  by_cases ho : ∃ content, o = .userTurn content
  · obtain ⟨content, rfl⟩ := ho
    have hcheck : (withHistory Conversation.step Tally.next st (.userTurn content)).1.checkpoints =
        st.1.checkpoints ++ [(userCount st.1.messages : Int)] := checkpoints_userTurn st.1 content
    rw [hcheck, List.getLast?_concat] at hlast
    cases hlast
    have hcount : userCount (st.1.userTurn content).messages = userCount st.1.messages + 1 :=
      userCount_append _ _
    simp only [withHistory, Conversation.step, Tally.next, hcount]
    omega
  · have hno : ∀ content, o ≠ .userTurn content := fun content he => ho ⟨content, he⟩
    have hcheck : (withHistory Conversation.step Tally.next st o).1.checkpoints = st.1.checkpoints :=
      checkpoints_step st.1 o hno
    rw [hcheck] at hlast
    have hbefore := h last hlast
    have hbalance := tally_balance st.1 st.2 o hno
    simp only [withHistory]
    omega

end WrongStack.Conversation

import WrongStack.Conversation.Lemmas.Boundary
import WrongStack.Conversation.Lemmas.Checkpoints
import WrongStack.Conversation.Lemmas.Estimates

/-!
# The conversation over whole runs
-/

namespace WrongStack.Conversation

open Lib

/-! ## Repair -/

def RolesSeparated (ms : List Message) : Prop :=
  ∀ m ∈ ms, ∀ b ∈ m.blocks, (b.isToolUse = true → m.role = .assistant) ∧
    (b.isToolResult = true → m.role = .user)

instance (ms : List Message) : Decidable (RolesSeparated ms) := by
  unfold RolesSeparated
  infer_instance

def violates (w : Window) (b : ContentBlock) : Bool :=
  orphanUse (toolResultIds w.2.2) b || orphanResult (toolUseIds w.1) b

/-- The message without the blocks that break adjacency, in its original place. -/
def stripped (w : Window) : Message := mapContent w.2.1 fun bs => bs.filter fun b => !violates w b

/-- Everything that breaks adjacency in `ms`, and what is left empty without it. -/
def violationReport (ms : List Message) : MessageRepairReport where
  changed := (neighbours none ms).any fun w =>
    w.2.1.blocks.any (violates w) || isEmptyMessage (stripped w)
  removedToolUses := (neighbours none ms).flatMap fun w =>
    (w.2.1.blocks.filter (violates w)).filterMap ContentBlock.toolUseId?
  removedToolResults := (neighbours none ms).flatMap fun w =>
    (w.2.1.blocks.filter (violates w)).filterMap ContentBlock.toolResultId?
  removedMessages := (neighbours none ms).countP fun w => isEmptyMessage (stripped w)

variable {ms : List Message}

theorem RolesSeparated.orphanResult_eq (h : RolesSeparated ms) {w : Window}
    (hw : w ∈ neighbours none ms) {b : ContentBlock} (hb : b ∈ w.2.1.blocks) :
    orphanResult (offeredIds w.1 w.2.1) b = orphanResult (toolUseIds w.1) b := by
  obtain ⟨-, hresult⟩ := h w.2.1 (mem_of_mem_neighbours hw) b hb
  cases hid : b.toolResultId? with
  | none => simp [orphanResult, hid]
  | some id => rw [offeredIds, if_pos (hresult (by simp [ContentBlock.isToolResult, hid]))]

theorem RolesSeparated.survives_eq (h : RolesSeparated ms) {w : Window} (hw : w ∈ neighbours none ms)
    {b : ContentBlock} (hb : b ∈ w.2.1.blocks) : survives w.1 w.2.1 w.2.2 b = !violates w b := by
  rw [survives, violates, h.orphanResult_eq hw hb, Bool.not_or]

theorem RolesSeparated.fixMessage_eq (h : RolesSeparated ms) {w : Window}
    (hw : w ∈ neighbours none ms) : fixMessage w.1 w.2.1 w.2.2 = stripped w := by
  unfold fixMessage stripped mapContent
  cases hc : w.2.1.content with
  | text s => rfl
  | blocks bs =>
      have hbs : w.2.1.blocks = bs := by simp [Message.blocks, hc]
      simp only [Message.mk.injEq, Content.blocks.injEq, true_and, and_true]
      exact List.filter_congr fun b hb => h.survives_eq hw (hbs ▸ hb)

theorem RolesSeparated.repaired (h : RolesSeparated ms) : RolesSeparated (repaired ms) := by
  intro m hm b hb
  obtain ⟨w, hw, hs⟩ := List.mem_filterMap.mp hm
  unfold survivor at hs
  split at hs
  · cases hs
  · cases hs
    rw [fixMessage, mapContent_role]
    exact h w.2.1 (mem_of_mem_neighbours hw) b (mem_fixMessage.mp hb).1

theorem RolesSeparated.noStray (h : RolesSeparated ms) : NoStray ms := by
  rintro w hw ⟨hrole, b, hb, id, hid, -⟩
  exact hrole ((h w.2.1 (mem_of_mem_neighbours hw) b hb).1 (by simp [ContentBlock.isToolUse, hid]))

/-- Within a message, the blocks that break adjacency are the orphaned uses and results. -/
theorem RolesSeparated.orphans_eq (h : RolesSeparated ms) {w : Window} (hw : w ∈ neighbours none ms) :
    orphanUses w.2.1 w.2.2 = (w.2.1.blocks.filter (violates w)).filterMap ContentBlock.toolUseId? ∧
      orphanResults w.1 w.2.1 =
        (w.2.1.blocks.filter (violates w)).filterMap ContentBlock.toolResultId? := by
  have hresult := fun b hb => (h w.2.1 (mem_of_mem_neighbours hw) b hb).2
  unfold orphanUses orphanResults
  simp only [List.filterMap_filter]
  constructor
  · refine List.filterMap_congr fun b hb => ?_
    cases hid : b.toolUseId? with
    | none => simp
    | some id => simp [violates, orphanResult, toolResultId?_of_use hid]
  · refine List.filterMap_congr fun b hb => ?_
    cases hid : b.toolResultId? with
    | none => simp
    | some id =>
        have hrole := hresult b hb (by simp [ContentBlock.isToolResult, hid])
        simp [violates, orphanUse, toolUseId?_of_result hid, offeredIds, hrole]

theorem RolesSeparated.survivor_eq (h : RolesSeparated ms) {w : Window} (hw : w ∈ neighbours none ms) :
    survivor w = if isEmptyMessage (stripped w) then none else some (stripped w) := by
  rw [survivor, h.fixMessage_eq hw]

theorem RolesSeparated.any_violates (h : RolesSeparated ms) {w : Window} (hw : w ∈ neighbours none ms) :
    (!(orphanUses w.2.1 w.2.2).isEmpty || !(orphanResults w.1 w.2.1).isEmpty) =
      w.2.1.blocks.any (violates w) := by
  rw [← Bool.not_inj_iff, Bool.eq_iff_iff]
  simp only [Bool.not_or, Bool.not_not, Bool.and_eq_true, List.isEmpty_iff,
    orphanUses_eq_nil, orphanResults_eq_nil, Bool.not_eq_true', List.any_eq_false, violates,
    Bool.or_eq_true, not_or, Bool.not_eq_true, ← forall_and]
  exact forall₂_congr fun b hb => by rw [h.orphanResult_eq hw hb]

theorem RolesSeparated.report_eq (h : RolesSeparated ms) :
    (repairToolUseAdjacency ms).report = violationReport ms := by
  simp only [repairToolUseAdjacency, repairMessages_start, repairedFrom, violationReport,
    MessageRepairReport.mk.injEq, List.nil_append, Bool.false_or, Nat.zero_add]
  have hnone : ∀ w ∈ neighbours none ms, (survivor w).isNone = isEmptyMessage (stripped w) := by
    intro w hw
    rw [h.survivor_eq hw]
    cases isEmptyMessage (stripped w) <;> rfl
  refine ⟨?_, ?_, ?_, ?_⟩
  · rw [Bool.eq_iff_iff, List.any_eq_true, List.any_eq_true]
    refine exists_congr fun w => and_congr_right fun hw => ?_
    rw [h.any_violates hw, hnone w hw]
  · exact List.flatMap_congr fun w hw => (h.orphans_eq hw).1
  · exact List.flatMap_congr fun w hw => (h.orphans_eq hw).2
  · exact List.countP_congr fun w hw => by rw [hnone w hw]

theorem repaired_nonempty {m : Message} (hm : m ∈ repaired ms) : isEmptyMessage m = false := by
  obtain ⟨w, -, hs⟩ := List.mem_filterMap.mp hm
  unfold survivor at hs
  split at hs
  · cases hs
  · rename_i hne
    cases hs
    simpa using hne

theorem Paired.violates_eq (h : Paired ms) {w : Window} (hw : w ∈ neighbours none ms) {b : ContentBlock}
    (hb : b ∈ w.2.1.blocks) : violates w b = false := by
  obtain ⟨huse, hresult⟩ := h w hw
  rw [violates, orphanUse_eq_false.mpr (huse b hb), orphanResult_eq_false.mpr (hresult b hb)]
  rfl

theorem Paired.stripped_eq (h : Paired ms) {w : Window} (hw : w ∈ neighbours none ms) : stripped w = w.2.1 :=
  mapContent_eq_self fun b hb => by rw [h.violates_eq hw hb]; rfl

theorem violationReport_of_paired (h : Paired ms) (hne : ∀ m ∈ ms, isEmptyMessage m = false) :
    violationReport ms = ⟨false, [], [], 0⟩ := by
  have hno : ∀ w ∈ neighbours none ms, ∀ b ∈ w.2.1.blocks, violates w b = false := fun w hw b hb =>
    h.violates_eq hw hb
  have hnil : ∀ w ∈ neighbours none ms, w.2.1.blocks.filter (violates w) = [] := fun w hw =>
    List.filter_eq_nil_iff.mpr fun b hb => by simp [hno w hw b hb]
  have hkept : ∀ w ∈ neighbours none ms, isEmptyMessage (stripped w) = false := by
    intro w hw
    rw [h.stripped_eq hw]
    exact hne _ (mem_of_mem_neighbours hw)
  simp only [violationReport, MessageRepairReport.mk.injEq, List.any_eq_false,
    List.flatMap_eq_nil_iff, List.countP_eq_zero]
  refine ⟨fun w hw => ?_, fun w hw => ?_, fun w hw => ?_, fun w hw => ?_⟩
  · simp only [hkept w hw, Bool.or_false, List.any_eq_true, not_exists, not_and]
    exact fun b hb => by simp [hno w hw b hb]
  · rw [hnil w hw, List.filterMap_nil]
  · rw [hnil w hw, List.filterMap_nil]
  · simp [hkept w hw]

/-- Repair pairs every use with a result, takes out exactly the blocks that are not paired and the
messages that are empty, reports just these, and has nothing left to do afterwards. -/
theorem repair_adjacency (ms : List Message) (h : RolesSeparated ms) :
    Paired (repairToolUseAdjacency ms).messages ∧
      (repairToolUseAdjacency ms).messages =
        ((neighbours none ms).map stripped).filter (fun m => !isEmptyMessage m) ∧
      repairToolUseAdjacency (repairToolUseAdjacency ms).messages =
        { messages := (repairToolUseAdjacency ms).messages, report := ⟨false, [], [], 0⟩ } ∧
      (repairToolUseAdjacency ms).report = violationReport ms := by
  rw [repairToolUseAdjacency_messages]
  have hpaired : Paired (repaired ms) := (paired_repaired_iff ms).mpr h.noStray
  refine ⟨hpaired, ?_, ?_, h.report_eq⟩
  · rw [← filterMap_ite_none]
    exact List.filterMap_congr fun w hw => h.survivor_eq hw
  · have hreport := h.repaired.report_eq
    rw [violationReport_of_paired hpaired fun m hm => repaired_nonempty hm] at hreport
    have hunchanged : (repairMessages (repaired ms) {}).changed = false :=
      congrArg MessageRepairReport.changed hreport
    have hmessages := repairToolUseAdjacency_messages (repaired ms)
    rw [repaired_of_unchanged hunchanged] at hmessages
    exact MessageRepairResult.ext hmessages hreport

/-- An unanswered use, an unasked result and a blank message around an exchange. -/
def brokenExchange : List Message :=
  [ { role := .user, content := .text (js " ") },
    { role := .assistant, content := .blocks [.toolUse (js "a") (js "read") [], .toolUse (js "b") (js "read") []] },
    { role := .user, content := .blocks [.toolResult (js "a") none (js "ok") none,
        .toolResult (js "c") none (js "ok") none] } ]

theorem repair_adjacency_broken :
    Paired (repairToolUseAdjacency brokenExchange).messages ∧
      (repairToolUseAdjacency brokenExchange).report = ⟨true, [js "b"], [js "c"], 1⟩ := by
  have h := repair_adjacency brokenExchange (by decide)
  exact ⟨h.1, h.2.2.2.trans (by decide)⟩

/-! ## Cuts -/

theorem Paired.rolesSeparated (h : Paired ms) : RolesSeparated ms := by
  intro m hm b hb
  simp only [ContentBlock.isToolUse, ContentBlock.isToolResult, Option.isSome_iff_exists]
  constructor
  · rintro ⟨id, hid⟩
    exact PairedFrom.role_of_use h hm hb hid
  · rintro ⟨id, hid⟩
    exact h.role_of_result hm hb hid

theorem blocks_nonempty (ms : List Message) :
    (ms.filter fun m => !isEmptyMessage m).flatMap Message.blocks = ms.flatMap Message.blocks := by
  induction ms with
  | nil => rfl
  | cons m ms ih =>
      rw [List.filter_cons, List.flatMap_cons, ← ih]
      cases hempty : isEmptyMessage m with
      | false => rfl
      | true =>
          have hnil : m.blocks = [] := by
            refine List.eq_nil_iff_forall_not_mem.mpr fun b hb => ?_
            rw [isEmptyMessage_of_mem hb] at hempty
            cases hempty
          rw [hnil]
          rfl

theorem Paired.blocks_repair (h : Paired ms) :
    (repairToolUseAdjacency ms).messages.flatMap Message.blocks = ms.flatMap Message.blocks := by
  have hkept : repaired ms = ms.filter fun m => !isEmptyMessage m := by
    conv_rhs => rw [← map_neighbours none ms, ← filterMap_ite_none]
    exact List.filterMap_congr fun w hw => by rw [h.rolesSeparated.survivor_eq hw, h.stripped_eq hw]
  rw [repairToolUseAdjacency_messages, hkept, blocks_nonempty]

/-- Both parts of the cut are paired, and behind a summary of the first one repair takes no block from
the second. -/
def CutSafe (ms : List Message) (b : Nat) : Prop :=
  Paired (ms.take b) ∧ Paired (ms.drop b) ∧
    ∀ c : IntelligentCompactor,
      (repairToolUseAdjacency (c.summaryMsg (ms.take b) :: ms.drop b)).messages.flatMap Message.blocks =
        (ms.drop b).flatMap Message.blocks

/-- Going back from the last words of the user in the range, over messages of the system and uses of
tools, one comes upon a message of the user that carries results. -/
def StopsAtResults (ms : List Message) (lo hi : Int) : Prop :=
  ∃ i, LastWords ms lo hi i ∧ ∃ earlier m later, ms.take i = earlier ++ m :: later ∧
    (∀ x ∈ later, Passed x) ∧ m.role = .user ∧ hasToolResult m = true

/-- A message of the system neither uses a tool nor answers one. -/
theorem Paired.cons_summary (h : Paired ms) (c : IntelligentCompactor) (removed : List Message) :
    Paired (c.summaryMsg removed :: ms) := by
  obtain ⟨hlinked, hlast⟩ := (paired_iff ms).mp h
  refine (paired_iff _).mpr ⟨?_, ?_⟩
  · refine (hlinked.tail.cons fun y hy => ?_).cons fun y hy => ?_
    · refine ⟨fun id hid => absurd hid List.not_mem_nil, fun id hid => ?_⟩
      obtain ⟨v, hv, -⟩ := (hlinked.rel_head? hy).2 id hid
      cases hv
    · cases hy
      exact ⟨fun id hid => absurd hid List.not_mem_nil, fun id hid => absurd hid List.not_mem_nil⟩
  · cases ms with
    | nil => rfl
    | cons m ms => rwa [lastView, List.getLast?_cons_cons]

theorem CutSafe.of_head (h : Paired ms) {b : Nat} (hhead : ∀ m ∈ ms[b]?, hasToolResult m = false) :
    CutSafe ms b :=
  ⟨h.take hhead, h.drop hhead, fun c => ((h.drop hhead).cons_summary c _).blocks_repair⟩

/-- Right behind a message without a tool use, or at the start, nothing is answered. -/
theorem CutSafe.of_last (h : Paired ms) {b : Nat} (hlast : usesOf (lastView (ms.take b)) = []) :
    CutSafe ms b := by
  refine CutSafe.of_head h fun m hm => ?_
  refine toolResults_eq_nil.mp (List.eq_nil_iff_forall_not_mem.mpr fun id hid => ?_)
  obtain ⟨v, hv, -, huse⟩ := (((paired_iff ms).mp h).1.fits hm).2 id hid
  rw [hv] at hlast
  rw [show v.uses = [] from hlast] at huse
  cases huse

theorem cutSafe_exchangeStart (h : Paired ms) {i : Nat}
    (hstops : ¬ ∃ earlier m later, ms.take i = earlier ++ m :: later ∧ (∀ x ∈ later, Passed x) ∧
      m.role = .user ∧ hasToolResult m = true) : CutSafe ms (findExchangeStart ms i) := by
  unfold findExchangeStart
  rcases exchangeStartFrom_cases (ms.take i).reverse with hzero | ⟨later, m, earlier, hsplit, hlater, hstop⟩
  · rw [hzero]
    exact CutSafe.of_last h rfl
  · have htake : ms.take i = earlier.reverse ++ m :: later.reverse := by
      rw [← List.reverse_reverse (ms.take i), hsplit]
      simp
    have hms : ms = earlier.reverse ++ m :: (later.reverse ++ ms.drop i) := by
      conv_lhs => rw [← List.take_append_drop i ms, htake]
      simp
    rcases hstop with ⟨-, huse, hstart⟩ | ⟨hrole, hstart⟩
    · rw [hstart]
      refine CutSafe.of_last h ?_
      have hlast : ms.take (earlier.length + 1) = earlier.reverse ++ [m] := by
        rw [hms, List.append_cons]
        exact List.take_left' (by simp)
      rw [hlast, lastView, List.getLast?_concat]
      exact toolUses_eq_nil.mpr huse
    · rw [hstart]
      refine CutSafe.of_head h fun x hx => ?_
      have hm : ms[earlier.length]? = some m := by
        conv_lhs => rw [hms, ← List.length_reverse]
        simp
      rw [hm] at hx
      cases hx
      by_contra hres
      exact hstops ⟨_, _, _, htake, fun x hx => hlater x (List.mem_reverse.mp hx), hrole, by simpa using hres⟩

theorem exchangeStart_of_user {i : Nat} {earlier later : List Message} {m : Message}
    (htake : ms.take i = earlier ++ m :: later) (hlater : ∀ x ∈ later, Passed x) (hrole : m.role = .user) :
    findExchangeStart ms i = earlier.length := by
  rw [findExchangeStart, htake, List.reverse_append, List.reverse_cons, List.append_assoc,
    exchangeStartFrom_append fun x hx => hlater x (List.mem_reverse.mp hx), List.singleton_append,
    exchangeStartFrom, hrole]
  simp

theorem not_cutSafe_exchangeStart {i : Nat} {earlier later : List Message} {m : Message}
    (htake : ms.take i = earlier ++ m :: later) (hlater : ∀ x ∈ later, Passed x) (hrole : m.role = .user)
    (hres : hasToolResult m = true) : ¬ CutSafe ms (findExchangeStart ms i) := by
  have hm : ms[earlier.length]? = some m := by
    conv_lhs => rw [← List.take_append_drop i ms, htake]
    simp
  rw [exchangeStart_of_user htake hlater hrole]
  exact fun hsafe => not_paired_drop hm hres hsafe.2.1

theorem blocks_withEstimate (ms : List Message) :
    (ms.map withEstimate).flatMap Message.blocks = ms.flatMap Message.blocks := by
  rw [List.flatMap_map]
  refine List.flatMap_congr fun m _ => ?_
  unfold withEstimate
  cases m.estTokens <;> rfl

/-- The repair of a state whose messages are paired. -/
theorem Paired.blocks_repairState {s : State} (h : Paired s.messages) :
    s.repair.messages.flatMap Message.blocks = s.messages.flatMap Message.blocks := by
  unfold State.repair
  simp only
  split
  · exact (blocks_withEstimate _).trans h.blocks_repair
  · rfl

theorem paired_summarize (c : IntelligentCompactor) {s : State} (h : Paired s.messages)
    (hsafe : ∀ b, findSafeBoundary s.messages 0 (c.cutoff s.messages) = some b → CutSafe s.messages b) :
    Paired (c.summarizeAncientTurns s).messages := by
  unfold IntelligentCompactor.summarizeAncientTurns
  split
  · exact h
  · cases hb : findSafeBoundary s.messages 0 (c.cutoff s.messages) with
    | none => exact h
    | some b =>
        simp only
        split
        · exact h
        · exact paired_withEstimate.mpr ((hsafe b hb).2.1.cons_summary c _)

theorem cutSafe_iff (h : Paired ms) (lo hi : Int) :
    (∀ b, findSafeBoundary ms lo hi = some b → CutSafe ms b) ↔ ¬ StopsAtResults ms lo hi := by
  constructor
  · rintro hsafe ⟨i, hwords, earlier, m, later, htake, hlater, hrole, hres⟩
    exact not_cutSafe_exchangeStart htake hlater hrole hres
      (hsafe _ (findSafeBoundary_eq_some.mpr ⟨i, hwords, rfl⟩))
  · intro hstops b hb
    obtain ⟨i, hwords, rfl⟩ := findSafeBoundary_eq_some.mp hb
    exact cutSafe_exchangeStart h fun hresults => hstops ⟨i, hwords, hresults⟩

/-- A cut that `findSafeBoundary` finds in a paired list leaves paired parts, and a tail that repair takes
no block from, exactly if the walk back to it does not stop at results. Then the repair that follows the
summary of the head takes no block from the messages. -/
theorem safe_boundary_iff (ms : List Message) (h : Paired ms) :
    (∀ lo hi, (∀ b, findSafeBoundary ms lo hi = some b → CutSafe ms b) ↔ ¬ StopsAtResults ms lo hi) ∧
      ∀ (c : IntelligentCompactor) (s : State), s.messages = ms → ¬ StopsAtResults ms 0 (c.cutoff ms) →
        (c.summarizeAncientTurns s).repair.messages.flatMap Message.blocks =
          (c.summarizeAncientTurns s).messages.flatMap Message.blocks := by
  refine ⟨cutSafe_iff h, fun c s hs hstops => ?_⟩
  subst hs
  exact (paired_summarize c h ((cutSafe_iff h _ _).mpr hstops)).blocks_repairState

/-- A turn with a tool, and the next one. -/
def twoTurns : List Message :=
  [ { role := .user, content := .text (js "go") },
    { role := .assistant, content := .blocks [.toolUse (js "a") (js "read") []] },
    { role := .user, content := .blocks [.toolResult (js "a") none (js "ok") none] },
    { role := .assistant, content := .text (js "done") },
    { role := .user, content := .text (js "more") } ]

theorem safe_boundary_iff_twoTurns : findSafeBoundary twoTurns 0 4 = some 4 ∧ CutSafe twoTurns 4 := by
  have hcut : findSafeBoundary twoTurns 0 4 = some 4 := by decide
  refine ⟨hcut, ((safe_boundary_iff twoTurns (by decide)).1 0 4).mpr ?_ 4 hcut⟩
  rintro ⟨i, hwords, earlier, m, later, htake, hlater, hrole, -⟩
  have hlast : LastWords twoTurns 0 4 4 := by
    refine ⟨by decide, by decide, ⟨_, rfl, by decide⟩, fun j hj hle => ?_⟩
    omega
  obtain rfl := hwords.unique hlast
  -- the walk ends right behind the answer, where no message of the four is left
  have hstart : findExchangeStart twoTurns 4 = earlier.length := exchangeStart_of_user htake hlater hrole
  have hfour : findExchangeStart twoTurns 4 = 4 := by decide
  have hlength : (twoTurns.take 4).length = earlier.length + (later.length + 1) := by
    rw [htake, List.length_append, List.length_cons]
  have htwo : (twoTurns.take 4).length = 4 := rfl
  omega

/-- The user speaks right after the results of a tool. -/
def interrupted : List Message :=
  [ { role := .user, content := .text (js "go") },
    { role := .assistant, content := .blocks [.toolUse (js "a") (js "read") []] },
    { role := .user, content := .blocks [.toolResult (js "a") none (js "ok") none] },
    { role := .user, content := .text (js "stop") } ]

theorem boundary_splits_exchange : Paired interrupted ∧ findSafeBoundary interrupted 0 3 = some 2 ∧
    ¬ Paired (interrupted.take 2) ∧ ¬ Paired (interrupted.drop 2) := by
  decide

/-! ## Cached estimates -/

/-- The operation leaves no message in the state without an estimate, or with that of other
content. -/
def KeepsEstimates (s : State) : EditOp → Prop
  | .appendMessage message => AllCached s.messages ∧ Honest message
  | .appendBlockToLastUserMessage _ => AllCached (unfolded s.messages)
  | .replaceMessages messages => ∀ m ∈ messages, Honest m
  | .replaceElided preserveK eliseThreshold =>
      ∀ m ∈ s.messages.take (findPreserveStart s.messages preserveK),
        m.estTokens = none ∨ LevelElision eliseThreshold m
  | .replaceRepaired => ∀ w ∈ neighbours none s.messages, w.2.1.estTokens = none ∨ AllOrNone w

instance (s : State) (o : EditOp) : Decidable (KeepsEstimates s o) := by
  cases o <;> unfold KeepsEstimates <;> infer_instance

theorem estimatesTrue_edit {s : State} (h : ∀ m ∈ s.messages, Honest m) (o : EditOp) :
    EstimatesTrue (edit s o).messages ↔ KeepsEstimates s o := by
  cases o with
  | appendMessage message => exact estimatesTrue_appendMessage h message
  | appendBlockToLastUserMessage block => exact estimatesTrue_appendBlock h block
  | replaceMessages messages => exact estimatesTrue_withEstimate
  | replaceElided preserveK eliseThreshold =>
      exact estimatesTrue_withEstimate.trans (honest_elise h preserveK eliseThreshold)
  | replaceRepaired => exact estimatesTrue_withEstimate.trans (honest_repair h)

/-- After every operation the cached estimates are those of the contents, their sum is that of the
recomputed estimates, and less content than before is estimated at less, exactly as long as every
operation keeps the estimates. -/
theorem estimates_coherent (messages : List Message) (hnew : ∀ m ∈ messages, m.estTokens = none)
    (ops : List EditOp) :
    (∀ pre o, pre ++ [o] <+: ops →
      EstimatesTrue (run edit { messages } (pre ++ [o])).messages ∧
        estimateMessageTokens (run edit { messages } (pre ++ [o])).messages =
          contentTokens (run edit { messages } (pre ++ [o])).messages ∧
        (contentTokens (run edit { messages } (pre ++ [o])).messages <
            contentTokens (run edit { messages } pre).messages →
          estimateMessageTokens (run edit { messages } (pre ++ [o])).messages <
            estimateMessageTokens (run edit { messages } pre).messages)) ↔
      Under edit KeepsEstimates { messages } ops := by
  have hstart : ∀ m ∈ ({ messages } : State).messages, Honest m := fun m hm => Or.inl (hnew m hm)
  have hhonest : ∀ s : State, EstimatesTrue s.messages → ∀ m ∈ s.messages, Honest m :=
    fun s h m hm => (h m hm).honest
  rw [← forall_concat_iff_under (J := fun s : State => EstimatesTrue s.messages)
    (fun s o h => estimatesTrue_edit h o) hhonest hstart ops]
  constructor
  · exact fun h pre o hpre => (h pre o hpre).1
  · intro h pre o hpre
    have htrue := h pre o hpre
    have hafter := estimateMessageTokens_of_honest (hhonest _ htrue)
    -- before the operation the estimates are those of the contents too, or there are none yet
    have hbefore : ∀ m ∈ (run edit { messages } pre).messages, Honest m := by
      rcases List.eq_nil_or_concat pre with rfl | ⟨init, p, rfl⟩
      · exact hstart
      · rw [List.concat_eq_append] at hpre ⊢
        exact hhonest _ (h init p ((List.prefix_append _ [o]).trans hpre))
    refine ⟨htrue, hafter, fun hless => ?_⟩
    rw [hafter, estimateMessageTokens_of_honest hbefore]
    exact hless

/-- A read of a long file, and the answer. -/
def longRead : List Message :=
  [ { role := .assistant, content := .blocks [.toolUse (js "a") (js "read") []] },
    { role := .user
      content := .blocks [.toolResult (js "a") none (List.replicate 70 (unit 'x')) none] },
    { role := .assistant, content := .blocks [.text (js "done")] } ]

/-- Elided before it has any estimate, the large result is estimated as its marker. -/
theorem estimates_coherent_longRead :
    EstimatesTrue (run edit { messages := longRead } [.replaceElided 1 20]).messages ∧
      estimateMessageTokens (run edit { messages := longRead } [.replaceElided 1 20]).messages =
        contentTokens (run edit { messages := longRead } [.replaceElided 1 20]).messages := by
  have h := (estimates_coherent longRead (by decide) [.replaceElided 1 20]).mpr (by decide +kernel)
    [] (.replaceElided 1 20) (List.prefix_refl _)
  exact ⟨h.1, h.2.1⟩

/-- Elided after it was appended, the message still carries the estimate of the large result. -/
theorem estimates_stale_elision :
    ¬ (EstimatesTrue (run edit {} (longRead.map .appendMessage ++ [.replaceElided 1 20])).messages ∧
      estimateMessageTokens
          (run edit {} (longRead.map .appendMessage ++ [.replaceElided 1 20])).messages =
        contentTokens
          (run edit {} (longRead.map .appendMessage ++ [.replaceElided 1 20])).messages) := by
  decide +kernel

/-! ## Adjacency of every request -/

/-- What a step puts into the conversation is paired, or the flag sends it to repair and repair can
pair it. -/
def KeepsAdjacency (s : State) : Op → Prop
  | .userTurn content =>
      let m : Message := { role := .user, content }
      if s.toolAdjacencyDirty then Clear (lastView s.messages) (some (toolView m))
      else hasToolBlock m = false
  | .processResponse content =>
      s.toolAdjacencyDirty = true ∨ content.any ContentBlock.isToolUse = true ∨
        content.any ContentBlock.isToolResult = false
  | .executeTools results =>
      Clear (lastView s.messages) (some (toolView { role := .user, content := .blocks results }))
  | .replaceMessages messages =>
      NoStray messages ∧ (s.toolAdjacencyDirty = true ∨
        (∃ m ∈ messages, m.estTokens = none ∧ hasToolBlock m = true) ∨ Paired messages)
  | .foldBlock _ | .compact .. | .buildRequest => True

theorem good_userTurn {s : State} (h : Good s) (content : Content) :
    Good (s.userTurn content) ↔ KeepsAdjacency s (.userTurn content) := by
  have hstray : NoStray (s.messages ++ [withEstimate { role := .user, content }]) ↔ _ := noStray_concat
  simp only [h.noStray, true_and, toolView_withEstimate] at hstray
  have hmessages : (s.userTurn content).messages =
      s.messages ++ [withEstimate { role := .user, content }] := rfl
  have hblocks : hasToolBlock (withEstimate { role := .user, content }) =
      hasToolBlock { role := .user, content } := rfl
  unfold KeepsAdjacency
  cases hdirty : s.toolAdjacencyDirty with
  | true =>
      have hd : (s.userTurn content).toolAdjacencyDirty = true := hdirty
      simp only [↓reduceIte, ← hstray]
      exact ⟨Good.noStray, fun hn => ⟨hn, fun hclean => by simp [hd] at hclean⟩⟩
  | false =>
      have hpaired := paired_concat (h.paired hdirty) (m := withEstimate { role := .user, content })
      rw [hblocks, ← hmessages] at hpaired
      simp only [Bool.false_eq_true, ↓reduceIte, ← hpaired]
      exact ⟨fun hg => hg.paired hdirty, Good.of_paired⟩

theorem good_processResponse {s : State} (h : Good s) (content : List ContentBlock) :
    Good (s.processResponse content) ↔ KeepsAdjacency s (.processResponse content) := by
  have hstray : NoStray (s.processResponse content).messages :=
    noStray_concat.mpr ⟨h.noStray, clear_assistant rfl _⟩
  have hflag : (s.processResponse content).toolAdjacencyDirty =
      (s.toolAdjacencyDirty || content.any ContentBlock.isToolUse) := rfl
  cases hdirty : s.toolAdjacencyDirty with
  | true =>
      exact iff_of_true ⟨hstray, fun hclean => by simp [hflag, hdirty] at hclean⟩ (Or.inl hdirty)
  | false =>
      cases huse : content.any ContentBlock.isToolUse with
      | true =>
          exact iff_of_true ⟨hstray, fun hclean => by simp [hflag, huse] at hclean⟩ (Or.inr (Or.inl huse))
      | false =>
          have hclean : (s.processResponse content).toolAdjacencyDirty = false := by
            simp [hflag, hdirty, huse]
          have hpaired : Paired (s.processResponse content).messages ↔
              (content.any ContentBlock.isToolUse || content.any ContentBlock.isToolResult) = false :=
            paired_concat (h.paired hdirty)
          rw [huse, Bool.false_or] at hpaired
          simp only [KeepsAdjacency, hdirty, huse, Bool.false_eq_true, false_or, ← hpaired]
          exact ⟨fun hg => hg.paired hclean, Good.of_paired⟩

theorem good_executeTools {s : State} (h : Good s) (results : List ContentBlock) :
    Good (s.executeTools results) ↔ KeepsAdjacency s (.executeTools results) := by
  have hstray : NoStray (s.executeTools results).messages ↔ KeepsAdjacency s (.executeTools results) := by
    refine noStray_concat.trans ?_
    rw [toolView_withEstimate]
    exact and_iff_right h.noStray
  rw [← hstray]
  refine ⟨Good.noStray, fun hn => ⟨hn, fun hclean => ?_⟩⟩
  have hflag : (s.toolAdjacencyDirty || !results.isEmpty) = false := hclean
  obtain ⟨hdirty, hnil⟩ := Bool.or_eq_false_iff.mp hflag
  obtain rfl : results = [] := by simpa using hnil
  exact (paired_concat (h.paired hdirty)).mpr rfl

theorem good_step {s : State} (h : Good s) (o : Op) : Good (step s o) ↔ KeepsAdjacency s o := by
  cases o with
  | userTurn content => exact good_userTurn h content
  | processResponse content => exact good_processResponse h content
  | executeTools results => exact good_executeTools h results
  | foldBlock text => exact iff_of_true (h.foldBlock text) trivial
  | replaceMessages messages =>
      refine (good_replaceMessages messages).trans (and_congr_right fun _ => ?_)
      simp only [State.replaceMessages, ← Bool.not_eq_true, Bool.or_eq_true, List.any_eq_true,
        Bool.and_eq_true, Option.isNone_iff_eq_none]
      rw [← or_assoc]
      exact or_iff_not_imp_left.symm
  | compact c aggressive digest => exact iff_of_true (h.compact c aggressive digest) trivial
  | buildRequest => exact iff_of_true h.buildRequest trivial

/-- In every state that a run reaches, a request built there is paired, exactly as long as every
step keeps adjacency. -/
theorem requests_paired (ops : List Op) :
    (∀ pre, pre <+: ops → Paired (run step {} pre).buildRequest.messages) ↔
      Under step KeepsAdjacency {} ops := by
  have hstart : Good {} := Good.of_paired fun w hw => by cases hw
  simp only [paired_buildRequest]
  exact forall_prefix_iff_under (J := Good) (I := fun _ => True) (fun _ _ h => h)
    (fun s o _ h => good_step h o) trivial hstart ops

/-- A list that was in a conversation before comes back without its last message. -/
def cutExchange : List Op :=
  [ .replaceMessages
      [{ role := .assistant, content := .blocks [.toolUse (js "a") (js "read") []], estTokens := some 1 }] ]

theorem request_unanswered : ¬ Paired (run step {} cutExchange).buildRequest.messages := by
  decide

/-! ## Checkpoint numbers -/

/-- A turn that is not the first finds no more messages of the user dropped than added since the
last one. -/
def KeepsOrder (st : State × Tally) : Op → Prop
  | .userTurn _ => st.1.checkpoints = [] ∨ st.2.dropped ≤ st.2.added
  | _ => True

theorem ordered_step {st : State × Tally} (hb : Balanced st) (h : st.1.checkpoints.Pairwise (· < ·))
    (o : Op) : (withHistory step Tally.next st o).1.checkpoints.Pairwise (· < ·) ↔ KeepsOrder st o := by
  by_cases ho : ∃ content, o = .userTurn content
  · obtain ⟨content, rfl⟩ := ho
    have hcheck : (withHistory step Tally.next st (.userTurn content)).1.checkpoints =
        st.1.checkpoints ++ [(userCount st.1.messages : Int)] := checkpoints_userTurn st.1 content
    rw [hcheck, List.pairwise_append]
    simp only [h, List.pairwise_singleton, List.mem_singleton, forall_eq, true_and, KeepsOrder]
    cases hlast : st.1.checkpoints.getLast? with
    | none => simp [List.getLast?_eq_none_iff.mp hlast]
    | some last =>
        -- the last number is the largest, and the books say whether the new one is larger
        have hbooks := hb last hlast
        obtain ⟨init, hinit⟩ := List.getLast?_eq_some_iff.mp hlast
        have hne : st.1.checkpoints ≠ [] := by simp [hinit]
        have hmax : ∀ n ∈ st.1.checkpoints, n ≤ last := by
          rw [hinit, List.pairwise_append] at h
          rw [hinit]
          intro n hn
          rcases List.mem_append.mp hn with hn | hn
          · exact le_of_lt (h.2.2 n hn last (List.mem_singleton_self last))
          · exact le_of_eq (List.mem_singleton.mp hn)
        have hmem : last ∈ st.1.checkpoints := List.mem_of_getLast? hlast
        simp only [hne, false_or]
        constructor
        · intro hall
          have := hall last hmem
          omega
        · intro hle n hn
          have := hmax n hn
          omega
  · have hno : ∀ content, o ≠ .userTurn content := fun content he => ho ⟨content, he⟩
    have hcheck : (withHistory step Tally.next st o).1.checkpoints = st.1.checkpoints :=
      checkpoints_step st.1 o hno
    rw [hcheck]
    refine iff_of_true h ?_
    cases o with
    | userTurn content => exact absurd rfl (hno content)
    | _ => trivial

/-- The numbers of the checkpoints of a session increase exactly as long as, between two turns, no
more messages of the user are dropped than added. -/
theorem checkpoints_increasing (ops : List Op) :
    (∀ pre, pre <+: ops → (run step {} pre).checkpoints.Pairwise (· < ·)) ↔
      Under (withHistory step Tally.next) KeepsOrder ({}, {}) ops := by
  have hstart : Balanced ({}, {}) := fun last hlast => by cases hlast
  have hiff := forall_prefix_iff_under (I := Balanced)
    (J := fun st : State × Tally => st.1.checkpoints.Pairwise (· < ·))
    (fun _ o hb => hb.step o) (fun _ o hb h => ordered_step hb h o) hstart List.Pairwise.nil ops
  simpa only [run_withHistory] using hiff

/-- Turns that are answered in text, until an aggressive compaction collapses the first of them. -/
def collapsedSession : List Op :=
  (List.replicate 6 [Op.userTurn (.text (js "q")), .processResponse [.text (js "a")]]).flatten ++
    [.compact {} true [], .userTurn (.text (js "q"))]

theorem checkpoint_repeated : ¬ (run step {} collapsedSession).checkpoints.Pairwise (· < ·) := by
  decide +kernel

end WrongStack.Conversation

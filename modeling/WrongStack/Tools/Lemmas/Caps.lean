import Mathlib.Algebra.BigOperators.Group.Finset.Basic
import Mathlib.Algebra.BigOperators.Group.Finset.Piecewise
import WrongStack.Tools.Lemmas.Calls

/-!
# What a batch puts out

The cap counts bytes and cuts code units. A text is cut at most once in a batch: nothing is left of the budget
after that.
-/

namespace WrongStack.Tools

open Lib Permission Setup JsString

variable {text s t : JsString} {budget : Nat}

/-! ## Bytes -/

theorem byteLength_cons {c : CodeUnit} (h : isHighSurrogate c = false) (s : JsString) :
    byteLength (c :: s) = byteLength.unitBytes c + byteLength s := by
  cases s with
  | nil => rfl
  | cons d s =>
      rw [byteLength, if_neg]
      simp only [isHighSurrogate, Bool.and_eq_false_iff] at h
      rcases h with h | h <;> simp [h]

/-- The size of a text is that of its parts, unless the second part completes a pair. -/
theorem byteLength_append (h : ∀ c ∈ t.head?, isLowSurrogate c = false) :
    byteLength (s ++ t) = byteLength s + byteLength t := by
  induction s using byteLength.induct with
  | case1 hi lo rest hpair ih =>
      rw [List.cons_append, List.cons_append, byteLength, if_pos hpair, byteLength, if_pos hpair, ih]
      omega
  | case2 hi lo rest hpair ih =>
      rw [List.cons_append, List.cons_append, byteLength, if_neg hpair, byteLength, if_neg hpair]
      rw [List.cons_append] at ih
      omega
  | case3 c =>
      cases t with
      | nil => simp [byteLength]
      | cons d t =>
          have hd := h d rfl
          rw [List.singleton_append, byteLength, if_neg]
          · rfl
          · simp only [isLowSurrogate, Bool.and_eq_false_iff] at hd
            rcases hd with hd | hd <;> simp [hd]
  | case4 => simp [byteLength]

/-! ## The cut -/

theorem js_append (a b : String) : js (a ++ b) = js a ++ js b := by
  simp [js]

def truncationMarker (n : Nat) : JsString := js s!"\n…[truncated {n} bytes]…\n"

/-- The bytes of the budget that the marker leaves. -/
def availableBytes (text : JsString) (budget : Nat) : Nat :=
  budget - byteLength (truncationMarker (byteLength text - budget))

/-- The text is cut to two slices. -/
def IsCut (text : JsString) (budget : Nat) : Prop :=
  budget < byteLength text ∧ 0 < availableBytes text budget

theorem enforceCap_cut (h : IsCut text budget) : enforceCap text budget =
    ⟨text.take (availableBytes text budget / 2) ++ truncationMarker (byteLength text - budget) ++
      sliceEnd text (availableBytes text budget / 2), 0⟩ := by
  obtain ⟨hlarge, havailable⟩ := h
  have hbudget : budget ≠ 0 := by
    rintro rfl
    simp [availableBytes] at havailable
  have hmarker : budget - byteLength (truncationMarker (byteLength text - budget)) ≠ 0 := by
    rw [availableBytes] at havailable
    omega
  rw [enforceCap, if_neg hbudget, if_neg (by omega)]
  exact if_neg hmarker

/-- A text that is not cut is kept, or the notice stands for it. -/
theorem enforceCap_whole (h : ¬ IsCut text budget) :
    (byteLength text ≤ budget ∧ (enforceCap text budget).text = text ∧
      (enforceCap text budget).newBudget = budget - byteLength text) ∨ enforceCap text budget = exhausted := by
  by_cases hbudget : budget = 0
  · exact .inr (by rw [enforceCap, if_pos hbudget])
  · by_cases hfits : byteLength text ≤ budget
    · refine .inl ⟨hfits, ?_⟩
      rw [enforceCap, if_neg hbudget, if_pos hfits]
      exact ⟨rfl, rfl⟩
    · have hmarker : budget - byteLength (truncationMarker (byteLength text - budget)) = 0 := by
        by_contra hne
        exact h ⟨by omega, Nat.pos_of_ne_zero hne⟩
      refine .inr ?_
      rw [enforceCap, if_neg hbudget, if_neg hfits]
      exact if_pos hmarker

theorem truncationMarker_eq (n : Nat) : ∃ body, truncationMarker n = unit '\n' :: body ++ [unit '\n'] := by
  refine ⟨js "…[truncated " ++ js (toString n) ++ js " bytes]…", ?_⟩
  have hstart : js "\n…[truncated " = unit '\n' :: js "…[truncated " := by decide
  have hend : js " bytes]…\n" = js " bytes]…" ++ [unit '\n'] := by decide
  have hmarker : truncationMarker n = js ("\n…[truncated " ++ toString n ++ " bytes]…\n") := rfl
  rw [hmarker, js_append, js_append, hstart, hend]
  simp

theorem byteLength_append_break (s t : JsString) :
    byteLength (s ++ (unit '\n' :: t)) = byteLength s + byteLength (unit '\n' :: t) := by
  refine byteLength_append fun c hc => ?_
  obtain rfl := Option.some.inj hc
  decide

/-- The marker starts and ends with a line break, so it takes no part in a pair. -/
theorem byteLength_marked (s t : JsString) (n : Nat) :
    byteLength (s ++ truncationMarker n ++ t) = byteLength s + byteLength (truncationMarker n) + byteLength t := by
  obtain ⟨body, hbody⟩ := truncationMarker_eq n
  have hrest : byteLength (unit '\n' :: t) = 1 + byteLength t := byteLength_cons (by decide) t
  have hone : byteLength [unit '\n'] = 1 := by decide
  have hassoc : s ++ (unit '\n' :: body ++ [unit '\n']) ++ t = s ++ (unit '\n' :: body) ++ (unit '\n' :: t) := by
    simp
  rw [hbody, hassoc, byteLength_append_break, hrest, byteLength_append_break, byteLength_append_break, hone]
  omega

theorem newBudget_le : (enforceCap text budget).newBudget ≤ budget := by
  by_cases hcut : IsCut text budget
  · rw [enforceCap_cut hcut]
    exact Nat.zero_le budget
  · rcases enforceCap_whole hcut with ⟨-, -, hrest⟩ | hnotice
    · rw [hrest]
      exact Nat.sub_le _ _
    · rw [hnotice]
      exact Nat.zero_le budget

theorem byteLength_cut (h : IsCut text budget) :
    byteLength (enforceCap text budget).text + availableBytes text budget =
      byteLength (text.take (availableBytes text budget / 2)) +
        byteLength (sliceEnd text (availableBytes text budget / 2)) + budget := by
  have havailable := h.2
  rw [enforceCap_cut h, byteLength_marked]
  simp only [availableBytes] at havailable ⊢
  omega

/-- The text is kept, or the notice stands for it, or it is two separate ends of it around the marker. -/
def KeptParts (text : JsString) (budget : Nat) (content : JsString) : Prop :=
  content = text ∨ content = exhausted.text ∨ ∃ first second, first <+: text ∧ second <:+ text ∧
    first.length + second.length ≤ text.length ∧
    content = first ++ truncationMarker (byteLength text - budget) ++ second

theorem length_sliceEnd (n : Nat) : (sliceEnd text n).length =
    if n ≤ text.length then n else text.length - (2 * text.length - n) := by
  rw [sliceEnd, List.length_drop]
  split <;> omega

/-- The two slices do not overlap exactly when the text is long enough for both. -/
theorem keptParts_iff : KeptParts text budget (enforceCap text budget).text ↔
    (IsCut text budget → 2 * (availableBytes text budget / 2) ≤ text.length) := by
  by_cases hcut : IsCut text budget
  · have hpos : 0 < text.length := by
      refine List.length_pos_iff.mpr fun hnil => ?_
      have hlarge := hcut.1
      rw [hnil] at hlarge
      exact absurd hlarge (by simp [byteLength])
    rw [enforceCap_cut hcut]
    obtain ⟨body, hbody⟩ := truncationMarker_eq (byteLength text - budget)
    have hlength : (sliceEnd text (availableBytes text budget / 2)).length = _ := length_sliceEnd _
    generalize availableBytes text budget / 2 = half at hlength ⊢
    refine ⟨fun h _ => ?_, fun h => .inr (.inr ⟨_, _, text.take_prefix half, List.drop_suffix _ _, ?_, rfl⟩)⟩
    · rcases h with h | h | ⟨first, second, -, -, hapart, h⟩
      · have hlen := congrArg List.length h
        simp only [List.length_append, List.length_take, hlength, hbody, List.length_cons] at hlen
        split at hlen <;> omega
      · -- the notice has no line break
        have hmem : unit '\n' ∈ exhausted.text := by
          rw [← h, hbody]
          simp
        exact absurd hmem (by decide)
      · have hlen := congrArg List.length h
        simp only [List.length_append, List.length_take, hlength] at hlen
        split at hlen <;> omega
    · have hlen := h hcut
      change _ + (sliceEnd text half).length ≤ _
      rw [hlength, List.length_take]
      split <;> omega
  · refine iff_of_true ?_ fun h => absurd h hcut
    rcases enforceCap_whole hcut with ⟨-, htext, -⟩ | hnotice
    · exact .inl htext
    · exact .inr (.inl (by rw [hnotice]))

/-! ## What has been put out -/

/-- What a result puts out without an error. -/
def ToolResult.output? (result : ToolResult) : Option JsString := if result.isError then none else some result.content

def Stage.output? : Stage → Option JsString
  | .postToolUse _ result | .settled (.result result) => result.output?
  | _ => none

/-- The sum of `f` over what has been put out. -/
def Batch.outputSum (uses : List ToolUse) (f : JsString → Nat) (b : Batch) : Nat :=
  ∑ i ∈ Finset.range uses.length, ((b.stages i).output?.map f).getD 0

def Batch.outputBytes (uses : List ToolUse) (b : Batch) : Nat := b.outputSum uses byteLength

def Batch.outputCount (uses : List ToolUse) (b : Batch) : Nat := b.outputSum uses fun _ => 1

/-- The text of a tool that returns now, before the cap. -/
def Setup.produced (o : Setup) (uses : List ToolUse) (b : Batch) : Op → Option (Nat × JsString)
  | .call i (.execute run late filePath) =>
      match b.phase, uses[i]?, b.stages i with
      | .executing, some _, .execute tool _ budgetHint =>
          (o.produceToolOutput tool run late filePath budgetHint).toOption.map fun text => (i, text)
      | _, _, _ => none
  | _ => none

variable {o : Setup} {uses : List ToolUse} {b b' : Batch} {op : Op} {i : Nat} {use : ToolUse} {tool : Tool}
  {input : Json} {st : Stage} {reply : Reply} {r : Resumed} {err : Thrown}

theorem outputSum_update (f : JsString → Nat) (hi : i < uses.length) (st : Stage) (b' : Batch)
    (hb : b'.stages = Function.update b.stages i st) :
    b'.outputSum uses f + ((b.stages i).output?.map f).getD 0 = b.outputSum uses f + (st.output?.map f).getD 0 := by
  have hmem : i ∈ Finset.range uses.length := Finset.mem_range.mpr hi
  have hrest : ∑ j ∈ (Finset.range uses.length).erase i, ((b'.stages j).output?.map f).getD 0 =
      ∑ j ∈ (Finset.range uses.length).erase i, ((b.stages j).output?.map f).getD 0 :=
    Finset.sum_congr rfl fun j hj => by rw [hb, Function.update_of_ne (Finset.ne_of_mem_erase hj)]
  have hnew := Finset.add_sum_erase (Finset.range uses.length) (fun j => ((b'.stages j).output?.map f).getD 0) hmem
  have hold := Finset.add_sum_erase (Finset.range uses.length) (fun j => ((b.stages j).output?.map f).getD 0) hmem
  simp only [hb, Function.update_self] at hnew
  unfold Batch.outputSum
  rw [← hb] at hnew
  omega

/-! ## Steps without an output -/

/-- The call goes on without an output, and spends no more than there is. -/
def Resumed.Quiet (r : Resumed) (budget : Nat) : Prop := r.stage.output? = none ∧ r.budget ≤ budget

theorem settle_quiet {result : ToolResult} (h : result.isError = true) : (settle budget result).Quiet budget := by
  refine ⟨?_, Nat.sub_le _ _⟩
  simp [settle, Stage.output?, ToolResult.output?, h]

theorem safeRunCatch_quiet : (o.safeRunCatch use budget err).Quiet budget := settle_quiet rfl

theorem runOneCatch_quiet : (o.runOneCatch use tool budget err).Quiet budget := by
  cases err with
  | bare message => exact settle_quiet rfl
  | structured message description => exact safeRunCatch_quiet

theorem begin_quiet : (o.begin use budget).Quiet budget := by
  unfold Setup.begin
  split
  · exact settle_quiet rfl
  · split
    · split
      · exact settle_quiet rfl
      · exact ⟨rfl, le_rfl⟩
    · exact settle_quiet rfl

theorem crossFields_quiet : (o.crossFields i use tool input budget).Quiet budget := by
  unfold Setup.crossFields
  split
  · exact ⟨rfl, le_rfl⟩
  · split
    · exact ⟨rfl, le_rfl⟩
    · exact settle_quiet rfl
    · exact safeRunCatch_quiet

theorem afterHook_quiet {pre : PreToolUseResult} : (o.afterHook i use tool pre budget).Quiet budget := by
  unfold Setup.afterHook
  split
  · exact settle_quiet rfl
  · split
    · exact crossFields_quiet
    · split
      · exact crossFields_quiet
      · split
        · exact crossFields_quiet
        · exact settle_quiet rfl

theorem execute_quiet {signal : Option Thrown} : (o.execute i use tool input signal budget).Quiet budget := by
  cases signal with
  | some err => exact runOneCatch_quiet
  | none => exact ⟨rfl, le_rfl⟩

theorem afterEvaluate_quiet {decision : PermissionDecision} {yolo : Bool} {signal : Option Thrown} :
    (o.afterEvaluate i use tool input decision yolo signal budget).Quiet budget := by
  unfold Setup.afterEvaluate
  split
  · exact settle_quiet rfl
  · split
    · exact ⟨rfl, le_rfl⟩
    · exact ⟨rfl, le_rfl⟩
  · exact execute_quiet

theorem afterConfirm_quiet {choice : Choice} {signal : Option Thrown} :
    (o.afterConfirm i use tool input choice signal budget).Quiet budget := by
  unfold Setup.afterConfirm
  split
  · exact execute_quiet
  · exact settle_quiet rfl

/-- No hook answers after a tool. -/
def NoPostToolUse (op : Op) : Prop := ∀ i outcome, op = .call i (.postToolUse outcome) → outcome = .ok none

/-- A call that goes on puts nothing out, unless its tool returns. -/
theorem resume_quiet (h : o.resume i use budget st reply = some r)
    (hhook : ∀ outcome, reply = .postToolUse outcome → outcome = .ok none)
    (hproduced : ∀ tool input hint run late filePath text, st = .execute tool input hint →
      reply = .execute run late filePath → o.produceToolOutput tool run late filePath hint ≠ .ok text) :
    r.stage.output? = st.output? ∧ r.budget ≤ budget := by
  unfold Setup.resume at h
  split at h
  · obtain rfl := Option.some.inj h
    exact begin_quiet
  · obtain rfl := Option.some.inj h
    split
    · exact afterHook_quiet
    · exact safeRunCatch_quiet
  · obtain rfl := Option.some.inj h
    split
    · exact afterEvaluate_quiet
    · exact safeRunCatch_quiet
  · obtain rfl := Option.some.inj h
    split
    · exact afterConfirm_quiet
    · exact safeRunCatch_quiet
  · rename_i tool input hint run late filePath
    obtain rfl := Option.some.inj h
    cases hout : o.produceToolOutput tool run late filePath hint with
    | ok text => exact absurd hout (hproduced tool input hint run late filePath text rfl rfl)
    | error err =>
        have hquiet : (o.runOneCatch use tool budget err).Quiet budget := runOneCatch_quiet
        rw [Setup.afterExecute]
        exact hquiet
  · rename_i tool result outcome
    obtain rfl := hhook outcome rfl
    obtain rfl := Option.some.inj h
    exact ⟨rfl, le_rfl⟩
  · cases h

theorem step_quiet (hhook : NoPostToolUse op) (hproduced : o.produced uses b op = none) :
    (∀ f, (o.step uses b op).outputSum uses f = b.outputSum uses f) ∧ (o.step uses b op).budget ≤ b.budget := by
  rcases step_cases o uses b op with heq | hs
  · rw [heq]
    exact ⟨fun f => rfl, le_rfl⟩
  · generalize o.step uses b op = b' at hs
    cases hs with
    | call hphase huse hbegin hr =>
        rename_i i use reply r
        have hi : i < uses.length := (List.getElem?_eq_some_iff.mp huse).1
        have hquiet := resume_quiet hr (fun outcome hreply => hhook i outcome (by rw [hreply])) (by
          rintro tool input hint run late filePath text hst rfl hout
          simp [Setup.produced, hphase, huse, hst, hout, Except.toOption] at hproduced)
        refine ⟨fun f => ?_, hquiet.2⟩
        have hsum := outputSum_update f hi r.stage
          { b with stages := Function.update b.stages i r.stage, budget := r.budget, log := b.log ++ r.events } rfl
        rw [hquiet.1] at hsum
        exact Nat.add_right_cancel hsum
    | _ => exact ⟨fun f => rfl, le_rfl⟩

/-- A tool that returns puts out what the cap makes of its text. -/
theorem step_produces {text : JsString} (h : o.produced uses b op = some (i, text)) :
    ((o.step uses b op).stages i).output? = some (enforceCap text b.budget).text ∧
      (o.step uses b op).budget = (enforceCap text b.budget).newBudget ∧
      ∀ f, (o.step uses b op).outputSum uses f = b.outputSum uses f + f (enforceCap text b.budget).text := by
  unfold Setup.produced at h
  split at h
  · rename_i j run late filePath
    split at h
    · rename_i use tool input hint hphase huse hst
      obtain ⟨text', hout, heq⟩ := Option.map_eq_some_iff.mp h
      obtain ⟨rfl, rfl⟩ := Prod.mk.inj heq
      have hj : j < uses.length := (List.getElem?_eq_some_iff.mp huse).1
      have hok : o.produceToolOutput tool run late filePath hint = .ok text' := by
        cases hres : o.produceToolOutput tool run late filePath hint with
        | ok text => rw [hres] at hout; exact congrArg _ (Option.some.inj hout)
        | error err => rw [hres] at hout; cases hout
      have hle : (enforceCap text' b.budget).newBudget ≤ b.budget := newBudget_le
      have hstep : o.step uses b (.call j (.execute run late filePath)) =
          { b with
            stages := Function.update b.stages j (.postToolUse tool (settleToolOutput tool use text' b.budget).1)
            budget := (enforceCap text' b.budget).newBudget
            log := b.log ++ [.finished j] } := by
        simp only [Setup.step, Setup.step?, hphase, huse, hst, Setup.call, Setup.resume, Setup.afterExecute, hok,
          Option.map_some, Option.getD_some, settleToolOutput, Nat.sub_sub_self hle]
      have hsum := fun f => outputSum_update f hj (.postToolUse tool (settleToolOutput tool use text' b.budget).1)
        (o.step uses b (.call j (.execute run late filePath))) (by rw [hstep])
      refine ⟨?_, ?_, fun f => ?_⟩
      · rw [hstep]
        simp [Stage.output?, ToolResult.output?, settleToolOutput]
      · rw [hstep]
      · have hone := hsum f
        rw [hst] at hone
        simpa [Stage.output?, ToolResult.output?, settleToolOutput] using hone
    · cases h
  · cases h

/-! ## A run -/

/-- What the cap lets through. -/
def WithinCap (o : Setup) (uses : List ToolUse) (b : Batch) : Prop :=
  b.outputBytes uses ≤ o.perIterationOutputCapBytes + byteLength exhausted.text * b.outputCount uses

/-- As long as some of the budget is left, it and what has been put out are within the cap. -/
def Spare (o : Setup) (uses : List ToolUse) (b : Batch) : Prop :=
  0 < b.budget → b.outputBytes uses + b.budget ≤ o.perIterationOutputCapBytes

/-- A cut is made of two slices that do not overlap, and these have no more bytes than the budget leaves for them,
errors have cost, and the notices of the results so far would have. -/
def CutFits (o : Setup) (uses : List ToolUse) (b : Batch) (op : Op) : Prop :=
  ∀ i text, o.produced uses b op = some (i, text) → IsCut text b.budget →
    2 * (availableBytes text b.budget / 2) ≤ text.length ∧
    byteLength (text.take (availableBytes text b.budget / 2)) +
      byteLength (sliceEnd text (availableBytes text b.budget / 2)) ≤
        availableBytes text b.budget + (o.perIterationOutputCapBytes - b.budget - b.outputBytes uses) +
          byteLength exhausted.text * (b.outputCount uses + 1)

theorem spare_step (h : Spare o uses b) (hhook : NoPostToolUse op) : Spare o uses (o.step uses b op) := by
  intro hpos
  cases hproduced : o.produced uses b op with
  | none =>
      obtain ⟨hsum, hle⟩ := step_quiet hhook hproduced
      have hbytes : (o.step uses b op).outputBytes uses = b.outputBytes uses := hsum byteLength
      have := h (by omega)
      omega
  | some p =>
      obtain ⟨i, text⟩ := p
      obtain ⟨-, hbudget, hsum⟩ := step_produces hproduced
      have hbytes : (o.step uses b op).outputBytes uses = b.outputBytes uses + _ := hsum byteLength
      by_cases hcut : IsCut text b.budget
      · rw [enforceCap_cut hcut] at hbudget
        exact absurd hpos (by rw [hbudget]; exact Nat.lt_irrefl 0)
      · rcases enforceCap_whole hcut with ⟨hfits, htext, hrest⟩ | hnotice
        · rw [htext] at hbytes
          have := h (by omega)
          omega
        · rw [hnotice] at hbudget
          exact absurd hpos (by rw [hbudget]; exact Nat.lt_irrefl 0)

/-- A step that puts something out keeps to the cap exactly when a cut fits. -/
theorem capped_step_iff {text : JsString} (hspare : Spare o uses b) (h : o.produced uses b op = some (i, text))
    (hcut : IsCut text b.budget) : WithinCap o uses (o.step uses b op) ↔
      byteLength (text.take (availableBytes text b.budget / 2)) +
        byteLength (sliceEnd text (availableBytes text b.budget / 2)) ≤
          availableBytes text b.budget + (o.perIterationOutputCapBytes - b.budget - b.outputBytes uses) +
            byteLength exhausted.text * (b.outputCount uses + 1) := by
  obtain ⟨-, -, hsum⟩ := step_produces h
  have hbytes : (o.step uses b op).outputBytes uses = b.outputBytes uses + _ := hsum byteLength
  have hcount : (o.step uses b op).outputCount uses = b.outputCount uses + 1 := hsum _
  have hslices := byteLength_cut hcut
  have hroom := hspare (Nat.pos_of_ne_zero fun hzero => by
    have := hcut.2
    rw [hzero] at this
    simp [availableBytes] at this)
  have havailable : availableBytes text b.budget ≤ b.budget := Nat.sub_le _ _
  unfold WithinCap
  rw [hbytes, hcount]
  omega

theorem capped_step (hspare : Spare o uses b) (h : WithinCap o uses b) (hhook : NoPostToolUse op)
    (hfits : CutFits o uses b op) : WithinCap o uses (o.step uses b op) := by
  cases hproduced : o.produced uses b op with
  | none =>
      obtain ⟨hsum, -⟩ := step_quiet hhook hproduced
      have hbytes : (o.step uses b op).outputBytes uses = b.outputBytes uses := hsum byteLength
      have hcount : (o.step uses b op).outputCount uses = b.outputCount uses := hsum _
      unfold WithinCap
      rw [hbytes, hcount]
      exact h
  | some p =>
      obtain ⟨i, text⟩ := p
      by_cases hcut : IsCut text b.budget
      · exact (capped_step_iff hspare hproduced hcut).mpr (hfits i text hproduced hcut).2
      · obtain ⟨-, -, hsum⟩ := step_produces hproduced
        have hbytes : (o.step uses b op).outputBytes uses = b.outputBytes uses + _ := hsum byteLength
        have hcount : (o.step uses b op).outputCount uses = b.outputCount uses + 1 := hsum _
        unfold WithinCap at h ⊢
        rw [hbytes, hcount, Nat.mul_add]
        rcases enforceCap_whole hcut with ⟨hle, htext, -⟩ | hnotice
        · rw [htext]
          rcases Nat.eq_zero_or_pos b.budget with hzero | hpos
          · omega
          · have := hspare hpos
            omega
        · rw [hnotice]
          omega

/-- Once the cap is exceeded with nothing left, it stays exceeded: only notices follow. -/
theorem exceeded_step (h : b.budget = 0 ∧ ¬ WithinCap o uses b) (hhook : NoPostToolUse op) :
    (o.step uses b op).budget = 0 ∧ ¬ WithinCap o uses (o.step uses b op) := by
  obtain ⟨hzero, hover⟩ := h
  cases hproduced : o.produced uses b op with
  | none =>
      obtain ⟨hsum, hle⟩ := step_quiet hhook hproduced
      have hbytes : (o.step uses b op).outputBytes uses = b.outputBytes uses := hsum byteLength
      have hcount : (o.step uses b op).outputCount uses = b.outputCount uses := hsum _
      refine ⟨by omega, ?_⟩
      unfold WithinCap
      rw [hbytes, hcount]
      exact hover
  | some p =>
      obtain ⟨i, text⟩ := p
      obtain ⟨-, hbudget, hsum⟩ := step_produces hproduced
      have hbytes : (o.step uses b op).outputBytes uses = b.outputBytes uses + _ := hsum byteLength
      have hcount : (o.step uses b op).outputCount uses = b.outputCount uses + 1 := hsum _
      have hnotice : enforceCap text b.budget = exhausted := by rw [enforceCap, if_pos hzero]
      rw [hnotice] at hbudget hbytes
      refine ⟨hbudget, ?_⟩
      unfold WithinCap at hover ⊢
      rw [hbytes, hcount, Nat.mul_add]
      omega

end WrongStack.Tools

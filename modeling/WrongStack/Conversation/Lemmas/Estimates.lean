import Mathlib.Algebra.Order.BigOperators.Group.List
import Mathlib.Algebra.Order.Ring.Nat
import WrongStack.Conversation.Lemmas.Repair
import WrongStack.Conversation.State

/-!
# Cached estimates

When a message carries the estimate of its own content, and what elision and repair do to it: both
rewrite the content of a message and leave its estimate.
-/

namespace WrongStack.Conversation

open Lib

def CacheTrue (m : Message) : Prop := m.estTokens = some (computeMessageTokens m)

/-- The cached estimate, if there is one, is that of the content. -/
def Honest (m : Message) : Prop := m.estTokens = none ∨ CacheTrue m

def EstimatesTrue (ms : List Message) : Prop := ∀ m ∈ ms, CacheTrue m

def AllCached (ms : List Message) : Prop := ∀ m ∈ ms, m.estTokens ≠ none

def contentTokens (ms : List Message) : Nat := (ms.map computeMessageTokens).sum

instance (m : Message) : Decidable (CacheTrue m) := inferInstanceAs (Decidable (_ = _))

instance (m : Message) : Decidable (Honest m) := inferInstanceAs (Decidable (_ ∨ _))

instance (ms : List Message) : Decidable (EstimatesTrue ms) := inferInstanceAs (Decidable (∀ m ∈ ms, _))

instance (ms : List Message) : Decidable (AllCached ms) := inferInstanceAs (Decidable (∀ m ∈ ms, _))

theorem CacheTrue.honest {m : Message} (h : CacheTrue m) : Honest m := Or.inr h

theorem Honest.cacheTrue_iff {m : Message} (h : Honest m) : CacheTrue m ↔ m.estTokens ≠ none := by
  constructor
  · intro htrue hnone
    unfold CacheTrue at htrue
    rw [hnone] at htrue
    cases htrue
  · exact h.resolve_left

theorem estimatesTrue_iff_cached {ms : List Message} (h : ∀ m ∈ ms, Honest m) :
    EstimatesTrue ms ↔ AllCached ms :=
  forall₂_congr fun m hm => (h m hm).cacheTrue_iff

@[simp] theorem estimatesTrue_append {ms ns : List Message} :
    EstimatesTrue (ms ++ ns) ↔ EstimatesTrue ms ∧ EstimatesTrue ns := List.forall_mem_append

theorem cacheTrue_withEstimate {m : Message} : CacheTrue (withEstimate m) ↔ Honest m := by
  unfold withEstimate
  cases h : m.estTokens with
  | none => simp [Honest, h, CacheTrue, computeMessageTokens]
  | some n => simp [Honest, h]

theorem estimatesTrue_withEstimate {ms : List Message} :
    EstimatesTrue (ms.map withEstimate) ↔ ∀ m ∈ ms, Honest m := by
  simp only [EstimatesTrue, List.forall_mem_map, cacheTrue_withEstimate]

theorem estimateMessage_of_honest {m : Message} (h : Honest m) :
    estimateMessage m = computeMessageTokens m := by
  unfold estimateMessage
  rcases h with h | h
  · rw [h]
  · rw [show m.estTokens = _ from h]
    exact ite_self _

theorem estimateMessageTokens_of_honest {ms : List Message} (h : ∀ m ∈ ms, Honest m) :
    estimateMessageTokens ms = contentTokens ms := by
  unfold estimateMessageTokens contentTokens
  rw [List.map_congr_left fun m hm => estimateMessage_of_honest (h m hm)]

/-! ## Operations of the state -/

variable {s : State}

theorem estimatesTrue_appendMessage (h : ∀ m ∈ s.messages, Honest m) (m : Message) :
    EstimatesTrue (s.appendMessage m).messages ↔ AllCached s.messages ∧ Honest m := by
  simp only [State.appendMessage, estimatesTrue_append, estimatesTrue_iff_cached h]
  exact and_congr_right fun _ => List.forall_mem_singleton.trans cacheTrue_withEstimate

theorem cacheTrue_withBlock (last : Message) (block : ContentBlock) :
    CacheTrue (State.withBlock last block) := by
  unfold State.withBlock CacheTrue computeMessageTokens
  rfl

/-- The messages that folding a block leaves as they are. -/
def unfolded (ms : List Message) : List Message :=
  if ms.getLast?.any (·.role = .user) then ms.dropLast else ms

theorem estimatesTrue_appendBlock (h : ∀ m ∈ s.messages, Honest m) (block : ContentBlock) :
    EstimatesTrue ((s.appendBlockToLastUserMessage block).getD s).messages ↔
      AllCached (unfolded s.messages) := by
  unfold State.appendBlockToLastUserMessage unfolded
  cases hlast : s.messages.getLast? with
  | none => exact estimatesTrue_iff_cached h
  | some last =>
      by_cases hrole : last.role = .user
      · have hinit : ∀ m ∈ s.messages.dropLast, Honest m := fun m hm => h m (List.mem_of_mem_dropLast hm)
        have hblock : EstimatesTrue [State.withBlock last block] :=
          List.forall_mem_singleton.mpr (cacheTrue_withBlock last block)
        simp only [hrole, ↓reduceIte, Option.getD_some, estimatesTrue_append, hblock, and_true,
          Option.any_some, decide_true]
        exact estimatesTrue_iff_cached hinit
      · simp only [hrole, ↓reduceIte, Option.getD_none, Option.any_some, decide_false,
          Bool.false_eq_true]
        exact estimatesTrue_iff_cached h

/-! ## Elision -/

def oversized (eliseThreshold : Nat) (b : ContentBlock) : Bool :=
  (b.isToolUse || b.isToolResult) && eliseThreshold ≤ estimateBlockTokens b

/-- What elision puts in the place of an oversized block. -/
def marker : ContentBlock → ContentBlock
  | .toolUse id name input =>
      .toolUse id name (summarizeToolUseInputElision name input (estimateToolInputTokens input))
  | .toolResult toolUseId name content isError =>
      .toolResult toolUseId none
        (summarizeToolResultElision name content (estimateToolResultTokens content)) isError
  | b => b

/-- The oversized blocks of the message are as long, all together, as the markers for them. -/
def LevelElision (eliseThreshold : Nat) (m : Message) : Prop :=
  ((m.blocks.filter (oversized eliseThreshold)).map fun b => estimateBlockTokens (marker b)).sum =
    ((m.blocks.filter (oversized eliseThreshold)).map estimateBlockTokens).sum

instance (t : Nat) (m : Message) : Decidable (LevelElision t m) := inferInstanceAs (Decidable (_ = _))

theorem eliseBlock_eq (t : Nat) (b : ContentBlock) :
    (eliseBlock t b).map Prod.fst = if oversized t b then some (marker b) else none := by
  cases b with
  | text text => rfl
  | other block => rfl
  | toolUse id name input =>
      by_cases h : estimateToolInputTokens input < t
      · simp [eliseBlock, oversized, estimateBlockTokens, h, Nat.not_le.mpr h]
      · simp [eliseBlock, oversized, estimateBlockTokens, h, ContentBlock.isToolUse,
          ContentBlock.toolUseId?, marker, not_lt.mp h]
  | toolResult id name content isError =>
      by_cases h : estimateToolResultTokens content < t
      · simp [eliseBlock, oversized, estimateBlockTokens, h, Nat.not_le.mpr h]
      · simp [eliseBlock, oversized, estimateBlockTokens, h, ContentBlock.isToolResult,
          ContentBlock.toolResultId?, marker, not_lt.mp h]

theorem eliseBlock_isSome (t : Nat) (b : ContentBlock) : (eliseBlock t b).isSome = oversized t b := by
  have h := congrArg Option.isSome (eliseBlock_eq t b)
  rw [Option.isSome_map] at h
  rw [h]
  cases oversized t b <;> rfl

theorem eliseBlocks_eq (t : Nat) (bs : List ContentBlock) :
    eliseBlocks t bs = bs.map fun b => if oversized t b then marker b else b := by
  refine List.map_congr_left fun b _ => ?_
  rw [eliseBlock_eq]
  cases oversized t b <;> rfl

/-- Elision changes the content tokens by what the markers differ from the blocks they replace. -/
theorem sum_eliseBlocks (t : Nat) (bs : List ContentBlock) :
    ((eliseBlocks t bs).map estimateBlockTokens).sum +
        ((bs.filter (oversized t)).map estimateBlockTokens).sum =
      (bs.map estimateBlockTokens).sum +
        ((bs.filter (oversized t)).map fun b => estimateBlockTokens (marker b)).sum := by
  rw [eliseBlocks_eq]
  induction bs with
  | nil => rfl
  | cons b bs ih =>
      cases h : oversized t b with
      | false =>
          simp only [List.map_cons, List.sum_cons, List.filter_cons, h, Bool.false_eq_true,
            ↓reduceIte] at ih ⊢
          omega
      | true =>
          simp only [List.map_cons, List.sum_cons, List.filter_cons, h, ↓reduceIte] at ih ⊢
          omega

theorem eliseMessage_estTokens (t : Nat) (m : Message) : (eliseMessage t m).estTokens = m.estTokens := by
  unfold eliseMessage
  cases m.content with
  | text s => rfl
  | blocks bs =>
      simp only
      split <;> rfl

theorem computeMessageTokens_elise (t : Nat) (m : Message) :
    computeMessageTokens (eliseMessage t m) = computeMessageTokens m ↔ LevelElision t m := by
  unfold eliseMessage LevelElision Message.blocks computeMessageTokens
  cases hc : m.content with
  | text s => simp [hc]
  | blocks bs =>
      have hsum := sum_eliseBlocks t bs
      have hany : (bs.any fun b => (eliseBlock t b).isSome) = bs.any (oversized t) :=
        List.any_congr rfl (eliseBlock_isSome t)
      simp only [hany]
      cases hover : bs.any (oversized t) with
      | true =>
          simp only [↓reduceIte, computeContentTokens]
          omega
      | false =>
          have hnil : bs.filter (oversized t) = [] :=
            List.filter_eq_nil_iff.mpr (List.any_eq_false.mp hover)
          simp [hnil, hc]

theorem honest_eliseMessage {m : Message} (h : Honest m) (t : Nat) :
    Honest (eliseMessage t m) ↔ m.estTokens = none ∨ LevelElision t m := by
  rw [← computeMessageTokens_elise, Honest, CacheTrue, eliseMessage_estTokens]
  refine or_congr_right' fun hcached => ?_
  have htrue : m.estTokens = some (computeMessageTokens m) := h.cacheTrue_iff.mpr hcached
  rw [htrue]
  simp [eq_comm]

theorem honest_elise {ms : List Message} (h : ∀ m ∈ ms, Honest m) (preserveK t : Nat) :
    (∀ m ∈ (eliseOldToolResults ms preserveK t).messages, Honest m) ↔
      ∀ m ∈ ms.take (findPreserveStart ms preserveK), m.estTokens = none ∨ LevelElision t m := by
  simp only [eliseOldToolResults, List.forall_mem_append, List.forall_mem_map]
  constructor
  · rintro ⟨helided, -⟩ m hm
    exact (honest_eliseMessage (h m (List.mem_of_mem_take hm)) t).mp (helided m hm)
  · intro hlevel
    refine ⟨fun m hm => ?_, fun m hm => h m (List.mem_of_mem_drop hm)⟩
    exact (honest_eliseMessage (h m (List.mem_of_mem_take hm)) t).mpr (hlevel m hm)

/-! ## Repair -/

/-- Repair takes all blocks of the message, or none. -/
def AllOrNone (w : Window) : Prop :=
  (∀ b ∈ w.2.1.blocks, survives w.1 w.2.1 w.2.2 b = true) ∨
    ∀ b ∈ w.2.1.blocks, survives w.1 w.2.1 w.2.2 b = false

instance (w : Window) : Decidable (AllOrNone w) := inferInstanceAs (Decidable (_ ∨ _))

theorem estimateBlockTokens_pos (b : ContentBlock) : 0 < estimateBlockTokens b := by
  cases b <;> exact Nat.lt_of_lt_of_le Nat.one_pos (Nat.le_max_left _ _)

theorem sum_filter_lt {bs : List ContentBlock} {p : ContentBlock → Bool} {b : ContentBlock}
    (hb : b ∈ bs) (hp : p b = false) :
    ((bs.filter p).map estimateBlockTokens).sum < (bs.map estimateBlockTokens).sum := by
  have hle : ∀ cs : List ContentBlock,
      ((cs.filter p).map estimateBlockTokens).sum ≤ (cs.map estimateBlockTokens).sum := fun cs =>
    (List.filter_sublist.map estimateBlockTokens).sum_le_sum fun _ _ => Nat.zero_le _
  obtain ⟨xs, ys, rfl⟩ := List.append_of_mem hb
  have hpos := estimateBlockTokens_pos b
  have hxs := hle xs
  have hys := hle ys
  simp only [List.filter_append, List.filter_cons, hp, Bool.false_eq_true, ↓reduceIte,
    List.map_append, List.sum_append, List.map_cons, List.sum_cons]
  omega

theorem mapContent_estTokens (m : Message) (f : List ContentBlock → List ContentBlock) :
    (mapContent m f).estTokens = m.estTokens := by
  unfold mapContent
  split <;> rfl

theorem computeMessageTokens_filter (m : Message) (p : ContentBlock → Bool) :
    computeMessageTokens (mapContent m fun bs => bs.filter p) = computeMessageTokens m ↔
      ∀ b ∈ m.blocks, p b = true := by
  constructor
  · intro h b hb
    by_contra hp
    simp only [Bool.not_eq_true] at hp
    unfold Message.blocks at hb
    cases hc : m.content with
    | text s =>
        rw [hc] at hb
        cases hb
    | blocks bs =>
        rw [hc] at hb
        simp only [mapContent, hc, computeMessageTokens, computeContentTokens] at h
        exact absurd h (Nat.ne_of_lt (sum_filter_lt hb hp))
  · intro h
    rw [mapContent_eq_self h]

theorem honest_fixMessage {prev next : Option Message} {m : Message} (h : Honest m) :
    Honest (fixMessage prev m next) ↔
      m.estTokens = none ∨ ∀ b ∈ m.blocks, survives prev m next b = true := by
  rw [← computeMessageTokens_filter, ← fixMessage, Honest, CacheTrue]
  have hest : (fixMessage prev m next).estTokens = m.estTokens := mapContent_estTokens _ _
  rw [hest]
  refine or_congr_right' fun hcached => ?_
  have htrue : m.estTokens = some (computeMessageTokens m) := h.cacheTrue_iff.mpr hcached
  rw [htrue]
  simp [eq_comm]

theorem honest_survivor {w : Window} (h : Honest w.2.1) :
    (∀ m, survivor w = some m → Honest m) ↔ w.2.1.estTokens = none ∨ AllOrNone w := by
  unfold survivor
  cases hempty : isEmptyMessage (fixMessage w.1 w.2.1 w.2.2) with
  | true =>
      -- an emptied message lost every block
      simp only [↓reduceIte, reduceCtorEq, false_implies, implies_true, true_iff]
      refine Or.inr (Or.inr fun b hb => ?_)
      by_contra hs
      have hkept := isEmptyMessage_of_mem (mem_fixMessage.mpr ⟨hb, by simpa using hs⟩)
      rw [hempty] at hkept
      cases hkept
  | false =>
      simp only [Bool.false_eq_true, ↓reduceIte, Option.some.injEq, forall_eq', honest_fixMessage h]
      refine or_congr_right ⟨Or.inl, ?_⟩
      rintro (hall | hnone)
      · exact hall
      · -- a message that lost every block and is not empty had none
        intro b hb
        exfalso
        unfold isEmptyMessage fixMessage mapContent at hempty
        unfold Message.blocks at hb hnone
        cases hc : w.2.1.content with
        | text s =>
            rw [hc] at hb
            cases hb
        | blocks bs =>
            simp only [hc, List.isEmpty_eq_false_iff, ne_eq, List.filter_eq_nil_iff] at hempty hnone
            exact hempty fun b hb => by simp [hnone b hb]

theorem honest_repair {ms : List Message} (h : ∀ m ∈ ms, Honest m) :
    (∀ m ∈ (repairToolUseAdjacency ms).messages, Honest m) ↔
      ∀ w ∈ neighbours none ms, w.2.1.estTokens = none ∨ AllOrNone w := by
  rw [repairToolUseAdjacency_messages, repaired]
  simp only [List.mem_filterMap, forall_exists_index, and_imp]
  rw [forall_comm]
  refine forall_congr' fun w => ?_
  rw [forall_comm]
  refine forall_congr' fun hw => ?_
  exact honest_survivor (h _ (mem_of_mem_neighbours hw))

end WrongStack.Conversation

import WrongStack.Conversation.Compactors
import WrongStack.Conversation.Lemmas.Estimates

/-!
# What the two scans come to

The second scan replaces what the probe looks for, and nothing in front of the first find.
-/

namespace WrongStack.Conversation.Elision

open Lib

variable {t preserveK : JsNumber} {ms : List Message} {m : Message}

/-! ## Blocks -/

/-- The tokens that are counted as saved. -/
def saving : ContentBlock → Nat
  | .toolUse id name input =>
      estimateToolInputTokens input - estimateBlockTokens (marker (.toolUse id name input))
  | .toolResult _ _ content _ => estimateToolResultTokens content
  | _ => 0

def elideBlock (t : JsNumber) (b : ContentBlock) : ContentBlock := if oversized t b then marker b else b

def elideMessage (t : JsNumber) (m : Message) : Message := mapContent m (List.map (elideBlock t))

def hasOversized (t : JsNumber) (m : Message) : Bool := m.blocks.any (oversized t)

def savings (t : JsNumber) (bs : List ContentBlock) : Nat := ((bs.filter (oversized t)).map saving).sum

theorem savings_cons (b : ContentBlock) (bs : List ContentBlock) :
    savings t (b :: bs) = (if oversized t b then saving b else 0) + savings t bs := by
  unfold savings
  rw [List.filter_cons]
  split
  · rw [List.map_cons, List.sum_cons]
  · rw [Nat.zero_add]

theorem elideMessage_of_none (h : hasOversized t m = false) : elideMessage t m = m := by
  unfold hasOversized Message.blocks at h
  unfold elideMessage mapContent
  cases hc : m.content with
  | text s => rfl
  | blocks bs =>
      rw [hc] at h
      have hmap : bs.map (elideBlock t) = bs := map_replace_of_none h
      obtain ⟨role, content, est⟩ := m
      cases hc
      simp only [hmap]

theorem ite_elideMessage (m : Message) : (if hasOversized t m then elideMessage t m else m) = elideMessage t m := by
  split
  · rfl
  · rename_i h
    exact (elideMessage_of_none (Bool.not_eq_true _ ▸ h)).symm

/-- The loop over the blocks of a message, from the block `k` on. -/
theorem scanBlocks_spec (ht : t ≠ .nan) {original rest : List ContentBlock} {k : Nat}
    {copy : Option (List ContentBlock)} (saved : Nat) (hrest : original.drop k = rest)
    (hcopy : Tracks original (oversized t) marker k copy) :
    ∃ copy', scanBlocks t original rest k saved copy = (saved + savings t rest, copy') ∧
      Tracks original (oversized t) marker (k + rest.length) copy' := by
  induction rest generalizing k copy saved with
  | nil => exact ⟨copy, rfl, hcopy⟩
  | cons b rest ih =>
      have hb : original[k]? = some b := by
        rw [← Nat.add_zero k, ← List.getElem?_drop, hrest]
        rfl
      have hdrop : original.drop (k + 1) = rest := by
        rw [← List.drop_drop, hrest]
        rfl
      rw [List.length_cons, ← Nat.add_assoc, Nat.add_right_comm]
      have hkeep : oversized t b = false → ∃ copy', scanBlocks t original rest (k + 1) saved copy =
          (saved + savings t (b :: rest), copy') ∧ Tracks original (oversized t) marker (k + 1 + rest.length) copy' := by
        intro hsmall
        obtain ⟨copy', hscan, htracks⟩ := ih saved hdrop (hcopy.keep hb hsmall)
        refine ⟨copy', ?_, htracks⟩
        rw [hscan, savings_cons, hsmall, if_neg Bool.false_ne_true, Nat.zero_add]
      have hwrite : oversized t b = true → ∃ copy',
          scanBlocks t original rest (k + 1) (saved + saving b) (writeCopy original copy k (marker b)) =
            (saved + savings t (b :: rest), copy') ∧
          Tracks original (oversized t) marker (k + 1 + rest.length) copy' := by
        intro hbig
        obtain ⟨copy', hscan, htracks⟩ := ih (saved + saving b) hdrop (hcopy.write hb hbig)
        refine ⟨copy', ?_, htracks⟩
        rw [hscan, savings_cons, hbig, if_pos rfl, Nat.add_assoc]
      cases b with
      | text text => exact hkeep rfl
      | other block => exact hkeep rfl
      | toolUse id name input =>
          have hover : oversized t (.toolUse id name input) = !t.below (estimateToolInputTokens input) :=
            JsNumber.reaches_eq_not_below ht _
          cases hbelow : t.below (estimateToolInputTokens input) with
          | true =>
              simp only [scanBlocks, hbelow, ↓reduceIte]
              exact hkeep (by rw [hover, hbelow]; rfl)
          | false =>
              simp only [scanBlocks, hbelow, Bool.false_eq_true, ↓reduceIte]
              exact hwrite (by rw [hover, hbelow]; rfl)
      | toolResult id name content isError =>
          have hover : oversized t (.toolResult id name content isError) =
              !t.below (estimateToolResultTokens content) := JsNumber.reaches_eq_not_below ht _
          cases hbelow : t.below (estimateToolResultTokens content) with
          | true =>
              simp only [scanBlocks, hbelow, ↓reduceIte]
              exact hkeep (by rw [hover, hbelow]; rfl)
          | false =>
              simp only [scanBlocks, hbelow, Bool.false_eq_true, ↓reduceIte]
              exact hwrite (by rw [hover, hbelow]; rfl)

/-! ## Messages -/

/-- The scan has dealt with the messages before `k`. -/
structure Scanned (t : JsNumber) (ms : List Message) (k : Nat) (s : Scan) : Prop where
  next : Tracks ms (hasOversized t) (elideMessage t) k s.next
  changed : s.changed = s.next.isSome
  saved : s.saved = ((ms.take k).map fun m => savings t m.blocks).sum

theorem Scanned.step (ht : t ≠ .nan) {k : Nat} {s : Scan} (h : Scanned t ms k s) (hm : ms[k]? = some m) :
    Scanned t ms (k + 1) (scanMessage t ms s k) := by
  have hsum : ((ms.take (k + 1)).map fun m => savings t m.blocks).sum = s.saved + savings t m.blocks := by
    rw [List.take_add_one, hm, List.map_append, List.sum_append, h.saved]
    simp
  unfold scanMessage
  simp only [hm]
  cases hc : m.content with
  | text text =>
      have hnone : m.blocks = [] := by simp [Message.blocks, hc]
      have hsmall : hasOversized t m = false := by simp [hasOversized, hnone]
      refine ⟨h.next.keep hm hsmall, h.changed, ?_⟩
      rw [hsum, hnone]
      rfl
  | blocks original =>
      have hblocks : m.blocks = original := by simp [Message.blocks, hc]
      obtain ⟨copy, hscan, htracks⟩ := scanBlocks_spec ht s.saved (List.drop_zero (l := original))
        (Tracks.skip rfl)
      rw [Nat.zero_add] at htracks
      unfold Tracks at htracks
      rw [List.take_length, List.drop_length, List.append_nil] at htracks
      have hover : hasOversized t m = original.any (oversized t) := by rw [hasOversized, hblocks]
      simp only [hscan]
      cases hany : original.any (oversized t) with
      | false =>
          rw [hany, if_neg Bool.false_ne_true] at htracks
          subst htracks
          refine ⟨h.next.keep hm (hover.trans hany), h.changed, ?_⟩
          rw [hsum, hblocks]
      | true =>
          rw [hany, if_pos rfl] at htracks
          subst htracks
          refine ⟨?_, rfl, ?_⟩
          · have helided : elideMessage t m = { m with content := .blocks (original.map (elideBlock t)) } := by
              unfold elideMessage mapContent
              rw [hc]
            have hwrite := h.next.write hm (hover.trans hany)
            rw [helided] at hwrite
            exact hwrite
          · rw [hsum, hblocks]

theorem scanned_run (ht : t ≠ .nan) (n : Nat) {k : Nat} {s : Scan} (h : Scanned t ms k s) (hk : k + n ≤ ms.length) :
    Scanned t ms (k + n) ((List.range' k n).foldl (scanMessage t ms) s) := by
  induction n generalizing k s with
  | zero => exact h
  | succ n ih =>
      have hlt : k < ms.length := by omega
      rw [List.range'_succ, List.foldl_cons, ← Nat.add_assoc, Nat.add_right_comm]
      exact ih (h.step ht (List.getElem?_eq_getElem hlt)) (by omega)

/-! ## The window -/

theorem coverBack_le (rest : List Message) (pairCount preserveStart : Nat) (h : rest.length ≤ preserveStart) :
    coverBack preserveK rest pairCount preserveStart ≤ preserveStart := by
  induction rest generalizing pairCount preserveStart with
  | nil => exact Nat.le_refl _
  | cons m rest ih =>
      rw [List.length_cons] at h
      unfold coverBack
      split
      · split
        · exact (ih (pairCount + 1) rest.length (Nat.le_refl _)).trans (by omega)
        · exact ih pairCount preserveStart (by omega)
      · exact Nat.le_refl _

theorem widenStart_le (ms : List Message) (start : Nat) : widenStart ms start ≤ start := by
  induction start with
  | zero => exact Nat.le_refl _
  | succ n ih =>
      unfold widenStart
      split
      · split
        · exact ih.trans (Nat.le_succ n)
        · exact Nat.le_refl _
      · exact Nat.le_refl _

theorem findPreserveStart_le (ms : List Message) (preserveK : JsNumber) : findPreserveStart ms preserveK ≤ ms.length :=
  (widenStart_le ms _).trans (coverBack_le ms.reverse 0 ms.length (by rw [List.length_reverse]))

/-! ## The outcome -/

theorem oversized_nan (b : ContentBlock) : oversized .nan b = false := by
  cases b <;> rfl

/-- The messages before the preserved window. -/
def old (ms : List Message) (preserveK : JsNumber) : List Message := ms.take (findPreserveStart ms preserveK)

/-- What the pass over the old messages makes of the list. -/
def elided (t : JsNumber) (ms : List Message) (preserveK : JsNumber) : List Message :=
  (old ms preserveK).map (elideMessage t) ++ ms.drop (findPreserveStart ms preserveK)

theorem sum_savings_of_none (h : ms.any (hasOversized t) = false) : (ms.map fun m => savings t m.blocks).sum = 0 := by
  refine List.sum_eq_zero fun n hn => ?_
  obtain ⟨m, hm, rfl⟩ := List.mem_map.mp hn
  have hsmall := List.any_eq_false.mp h m hm
  have hfilter : m.blocks.filter (oversized t) = [] :=
    List.filter_eq_nil_iff.mpr (List.any_eq_false.mp (Bool.not_eq_true _ ▸ hsmall))
  rw [savings, hfilter]
  rfl

theorem Scanned.start {k : Nat} (h : (ms.take k).any (hasOversized t) = false) : Scanned t ms k {} :=
  ⟨Tracks.skip h, rfl, (sum_savings_of_none h).symm⟩

/-- A new array with the plain pass over the old messages if there is anything to replace, and the savings of all
oversized blocks. -/
theorem elise_eq (t : JsNumber) (ms : List Message) (preserveK : JsNumber) : eliseOldToolResults t ms preserveK =
    { fresh := if (old ms preserveK).any (hasOversized t) then some (elided t ms preserveK) else none
      saved := ((old ms preserveK).map fun m => savings t m.blocks).sum
      changed := (old ms preserveK).any (hasOversized t) } := by
  have hsame : (old ms preserveK).map (fun m => if hasOversized t m then elideMessage t m else m) =
      (old ms preserveK).map (elideMessage t) := List.map_congr_left fun m _ => ite_elideMessage m
  have hprobe : probe t ms (findPreserveStart ms preserveK) = (old ms preserveK).findIdx? (hasOversized t) := rfl
  simp only [eliseOldToolResults]
  cases hfirst : probe t ms (findPreserveStart ms preserveK) with
  | none =>
      have hany : (old ms preserveK).any (hasOversized t) = false := by
        rw [hprobe, List.findIdx?_eq_none_iff] at hfirst
        exact List.any_eq_false.mpr fun m hm => by simp [hfirst m hm]
      simp only [hany, sum_savings_of_none hany, Bool.false_eq_true, ↓reduceIte]
  | some first =>
      rw [hprobe, List.findIdx?_eq_some_iff_getElem] at hfirst
      obtain ⟨hlt, hbig, hsmall⟩ := hfirst
      have hany : (old ms preserveK).any (hasOversized t) = true := List.any_eq_true.mpr ⟨_, List.getElem_mem _, hbig⟩
      have hle := findPreserveStart_le ms preserveK
      have hfirst : first < findPreserveStart ms preserveK := by
        rw [old, List.length_take] at hlt
        omega
      have ht : t ≠ .nan := by
        rintro rfl
        obtain ⟨b, -, hb⟩ := List.any_eq_true.mp hbig
        rw [oversized_nan] at hb
        cases hb
      -- the scan starts at the first find, before which there is nothing to replace
      have hbefore : (ms.take first).any (hasOversized t) = false := by
        refine List.any_eq_false.mpr fun m hm => ?_
        obtain ⟨j, hj, rfl⟩ := List.getElem_of_mem hm
        rw [List.length_take] at hj
        have hj' := hsmall j (by omega)
        simp only [old, List.getElem_take] at hj'
        rw [List.getElem_take]
        exact hj'
      have hrun := scanned_run ht (findPreserveStart ms preserveK - first) (Scanned.start hbefore) (by omega)
      rw [Nat.add_sub_cancel' hfirst.le] at hrun
      obtain ⟨hnext, hchanged, hsaved⟩ := hrun
      unfold Tracks at hnext
      rw [show (ms.take (findPreserveStart ms preserveK)).any (hasOversized t) = true from hany, if_pos rfl] at hnext
      rw [hnext, Option.isSome_some] at hchanged
      simp only [Scan.outcome, hchanged, hnext, hsaved, hany, ↓reduceIte]
      rw [elided, ← hsame]
      rfl

theorem messages_elise (t : JsNumber) (ms : List Message) (preserveK : JsNumber) :
    (eliseOldToolResults t ms preserveK).messages ms = elided t ms preserveK := by
  rw [elise_eq]
  unfold EliseOutcome.messages
  cases hany : (old ms preserveK).any (hasOversized t) with
  | true => rfl
  | false =>
      have hsame : (old ms preserveK).map (elideMessage t) = old ms preserveK := by
        rw [← List.map_congr_left (fun m (_ : m ∈ old ms preserveK) => ite_elideMessage (t := t) m)]
        exact map_replace_of_none hany
      rw [elided, hsame]
      exact (List.take_append_drop _ ms).symm

/-! ## Natural options -/

theorem coverBack_natCast (k : Nat) (rest : List Message) (pairCount preserveStart : Nat) :
    coverBack (.finite k) rest pairCount preserveStart = coverFrom (k - pairCount) rest preserveStart := by
  induction rest generalizing pairCount preserveStart with
  | nil => cases k - pairCount <;> rfl
  | cons m rest ih =>
      unfold coverBack
      simp only [JsNumber.below_natCast]
      cases hk : k - pairCount with
      | zero =>
          rw [if_neg (by omega)]
          rfl
      | succ n => rw [if_pos (by omega), ih, ih, hk, coverFrom, show k - (pairCount + 1) = n by omega]

theorem oversized_natCast (t : Nat) (b : ContentBlock) : oversized (.finite t) b = Conversation.oversized t b := by
  rw [Bool.eq_iff_iff]
  cases b with
  | text text => exact Iff.rfl
  | other block => exact Iff.rfl
  | toolUse id name input => exact JsNumber.reaches_natCast.trans decide_eq_true_iff.symm
  | toolResult toolUseId name content isError => exact JsNumber.reaches_natCast.trans decide_eq_true_iff.symm

theorem elideMessage_natCast (t : Nat) (m : Message) : elideMessage (.finite t) m = eliseMessage t m := by
  have hany : ∀ bs : List ContentBlock, (bs.any fun b => (eliseBlock t b).isSome) = bs.any (oversized (.finite t)) :=
    fun bs => List.any_congr rfl fun b => by rw [eliseBlock_isSome, oversized_natCast]
  have hmap : ∀ bs : List ContentBlock, bs.map (elideBlock (.finite t)) = eliseBlocks t bs := by
    intro bs
    rw [eliseBlocks_eq]
    refine List.map_congr_left fun b _ => ?_
    rw [elideBlock, oversized_natCast]
  unfold elideMessage eliseMessage mapContent
  cases hc : m.content with
  | text s => rfl
  | blocks bs =>
      simp only [hany, hmap]
      cases hbig : bs.any (oversized (.finite t)) with
      | true => rfl
      | false =>
          have hsame : eliseBlocks t bs = bs := by
            rw [← hmap]
            exact map_replace_of_none hbig
          rw [hsame, if_neg Bool.false_ne_true, ← hc]

/-- For natural options the two scans do what the plain pass of `Compaction` does. -/
theorem elise_natCast (ms : List Message) (k t : Nat) : (eliseOldToolResults (.finite t) ms (.finite k)).messages ms =
    (Conversation.eliseOldToolResults ms k t).messages := by
  have hstart : findPreserveStart ms (.finite k) = Conversation.findPreserveStart ms k := by
    rw [findPreserveStart, coverBack_natCast]
    rfl
  rw [messages_elise, elided, old, hstart]
  simp only [Conversation.eliseOldToolResults]
  congr 1
  exact List.map_congr_left fun m _ => elideMessage_natCast t m

end WrongStack.Conversation.Elision

/-!
# What compaction counts as saved

The tokens of a conversation before and after, with what the count of the savings leaves out: the markers of elided
results, and what a replacement is longer than what it stands for.
-/

namespace WrongStack.Conversation.Hybrid

open Lib Elision

variable {t preserveK : JsNumber} {ms : List Message} {m : Message}

/-! ## Elision -/

/-- What is counted too much for an elided block. -/
def overcount : ContentBlock → Nat
  | .toolResult toolUseId name content isError =>
      estimateBlockTokens (marker (.toolResult toolUseId name content isError))
  | b => estimateBlockTokens (marker b) - estimateBlockTokens b

def overcounts (t : JsNumber) (bs : List ContentBlock) : Nat := ((bs.filter (Elision.oversized t)).map overcount).sum

theorem tokens_marker {b : ContentBlock} (h : Elision.oversized t b = true) :
    estimateBlockTokens b + overcount b = estimateBlockTokens (marker b) + saving b := by
  cases b with
  | text text => cases h
  | other block => cases h
  | toolUse id name input =>
      simp only [overcount, saving, estimateBlockTokens]
      omega
  | toolResult toolUseId name content isError => exact Nat.add_comm _ _

theorem tokens_elideBlocks (bs : List ContentBlock) :
    (bs.map estimateBlockTokens).sum + overcounts t bs =
      ((bs.map (elideBlock t)).map estimateBlockTokens).sum + savings t bs := by
  induction bs with
  | nil => rfl
  | cons b bs ih =>
      unfold overcounts savings at ih ⊢
      cases hb : Elision.oversized t b with
      | true =>
          have hmarker := tokens_marker hb
          simp only [List.filter_cons, hb, ↓reduceIte, List.map_cons, List.sum_cons, elideBlock] at ih ⊢
          omega
      | false =>
          simp only [List.filter_cons, hb, Bool.false_eq_true, ↓reduceIte, List.map_cons, List.sum_cons, elideBlock]
            at ih ⊢
          omega

theorem tokens_elideMessage (m : Message) :
    computeMessageTokens m + overcounts t m.blocks = computeMessageTokens (elideMessage t m) + savings t m.blocks := by
  unfold computeMessageTokens elideMessage mapContent Message.blocks
  cases hc : m.content with
  | text s =>
      simp only [hc]
      rfl
  | blocks bs => exact tokens_elideBlocks bs

theorem contentTokens_append (ms ns : List Message) : contentTokens (ms ++ ns) = contentTokens ms + contentTokens ns := by
  rw [contentTokens, List.map_append, List.sum_append]
  rfl

theorem contentTokens_cons (m : Message) (ms : List Message) :
    contentTokens (m :: ms) = computeMessageTokens m + contentTokens ms := rfl

theorem tokens_elideMessages (ms : List Message) :
    contentTokens ms + (ms.map fun m => overcounts t m.blocks).sum =
      contentTokens (ms.map (elideMessage t)) + (ms.map fun m => savings t m.blocks).sum := by
  induction ms with
  | nil => rfl
  | cons m ms ih =>
      have hm := tokens_elideMessage (t := t) m
      simp only [List.map_cons, List.sum_cons, contentTokens_cons] at ih ⊢
      omega

/-- What elision counts too much. -/
def eliseOvercount (t : JsNumber) (ms : List Message) (preserveK : JsNumber) : Nat :=
  ((old ms preserveK).map fun m => overcounts t m.blocks).sum

theorem tokens_elided (t : JsNumber) (ms : List Message) (preserveK : JsNumber) :
    contentTokens ms + eliseOvercount t ms preserveK =
      contentTokens (elided t ms preserveK) + (Elision.eliseOldToolResults t ms preserveK).saved := by
  have hold := tokens_elideMessages (t := t) (old ms preserveK)
  have hsplit : contentTokens ms =
      contentTokens (old ms preserveK) + contentTokens (ms.drop (Elision.findPreserveStart ms preserveK)) := by
    rw [← contentTokens_append, old, List.take_append_drop]
  rw [elise_eq, elided, contentTokens_append, hsplit]
  unfold eliseOvercount
  simp only
  omega

theorem overcount_eq_zero {b : ContentBlock} :
    overcount b = 0 ↔ b.isToolResult = false ∧ estimateBlockTokens (marker b) ≤ estimateBlockTokens b := by
  cases b with
  | toolResult toolUseId name content isError =>
      have hpos := estimateBlockTokens_pos (marker (.toolResult toolUseId name content isError))
      constructor
      · intro h
        exact absurd h (Nat.ne_of_gt hpos)
      · rintro ⟨h, -⟩
        cases h
  | text text => simp [overcount, marker, ContentBlock.isToolResult, ContentBlock.toolResultId?]
  | other block => simp [overcount, marker, ContentBlock.isToolResult, ContentBlock.toolResultId?]
  | toolUse id name input =>
      simp [overcount, ContentBlock.isToolResult, ContentBlock.toolResultId?, Nat.sub_eq_zero_iff_le]

theorem eliseOvercount_eq_zero : eliseOvercount t ms preserveK = 0 ↔
    ∀ m ∈ old ms preserveK, ∀ b ∈ m.blocks, Elision.oversized t b = true →
      b.isToolResult = false ∧ estimateBlockTokens (marker b) ≤ estimateBlockTokens b := by
  have hblocks : ∀ bs, overcounts t bs = 0 ↔ ∀ b ∈ bs, Elision.oversized t b = true → overcount b = 0 := by
    intro bs
    rw [overcounts, List.sum_eq_zero_iff, List.forall_mem_map, List.forall_mem_filter]
  rw [eliseOvercount, List.sum_eq_zero_iff, List.forall_mem_map]
  simp only [hblocks, overcount_eq_zero]

/-! ## The phases of the compactor -/

variable {c : Policy} {s : State}

theorem contentTokens_withEstimate (ms : List Message) : contentTokens (ms.map withEstimate) = contentTokens ms := by
  unfold contentTokens
  rw [List.map_map]
  congr 1
  refine List.map_congr_left fun m _ => ?_
  simp only [withEstimate, Function.comp_apply]
  cases m.estTokens <;> rfl

theorem estTokens_elideMessage (m : Message) : (elideMessage t m).estTokens = m.estTokens := mapContent_estTokens ..

theorem estTokens_elided (h : ∀ m ∈ ms, m.estTokens = none) : ∀ m ∈ elided t ms preserveK, m.estTokens = none := by
  intro m hm
  rcases List.mem_append.mp hm with hold | hlast
  · obtain ⟨x, hx, rfl⟩ := List.mem_map.mp hold
    rw [estTokens_elideMessage]
    exact h x (List.mem_of_mem_take hx)
  · exact h m (List.mem_of_mem_drop hlast)

theorem elise_messages (c : Policy) (s : State) : (elise c s).messages = elided c.eliseThreshold s.messages c.preserveK ∨
    (elise c s).messages = (elided c.eliseThreshold s.messages c.preserveK).map withEstimate := by
  unfold elise
  have hmessages := messages_elise c.eliseThreshold s.messages c.preserveK
  cases hchanged : (Elision.eliseOldToolResults c.eliseThreshold s.messages c.preserveK).changed with
  | true =>
      refine Or.inr ?_
      simp only [hchanged, ↓reduceIte, hmessages, State.replaceMessages]
  | false =>
      refine Or.inl ?_
      simp only [hchanged, Bool.false_eq_true, ↓reduceIte]
      rw [← hmessages]
      rw [elise_eq] at hchanged ⊢
      simp only at hchanged
      rw [hchanged]
      rfl

theorem honest_elise (h : ∀ m ∈ s.messages, m.estTokens = none) : ∀ m ∈ (elise c s).messages, Honest m := by
  intro m hm
  rcases elise_messages c s with heq | heq
  · rw [heq] at hm
    exact Or.inl (estTokens_elided h m hm)
  · rw [heq] at hm
    obtain ⟨x, hx, rfl⟩ := List.mem_map.mp hm
    exact Or.inr (cacheTrue_withEstimate.mpr (Or.inl (estTokens_elided h x hx)))

theorem contentTokens_elise (c : Policy) (s : State) :
    contentTokens (elise c s).messages = contentTokens (elided c.eliseThreshold s.messages c.preserveK) := by
  rcases elise_messages c s with heq | heq
  · rw [heq]
  · rw [heq, contentTokens_withEstimate]

/-! ## The boundary -/

/-- What a boundary is looked for by. -/
def opens (m : Message) : Bool := m.role = .user && m.hasTextContent

theorem boundary_congr {ms ns : List Message} (h : ms.map opens = ns.map opens) : boundary c ms = boundary c ns := by
  have hlength : ms.length = ns.length := by
    rw [← List.length_map (f := opens), h, List.length_map]
  have hfind : ∀ n, findBoundary ms n = findBoundary ns n := by
    intro n
    have hfactor : ∀ xs : List Message, findBoundary xs n = ((((xs.map opens).drop n).findIdx? id).map (n + ·)) := by
      intro xs
      rw [← List.map_drop, List.findIdx?_map]
      rfl
    rw [hfactor, hfactor, h]
  have htarget : ∀ k, cutTarget ms k = cutTarget ns k := by
    intro k
    cases k <;> simp only [cutTarget, hlength]
  have hfrom : ∀ k, boundaryFrom ms k = boundaryFrom ns k := by
    intro k
    cases k <;> simp only [boundaryFrom, hfind]
  unfold boundary
  simp only [htarget, hfrom]

theorem opens_withEstimate (m : Message) : opens (withEstimate m) = opens m := by
  unfold withEstimate
  split <;> rfl

theorem opens_elideMessage (m : Message) : opens (elideMessage t m) = opens m := by
  unfold opens elideMessage mapContent Message.hasTextContent
  cases hc : m.content with
  | text s => simp only [hc]
  | blocks bs =>
      simp only [List.any_map]
      congr 1
      refine List.any_congr rfl fun b => ?_
      simp only [Function.comp_apply, elideBlock]
      cases b with
      | text text => rfl
      | other block => rfl
      | toolUse id name input =>
          cases h : Elision.oversized t (.toolUse id name input) with
          | true => rw [if_pos rfl]; rfl
          | false => rw [if_neg Bool.false_ne_true]
      | toolResult toolUseId name content isError =>
          cases h : Elision.oversized t (.toolResult toolUseId name content isError) with
          | true => rw [if_pos rfl]; rfl
          | false => rw [if_neg Bool.false_ne_true]

theorem boundary_elise (c : Policy) (s : State) : boundary c (elise c s).messages = boundary c s.messages := by
  have helided : (elided c.eliseThreshold s.messages c.preserveK).map opens = s.messages.map opens := by
    unfold elided
    rw [List.map_append, List.map_map]
    have hold : (old s.messages c.preserveK).map (opens ∘ elideMessage c.eliseThreshold) =
        (old s.messages c.preserveK).map opens := List.map_congr_left fun m _ => opens_elideMessage m
    rw [hold, ← List.map_append, old, List.take_append_drop]
  refine boundary_congr ?_
  rcases elise_messages c s with heq | heq
  · rw [heq, helided]
  · rw [heq, List.map_map, ← helided]
    exact List.map_congr_left fun m _ => opens_withEstimate m

end WrongStack.Conversation.Hybrid

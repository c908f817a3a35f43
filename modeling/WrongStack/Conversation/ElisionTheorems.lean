import WrongStack.Conversation.Lemmas.Elision
import WrongStack.Conversation.Lemmas.Boundary

/-!
# Elision

What elision leaves of a conversation: its shape, its preserved window, and what the plain pass would make of the
rest.
-/

namespace WrongStack.Conversation.Elision

open Lib

variable {t preserveK : JsNumber} {ms : List Message} {m : Message}

/-! ## The shape -/

/-- The same block but for the input of a tool use, and for the name and the content of a result. -/
inductive SameBlock : ContentBlock → ContentBlock → Prop
  | refl (b : ContentBlock) : SameBlock b b
  | toolUse (id name : JsString) (input input' : List (JsString × Json)) :
      SameBlock (.toolUse id name input) (.toolUse id name input')
  | toolResult (toolUseId : JsString) (name name' : Option JsString) (content content' : JsString)
      (isError : Option Bool) :
      SameBlock (.toolResult toolUseId name content isError) (.toolResult toolUseId name' content' isError)

inductive SameContent : Content → Content → Prop
  | text (s : JsString) : SameContent (.text s) (.text s)
  | blocks {bs bs' : List ContentBlock} (h : List.Forall₂ SameBlock bs bs') : SameContent (.blocks bs) (.blocks bs')

structure SameShape (m m' : Message) : Prop where
  role : m'.role = m.role
  content : SameContent m.content m'.content

theorem SameContent.refl (c : Content) : SameContent c c := by
  cases c with
  | text s => exact .text s
  | blocks bs => exact .blocks (List.forall₂_same.mpr fun b _ => .refl b)

theorem SameShape.refl (m : Message) : SameShape m m := ⟨rfl, .refl m.content⟩

theorem sameBlock_elideBlock (b : ContentBlock) : SameBlock b (elideBlock t b) := by
  unfold elideBlock
  split
  · cases b with
    | text text => exact .refl _
    | other block => exact .refl _
    | toolUse id name input => exact .toolUse ..
    | toolResult toolUseId name content isError => exact .toolResult ..
  · exact .refl b

theorem sameShape_elideMessage (m : Message) : SameShape m (elideMessage t m) := by
  unfold elideMessage mapContent
  cases hc : m.content with
  | text s => exact .refl m
  | blocks bs =>
      refine ⟨rfl, ?_⟩
      rw [hc]
      refine .blocks ?_
      rw [List.forall₂_map_right_iff]
      exact List.forall₂_same.mpr fun b _ => sameBlock_elideBlock b

theorem sameShape_elided : List.Forall₂ SameShape ms (elided t ms preserveK) := by
  have hold : List.Forall₂ SameShape (old ms preserveK) ((old ms preserveK).map (elideMessage t)) := by
    rw [List.forall₂_map_right_iff]
    exact List.forall₂_same.mpr fun m _ => sameShape_elideMessage m
  have hlast : List.Forall₂ SameShape (ms.drop (findPreserveStart ms preserveK)) (ms.drop (findPreserveStart ms preserveK)) :=
    List.forall₂_same.mpr fun m _ => .refl m
  have h : List.Forall₂ SameShape (old ms preserveK ++ ms.drop (findPreserveStart ms preserveK)) (elided t ms preserveK) :=
    List.rel_append hold hlast
  rwa [old, List.take_append_drop] at h

/-! ## The plain pass -/

/-- Every oversized block of the messages in front of the preserved window replaced by its marker, one by one. -/
def plainPass (t : JsNumber) (messages : List Message) (preserveK : JsNumber) : List Message :=
  messages.mapIdx fun i m => if i < findPreserveStart messages preserveK then elideMessage t m else m

theorem elided_eq_plainPass : elided t ms preserveK = plainPass t ms preserveK := by
  have hle := findPreserveStart_le ms preserveK
  refine List.ext_getElem ?_ fun i hi hi' => ?_
  · simp [elided, plainPass, old, hle]
  · simp only [elided, plainPass, old, List.getElem_mapIdx]
    split
    · rename_i hlt
      rw [List.getElem_append_left (by simp only [List.length_map, List.length_take]; omega), List.getElem_map,
        List.getElem_take]
    · rename_i hge
      rw [List.getElem_append_right (by simp only [List.length_map, List.length_take]; omega), List.getElem_drop]
      congr 1
      simp only [List.length_map, List.length_take]
      omega

theorem any_hasOversized_eq_false {ms : List Message} :
    ms.any (hasOversized t) = false ↔ ∀ m ∈ ms, ∀ b ∈ m.blocks, oversized t b = false := by
  simp only [List.any_eq_false, hasOversized, List.any_eq_true, not_exists, not_and, Bool.not_eq_true]

/-! ## Tool adjacency -/

/-- A message with results answers the one right before it. -/
theorem Paired.before (h : Paired ms) {i : Nat} (hm : ms[i]? = some m) {id : JsString}
    (hid : id ∈ m.blocks.filterMap ContentBlock.toolResultId?) :
    ∃ j prev, j + 1 = i ∧ ms[j]? = some prev ∧ prev.role = .assistant ∧
      id ∈ prev.blocks.filterMap ContentBlock.toolUseId? := by
  obtain ⟨v, hv, hrole, huse⟩ := (((paired_iff ms).mp h).1.fits hm).2 id hid
  cases i with
  | zero => cases hv
  | succ j =>
      have hlt : j < ms.length := by
        have := (List.getElem?_eq_some_iff.mp hm).1
        omega
      have hlast : lastView (ms.take (j + 1)) = some (toolView ms[j]) := by
        rw [lastView, List.take_add_one, List.getElem?_eq_getElem hlt, Option.toList_some, List.getLast?_concat]
        rfl
      rw [hlast] at hv
      cases hv
      exact ⟨j, ms[j], rfl, List.getElem?_eq_getElem hlt, hrole, huse⟩

theorem blocks_of_mem {f : ContentBlock → Option JsString} {id : JsString} (h : id ∈ m.blocks.filterMap f) :
    m.content = .blocks m.blocks := by
  unfold Message.blocks at h ⊢
  cases hc : m.content with
  | text s =>
      rw [hc] at h
      cases h
  | blocks bs => rfl

theorem exists_toolResult (h : hasToolResult m = true) : ∃ id, id ∈ m.blocks.filterMap ContentBlock.toolResultId? := by
  refine List.exists_mem_of_ne_nil _ fun hnil => ?_
  rw [toolResults_eq_nil.mp hnil] at h
  cases h

/-- A window that starts on results is widened by the message before it. -/
theorem widenStart_succ (h : Paired ms) {n : Nat} (hm : ms[n + 1]? = some m) (hres : hasToolResult m = true) :
    widenStart ms (n + 1) = widenStart ms n := by
  obtain ⟨id, hid⟩ := exists_toolResult hres
  obtain ⟨j, prev, hj, hprev, hassistant, huse⟩ := Paired.before h hm hid
  cases hj
  obtain ⟨c, hc, hcid⟩ := List.mem_filterMap.mp hid
  have huser : m.role = .user := Paired.role_of_result h (List.mem_of_getElem? hm) hc hcid
  have hmatch : hasMatchingToolPair m.blocks prev.blocks = true :=
    List.any_eq_true.mpr ⟨id, huse, List.contains_iff_mem.mpr hid⟩
  have hresults := blocks_of_mem hid
  have huses := blocks_of_mem huse
  obtain ⟨role, content, est⟩ := m
  obtain ⟨role', content', est'⟩ := prev
  simp only at huser hassistant hresults huses
  subst huser hassistant
  rw [hresults] at hm
  rw [huses] at hprev
  rw [widenStart, hm, hprev]
  exact if_pos hmatch

theorem widenStart_cases (ms : List Message) (n : Nat) :
    widenStart ms (n + 1) = widenStart ms n ∨ widenStart ms (n + 1) = n + 1 := by
  rw [widenStart]
  split
  · split
    · exact Or.inl rfl
    · exact Or.inr rfl
  · exact Or.inr rfl

/-- The window does not start on results: they would have been taken in with the use they answer. -/
theorem hasToolResult_widenStart (h : Paired ms) (start : Nat) (hm : ms[widenStart ms start]? = some m) :
    hasToolResult m = false := by
  rw [← Bool.not_eq_true]
  intro hres
  induction start with
  | zero =>
      obtain ⟨id, hid⟩ := exists_toolResult hres
      obtain ⟨j, -, hj, -⟩ := Paired.before h hm hid
      cases hj
  | succ n ih =>
      rcases widenStart_cases ms n with hback | hstop
      · rw [hback] at hm
        exact ih hm
      · rw [hstop] at hm
        have hle := widenStart_le ms n
        rw [← widenStart_succ h hm hres, hstop] at hle
        omega

/-! ## The result -/

/-- Elision keeps the shape of the conversation and its preserved window, does what the plain pass does and makes no
array where that replaces nothing; in a conversation with tool adjacency the window starts on no results, and the
results in front of it are those of uses in front of it. -/
theorem elision_exact (t : JsNumber) (ms : List Message) (preserveK : JsNumber) :
    let start := findPreserveStart ms preserveK
    let o := eliseOldToolResults t ms preserveK
    List.Forall₂ SameShape ms (o.messages ms) ∧
      (∀ i, start ≤ i → (o.messages ms)[i]? = ms[i]?) ∧
      o.messages ms = plainPass t ms preserveK ∧
      (o.fresh = none ↔ ∀ m ∈ ms.take start, ∀ b ∈ m.blocks, oversized t b = false) ∧
      (Paired ms → (∀ m, ms[start]? = some m → hasToolResult m = false) ∧
        ∀ i < start, ∀ m, ms[i]? = some m → ∀ b ∈ m.blocks, ∀ id, b.toolResultId? = some id →
          ∃ j, j + 1 = i ∧ id ∈ toolUseIds ms[j]?) := by
  refine ⟨?_, ?_, ?_, ?_, ?_⟩
  · rw [messages_elise]
    exact sameShape_elided
  · intro i hi
    rw [messages_elise, elided, List.getElem?_append_right]
    · simp only [old, List.length_map, List.length_take, List.getElem?_drop]
      congr 1
      have := findPreserveStart_le ms preserveK
      omega
    · simp only [old, List.length_map, List.length_take]
      omega
  · rw [messages_elise, elided_eq_plainPass]
  · rw [elise_eq, ← any_hasOversized_eq_false, ← old]
    cases (old ms preserveK).any (hasOversized t) with
    | true => simp
    | false => simp
  · intro h
    refine ⟨fun m hm => hasToolResult_widenStart h _ hm, fun i hi m hm b hb id hid => ?_⟩
    obtain ⟨j, prev, hj, hprev, huse⟩ := Paired.before h hm (List.mem_filterMap.mpr ⟨b, hb, hid⟩)
    exact ⟨j, hj, mem_toolUseIds.mpr ⟨prev, hprev, huse.1, List.mem_filterMap.mp huse.2⟩⟩

/-- A tool that has been used, its answer and a word of the user. -/
def answered : List Message :=
  [{ role := .assistant, content := .blocks [.toolUse (js "a") (js "read") []] },
    { role := .user, content := .blocks [.toolResult (js "a") none (js "0123456789") none] },
    { role := .user, content := .text (js "go") }]

theorem elision_answered : (eliseOldToolResults (.finite 2) answered (.finite 1)).messages answered =
    plainPass (.finite 2) answered (.finite 1) ∧
      ∀ m, answered[findPreserveStart answered (.finite 1)]? = some m → hasToolResult m = false := by
  have h := elision_exact (.finite 2) answered (.finite 1)
  exact ⟨h.2.2.1, (h.2.2.2.2 (by decide)).1⟩

end WrongStack.Conversation.Elision

namespace WrongStack.Conversation.Hybrid

open Lib Elision

variable {c : Policy} {s : State} {aggressive : Bool} {evidence : JsString}

/-! ## What compaction reports -/

/-- What the collapse at `n` counts too much: the digest may be longer than what it stands for. -/
def collapseOvercount (c : Policy) (s : State) (evidence : JsString) (n : Nat) : Nat :=
  let removed := (elise c s).messages.take n
  computeMessageTokens (summaryMsg c removed evidence) - contentTokens removed

theorem contentTokens_collapse (h : ∀ m ∈ s.messages, m.estTokens = none) (evidence : JsString) :
    contentTokens (elise c s).messages + ((boundary c s.messages).map (collapseOvercount c s evidence)).getD 0 =
      contentTokens (collapseAncientTurns c (elise c s) evidence).1.messages +
        (collapseAncientTurns c (elise c s) evidence).2 := by
  unfold collapseAncientTurns
  rw [boundary_elise]
  cases boundary c s.messages with
  | none => rfl
  | some n =>
      have hremoved : ∀ m ∈ (elise c s).messages.take n, Honest m := fun m hm =>
        honest_elise h m (List.mem_of_mem_take hm)
      have hsummary : estimateMessageTokens [summaryMsg c ((elise c s).messages.take n) evidence] =
          computeMessageTokens (summaryMsg c ((elise c s).messages.take n) evidence) := rfl
      have hsplit : contentTokens (elise c s).messages =
          contentTokens ((elise c s).messages.take n) + contentTokens ((elise c s).messages.drop n) := by
        rw [← contentTokens_append, List.take_append_drop]
      simp only [State.replaceMessages, contentTokens_withEstimate, contentTokens_cons, hsummary,
        estimateMessageTokens_of_honest hremoved, hsplit, Option.map_some, Option.getD_some, collapseOvercount]
      omega

theorem sum_reductions (saved saved' : Nat) :
    ((reduction .elision saved ++ reduction .summary saved').map Reduction.saved).sum = saved + saved' := by
  have hone : ∀ phase n, ((reduction phase n).map Reduction.saved).sum = n := by
    intro phase n
    unfold reduction
    split
    · rfl
    · rename_i h
      exact (Nat.eq_zero_of_not_pos h).symm
  rw [List.map_append, List.sum_append, hone, hone]

/-- Before, with all that is counted too much, is after, with all that is counted. -/
theorem compact_tokens (h : ∀ m ∈ s.messages, m.estTokens = none)
    (hrepair : (compact c s aggressive evidence).2.repaired = none) :
    contentTokens s.messages + (eliseOvercount c.eliseThreshold s.messages c.preserveK +
        if aggressive then ((boundary c s.messages).map (collapseOvercount c s evidence)).getD 0 else 0) =
      contentTokens (compact c s aggressive evidence).1.messages +
        ((compact c s aggressive evidence).2.reductions.map Reduction.saved).sum := by
  have helise := tokens_elided c.eliseThreshold s.messages c.preserveK
  rw [← contentTokens_elise] at helise
  simp only [compact, State.repair] at hrepair ⊢
  rw [sum_reductions]
  cases aggressive with
  | false =>
      simp only [Bool.false_eq_true, ↓reduceIte] at hrepair ⊢
      split at hrepair
      · cases hrepair
      · rename_i hsame
        rw [if_neg hsame]
        omega
  | true =>
      simp only [↓reduceIte] at hrepair ⊢
      split at hrepair
      · cases hrepair
      · rename_i hsame
        rw [if_neg hsame]
        have hcollapse := contentTokens_collapse (c := c) h evidence
        omega

/-- The reductions sum up to the drop of the tokens exactly when elision replaces no result and no input that grows,
and the digest, if there is one, is not longer than what it stands for. The count of elision by itself is exact, where
no block grows, when no result is replaced. -/
theorem accounting_iff (c : Policy) (s : State) (aggressive : Bool) (evidence : JsString)
    (h : ∀ m ∈ s.messages, m.estTokens = none) (hrepair : (compact c s aggressive evidence).2.repaired = none) :
    ((((compact c s aggressive evidence).2.reductions.map Reduction.saved).sum : Int) =
        contentTokens s.messages - contentTokens (compact c s aggressive evidence).1.messages ↔
      (∀ m ∈ old s.messages c.preserveK, ∀ b ∈ m.blocks, Elision.oversized c.eliseThreshold b = true →
          b.isToolResult = false ∧ estimateBlockTokens (marker b) ≤ estimateBlockTokens b) ∧
        (aggressive = true → ∀ n, boundary c s.messages = some n →
          computeMessageTokens (summaryMsg c ((elise c s).messages.take n) evidence) ≤
            contentTokens ((elise c s).messages.take n))) ∧
    ((∀ m ∈ old s.messages c.preserveK, ∀ b ∈ m.blocks, Elision.oversized c.eliseThreshold b = true →
        estimateBlockTokens (marker b) ≤ estimateBlockTokens b) →
      (((Elision.eliseOldToolResults c.eliseThreshold s.messages c.preserveK).saved : Int) =
          estimateMessageTokens s.messages - estimateMessageTokens
            ((Elision.eliseOldToolResults c.eliseThreshold s.messages c.preserveK).messages s.messages) ↔
        ∀ m ∈ old s.messages c.preserveK, ∀ b ∈ m.blocks, Elision.oversized c.eliseThreshold b = true →
          b.isToolResult = false)) := by
  constructor
  · have htokens := compact_tokens h hrepair
    have hcollapse : (if aggressive then ((boundary c s.messages).map (collapseOvercount c s evidence)).getD 0 else 0) = 0 ↔
        (aggressive = true → ∀ n, boundary c s.messages = some n →
          computeMessageTokens (summaryMsg c ((elise c s).messages.take n) evidence) ≤
            contentTokens ((elise c s).messages.take n)) := by
      cases aggressive with
      | false => simp
      | true =>
          simp only [↓reduceIte, forall_const]
          cases boundary c s.messages with
          | none => simp
          | some n => simp [collapseOvercount, Nat.sub_eq_zero_iff_le]
    rw [← eliseOvercount_eq_zero, ← hcollapse]
    omega
  · intro hgrow
    have htokens := tokens_elided c.eliseThreshold s.messages c.preserveK
    have hbefore : estimateMessageTokens s.messages = contentTokens s.messages :=
      estimateMessageTokens_of_honest fun m hm => Or.inl (h m hm)
    have hafter : estimateMessageTokens (elided c.eliseThreshold s.messages c.preserveK) =
        contentTokens (elided c.eliseThreshold s.messages c.preserveK) :=
      estimateMessageTokens_of_honest fun m hm => Or.inl (estTokens_elided h m hm)
    rw [messages_elise, hbefore, hafter]
    have hzero : eliseOvercount c.eliseThreshold s.messages c.preserveK = 0 ↔
        ∀ m ∈ old s.messages c.preserveK, ∀ b ∈ m.blocks, Elision.oversized c.eliseThreshold b = true →
          b.isToolResult = false := by
      rw [eliseOvercount_eq_zero]
      exact forall₂_congr fun m hm => forall₂_congr fun b hb => forall_congr' fun hbig =>
        and_iff_left (hgrow m hm b hb hbig)
    rw [← hzero]
    omega

/-- A tool that has been used, its answer of forty characters, and a word of the user. -/
def answeredRead : State where
  messages :=
    [{ role := .assistant, content := .blocks [.toolUse (js "a") (js "read") []] },
      { role := .user, content := .blocks [.toolResult (js "a") none (js "0123456789012345678901234567890123456789") none] },
      { role := .user, content := .text (js "go") }]

/-- Blocks from ten tokens on are elided in front of the last message. -/
def tightPolicy : Policy where
  preserveK := .finite 1
  eliseThreshold := .finite 10

theorem accounting_answeredRead :
    (∀ m ∈ answeredRead.messages, m.estTokens = none) ∧
      (compact tightPolicy answeredRead false []).2.repaired = none ∧
      ((compact tightPolicy answeredRead false []).2.reductions.map Reduction.saved).sum = 12 ∧
      contentTokens answeredRead.messages - contentTokens (compact tightPolicy answeredRead false []).1.messages = 6 ∧
      (Elision.eliseOldToolResults tightPolicy.eliseThreshold answeredRead.messages tightPolicy.preserveK).saved = 12 ∧
      estimateMessageTokens answeredRead.messages = 14 ∧
      estimateMessageTokens ((Elision.eliseOldToolResults tightPolicy.eliseThreshold answeredRead.messages
        tightPolicy.preserveK).messages answeredRead.messages) = 8 ∧
      ∀ m ∈ old answeredRead.messages tightPolicy.preserveK, ∀ b ∈ m.blocks,
        Elision.oversized tightPolicy.eliseThreshold b = true →
          estimateBlockTokens (marker b) ≤ estimateBlockTokens b := by
  decide +kernel

/-- With a higher threshold nothing is elided and the report is exact. -/
theorem accounting_small : (((compact { tightPolicy with eliseThreshold := .finite 20 } answeredRead false
      []).2.reductions.map Reduction.saved).sum : Int) = contentTokens answeredRead.messages -
        contentTokens (compact { tightPolicy with eliseThreshold := .finite 20 } answeredRead false []).1.messages := by
  refine (accounting_iff { tightPolicy with eliseThreshold := .finite 20 } answeredRead false [] (by decide +kernel)
    (by decide +kernel)).1.mpr ⟨by decide +kernel, fun h => ?_⟩
  cases h

/-! ## The next request -/

theorem toolView_elideMessage (t : JsNumber) (m : Message) : toolView (elideMessage t m) = toolView m := by
  have hids : ∀ b, (elideBlock t b).toolUseId? = b.toolUseId? ∧ (elideBlock t b).toolResultId? = b.toolResultId? := by
    intro b
    unfold elideBlock
    split
    · cases b <;> exact ⟨rfl, rfl⟩
    · exact ⟨rfl, rfl⟩
  unfold elideMessage mapContent
  cases hc : m.content with
  | text s => rfl
  | blocks bs =>
      simp only [toolView, Message.blocks, hc, List.filterMap_map, ToolView.mk.injEq, true_and]
      exact ⟨List.filterMap_congr fun b _ => (hids b).1, List.filterMap_congr fun b _ => (hids b).2⟩

theorem noStray_elise (h : NoStray s.messages) : NoStray (elise c s).messages := by
  unfold elise
  simp only
  split
  · rw [messages_elise]
    refine noStray_withEstimate.mpr ((noStray_congr ?_).mpr h)
    have hview : toolView ∘ elideMessage c.eliseThreshold = toolView := funext (toolView_elideMessage _)
    rw [elided, old, List.map_append, List.map_map, hview, ← List.map_append, List.take_append_drop]
  · exact h

end WrongStack.Conversation.Hybrid

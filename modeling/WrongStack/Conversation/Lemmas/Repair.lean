import WrongStack.Conversation.Message
import WrongStack.Lib.ListFacts

/-!
# What repair computes

The loop looks forward in the original list but back at the list it has written. `Follows` says why
that is the same as looking back in the original list: the last message written offers a tool use
to the current message exactly if the message before the current one does and it is answered there.
-/

namespace WrongStack.Conversation

open Lib

/-! ## Contents -/

@[simp] theorem mapContent_role (m : Message) (f : List ContentBlock → List ContentBlock) :
    (mapContent m f).role = m.role := by
  unfold mapContent
  split <;> rfl

theorem mapContent_blocks (m : Message) (p : ContentBlock → Bool) :
    (mapContent m fun bs => bs.filter p).blocks = m.blocks.filter p := by
  unfold mapContent Message.blocks
  cases h : m.content with
  | text s => simp [h]
  | blocks bs => rfl

theorem mapContent_mapContent (m : Message) (p q : ContentBlock → Bool) :
    mapContent (mapContent m fun bs => bs.filter p) (fun bs => bs.filter q) =
      mapContent m fun bs => bs.filter fun b => p b && q b := by
  unfold mapContent
  cases h : m.content with
  | text s => simp [h]
  | blocks bs => simp [List.filter_filter, Bool.and_comm]

theorem mapContent_eq_self {m : Message} {p : ContentBlock → Bool} (h : ∀ b ∈ m.blocks, p b = true) :
    mapContent m (fun bs => bs.filter p) = m := by
  unfold mapContent
  unfold Message.blocks at h
  obtain ⟨role, content, est⟩ := m
  cases content with
  | text s => rfl
  | blocks bs => simpa using h

theorem isEmptyMessage_of_mem {m : Message} {b : ContentBlock} (h : b ∈ m.blocks) :
    isEmptyMessage m = false := by
  unfold Message.blocks at h
  unfold isEmptyMessage
  cases hc : m.content with
  | text s =>
      rw [hc] at h
      cases h
  | blocks bs =>
      rw [hc] at h
      exact List.isEmpty_eq_false_iff.mpr (List.ne_nil_of_mem h)

/-! ## Ids -/

theorem mem_toolUseIds {m : Option Message} {id : JsString} : id ∈ toolUseIds m ↔
    ∃ x, m = some x ∧ x.role = .assistant ∧ ∃ b ∈ x.blocks, b.toolUseId? = some id := by
  cases m with
  | none => simp [toolUseIds]
  | some x => by_cases h : x.role = .assistant <;> simp [toolUseIds, h]

theorem mem_toolResultIds {m : Option Message} {id : JsString} : id ∈ toolResultIds m ↔
    ∃ x, m = some x ∧ x.role = .user ∧ ∃ b ∈ x.blocks, b.toolResultId? = some id := by
  cases m with
  | none => simp [toolResultIds]
  | some x => by_cases h : x.role = .user <;> simp [toolResultIds, h]

theorem toolResultId?_of_use {b : ContentBlock} {id : JsString} (h : b.toolUseId? = some id) :
    b.toolResultId? = none := by
  cases b <;> simp_all [ContentBlock.toolUseId?, ContentBlock.toolResultId?]

theorem toolUseId?_of_result {b : ContentBlock} {id : JsString} (h : b.toolResultId? = some id) :
    b.toolUseId? = none := by
  cases b <;> simp_all [ContentBlock.toolUseId?, ContentBlock.toolResultId?]

theorem orphanUse_eq_false {ids : List JsString} {b : ContentBlock} :
    orphanUse ids b = false ↔ ∀ id, b.toolUseId? = some id → id ∈ ids := by
  unfold orphanUse
  cases b.toolUseId? <;> simp

theorem orphanResult_eq_false {ids : List JsString} {b : ContentBlock} :
    orphanResult ids b = false ↔ ∀ id, b.toolResultId? = some id → id ∈ ids := by
  unfold orphanResult
  cases b.toolResultId? <;> simp

/-! ## One message between its neighbours -/

/-- The ids that the results of `m` may answer if the message before it is `prev`. -/
def offeredIds (prev : Option Message) (m : Message) : List JsString :=
  if m.role = .user then toolUseIds prev else []

def survives (prev : Option Message) (m : Message) (next : Option Message) (b : ContentBlock) : Bool :=
  !orphanUse (toolResultIds next) b && !orphanResult (offeredIds prev m) b

def fixMessage (prev : Option Message) (m : Message) (next : Option Message) : Message :=
  mapContent m fun bs => bs.filter (survives prev m next)

def orphanUses (m : Message) (next : Option Message) : List JsString :=
  (m.blocks.filter (orphanUse (toolResultIds next))).filterMap ContentBlock.toolUseId?

def orphanResults (prev : Option Message) (m : Message) : List JsString :=
  (m.blocks.filter (orphanResult (offeredIds prev m))).filterMap ContentBlock.toolResultId?

theorem survives_use {prev next : Option Message} {m : Message} {b : ContentBlock} {id : JsString}
    (h : b.toolUseId? = some id) : survives prev m next b = true ↔ id ∈ toolResultIds next := by
  simp [survives, orphanUse, orphanResult, h, toolResultId?_of_use h]

theorem survives_result {prev next : Option Message} {m : Message} {b : ContentBlock} {id : JsString}
    (h : b.toolResultId? = some id) :
    survives prev m next b = true ↔ m.role = .user ∧ id ∈ toolUseIds prev := by
  by_cases hr : m.role = .user <;>
    simp [survives, orphanUse, orphanResult, h, toolUseId?_of_result h, offeredIds, hr]

theorem mem_fixMessage {prev next : Option Message} {m : Message} {b : ContentBlock} :
    b ∈ (fixMessage prev m next).blocks ↔ b ∈ m.blocks ∧ survives prev m next b = true := by
  rw [fixMessage, mapContent_blocks, List.mem_filter]

theorem mem_toolUseIds_fix {prev next : Option Message} {m : Message} {id : JsString} :
    id ∈ toolUseIds (some (fixMessage prev m next)) ↔
      id ∈ toolUseIds (some m) ∧ id ∈ toolResultIds next := by
  simp only [mem_toolUseIds, Option.some.injEq, exists_eq_left', fixMessage, mapContent_role,
    mapContent_blocks, List.mem_filter]
  constructor
  · rintro ⟨hr, b, ⟨hb, hs⟩, hid⟩
    exact ⟨⟨hr, b, hb, hid⟩, (survives_use hid).mp hs⟩
  · rintro ⟨⟨hr, b, hb, hid⟩, hn⟩
    exact ⟨hr, b, ⟨hb, (survives_use hid).mpr hn⟩, hid⟩

/-! ## The loop invariant -/

/-- The last message written, `last`, offers to `m` what the message before it, `prev`, offers and
`m` answers. -/
def Follows (prev last m : Option Message) : Prop :=
  ∀ id, id ∈ toolUseIds last ↔ id ∈ toolUseIds prev ∧ id ∈ toolResultIds m

/-- Where a message was dropped, it neither offered a use to the next one nor answered one. -/
theorem Follows.next {prev last next : Option Message} {m : Message}
    (h : Follows prev last (some m)) :
    Follows (some m)
      (if isEmptyMessage (fixMessage prev m next) then last else some (fixMessage prev m next)) next := by
  intro id
  cases hempty : isEmptyMessage (fixMessage prev m next) with
  | false =>
      simp only [Bool.false_eq_true, ↓reduceIte]
      exact mem_toolUseIds_fix
  | true =>
      simp only [↓reduceIte]
      have hnone : ∀ b ∈ m.blocks, survives prev m next b = true → False := fun b hb hs =>
        absurd (isEmptyMessage_of_mem (mem_fixMessage.mpr ⟨hb, hs⟩)) (by simp [hempty])
      constructor
      · intro hlast
        obtain ⟨hprev, hres⟩ := (h id).mp hlast
        obtain ⟨x, hx, hrole, b, hb, hid⟩ := mem_toolResultIds.mp hres
        cases hx
        exact (hnone b hb ((survives_result hid).mpr ⟨hrole, hprev⟩)).elim
      · rintro ⟨huse, hnext⟩
        obtain ⟨x, hx, -, b, hb, hid⟩ := mem_toolUseIds.mp huse
        cases hx
        exact (hnone b hb ((survives_use hid).mpr hnext)).elim

theorem Follows.orphanResult_eq {prev last : Option Message} {m : Message}
    (h : Follows prev last (some m)) {b : ContentBlock} (hb : b ∈ m.blocks) :
    orphanResult (toolUseIds last) b = orphanResult (offeredIds prev m) b := by
  rw [Bool.eq_iff_iff, ← not_iff_not]
  simp only [Bool.not_eq_true, orphanResult_eq_false]
  refine forall_congr' fun id => imp_congr_right fun hid => ?_
  rw [h id]
  by_cases hr : m.role = .user
  · have hres : id ∈ toolResultIds (some m) := mem_toolResultIds.mpr ⟨m, rfl, hr, b, hb, hid⟩
    simp [offeredIds, hr, hres]
  · have hres : id ∉ toolResultIds (some m) := fun hres => by
      obtain ⟨x, hx, hrole, -⟩ := mem_toolResultIds.mp hres
      cases hx
      exact hr hrole
    simp [offeredIds, hr, hres]

/-! ## The loop -/

theorem orphanUse_of_not_hasToolUse {m : Message} (h : hasToolUse m = false) (ids : List JsString) :
    ∀ b ∈ m.blocks, orphanUse ids b = false := by
  intro b hb
  rw [orphanUse_eq_false]
  intro id hid
  simp only [hasToolUse, List.any_eq_false, ContentBlock.isToolUse] at h
  exact absurd (h b hb) (by simp [hid])

theorem orphanResult_of_not_hasToolResult {m : Message} (h : hasToolResult m = false)
    (ids : List JsString) : ∀ b ∈ m.blocks, orphanResult ids b = false := by
  intro b hb
  rw [orphanResult_eq_false]
  intro id hid
  simp only [hasToolResult, List.any_eq_false, ContentBlock.isToolResult] at h
  exact absurd (h b hb) (by simp [hid])

/-- The guard of the first filter only saves work. -/
theorem dropOrphanUses_eq (m next) (r : Repairing) : dropOrphanUses (toolResultIds next) m r =
    (mapContent m fun bs => bs.filter fun b => !orphanUse (toolResultIds next) b,
      { r with
        removedToolUses := r.removedToolUses ++ orphanUses m next
        changed := r.changed || !(orphanUses m next).isEmpty }) := by
  unfold dropOrphanUses
  cases hno : hasToolUse m with
  | true => rfl
  | false =>
      have hkeep := orphanUse_of_not_hasToolUse hno (toolResultIds next)
      have hnil : m.blocks.filter (orphanUse (toolResultIds next)) = [] :=
        List.filter_eq_nil_iff.mpr fun b hb => by simp [hkeep b hb]
      have hself : (mapContent m fun bs => bs.filter fun b => !orphanUse (toolResultIds next) b) = m :=
        mapContent_eq_self fun b hb => by rw [hkeep b hb]; rfl
      simp [orphanUses, hnil, hself]

theorem dropOrphanResults_eq (allowed : List JsString) (m : Message) (r : Repairing) :
    dropOrphanResults allowed m r =
      (mapContent m fun bs => bs.filter fun b => !orphanResult allowed b,
        { r with
          removedToolResults := r.removedToolResults ++
            (m.blocks.filter (orphanResult allowed)).filterMap ContentBlock.toolResultId?
          changed := r.changed || !((m.blocks.filter (orphanResult allowed)).filterMap
            ContentBlock.toolResultId?).isEmpty }) := by
  unfold dropOrphanResults
  cases hno : hasToolResult m with
  | true => rfl
  | false =>
      have hkeep := orphanResult_of_not_hasToolResult hno allowed
      have hnil : m.blocks.filter (orphanResult allowed) = [] :=
        List.filter_eq_nil_iff.mpr fun b hb => by simp [hkeep b hb]
      have hself : (mapContent m fun bs => bs.filter fun b => !orphanResult allowed b) = m :=
        mapContent_eq_self fun b hb => by rw [hkeep b hb]; rfl
      simp [hnil, hself]

def Repairing.add (r : Repairing) (prev : Option Message) (m : Message) (next : Option Message) :
    Repairing where
  out := r.out ++
    if isEmptyMessage (fixMessage prev m next) then [] else [fixMessage prev m next]
  removedToolUses := r.removedToolUses ++ orphanUses m next
  removedToolResults := r.removedToolResults ++ orphanResults prev m
  removedMessages := r.removedMessages + if isEmptyMessage (fixMessage prev m next) then 1 else 0
  changed := r.changed || !(orphanUses m next).isEmpty || !(orphanResults prev m).isEmpty ||
    isEmptyMessage (fixMessage prev m next)

/-- The second filter sees the same results as in the original message, and judges them as the
message before it would. -/
theorem filter_orphanResult {prev last next : Option Message} {m : Message}
    (h : Follows prev last (some m)) :
    ((mapContent m fun bs => bs.filter fun b => !orphanUse (toolResultIds next) b).blocks.filter
      (orphanResult (toolUseIds last))) = m.blocks.filter (orphanResult (offeredIds prev m)) := by
  rw [mapContent_blocks, List.filter_filter]
  refine List.filter_congr fun b hb => ?_
  rw [h.orphanResult_eq hb]
  cases hres : orphanResult (offeredIds prev m) b with
  | false => rfl
  | true =>
      have huse : orphanUse (toolResultIds next) b = false := by
        rw [orphanUse_eq_false]
        intro id hid
        simp [orphanResult, toolResultId?_of_use hid] at hres
      simp [huse]

theorem repairMessage_eq {prev next : Option Message} {m : Message} {r : Repairing}
    (h : Follows prev r.out.getLast? (some m)) : repairMessage next r m = r.add prev m next := by
  have hfix : mapContent (mapContent m fun bs => bs.filter fun b => !orphanUse (toolResultIds next) b)
      (fun bs => bs.filter fun b => !orphanResult (toolUseIds r.out.getLast?) b) =
      fixMessage prev m next := by
    rw [mapContent_mapContent, fixMessage]
    unfold mapContent
    cases hc : m.content with
    | text s => rfl
    | blocks bs =>
        have hbs : m.blocks = bs := by simp [Message.blocks, hc]
        simp only [Message.mk.injEq, Content.blocks.injEq, true_and, and_true]
        refine List.filter_congr fun b hb => ?_
        rw [survives, h.orphanResult_eq (hbs ▸ hb)]
  simp only [repairMessage, dropOrphanUses_eq, dropOrphanResults_eq, hfix, filter_orphanResult h]
  unfold Repairing.add orphanResults
  cases hempty : isEmptyMessage (fixMessage prev m next) <;> simp

/-! ## The whole loop -/

abbrev Window := Option Message × Message × Option Message

/-- What is left of a message between its neighbours, if anything. -/
def survivor (w : Window) : Option Message :=
  if isEmptyMessage (fixMessage w.1 w.2.1 w.2.2) then none else some (fixMessage w.1 w.2.1 w.2.2)

/-- What the loop computes, each message judged in its original place. -/
def repairedFrom (prev : Option Message) (ms : List Message) (r : Repairing) : Repairing where
  out := r.out ++ (neighbours prev ms).filterMap survivor
  removedToolUses := r.removedToolUses ++ (neighbours prev ms).flatMap fun w => orphanUses w.2.1 w.2.2
  removedToolResults :=
    r.removedToolResults ++ (neighbours prev ms).flatMap fun w => orphanResults w.1 w.2.1
  removedMessages := r.removedMessages + (neighbours prev ms).countP fun w => (survivor w).isNone
  changed := r.changed || (neighbours prev ms).any fun w =>
    !(orphanUses w.2.1 w.2.2).isEmpty || !(orphanResults w.1 w.2.1).isEmpty || (survivor w).isNone

theorem repairMessages_eq (ms : List Message) {prev : Option Message} {r : Repairing}
    (h : Follows prev r.out.getLast? ms.head?) : repairMessages ms r = repairedFrom prev ms r := by
  induction ms generalizing prev r with
  | nil => simp [repairMessages, repairedFrom]
  | cons m ms ih =>
      have hlast : (r.add prev m ms.head?).out.getLast? =
          if isEmptyMessage (fixMessage prev m ms.head?) then r.out.getLast?
          else some (fixMessage prev m ms.head?) := by
        unfold Repairing.add
        split <;> simp
      have hnext : Follows (some m) (r.add prev m ms.head?).out.getLast? ms.head? := by
        rw [hlast]
        exact h.next
      rw [repairMessages, repairMessage_eq h, ih hnext]
      unfold repairedFrom Repairing.add survivor
      cases hempty : isEmptyMessage (fixMessage prev m ms.head?) <;>
        simp [hempty, Bool.or_assoc, Nat.add_assoc, Nat.add_comm]

def repaired (ms : List Message) : List Message := (neighbours none ms).filterMap survivor

theorem follows_none (m : Option Message) : Follows none none m := fun id => by simp [toolUseIds]

theorem repairMessages_start (ms : List Message) : repairMessages ms {} = repairedFrom none ms {} :=
  repairMessages_eq ms (follows_none _)

theorem orphanUses_eq_nil {m : Message} {next : Option Message} :
    orphanUses m next = [] ↔ ∀ b ∈ m.blocks, orphanUse (toolResultIds next) b = false := by
  unfold orphanUses
  rw [List.filterMap_eq_nil_iff]
  simp only [List.mem_filter, and_imp]
  refine forall₂_congr fun b _ => ?_
  unfold orphanUse
  cases b.toolUseId? <;> simp

theorem orphanResults_eq_nil {m : Message} {prev : Option Message} :
    orphanResults prev m = [] ↔ ∀ b ∈ m.blocks, orphanResult (offeredIds prev m) b = false := by
  unfold orphanResults
  rw [List.filterMap_eq_nil_iff]
  simp only [List.mem_filter, and_imp]
  refine forall₂_congr fun b _ => ?_
  unfold orphanResult
  cases b.toolResultId? <;> simp

theorem fixMessage_eq_self {prev next : Option Message} {m : Message} (hu : orphanUses m next = [])
    (hr : orphanResults prev m = []) : fixMessage prev m next = m :=
  mapContent_eq_self fun b hb => by
    rw [survives, orphanUses_eq_nil.mp hu b hb, orphanResults_eq_nil.mp hr b hb]
    rfl

theorem repaired_of_unchanged {ms : List Message} (h : (repairMessages ms {}).changed = false) :
    repaired ms = ms := by
  rw [repairMessages_start] at h
  have hw := List.any_eq_false.mp ((Bool.false_or _).symm.trans h)
  have hsome : ∀ w ∈ neighbours none ms, survivor w = some w.2.1 := by
    intro w hmem
    have hno := hw w hmem
    simp only [Bool.or_eq_true, Bool.not_eq_true', List.isEmpty_eq_false_iff, not_or, ne_eq,
      not_not, Option.isNone_iff_eq_none] at hno
    obtain ⟨⟨hu, hr⟩, hs⟩ := hno
    have hfix := fixMessage_eq_self hu hr
    unfold survivor at hs ⊢
    rw [hfix] at hs ⊢
    split at hs
    · exact absurd rfl hs
    · rename_i hempty
      rw [if_neg hempty]
  unfold repaired
  rw [List.filterMap_congr hsome, List.filterMap_eq_map', map_neighbours]

theorem repairToolUseAdjacency_messages (ms : List Message) :
    (repairToolUseAdjacency ms).messages = repaired ms := by
  simp only [repairToolUseAdjacency]
  split
  · rw [repairMessages_start]
    simp [repairedFrom, repaired]
  · rename_i h
    exact (repaired_of_unchanged (by simpa using h)).symm

/-! ## Pairing -/

/-- Every tool use of the message is answered in the next one, which is from the user, and every
tool result answers the one before, which is from the assistant. -/
def Answered (w : Window) : Prop :=
  (∀ b ∈ w.2.1.blocks, ∀ id, b.toolUseId? = some id → id ∈ toolResultIds w.2.2) ∧
    ∀ b ∈ w.2.1.blocks, ∀ id, b.toolResultId? = some id → id ∈ toolUseIds w.1

def PairedFrom (prev : Option Message) (ms : List Message) : Prop :=
  ∀ w ∈ neighbours prev ms, Answered w

def Paired (ms : List Message) : Prop := PairedFrom none ms

/-- A tool use outside an assistant message that the next message answers all the same. -/
def Stray (w : Window) : Prop :=
  w.2.1.role ≠ .assistant ∧ ∃ b ∈ w.2.1.blocks, ∃ id, b.toolUseId? = some id ∧ id ∈ toolResultIds w.2.2

def NoStray (ms : List Message) : Prop := ∀ w ∈ neighbours none ms, ¬ Stray w

theorem pairedFrom_cons {prev : Option Message} {m : Message} {ms : List Message} :
    PairedFrom prev (m :: ms) ↔ Answered (prev, m, ms.head?) ∧ PairedFrom (some m) ms := by
  simp [PairedFrom]

theorem toolResultIds_head_survivors {m : Message} {ms : List Message} {id : JsString}
    (huse : id ∈ toolUseIds (some m)) (hres : id ∈ toolResultIds ms.head?) :
    id ∈ toolResultIds ((neighbours (some m) ms).filterMap survivor).head? := by
  obtain ⟨n, hn, hrole, b, hb, hid⟩ := mem_toolResultIds.mp hres
  cases ms with
  | nil => cases hn
  | cons _ ms =>
      cases hn
      have hmem : b ∈ (fixMessage (some m) n ms.head?).blocks :=
        mem_fixMessage.mpr ⟨hb, (survives_result hid).mpr ⟨hrole, huse⟩⟩
      have hsurv : survivor (some m, n, ms.head?) = some (fixMessage (some m) n ms.head?) := by
        simp [survivor, isEmptyMessage_of_mem hmem]
      rw [neighbours_cons, List.filterMap_cons, hsurv]
      exact mem_toolResultIds.mpr ⟨_, rfl, by rw [fixMessage, mapContent_role, hrole], b, hmem, hid⟩

theorem pairedFrom_survivors {ms : List Message} {prev last : Option Message}
    (h : Follows prev last ms.head?) (hs : ∀ w ∈ neighbours prev ms, ¬ Stray w) :
    PairedFrom last ((neighbours prev ms).filterMap survivor) := by
  induction ms generalizing prev last with
  | nil => simp [PairedFrom]
  | cons m ms ih =>
      rw [neighbours_cons] at hs ⊢
      rw [List.filterMap_cons]
      have hnext : Follows (some m) _ ms.head? := h.next
      have hrest := fun w hw => hs w (List.mem_cons_of_mem _ hw)
      unfold survivor
      cases hempty : isEmptyMessage (fixMessage prev m ms.head?) with
      | true =>
          simp only [hempty, ↓reduceIte] at hnext ⊢
          exact ih hnext hrest
      | false =>
          simp only [hempty, Bool.false_eq_true, ↓reduceIte] at hnext ⊢
          refine pairedFrom_cons.mpr ⟨⟨?_, ?_⟩, ih hnext hrest⟩
          · intro b hb id hid
            obtain ⟨hb, hsurv⟩ := mem_fixMessage.mp hb
            have hres := (survives_use hid).mp hsurv
            have hrole : m.role = .assistant := by
              by_contra hrole
              exact hs _ List.mem_cons_self ⟨hrole, b, hb, id, hid, hres⟩
            exact toolResultIds_head_survivors (mem_toolUseIds.mpr ⟨m, rfl, hrole, b, hb, hid⟩) hres
          · intro b hb id hid
            obtain ⟨hb, hsurv⟩ := mem_fixMessage.mp hb
            obtain ⟨hrole, huse⟩ := (survives_result hid).mp hsurv
            exact (h id).mpr ⟨huse, mem_toolResultIds.mpr ⟨m, rfl, hrole, b, hb, hid⟩⟩

theorem PairedFrom.role_of_use {ms : List Message} {prev : Option Message} (h : PairedFrom prev ms)
    {m : Message} (hm : m ∈ ms) {b : ContentBlock} (hb : b ∈ m.blocks) {id : JsString}
    (hid : b.toolUseId? = some id) : m.role = .assistant := by
  induction ms generalizing prev with
  | nil => cases hm
  | cons x ms ih =>
      obtain ⟨hx, hrest⟩ := pairedFrom_cons.mp h
      rcases List.mem_cons.mp hm with rfl | hm
      · -- the answer is in the next message, and looks back at this one
        obtain ⟨n, hn, -, b', hb', hid'⟩ := mem_toolResultIds.mp (hx.1 b hb id hid)
        cases ms with
        | nil => cases hn
        | cons y ms =>
            cases hn
            obtain ⟨z, hz, hrole, -⟩ := mem_toolUseIds.mp ((pairedFrom_cons.mp hrest).1.2 b' hb' id hid')
            cases hz
            exact hrole
      · exact ih hrest hm

theorem paired_repaired_iff (ms : List Message) : Paired (repaired ms) ↔ NoStray ms := by
  constructor
  · rintro h ⟨p, m, n⟩ hw ⟨hrole, b, hb, id, hid, hres⟩
    have hmem : b ∈ (fixMessage p m n).blocks := mem_fixMessage.mpr ⟨hb, (survives_use hid).mpr hres⟩
    have hsurv : survivor (p, m, n) = some (fixMessage p m n) := by
      simp [survivor, isEmptyMessage_of_mem hmem]
    have hout : fixMessage p m n ∈ repaired ms := List.mem_filterMap.mpr ⟨_, hw, hsurv⟩
    have := PairedFrom.role_of_use h hout hmem hid
    rw [fixMessage, mapContent_role] at this
    exact hrole this
  · exact fun h => pairedFrom_survivors (follows_none _) h

theorem Paired.noStray {ms : List Message} (h : Paired ms) : NoStray ms := by
  rintro ⟨p, m, n⟩ hw ⟨hrole, b, hb, id, hid, -⟩
  exact hrole (PairedFrom.role_of_use h (mem_of_mem_neighbours hw) hb hid)

end WrongStack.Conversation

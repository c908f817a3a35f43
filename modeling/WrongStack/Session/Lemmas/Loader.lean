import WrongStack.Session.Loader

/-!
# Where loading throws

Reading the type of a block throws for `null` only. So the repair throws exactly on a message whose
content is `null`, missing, or an array with a `null`, and the replay of an `llm_response` exactly
when its content cannot be iterated or its usage cannot be added.
-/

namespace WrongStack.Session.Loader

open Lib

variable {plus : Json → Json → Json} {st : Replay} {ev : LoggedEvent} {t key : JsString}

/-! ## Contents -/

def isNull : Json → Bool
  | .null => true
  | _ => false

def noNull (items : List Json) : Bool := items.all fun b => !isNull b

/-- The repair can read the content of a message. -/
def readable : Option Json → Bool
  | none | some .null => false
  | some (.arr items) => noNull items
  | _ => true

/-- A `for` loop over the content can read the type of each block. -/
def iterable : Option Json → Bool
  | some (.arr items) => noNull items
  | some (.str _) => true
  | _ => false

theorem readable_of_iterable {content : Option Json} (h : iterable content = true) :
    readable content = true := by
  cases content with
  | none => cases h
  | some v => cases v <;> first | exact h | rfl

theorem noNull_cons {b : Json} {bs : List Json} :
    noNull (b :: bs) = true ↔ isNull b = false ∧ noNull bs = true := by
  simp [noNull]

theorem isType_isSome (b : Json) : (isType t b).isSome = !isNull b := by
  cases b <;> rfl

theorem isType_eq_none {b : Json} : isType t b = none ↔ isNull b = true := by
  rw [← Option.not_isSome_iff_eq_none, isType_isSome]
  simp

/-! ## Walks over the blocks -/

theorem hasType_isSome {bs : List Json} (h : noNull bs = true) : (hasType t bs).isSome = true := by
  induction bs with
  | nil => rfl
  | cons b bs ih =>
      obtain ⟨hb, hbs⟩ := noNull_cons.mp h
      have hsome := isType_isSome (t := t) b
      rw [hasType]
      split
      · exact ih hbs
      · rw [hsome, hb]
        rfl

theorem noNull_of_hasType {bs : List Json} (h : hasType t bs = some false) : noNull bs = true := by
  induction bs with
  | nil => rfl
  | cons b bs ih =>
      rw [hasType] at h
      split at h
      · rename_i hb
        refine noNull_cons.mpr ⟨?_, ih h⟩
        have hsome := isType_isSome (t := t) b
        rw [hb] at hsome
        simpa using hsome
      · rename_i hne
        exact absurd h hne

theorem idsOf_isSome {bs : List Json} (h : noNull bs = true) : (idsOf t key bs).isSome = true := by
  induction bs with
  | nil => rfl
  | cons b bs ih =>
      obtain ⟨hb, hbs⟩ := noNull_cons.mp h
      have hsome := isType_isSome (t := t) b
      rw [hb] at hsome
      obtain ⟨typed, ht⟩ := Option.isSome_iff_exists.mp hsome
      obtain ⟨ids, hids⟩ := Option.isSome_iff_exists.mp (ih hbs)
      simp [idsOf, ht, hids]

theorem dropOrphans_isSome {ids : List (Option Json)} {bs : List Json} :
    (dropOrphans t key ids bs).isSome = true ↔ noNull bs = true := by
  induction bs with
  | nil => simp [dropOrphans, noNull]
  | cons b bs ih =>
      rw [noNull_cons, ← ih]
      have hsome := isType_isSome (t := t) b
      cases ht : isType t b with
      | none => simp [dropOrphans, ht, isType_eq_none.mp ht]
      | some typed =>
          rw [ht] at hsome
          have hb : isNull b = false := by simpa using hsome
          cases hd : dropOrphans t key ids bs with
          | none => simp [dropOrphans, ht, hd]
          | some next => simp [dropOrphans, ht, hd, hb]

theorem dropOrphans_noNull {ids : List (Option Json)} {bs next : List Json}
    (h : dropOrphans t key ids bs = some next) : noNull next = true := by
  induction bs generalizing next with
  | nil =>
      cases h
      rfl
  | cons b bs ih =>
      cases ht : isType t b with
      | none => simp [dropOrphans, ht] at h
      | some typed =>
          cases hd : dropOrphans t key ids bs with
          | none => simp [dropOrphans, ht, hd] at h
          | some rest =>
              have hb : isNull b = false := by
                have hsome := isType_isSome (t := t) b
                rw [ht] at hsome
                simpa using hsome
              simp only [dropOrphans, ht, hd, Option.bind_eq_bind, Option.bind_some, Option.some.injEq] at h
              split at h
              · exact h ▸ ih hd
              · exact h ▸ noNull_cons.mpr ⟨hb, ih hd⟩

theorem everyType_isSome {bs : List Json} (h : noNull bs = true) : (everyType t bs).isSome = true := by
  induction bs with
  | nil => rfl
  | cons b bs ih =>
      obtain ⟨hb, hbs⟩ := noNull_cons.mp h
      have hsome := isType_isSome (t := t) b
      rw [everyType]
      split
      · exact ih hbs
      · rw [hsome, hb]
        rfl

theorem addToolUses_threw (bs : List Json) (ids : List (Option Json)) :
    (addToolUses bs ids).2 = !noNull bs := by
  induction bs generalizing ids with
  | nil => rfl
  | cons b bs ih =>
      have hnull : noNull (b :: bs) = (!isNull b && noNull bs) := rfl
      rw [addToolUses, hnull]
      split
      · rename_i ht
        rw [isType_eq_none.mp ht]
        rfl
      all_goals
        rename_i ht
        have hb := isType_isSome (t := js "tool_use") b
        rw [ht] at hb
        rw [ih, ← hb]
        rfl

theorem openIn_threw (content : Option Json) (ids : List (Option Json)) :
    (openIn content ids).2 = !iterable content := by
  cases content with
  | none => rfl
  | some v =>
      cases v with
      | arr items => exact addToolUses_threw items ids
      | _ => rfl

/-! ## Usage -/

def usageFields : List String := ["input", "output", "cacheRead", "cacheWrite"]

def isNullish : Option Json → Bool
  | none | some .null => true
  | _ => false

/-- The usage is an object (or any other value that has properties) and its fields can be added. -/
def addable (usage : Option Json) : Bool :=
  !isNullish usage && usageFields.all fun key =>
    (toPrimitive (coalesce ((usage.getD .null).get? (js key)) zero)).isSome

theorem addField_isSome (sum : Json) (usage : Option Json) (k : String) :
    (addField plus sum usage k).isSome = (!isNullish usage &&
      (toPrimitive (coalesce ((usage.getD .null).get? (js k)) zero)).isSome) := by
  unfold addField
  cases usage with
  | none => rfl
  | some v =>
      cases v with
      | null => rfl
      | _ =>
          simp only [readProp, Option.bind_eq_bind, Option.bind_some, isNullish, Option.getD_some]
          cases toPrimitive (coalesce (Json.get? _ (js k)) zero) <;> rfl

theorem addUsage_isSome (plus : Json → Json → Json) (sum : Usage) (usage : Option Json) :
    (addUsage plus sum usage).isSome = addable usage := by
  have hbind : ∀ (a b c d : Option Json), (a.bind fun input => b.bind fun output => c.bind fun cacheRead =>
      d.bind fun cacheWrite => some ({ input, output, cacheRead, cacheWrite } : Usage)).isSome =
      (a.isSome && (b.isSome && (c.isSome && d.isSome))) := by
    intro a b c d
    cases a <;> cases b <;> cases c <;> cases d <;> rfl
  refine (hbind _ _ _ _).trans ?_
  simp only [addField_isSome, addable, usageFields, List.all_cons, List.all_nil, Bool.and_true]
  cases isNullish usage <;> simp

/-! ## The replay -/

/-- The event can be replayed, and the repair can read what it leaves behind. -/
def wellFormed (ev : LoggedEvent) : Bool :=
  (!(ev.type == js "user_input") || readable (ev.field "content")) &&
    (!(ev.type == js "llm_response") || (iterable (ev.field "content") && addable (ev.field "usage")))

def Readable (messages : List RawMessage) : Prop := ∀ m ∈ messages, readable m.content = true

theorem readable_concat {messages : List RawMessage} {m : RawMessage} :
    Readable (messages ++ [m]) ↔ Readable messages ∧ readable m.content = true := by
  simp only [Readable, List.mem_append, List.mem_singleton, or_imp, forall_and, forall_eq]

theorem isNull_resultBlock (ev : LoggedEvent) : isNull (resultBlock ev) = false := rfl

theorem noNull_concat_result {items : List Json} :
    noNull (items ++ [resultBlock ev]) = noNull items := by
  simp [noNull, isNull_resultBlock]

/-- A result is put into a last message of results or into a new one. -/
theorem pushResult_readable (messages : List RawMessage) :
    Readable (pushResult ev messages).1 ↔ Readable messages := by
  have hfresh : Readable (messages ++ [⟨.user, some (.arr [resultBlock ev]), ev.ts⟩]) ↔
      Readable messages := by
    rw [readable_concat, and_iff_left]
    rfl
  unfold pushResult
  split
  · rename_i items ts hlast
    split
    · rfl
    · obtain ⟨before, rfl⟩ := List.getLast?_eq_some_iff.mp hlast
      rw [List.dropLast_concat, readable_concat, readable_concat]
      simp only [readable, noNull_concat_result]
    · exact hfresh
  · exact hfresh

theorem pushResult_threw {messages : List RawMessage} (h : Readable messages) :
    (pushResult ev messages).2 = false := by
  unfold pushResult
  split
  · rename_i items ts hlast
    have hitems : noNull items = true := h _ (List.mem_of_getLast? hlast)
    have hsome := everyType_isSome (t := js "tool_result") hitems
    split
    · rename_i hnone
      rw [hnone] at hsome
      cases hsome
    · rfl
    · rfl
  · rfl

theorem js_types : js "user_input" ≠ js "llm_response" ∧ js "user_input" ≠ js "tool_result" ∧
    js "llm_response" ≠ js "tool_result" := by decide

theorem replayEvent_userInput (h : ev.type = js "user_input") :
    replayEvent plus st ev = ({ st with
      openToolUses := []
      messages := st.messages ++ [{ role := .user, content := ev.field "content", ts := ev.ts }] },
        false) := by
  simp only [replayEvent, h, ↓reduceIte]

/-- The message of an `llm_response` is pushed before anything can throw. -/
theorem replayEvent_llmResponse (plus : Json → Json → Json) (st : Replay) (h : ev.type = js "llm_response") :
    (replayEvent plus st ev).1.messages =
        st.messages ++ [{ role := .assistant, content := ev.field "content", ts := ev.ts }] ∧
      (replayEvent plus st ev).2 = !(iterable (ev.field "content") && addable (ev.field "usage")) ∧
      (replayEvent plus st ev).1.usage =
        if iterable (ev.field "content") = true then (addUsage plus st.usage (ev.field "usage")).getD st.usage
        else st.usage := by
  have hthrew := openIn_threw (ev.field "content") st.openToolUses
  have husage := addUsage_isSome plus st.usage (ev.field "usage")
  simp only [replayEvent, h, js_types.1.symm, ↓reduceIte, hthrew]
  cases hi : iterable (ev.field "content") with
  | false => simp
  | true =>
      cases hu : addUsage plus st.usage (ev.field "usage") with
      | none =>
          rw [hu] at husage
          simp [← husage]
      | some usage =>
          rw [hu] at husage
          simp [← husage]

/-- The other events leave the usage alone, and throw only if a message is not readable. -/
theorem replayEvent_other (plus : Json → Json → Json) (st : Replay) (hu : ev.type ≠ js "user_input") (hl : ev.type ≠ js "llm_response") :
    (replayEvent plus st ev).1.usage = st.usage ∧
      (Readable (replayEvent plus st ev).1.messages ↔ Readable st.messages) ∧
      (Readable st.messages → (replayEvent plus st ev).2 = false) := by
  simp only [replayEvent, hu, hl, ↓reduceIte]
  split
  · split
    · exact ⟨rfl, pushResult_readable st.messages, pushResult_threw⟩
    · exact ⟨rfl, Iff.rfl, fun _ => rfl⟩
  · exact ⟨rfl, Iff.rfl, fun _ => rfl⟩

/-- What an event adds is readable, or it stays unreadable. -/
theorem replayEvent_readable :
    Readable (replayEvent plus st ev).1.messages ↔ Readable st.messages ∧
      ((ev.type = js "user_input" ∨ ev.type = js "llm_response") → readable (ev.field "content") = true) := by
  by_cases hu : ev.type = js "user_input"
  · rw [replayEvent_userInput hu, readable_concat]
    simp [hu]
  · by_cases hl : ev.type = js "llm_response"
    · rw [(replayEvent_llmResponse plus st hl).1, readable_concat]
      simp [hl]
    · rw [(replayEvent_other plus st hu hl).2.1]
      simp [hu, hl]

theorem wellFormed_iff : wellFormed ev = true ↔
    (ev.type = js "user_input" → readable (ev.field "content") = true) ∧
      (ev.type = js "llm_response" →
        iterable (ev.field "content") = true ∧ addable (ev.field "usage") = true) := by
  simp [wellFormed, imp_iff_not_or]

/-- A well-formed event does not throw, and adds to the usage what the events-only load adds. -/
theorem replayEvent_wellFormed (plus : Json → Json → Json) (h : wellFormed ev = true) (hst : Readable st.messages) :
    Readable (replayEvent plus st ev).1.messages ∧ (replayEvent plus st ev).2 = false ∧
      (replayEvent plus st ev).1.usage = if ev.type = js "llm_response"
        then (addUsage plus st.usage (ev.field "usage")).getD st.usage else st.usage := by
  obtain ⟨huser, hllm⟩ := wellFormed_iff.mp h
  refine ⟨replayEvent_readable.mpr ⟨hst, ?_⟩, ?_⟩
  · rintro (hu | hl)
    · exact huser hu
    · exact readable_of_iterable (hllm hl).1
  · by_cases hl : ev.type = js "llm_response"
    · obtain ⟨-, hthrew, husage⟩ := replayEvent_llmResponse plus st hl
      rw [hthrew, husage]
      simp [hl, hllm hl]
    · by_cases hu : ev.type = js "user_input"
      · rw [replayEvent_userInput hu]
        simp [hl]
      · obtain ⟨husage, -, hthrew⟩ := replayEvent_other plus st hu hl
        simp [hl, husage, hthrew hst]

/-! ## The repair -/

theorem noNull_contentBlocks {msg : RawMessage} (h : readable msg.content = true) :
    noNull (contentBlocks msg) = true := by
  unfold contentBlocks
  split
  · rename_i items hc
    rw [hc] at h
    exact h
  · rfl

theorem dropFrom_isSome (t key : JsString) {ids : Option (List (Option Json))} {msg : RawMessage}
    (hids : ids.isSome = true) (h : readable msg.content = true) :
    ∃ msg' c, dropFrom t key ids msg = some (msg', c) := by
  have hblocks := noNull_contentBlocks h
  obtain ⟨has, hhas⟩ := Option.isSome_iff_exists.mp (hasType_isSome (t := t) hblocks)
  obtain ⟨ids, rfl⟩ := Option.isSome_iff_exists.mp hids
  have hnext : (dropOrphans t key ids (contentBlocks msg)).isSome = true := dropOrphans_isSome.mpr hblocks
  obtain ⟨next, hnext⟩ := Option.isSome_iff_exists.mp hnext
  cases has with
  | false => exact ⟨msg, false, by simp [dropFrom, hhas]⟩
  | true =>
      exact ⟨{ msg with content := some (.arr next) }, next.length != (contentBlocks msg).length,
        by simp [dropFrom, hhas, hnext]⟩

/-- A message keeps its content, or it gets a list of blocks that are not `null`. -/
theorem dropFrom_readable {ids : Option (List (Option Json))} {msg msg' : RawMessage} {c : Bool}
    (hdrop : dropFrom t key ids msg = some (msg', c)) (h : readable msg.content = true) :
    readable msg'.content = true := by
  unfold dropFrom at hdrop
  cases hhas : hasType t (contentBlocks msg) with
  | none => simp [hhas] at hdrop
  | some has =>
      cases has with
      | false =>
          simp only [hhas, Option.bind_eq_bind, Option.bind_some, Bool.false_eq_true, ↓reduceIte,
            Option.some.injEq, Prod.mk.injEq] at hdrop
          exact hdrop.1 ▸ h
      | true =>
          cases ids with
          | none => simp [hhas] at hdrop
          | some ids =>
              cases hnext : dropOrphans t key ids (contentBlocks msg) with
              | none => simp [hhas, hnext] at hdrop
              | some next =>
                  simp only [hhas, hnext, Option.bind_eq_bind, Option.bind_some, ↓reduceIte,
                    Option.some.injEq, Prod.mk.injEq] at hdrop
                  rw [← hdrop.1]
                  exact dropOrphans_noNull hnext

theorem noNull_of_dropFrom {ids : Option (List (Option Json))} {msg : RawMessage}
    (h : (dropFrom t key ids msg).isSome = true) : noNull (contentBlocks msg) = true := by
  unfold dropFrom at h
  cases hhas : hasType t (contentBlocks msg) with
  | none => simp [hhas] at h
  | some has =>
      cases has with
      | false => exact noNull_of_hasType hhas
      | true =>
          cases ids with
          | none => simp [hhas] at h
          | some ids =>
              cases hnext : dropOrphans t key ids (contentBlocks msg) with
              | none => simp [hhas, hnext] at h
              | some next => exact dropOrphans_isSome.mp (by rw [hnext]; rfl)

theorem toolIds_isSome {role : Conversation.MessageRole} {m : Option RawMessage}
    (h : ∀ m' ∈ m, readable m'.content = true) : (toolIds role t key m).isSome = true := by
  cases m with
  | none => rfl
  | some m =>
      rw [toolIds]
      split
      · exact idsOf_isSome (noNull_contentBlocks (h m rfl))
      · rfl

theorem isEmptyMessage_isSome {msg : RawMessage} (h : readable msg.content = true) :
    (isEmptyMessage msg).isSome = true := by
  unfold isEmptyMessage
  split
  · rename_i hc
    rw [hc] at h
    cases h
  · rename_i hc
    rw [hc] at h
    cases h
  all_goals rfl

theorem repairMessage_isSome {next : Option RawMessage} {r : Repairing} {m : RawMessage}
    (hnext : ∀ m' ∈ next, readable m'.content = true) (hr : Readable r.out)
    (hm : readable m.content = true) : (repairMessage next r m).isSome = true := by
  have hlast : ∀ m' ∈ r.out.getLast?, readable m'.content = true :=
    fun m' h => hr m' (List.mem_of_getLast? h)
  have hresults : (toolResultIds next).isSome = true := toolIds_isSome hnext
  have huses : (toolUseIds r.out.getLast?).isSome = true := toolIds_isSome hlast
  obtain ⟨msg, c, h1⟩ := dropFrom_isSome (js "tool_use") (js "id") hresults hm
  obtain ⟨msg', c', h2⟩ := dropFrom_isSome (js "tool_result") (js "tool_use_id") huses
    (dropFrom_readable h1 hm)
  obtain ⟨empty, hempty⟩ := Option.isSome_iff_exists.mp
    (isEmptyMessage_isSome (dropFrom_readable h2 (dropFrom_readable h1 hm)))
  simp only [repairMessage, h1, h2, hempty, Option.bind_eq_bind,
    Option.bind_some]
  cases empty <;> rfl

/-- A message without content has no blocks to drop, and then it cannot be tested for emptiness. -/
theorem repairMessage_eq_none {next : Option RawMessage} {r : Repairing} {m : RawMessage}
    (hm : isNullish m.content = true) : repairMessage next r m = none := by
  have hblocks : contentBlocks m = [] := by
    unfold contentBlocks
    split
    · rename_i hc
      rw [hc] at hm
      cases hm
    · rfl
  have hempty : isEmptyMessage m = none := by
    unfold isEmptyMessage
    split <;> first | rfl | (rename_i hc; rw [hc] at hm; cases hm) | skip
    rename_i v hnull _ _ hc
    rw [hc] at hm
    cases v <;> first | exact absurd rfl hnull | cases hm
  simp [repairMessage, dropFrom, hblocks, hasType, hempty]

theorem repairMessage_readable {next : Option RawMessage} {r r' : Repairing} {m : RawMessage}
    (h : repairMessage next r m = some r') :
    readable m.content = true ∧ (Readable r.out → Readable r'.out) := by
  have hnotNull : isNullish m.content = false := by
    rw [Bool.eq_false_iff]
    intro hm
    rw [repairMessage_eq_none hm] at h
    cases h
  unfold repairMessage at h
  obtain ⟨⟨msg, c⟩, h1, h⟩ := Option.bind_eq_some_iff.mp h
  obtain ⟨⟨msg', c'⟩, h2, h⟩ := Option.bind_eq_some_iff.mp h
  obtain ⟨empty, -, h⟩ := Option.bind_eq_some_iff.mp h
  have hm : readable m.content = true := by
    have hblocks := noNull_of_dropFrom (by rw [h1]; rfl)
    unfold contentBlocks at hblocks
    cases hc : m.content with
    | none => simp [hc, isNullish] at hnotNull
    | some v =>
        cases v with
        | null => simp [hc, isNullish] at hnotNull
        | arr items =>
            rw [hc] at hblocks
            exact hblocks
        | _ => rfl
  refine ⟨hm, fun hr => ?_⟩
  cases empty with
  | true =>
      cases h
      exact hr
  | false =>
      cases h
      exact readable_concat.mpr ⟨hr, dropFrom_readable h2 (dropFrom_readable h1 hm)⟩

theorem repairMessages_isSome {ms : List RawMessage} {r : Repairing} (hr : Readable r.out) :
    (repairMessages ms r).isSome = true ↔ Readable ms := by
  induction ms generalizing r with
  | nil => simp [repairMessages, Readable]
  | cons m ms ih =>
      rw [repairMessages]
      constructor
      · intro h
        cases hm : repairMessage ms.head? r m with
        | none => simp [hm] at h
        | some r' =>
            obtain ⟨hread, hout⟩ := repairMessage_readable hm
            rw [hm, Option.bind_some] at h
            exact List.forall_mem_cons.mpr ⟨hread, (ih (hout hr)).mp h⟩
      · intro h
        obtain ⟨hm, hms⟩ := List.forall_mem_cons.mp h
        obtain ⟨r', hr'⟩ := Option.isSome_iff_exists.mp
          (repairMessage_isSome (fun m' h' => hms m' (List.mem_of_mem_head? h')) hr hm)
        rw [hr', Option.bind_some]
        exact (ih ((repairMessage_readable hr').2 hr)).mpr hms

theorem repairToolUseAdjacency_isSome {messages : List RawMessage} :
    (repairToolUseAdjacency messages).isSome = true ↔ Readable messages := by
  rw [repairToolUseAdjacency, Option.isSome_map, repairMessages_isSome]
  exact List.forall_mem_nil _

/-! ## The whole replay -/

theorem replay_concat (events : List LoggedEvent) (ev : LoggedEvent) :
    replay plus (events ++ [ev]) = (replayEvent plus (replay plus events) ev).1 := by
  rw [replay, replay, List.foldl_concat]

theorem usageOf_concat (events : List LoggedEvent) (ev : LoggedEvent) :
    usageOf plus (events ++ [ev]) = if ev.type = js "llm_response"
      then (addUsage plus (usageOf plus events) (ev.field "usage")).getD (usageOf plus events)
      else usageOf plus events := by
  rw [usageOf, usageOf, List.foldl_concat]

theorem replay_wellFormed (plus : Json → Json → Json) {events : List LoggedEvent}
    (h : ∀ ev ∈ events, wellFormed ev = true) :
    Readable (replay plus events).messages ∧ (replay plus events).usage = usageOf plus events := by
  induction events using List.reverseRecOn with
  | nil => exact ⟨List.forall_mem_nil _, rfl⟩
  | append_singleton events ev ih =>
      obtain ⟨hread, husage⟩ := ih fun ev' h' => h ev' (List.mem_append_left _ h')
      obtain ⟨hread', -, husage'⟩ := replayEvent_wellFormed plus
        (h ev (List.mem_append_right _ (List.mem_singleton_self ev))) hread
      rw [replay_concat, usageOf_concat, husage', husage]
      exact ⟨hread', rfl⟩

/-- What is not readable is never repaired by a later event. -/
theorem readable_of_replay {pre post : List LoggedEvent}
    (h : Readable (replay plus (pre ++ post)).messages) : Readable (replay plus pre).messages := by
  induction post using List.reverseRecOn with
  | nil => rwa [List.append_nil] at h
  | append_singleton post ev ih =>
      rw [← List.append_assoc, replay_concat] at h
      exact ih (replayEvent_readable.mp h).1

end WrongStack.Session.Loader

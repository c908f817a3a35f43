import WrongStack.Streaming.Lemmas.Agreement

/-!
# Each block once

Tools and thinking blocks stand in the order once exactly if no tool is started twice and no thinking block that is
shown is taken again.
-/

namespace WrongStack.Streaming

open Lib Json

def BlockRef.isText : BlockRef → Bool
  | .text _ => true
  | _ => false

def Signal.toolId? : Signal → Option JsString
  | .tool id => some id
  | _ => none

/-- The tools that are started, in order. -/
def toolIds (es : List Signal) : List JsString := es.filterMap Signal.toolId?

/-- The references to tools and thinking blocks that are still to come. -/
def refs (P : Policy) (T : JsMap JsString ToolEntry) (c : Cursor) (es : List Signal) : List BlockRef :=
  ((rest P T c es).map Prod.fst).filter (!·.isText)

variable {P : Policy} {T : JsMap JsString ToolEntry} {es : List Signal} {e : ThinkingEntry} {c : Cursor} {i j : Nat}
  {id : JsString}

/-- The reference of a thinking block, if it is shown. -/
def thoughtRefs (i : Nat) (e : ThinkingEntry) : List BlockRef := if e.Blank then [] else [.thinking i]

theorem showThought_refs : ((showThought i e).map Prod.fst).filter (!·.isText) = thoughtRefs i e := by
  unfold showThought thoughtRefs
  split <;> rfl

theorem showText_refs {t : JsString} : ((showText i t).map Prod.fst).filter (!·.isText) = [] := by
  unfold showText
  split <;> rfl

theorem showTool_refs (h : (T.get? id).isSome) : ((showTool T id).map Prod.fst).filter (!·.isText) = [.tool id] := by
  obtain ⟨tb, htb⟩ := Option.isSome_iff_exists.mp h
  simp only [showTool, htb]
  rfl

theorem refs_text (P : Policy) (T : JsMap JsString ToolEntry) (c : Cursor) (t : JsString) (es : List Signal) :
    ∃ c' : Cursor, c'.thoughts = c.thoughts ∧ c'.held = c.held ∧ refs P T c (.text t :: es) = refs P T c' es := by
  by_cases hc : c.text = true
  · exact ⟨c, rfl, rfl, by simp only [refs, rest, if_pos hc]⟩
  · refine ⟨{ c with texts := c.texts + 1, text := true }, rfl, rfl, ?_⟩
    simp only [refs, rest, if_neg hc, List.map_append, List.filter_append, showText_refs, List.nil_append]

theorem refs_start_none {m : Option Fields} (h : c.held = none) : refs P T c (.start m :: es) =
    thoughtRefs c.thoughts (grow P es { providerMeta := m }) ++ refs P T (c.opened { providerMeta := m } false) es := by
  simp only [refs, rest, h, List.map_append, List.filter_append, showThought_refs]

theorem refs_start_takes {m : Option Fields} (h : c.held = some (i, e)) (hP : P.takesOpen = true) :
    refs P T c (.start m :: es) = thoughtRefs i (grow P es (e.take m)) ++
      refs P T { c with text := false, held := some (i, e.take m) } es := by
  simp only [refs, rest, h, hP, if_true, List.map_append, List.filter_append, showThought_refs]

theorem refs_start_opens {m : Option Fields} (h : c.held = some (i, e)) (hP : P.takesOpen = false) :
    refs P T c (.start m :: es) =
      thoughtRefs c.thoughts (grow P es { providerMeta := m }) ++ refs P T (c.opened { providerMeta := m } false) es := by
  simp only [refs, rest, h, hP, Bool.false_eq_true, if_false, List.map_append, List.filter_append, showThought_refs]

theorem refs_add_none {x : Addition} (h : c.held = none) : refs P T c (.add x :: es) =
    thoughtRefs c.thoughts (grow P es (ThinkingEntry.add {} x)) ++
      refs P T (c.opened (ThinkingEntry.add {} x) (c.text && P.keepsText)) es := by
  simp only [refs, rest, h, List.map_append, List.filter_append, showThought_refs]

theorem refs_add_some {x : Addition} (h : c.held = some (i, e)) :
    refs P T c (.add x :: es) = refs P T { c with held := some (i, e.add x) } es := by
  simp only [refs, rest, h]

theorem refs_tool (h : (T.get? id).isSome) :
    refs P T c (.tool id :: es) = .tool id :: refs P T { c with text := false } es := by
  simp only [refs, rest, List.map_append, List.filter_append, showTool_refs h, List.singleton_append]

theorem tool_mem_refs (hT : ∀ id ∈ toolIds es, (T.get? id).isSome) : .tool id ∈ refs P T c es ↔ id ∈ toolIds es := by
  induction es generalizing c with
  | nil => simp [refs, rest, toolIds]
  | cons s es ih =>
      have hthought (i : Nat) (e : ThinkingEntry) : .tool id ∉ thoughtRefs i e := by
        unfold thoughtRefs
        split <;> simp
      cases s with
      | text t =>
          obtain ⟨c', -, -, heq⟩ := refs_text P T c t es
          rw [heq]
          exact ih hT
      | tool id' =>
          rw [refs_tool (hT id' List.mem_cons_self)]
          have hids : toolIds (.tool id' :: es) = id' :: toolIds es := rfl
          rw [hids, List.mem_cons, List.mem_cons, BlockRef.tool.injEq,
            ih fun id hid => hT id (List.mem_cons_of_mem _ hid)]
      | cut => exact ih (c := { c with text := false }) hT
      | start m =>
          cases hc : c.held with
          | none =>
              rw [refs_start_none hc, List.mem_append, or_iff_right (hthought _ _)]
              exact ih hT
          | some x =>
              cases hP : P.takesOpen with
              | true =>
                  rw [refs_start_takes hc hP, List.mem_append, or_iff_right (hthought _ _)]
                  exact ih hT
              | false =>
                  rw [refs_start_opens hc hP, List.mem_append, or_iff_right (hthought _ _)]
                  exact ih hT
      | add x =>
          cases hc : c.held with
          | none =>
              rw [refs_add_none hc, List.mem_append, or_iff_right (hthought _ _)]
              exact ih hT
          | some y =>
              rw [refs_add_some hc]
              exact ih hT
      | stop => exact ih (c := { c with held := none }) hT
      | other => exact ih hT

theorem mem_thoughtRefs (h : .thinking j ∈ thoughtRefs i e) : j = i := by
  unfold thoughtRefs at h
  split at h
  · cases h
  · simpa using h

/-- Thinking blocks that are to come are new or the open one. -/
theorem thinking_mem_refs (h : .thinking j ∈ refs P T c es) : c.thoughts ≤ j ∨ ∃ e, c.held = some (j, e) := by
  induction es generalizing c with
  | nil => cases h
  | cons s es ih =>
      have hopened {e : ThinkingEntry} {o : Bool} {e' : ThinkingEntry}
          (h : .thinking j ∈ thoughtRefs c.thoughts e ++ refs P T (c.opened e' o) es) : c.thoughts ≤ j := by
        rcases List.mem_append.mp h with h | h
        · exact (mem_thoughtRefs h).ge
        · rcases ih h with h | ⟨e, h⟩
          · exact Nat.le_of_succ_le h
          · cases h
            exact Nat.le_refl _
      cases s with
      | text t =>
          obtain ⟨c', hn, hc, heq⟩ := refs_text P T c t es
          rw [heq] at h
          rw [← hn, ← hc]
          exact ih h
      | tool id =>
          have h' : .thinking j ∈ refs P T { c with text := false } es := by
            simp only [refs, rest, List.map_append, List.filter_append, List.mem_append] at h
            rcases h with h | h
            · unfold showTool at h
              split at h <;> simp at h
            · exact h
          exact ih (c := { c with text := false }) h'
      | cut => exact ih (c := { c with text := false }) h
      | start m =>
          cases hc : c.held with
          | none =>
              rw [refs_start_none hc] at h
              exact .inl (hopened h)
          | some x =>
              cases hP : P.takesOpen with
              | true =>
                  rw [refs_start_takes hc hP] at h
                  rcases List.mem_append.mp h with h | h
                  · rw [mem_thoughtRefs h]
                    exact .inr ⟨x.2, rfl⟩
                  · rcases ih h with h | ⟨e, h⟩
                    · exact .inl h
                    · cases h
                      exact .inr ⟨x.2, rfl⟩
              | false =>
                  rw [refs_start_opens hc hP] at h
                  exact .inl (hopened h)
      | add x =>
          cases hc : c.held with
          | none =>
              rw [refs_add_none hc] at h
              exact .inl (hopened h)
          | some y =>
              rw [refs_add_some hc] at h
              rcases ih h with h | ⟨e, h⟩
              · exact .inl h
              · cases h
                exact .inr ⟨y.2, rfl⟩
      | stop =>
          rcases ih (c := { c with held := none }) h with h | ⟨e, h⟩
          · exact .inl h
          · cases h
      | other => exact ih h

/-- Every reference once, and the open block no more if it is shown. -/
def Fresh (P : Policy) (T : JsMap JsString ToolEntry) (c : Cursor) (es : List Signal) : Prop :=
  (refs P T c es).Nodup ∧ ∀ i e, c.held = some (i, e) → ¬(grow P es e).Blank → .thinking i ∉ refs P T c es

theorem nodup_opened {R : List BlockRef} :
    (thoughtRefs i e ++ R).Nodup ↔ R.Nodup ∧ (¬e.Blank → .thinking i ∉ R) := by
  unfold thoughtRefs
  by_cases he : e.Blank
  · rw [if_pos he, List.nil_append]
    exact (and_iff_left fun h => absurd he h).symm
  · rw [if_neg he, List.singleton_append, List.nodup_cons, and_comm]
    exact and_congr_right fun _ => ⟨fun h _ => h, fun h => h he⟩

theorem fresh_opened {o : Bool} : Fresh P T (c.opened e o) es ↔
    (thoughtRefs c.thoughts (grow P es e) ++ refs P T (c.opened e o) es).Nodup := by
  rw [nodup_opened, Fresh]
  refine and_congr_right fun _ => ⟨fun h => h c.thoughts e rfl, fun h i e' hi => ?_⟩
  cases hi
  exact h

theorem fresh_iff (hT : ∀ id ∈ toolIds es, (T.get? id).isSome) (hheld : ∀ i e, c.held = some (i, e) → i < c.thoughts) :
    Fresh P T c es ↔ (toolIds es).Nodup ∧ Quiet P (c.held.map Prod.snd) es := by
  induction es generalizing c with
  | nil =>
      refine iff_of_true ⟨List.nodup_nil, fun _ _ _ _ h => by cases h⟩ ⟨List.nodup_nil, ?_⟩
      cases c.held <;> trivial
  | cons s es ih =>
      have hnew {e' : ThinkingEntry} {o : Bool} : ∀ i e, (c.opened e' o).held = some (i, e) → i < (c.opened e' o).thoughts := by
        rintro i e ⟨⟩
        exact Nat.lt_succ_self _
      have hold {e e' : ThinkingEntry} {o : Bool} {i : Nat} (hi : i < c.thoughts) :
          .thinking i ∉ thoughtRefs c.thoughts e ++ refs P T (c.opened e' o) es := by
        intro h
        rcases List.mem_append.mp h with h | h
        · exact absurd (mem_thoughtRefs h) hi.ne
        · rcases thinking_mem_refs h with h | ⟨e, h⟩
          · exact absurd h (by simp only [Cursor.opened]; omega)
          · cases h
            exact absurd hi (Nat.lt_irrefl _)
      cases s with
      | text t =>
          obtain ⟨c', hn, hc, heq⟩ := refs_text P T c t es
          have ih := ih (c := c') hT (by rw [hn, hc]; exact hheld)
          have hfresh : Fresh P T c (.text t :: es) ↔ Fresh P T c' es := by
            unfold Fresh
            rw [heq, hc]
            rfl
          rw [hfresh, ih, hc]
          cases c.held <;> exact Iff.rfl
      | tool id =>
          have hT' : ∀ id ∈ toolIds es, (T.get? id).isSome := fun id hid => hT id (List.mem_cons_of_mem _ hid)
          have ih := ih (c := { c with text := false }) hT' hheld
          have hids : toolIds (.tool id :: es) = id :: toolIds es := rfl
          have hquiet : Quiet P (c.held.map Prod.snd) (.tool id :: es) ↔ Quiet P (c.held.map Prod.snd) es := by
            cases c.held <;> exact Iff.rfl
          have hfresh : Fresh P T c (.tool id :: es) ↔ id ∉ toolIds es ∧ Fresh P T { c with text := false } es := by
            unfold Fresh
            rw [refs_tool (hT id List.mem_cons_self), List.nodup_cons, tool_mem_refs hT', and_assoc]
            simp only [List.mem_cons, reduceCtorEq, false_or]
            rfl
          rw [hfresh, ih, hids, List.nodup_cons, hquiet, and_assoc]
      | cut =>
          have ih := ih (c := { c with text := false }) hT hheld
          have hquiet : Quiet P (c.held.map Prod.snd) (.cut :: es) ↔ Quiet P (c.held.map Prod.snd) es := by
            cases c.held <;> exact Iff.rfl
          rw [hquiet]
          exact ih
      | start m =>
          cases hc : c.held with
          | none =>
              have ih := ih (c := c.opened { providerMeta := m } false) hT hnew
              rw [fresh_opened, ← refs_start_none hc] at ih
              rw [Fresh, hc]
              exact (and_iff_left fun _ _ h => by cases h).trans ih
          | some x =>
              obtain ⟨i, e⟩ := x
              cases hP : P.takesOpen with
              | true =>
                  have ih := ih (c := { c with text := false, held := some (i, e.take m) }) hT (by
                    rintro _ _ ⟨⟩
                    exact hheld i e hc)
                  have hgrow : grow P (.start m :: es) e = grow P es (e.take m) := by simp only [grow, hP, if_true]
                  have hquiet : Quiet P (some e) (.start m :: es) ↔
                      (grow P es (e.take m)).Blank ∧ Quiet P (some (e.take m)) es := by simp only [Quiet, hP, if_true]
                  have hfresh : Fresh P T c (.start m :: es) ↔ (grow P es (e.take m)).Blank ∧
                      Fresh P T { c with text := false, held := some (i, e.take m) } es := by
                    unfold Fresh
                    rw [refs_start_takes hc hP, hc]
                    by_cases hb : (grow P es (e.take m)).Blank
                    · simp [thoughtRefs, hb, hgrow]
                    · refine iff_of_false (fun h => ?_) fun h => hb h.1
                      have := h.2 i e rfl (by rwa [hgrow])
                      simp [thoughtRefs, hb] at this
                  rw [hfresh, ih]
                  simp only [Option.map_some]
                  rw [hquiet]
                  exact and_left_comm
              | false =>
                  have ih := ih (c := c.opened { providerMeta := m } false) hT hnew
                  rw [fresh_opened, ← refs_start_opens hc hP] at ih
                  have hquiet : Quiet P (some e) (.start m :: es) ↔ Quiet P (some { providerMeta := m }) es := by
                    simp only [Quiet, hP, Bool.false_eq_true, if_false]
                  have hfree : ∀ i e', c.held = some (i, e') → ¬(grow P (.start m :: es) e').Blank →
                      .thinking i ∉ refs P T c (.start m :: es) := by
                    intro i' e' hi _
                    rw [refs_start_opens hc hP]
                    exact hold (hheld i' e' hi)
                  simp only [Option.map_some]
                  rw [hquiet]
                  exact (and_iff_left hfree).trans ih
      | add x =>
          cases hc : c.held with
          | none =>
              have ih := ih (c := c.opened (ThinkingEntry.add {} x) (c.text && P.keepsText)) hT hnew
              rw [fresh_opened, ← refs_add_none hc] at ih
              rw [Fresh, hc]
              exact (and_iff_left fun _ _ h => by cases h).trans ih
          | some y =>
              obtain ⟨i, e⟩ := y
              have ih := ih (c := { c with held := some (i, e.add x) }) hT (by
                rintro _ _ ⟨⟩
                exact hheld i e hc)
              have hfresh : Fresh P T c (.add x :: es) ↔ Fresh P T { c with held := some (i, e.add x) } es := by
                unfold Fresh
                rw [refs_add_some hc, hc]
                simp only [Option.some.injEq, Prod.mk.injEq, and_imp, forall_eq', forall_apply_eq_imp_iff]
                rfl
              rw [hfresh, ih]
              rfl
      | stop =>
          have ih := ih (c := { c with held := none }) hT fun _ _ h => by cases h
          have hquiet : Quiet P (c.held.map Prod.snd) (.stop :: es) ↔ Quiet P none es := by
            cases c.held <;> exact Iff.rfl
          have hfree : ∀ i e, c.held = some (i, e) → ¬(grow P (.stop :: es) e).Blank →
              .thinking i ∉ refs P T c (.stop :: es) := by
            intro i e hi _ h
            have h' : .thinking i ∈ refs P T { c with held := none } es := h
            rcases thinking_mem_refs h' with h | ⟨e', h⟩
            · exact absurd (hheld i e hi) (Nat.not_lt.mpr h)
            · cases h
          rw [hquiet]
          refine (and_iff_left hfree).trans (Iff.trans ?_ ih)
          exact (and_iff_left fun _ _ h => by cases h).symm
      | other =>
          have hquiet : Quiet P (c.held.map Prod.snd) (.other :: es) ↔ Quiet P (c.held.map Prod.snd) es := by
            cases c.held <;> exact Iff.rfl
          rw [hquiet]
          exact ih hT hheld

end WrongStack.Streaming

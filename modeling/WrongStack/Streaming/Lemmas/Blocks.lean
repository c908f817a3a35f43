import WrongStack.Streaming.Reducer

/-!
# The blocks of a run

A reducer keeps everything in its arrays, and its blocks are those that are read off the stream.
-/

namespace WrongStack.Streaming

open Lib Json

variable {P : Policy} {T : JsMap JsString ToolEntry} {d : Draft} {es : List Signal} {t : JsString} {e : ThinkingEntry}

theorem modify_concat {β : Type*} (l : List β) (a : β) (f : β → β) : (l ++ [a]).modify l.length f = l ++ [f a] := by
  induction l with
  | nil => rfl
  | cons b l ih => rw [List.cons_append, List.length_cons, List.modify_succ_cons, ih, List.cons_append]

namespace Draft

/-! ## Validity -/

theorem Valid.init : Valid {} where
  text _ h := by cases h
  thought _ h := by cases h
  textRef _ h := by cases h
  thoughtRef _ h := by cases h

theorem Valid.openThought (h : d.Valid) (e : ThinkingEntry) {text : Option Nat}
    (htext : ∀ i, text = some i → i < d.texts.length) : (d.openThought e text).Valid where
  text := htext
  thought i hi := by
    cases hi
    simp [Draft.openThought]
  textRef i hi := h.textRef i (by simpa [Draft.openThought] using hi)
  thoughtRef i hi := by
    simp only [Draft.openThought, List.mem_append, List.mem_singleton, BlockRef.thinking.injEq, List.length_append,
      List.length_singleton] at hi ⊢
    rcases hi with hi | rfl
    · exact Nat.lt_succ_of_lt (h.thoughtRef i hi)
    · omega

theorem Valid.step (h : d.Valid) (s : Signal) : (d.step P s).Valid := by
  cases s with
  | text t =>
      cases htext : d.text with
      | some i =>
          simp only [Draft.step, htext]
          exact ⟨fun j hj => by simpa using h.text j (htext.trans hj), h.thought,
            fun j hj => by simpa using h.textRef j hj, h.thoughtRef⟩
      | none =>
          simp only [Draft.step, htext]
          refine ⟨fun j hj => ?_, h.thought, fun j hj => ?_, fun j hj => h.thoughtRef j (by simpa using hj)⟩
          · cases hj
            simp
          · simp only [List.mem_append, List.mem_singleton, BlockRef.text.injEq, List.length_append,
              List.length_singleton] at hj ⊢
            rcases hj with hj | rfl
            · exact Nat.lt_succ_of_lt (h.textRef j hj)
            · omega
  | tool id =>
      exact ⟨(fun _ hj => by cases hj), h.thought, fun j hj => h.textRef j (by simpa [Draft.step] using hj),
        fun j hj => h.thoughtRef j (by simpa [Draft.step] using hj)⟩
  | cut => exact ⟨(fun _ hj => by cases hj), h.thought, h.textRef, h.thoughtRef⟩
  | start m =>
      cases hthought : d.thought with
      | none =>
          simp only [Draft.step, hthought]
          exact h.openThought _ fun _ hj => by cases hj
      | some i =>
          simp only [Draft.step, hthought]
          split
          · refine ⟨(fun _ hj => by cases hj), fun j hj => by simpa using h.thought j (hthought.trans hj),
              fun j hj => h.textRef j (by simpa using hj), fun j hj => ?_⟩
            simp only [List.mem_append, List.mem_singleton, BlockRef.thinking.injEq, List.length_modify] at hj ⊢
            rcases hj with hj | rfl
            · exact h.thoughtRef j hj
            · exact h.thought j hthought
          · exact h.openThought _ fun _ hj => by cases hj
  | add x =>
      cases hthought : d.thought with
      | none =>
          simp only [Draft.step, hthought]
          refine h.openThought _ fun j hj => ?_
          split at hj
          · exact h.text j hj
          · cases hj
      | some i =>
          simp only [Draft.step, hthought]
          exact ⟨h.text, fun j hj => by simpa using h.thought j (hthought.trans hj), h.textRef,
            fun j hj => by simpa using h.thoughtRef j hj⟩
  | stop => exact ⟨h.text, (fun _ hj => by cases hj), h.textRef, h.thoughtRef⟩
  | other => exact h

/-! ## New blocks -/

theorem blocks_append {d' : Draft} (ref : BlockRef) (horder : d'.order = d.order ++ [ref])
    (h : ∀ r ∈ d.order, d'.showRef T r = d.showRef T r) : d'.blocks T = d.blocks T ++ d'.showRef T ref := by
  unfold blocks
  rw [horder, List.flatMap_append, List.flatMap_singleton, List.flatMap_congr h]

theorem blocks_congr {d' : Draft} (horder : d'.order = d.order) (htexts : d'.texts = d.texts)
    (hthoughts : d'.thoughts = d.thoughts) : d'.blocks T = d.blocks T := by
  unfold blocks
  rw [horder]
  refine List.flatMap_congr fun r _ => ?_
  cases r with
  | text i => simp only [showRef, htexts]
  | tool id => rfl
  | thinking i => simp only [showRef, hthoughts]

/-- Nothing is added to a block of text that ends. -/
theorem grown_texts {s : Signal} (hend : ∀ o x, growText P o (s :: es) x = x) : (d.grown P (s :: es)).texts = d.texts := by
  have hid : growText P d.thought.isSome (s :: es) = fun x => x := funext (hend _)
  unfold grown
  rw [hid]
  cases d.text with
  | none => rfl
  | some i => exact List.modify_id i d.texts

theorem grown_texts_none (htext : d.text = none) : (d.grown P es).texts = d.texts := by simp only [grown, htext]

theorem showRef_texts {d' : Draft} (h : d.Valid) (htexts : d'.texts = d.texts ++ [t]) (hthoughts : d'.thoughts = d.thoughts)
    {r : BlockRef} (hr : r ∈ d.order) : d'.showRef T r = d.showRef T r := by
  cases r with
  | text i =>
      have hi := h.textRef i hr
      simp only [showRef, htexts, List.getElem?_append_left hi]
  | tool id => rfl
  | thinking i => simp only [showRef, hthoughts]

theorem showRef_thoughts {d' : Draft} (h : d.Valid) (htexts : d'.texts = d.texts)
    (hthoughts : d'.thoughts = d.thoughts ++ [e]) {r : BlockRef} (hr : r ∈ d.order) :
    d'.showRef T r = d.showRef T r := by
  cases r with
  | text i => simp only [showRef, htexts]
  | tool id => rfl
  | thinking i =>
      have hi := h.thoughtRef i hr
      simp only [showRef, hthoughts, List.getElem?_append_left hi]

theorem Valid.grown (h : d.Valid) (es : List Signal) : (d.grown P es).Valid where
  text i hi := by
    have := h.text i hi
    unfold Draft.grown
    split <;> simpa
  thought i hi := by
    have := h.thought i hi
    simp only [Draft.grown]
    split <;> simpa
  textRef i hi := by
    have := h.textRef i hi
    simp only [Draft.grown]
    split <;> simpa
  thoughtRef i hi := by
    have := h.thoughtRef i hi
    simp only [Draft.grown]
    split <;> simpa

theorem cursor_of_thought {i : Nat} (h : d.Valid) (hthought : d.thought = some i) :
    ∃ e, d.thoughts[i]? = some e ∧ d.cursor.held = some (i, e) := by
  have hi := h.thought i hthought
  exact ⟨d.thoughts[i], List.getElem?_eq_getElem hi, by simp [cursor, hthought, hi]⟩

theorem held_none (hthought : d.thought = none) : d.cursor.held = none := by simp [cursor, hthought]

theorem isSome_held (h : d.Valid) : d.cursor.held.isSome = d.thought.isSome := by
  cases hthought : d.thought with
  | none => rw [held_none hthought]; rfl
  | some i =>
      obtain ⟨e, -, he⟩ := cursor_of_thought h hthought
      rw [he]
      rfl

theorem blocks_openThought (h : d.Valid) (e : ThinkingEntry) (text : Option Nat) (s : Signal)
    (hstep : d.step P s = d.openThought e text) (htext : text = d.text ∨ text = none)
    (hgrow : ∀ i x, d.text = some i → growText P d.thought.isSome (s :: es) x = if text = none then x else growText P true es x)
    (hheld : ∀ i x, d.thought = some i → grow P (s :: es) x = x) :
    ((d.step P s).grown P es).blocks T =
      (d.grown P (s :: es)).blocks T ++ showThought d.thoughts.length (grow P es e) := by
  have hthoughts : (d.grown P (s :: es)).thoughts = d.thoughts := by
    cases hthought : d.thought with
    | none => simp [Draft.grown, hthought]
    | some i =>
        have hid : grow P (s :: es) = id := funext fun x => hheld i x hthought
        simp [Draft.grown, hthought, hid]
  have hthoughts' : ((d.step P s).grown P es).thoughts = (d.grown P (s :: es)).thoughts ++ [grow P es e] := by
    rw [hstep, hthoughts]
    exact modify_concat d.thoughts e (grow P es)
  have htexts : ((d.step P s).grown P es).texts = (d.grown P (s :: es)).texts := by
    rw [hstep]
    rcases htext with rfl | rfl
    · cases htext : d.text with
      | none => simp [Draft.grown, openThought, htext]
      | some i =>
          have hg : growText P d.thought.isSome (s :: es) = growText P true es :=
            funext fun x => (hgrow i x htext).trans (if_neg (by simp [htext]))
          simp only [Draft.grown, openThought, htext, hg]
          rfl
    · cases htext : d.text with
      | none => simp [Draft.grown, openThought, htext]
      | some i =>
          have hg : growText P d.thought.isSome (s :: es) = id :=
            funext fun x => (hgrow i x htext).trans (if_pos rfl)
          simp [Draft.grown, openThought, htext, hg]
  have horder : ((d.step P s).grown P es).order = (d.grown P (s :: es)).order ++ [.thinking d.thoughts.length] := by
    rw [hstep]
    rfl
  rw [blocks_append _ horder fun r hr => showRef_thoughts (h.grown _) htexts hthoughts' hr]
  simp [showRef, hthoughts', hthoughts]

/-- The run lemma: what is in the arrays at the end are the blocks of the start, grown, and those read off the
signals. -/
theorem blocks_run (h : d.Valid) (es : List Signal) :
    (d.run P es).blocks T = (d.grown P es).blocks T ++ rest P T d.cursor es := by
  induction es generalizing d with
  | nil =>
      have hgrown : d.grown P [] = d := by
        have ht (o : Bool) : growText P o [] = id := rfl
        have he : grow P [] = id := rfl
        obtain ⟨texts, text, thoughts, thought, order⟩ := d
        cases text <;> cases thought <;> simp [grown, ht, he]
      rw [hgrown, rest, List.append_nil]
      rfl
  | cons s es ih =>
      change ((d.step P s).run P es).blocks T = _
      rw [ih (h.step s)]
      cases s with
      | text t =>
          cases htext : d.text with
          | some i =>
              have hgrown : (d.step P (.text t)).grown P es = d.grown P (.text t :: es) := by
                simp only [step, grown, htext, List.modify_modify_eq]
                rfl
              have hcursor : (d.step P (.text t)).cursor = d.cursor := by simp [step, cursor, htext]
              rw [hgrown, hcursor, rest, if_pos (by simp [cursor, htext])]
          | none =>
              have htexts : ((d.step P (.text t)).grown P es).texts =
                  (d.grown P (.text t :: es)).texts ++ [growText P d.thought.isSome es t] := by
                simp only [step, grown, htext, modify_concat]
              have hthoughts : ((d.step P (.text t)).grown P es).thoughts = (d.grown P (.text t :: es)).thoughts := by
                simp only [step, grown, htext]
                rfl
              have horder : ((d.step P (.text t)).grown P es).order =
                  (d.grown P (.text t :: es)).order ++ [.text d.texts.length] := by
                simp only [step, grown, htext]
              have hlength : (d.grown P (.text t :: es)).texts = d.texts := by simp only [grown, htext]
              have hcursor : (d.step P (.text t)).cursor =
                  { d.cursor with texts := d.cursor.texts + 1, text := true } := by
                simp [step, cursor, htext]
              rw [blocks_append _ horder fun r hr => showRef_texts (h.grown _) htexts hthoughts hr, hcursor, rest,
                if_neg (by simp [cursor, htext]), isSome_held h, List.append_assoc]
              simp [showRef, htexts, hlength, cursor]
      | tool id =>
          have htexts : ((d.step P (.tool id)).grown P es).texts = (d.grown P (.tool id :: es)).texts := by
            rw [grown_texts fun _ _ => rfl, grown_texts_none rfl]
            rfl
          have hshow : ∀ r ∈ (d.grown P (.tool id :: es)).order,
              ((d.step P (.tool id)).grown P es).showRef T r = (d.grown P (.tool id :: es)).showRef T r := by
            intro r _
            cases r with
            | text i => simp only [showRef, htexts]
            | tool id => rfl
            | thinking i => rfl
          rw [blocks_append (.tool id) rfl hshow, rest, List.append_assoc]
          rfl
      | cut =>
          have htexts : ((d.step P .cut).grown P es).texts = (d.grown P (.cut :: es)).texts := by
            rw [grown_texts fun _ _ => rfl, grown_texts_none rfl]
            rfl
          have hblocks : ((d.step P .cut).grown P es).blocks T = (d.grown P (.cut :: es)).blocks T :=
            blocks_congr rfl htexts rfl
          rw [hblocks]
          rfl
      | start m =>
          have hnew (hstep : d.step P (.start m) = d.openThought { providerMeta := m } none)
              (hheld : ∀ i x, d.thought = some i → grow P (.start m :: es) x = x) :
              ((d.step P (.start m)).grown P es).blocks T = (d.grown P (.start m :: es)).blocks T ++
                showThought d.thoughts.length (grow P es { providerMeta := m }) :=
            blocks_openThought h _ none _ hstep (.inr rfl) (fun _ _ _ => (if_pos rfl).symm) hheld
          have hcursor (hstep : d.step P (.start m) = d.openThought { providerMeta := m } none) :
              (d.step P (.start m)).cursor = d.cursor.opened { providerMeta := m } false := by
            rw [hstep]
            simp [openThought, cursor, Cursor.opened]
          cases hthought : d.thought with
          | none =>
              have hstep : d.step P (.start m) = d.openThought { providerMeta := m } none := by simp only [step, hthought]
              have hfree : ∀ i x, d.thought = some i → grow P (.start m :: es) x = x := by
                intro i x hi
                cases hthought.symm.trans hi
              rw [hnew hstep hfree, hcursor hstep, rest, held_none hthought, List.append_assoc]
              rfl
          | some i =>
              obtain ⟨e, he, hheld⟩ := cursor_of_thought h hthought
              by_cases hP : P.takesOpen = true
              · have hstep : d.step P (.start m) = { d with
                    text := none, thoughts := d.thoughts.modify i (·.take m), order := d.order ++ [.thinking i] } := by
                  simp only [step, hthought, if_pos hP]
                have htexts : ((d.step P (.start m)).grown P es).texts = (d.grown P (.start m :: es)).texts := by
                  rw [hstep, grown_texts fun _ _ => rfl, grown_texts_none rfl]
                have hgrow : grow P (.start m :: es) = grow P es ∘ (·.take m) := by
                  funext x
                  simp only [grow, if_pos hP, Function.comp_apply]
                have hthoughts : ((d.step P (.start m)).grown P es).thoughts = (d.grown P (.start m :: es)).thoughts := by
                  rw [hstep]
                  simp only [grown, hthought, List.modify_modify_eq, hgrow]
                have horder : ((d.step P (.start m)).grown P es).order =
                    (d.grown P (.start m :: es)).order ++ [.thinking i] := by
                  rw [hstep]
                  rfl
                have hshow : ∀ r ∈ (d.grown P (.start m :: es)).order,
                    ((d.step P (.start m)).grown P es).showRef T r = (d.grown P (.start m :: es)).showRef T r := by
                  intro r _
                  cases r with
                  | text i => simp only [showRef, htexts]
                  | tool id => rfl
                  | thinking i => simp only [showRef, hthoughts]
                have hcursor : (d.step P (.start m)).cursor =
                    { d.cursor with text := false, held := some (i, e.take m) } := by
                  rw [hstep]
                  simp [cursor, hthought, he]
                have hlast : (d.grown P (.start m :: es)).thoughts[i]? = some (grow P es (e.take m)) := by
                  simp only [grown, hthought, List.getElem?_modify_eq, he, hgrow]
                  rfl
                rw [blocks_append _ horder hshow, hcursor, rest, hheld, List.append_assoc]
                simp only [showRef, hthoughts, hlast, if_pos hP]
              · have hstep : d.step P (.start m) = d.openThought { providerMeta := m } none := by
                  simp only [step, hthought, if_neg hP]
                have hfree : ∀ i x, d.thought = some i → grow P (.start m :: es) x = x := by
                  intro i x _
                  simp only [grow, if_neg hP]
                rw [hnew hstep hfree, hcursor hstep, rest, hheld, List.append_assoc]
                simp only [if_neg hP]
                rfl
      | add x =>
          cases hthought : d.thought with
          | none =>
              have hstep : d.step P (.add x) =
                  d.openThought (ThinkingEntry.add {} x) (if P.keepsText then d.text else none) := by
                simp only [step, hthought]
              have hfree : ∀ i y, d.thought = some i → grow P (.add x :: es) y = y := by
                intro i y hi
                cases hthought.symm.trans hi
              have htext : (if P.keepsText then d.text else none) = d.text ∨ (if P.keepsText then d.text else none) = none := by
                split
                · exact .inl rfl
                · exact .inr rfl
              have hgrow : ∀ i y, d.text = some i → growText P d.thought.isSome (.add x :: es) y =
                  if (if P.keepsText then d.text else none) = none then y else growText P true es y := by
                intro i y hi
                simp only [growText, hthought, hi]
                cases P.keepsText <;> rfl
              have hcursor : (d.step P (.add x)).cursor =
                  d.cursor.opened (ThinkingEntry.add {} x) (d.cursor.text && P.keepsText) := by
                rw [hstep]
                cases hP : P.keepsText <;> simp [openThought, cursor, Cursor.opened]
              rw [blocks_openThought h _ _ _ hstep htext hgrow hfree, hcursor, rest, held_none hthought, List.append_assoc]
              rfl
          | some i =>
              obtain ⟨e, he, hheld⟩ := cursor_of_thought h hthought
              have hstep : d.step P (.add x) = { d with thoughts := d.thoughts.modify i (·.add x) } := by
                simp only [step, hthought]
              have hgrown : (d.step P (.add x)).grown P es = d.grown P (.add x :: es) := by
                have hgrow : grow P (.add x :: es) = grow P es ∘ (·.add x) := rfl
                have htext : growText P true (.add x :: es) = growText P true es := rfl
                rw [hstep]
                simp only [grown, hthought, List.modify_modify_eq, hgrow, Option.isSome_some, htext]
              have hcursor : (d.step P (.add x)).cursor = { d.cursor with held := some (i, e.add x) } := by
                rw [hstep]
                simp [cursor, hthought, he]
              rw [hgrown, hcursor, rest, hheld]
      | stop =>
          have hheld : (d.step P .stop).cursor = { d.cursor with held := none } := rfl
          have hthoughts : ((d.step P .stop).grown P es).thoughts = (d.grown P (.stop :: es)).thoughts := by
            have hid : grow P (.stop :: es) = fun x => x := rfl
            simp only [step, grown, hid]
            cases d.thought with
            | none => rfl
            | some i => exact (List.modify_id i d.thoughts).symm
          have hblocks : ((d.step P .stop).grown P es).blocks T = (d.grown P (.stop :: es)).blocks T :=
            blocks_congr rfl rfl hthoughts
          rw [hblocks, hheld]
          rfl
      | other => rfl

end Draft

end WrongStack.Streaming

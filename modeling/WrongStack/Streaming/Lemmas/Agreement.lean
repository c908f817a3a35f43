import WrongStack.Streaming.Lemmas.Blocks

/-!
# Two policies on one stream

When the blocks read off under the two policies are the same.
-/

namespace WrongStack.Streaming

open Lib Json

/-- A block that no event has started ends the text, and a start always opens a block. -/
def building : Policy := ⟨false, false⟩

def aggregating : Policy := ⟨true, true⟩

/-! ## Tidy streams -/

/-- What stands of a run of text, which tools and starts end. -/
inductive TextPhase
  | out
  /-- Nothing is shown of it yet. -/
  | fresh
  | filled
  /-- A thinking block came after something that is shown. -/
  | late

namespace TextPhase

def text (p : TextPhase) (t : JsString) : TextPhase :=
  match p with
  | out | fresh => if t = [] then fresh else filled
  | filled => filled
  | late => late

/-- A thinking block is opened within the run. -/
def overtaken (p : TextPhase) (shown : Bool) : TextPhase :=
  match p with
  | out => out
  | fresh => if shown then late else fresh
  | filled | late => late

end TextPhase

/-- The open thinking block meets another start. -/
def restarts : List Signal → Bool
  | .start _ :: _ => true
  | .stop :: _ => false
  | _ :: es => restarts es
  | [] => false

/-- No start meets an open thinking block unless nothing is shown of either part, and no text is late. -/
def Tidy : TextPhase → Bool → List Signal → Prop
  | _, _, [] => True
  | p, o, .text t :: es => (p = .late → t = []) ∧ Tidy (p.text t) o es
  | _, o, .tool _ :: es => Tidy .out o es
  | _, o, .cut :: es => Tidy .out o es
  | _, o, .start m :: es =>
      ((o || restarts es) = true → (grow building es { providerMeta := m }).Blank) ∧ Tidy .out true es
  | p, true, .add _ :: es => Tidy p true es
  | p, false, .add x :: es =>
      (restarts es = true → (grow building es (ThinkingEntry.add {} x)).Blank) ∧
        Tidy (p.overtaken (!decide (grow building es (ThinkingEntry.add {} x)).Blank)) true es
  | p, _, .stop :: es => Tidy p false es
  | p, o, .other :: es => Tidy p o es

/-- No thinking block that is shown is taken again. -/
def Quiet (P : Policy) : Option ThinkingEntry → List Signal → Prop
  | _, [] => True
  | some e, .start m :: es =>
      if P.takesOpen then (grow P es (e.take m)).Blank ∧ Quiet P (some (e.take m)) es
      else Quiet P (some { providerMeta := m }) es
  | none, .start m :: es => Quiet P (some { providerMeta := m }) es
  | some e, .add x :: es => Quiet P (some (e.add x)) es
  | none, .add x :: es => Quiet P (some (ThinkingEntry.add {} x)) es
  | _, .stop :: es => Quiet P none es
  | h, _ :: es => Quiet P h es

/-! ## Thinking blocks -/

variable {P : Policy} {T : JsMap JsString ToolEntry} {es : List Signal} {t : JsString} {e a b : ThinkingEntry}
  {c d : Cursor}

/-- The same text, and a signature that is the same or not shown. -/
structure Like (a b : ThinkingEntry) : Prop where
  text : a.textBuf = b.textBuf
  signature : a.signature = b.signature ∨ b.signature = none ∧ shownSignature a.signature = none

theorem Like.refl (e : ThinkingEntry) : Like e e := ⟨rfl, .inl rfl⟩

theorem Like.add (h : Like a b) (x : Addition) : Like (a.add x) (b.add x) := by
  cases x with
  | text t => exact ⟨congrArg (· ++ t) h.text, h.signature⟩
  | signature s => exact ⟨h.text, .inl rfl⟩

theorem Like.blank (h : Like a b) (hb : b.Blank) : a.Blank := by
  refine ⟨h.text.trans hb.1, ?_⟩
  rcases h.signature with hs | ⟨-, hs⟩
  · rw [hs]
    exact hb.2
  · exact hs

theorem Like.restart (h : a.Blank) (m : Option Fields) : Like (a.take m) { providerMeta := m } :=
  ⟨h.1, .inr ⟨rfl, h.2⟩⟩

/-- Parts of which nothing is shown make a whole of which nothing is shown. -/
theorem blank_of_tidy {p : TextPhase} (h : Like a b) (htidy : Tidy p true es) (hb : (grow building es b).Blank) :
    (grow aggregating es a).Blank := by
  induction es generalizing p a b with
  | nil => exact h.blank hb
  | cons s es ih =>
      cases s with
      | text t => exact ih h htidy.2 hb
      | tool id => exact ih h htidy hb
      | cut => exact ih h htidy hb
      | start m => exact ih (Like.restart (h.blank hb) m) htidy.2 (htidy.1 rfl)
      | add x => exact ih (h.add x) htidy hb
      | stop => exact h.blank hb
      | other => exact ih h htidy hb

theorem blank_of_quiet (h : Quiet aggregating (some e) es) (hr : restarts es = true) : (grow aggregating es e).Blank := by
  induction es generalizing e with
  | nil => cases hr
  | cons s es ih =>
      cases s with
      | start m => exact h.1
      | stop => cases hr
      | add x => exact ih h hr
      | text t => exact ih h hr
      | tool id => exact ih h hr
      | cut => exact ih h hr
      | other => exact ih h hr

theorem grow_eq (hr : restarts es = false) (e : ThinkingEntry) : grow aggregating es e = grow building es e := by
  induction es generalizing e with
  | nil => rfl
  | cons s es ih =>
      cases s with
      | start m => cases hr
      | stop => rfl
      | add x => exact ih hr _
      | text t => exact ih hr _
      | tool id => exact ih hr _
      | cut => exact ih hr _
      | other => exact ih hr _

/-! ## Contents -/

def contents (P : Policy) (T : JsMap JsString ToolEntry) (c : Cursor) (es : List Signal) : List ContentBlock :=
  (rest P T c es).map Prod.snd

def textContent (t : JsString) : List ContentBlock := if t = [] then [] else [.text t]

def thoughtContent (e : ThinkingEntry) : List ContentBlock := (showThought 0 e).map Prod.snd

theorem showText_content (i : Nat) : (showText i t).map Prod.snd = textContent t := by
  unfold showText textContent
  split <;> rfl

theorem showThought_content (i : Nat) : (showThought i e).map Prod.snd = thoughtContent e := by
  unfold thoughtContent showThought
  split <;> rfl

theorem thoughtContent_blank (h : e.Blank) : thoughtContent e = [] := by
  unfold thoughtContent showThought
  rw [if_pos h]
  rfl

def isThinking : ContentBlock → Bool
  | .thinking .. => true
  | _ => false

/-- How many thinking blocks are shown. -/
def thoughtCount (bs : List ContentBlock) : Nat := bs.countP isThinking

theorem thoughtCount_append (bs cs : List ContentBlock) : thoughtCount (bs ++ cs) = thoughtCount bs + thoughtCount cs :=
  List.countP_append

theorem thoughtCount_text : thoughtCount (textContent t) = 0 := by
  unfold textContent
  split <;> rfl

theorem thoughtCount_thought (h : ¬e.Blank) : thoughtCount (thoughtContent e) = 1 := by
  unfold thoughtContent showThought
  rw [if_neg h]
  rfl

theorem thoughtCount_blank (h : e.Blank) : thoughtCount (thoughtContent e) = 0 := by rw [thoughtContent_blank h]; rfl

theorem contents_start_none {m : Option Fields} (h : c.held = none) : contents P T c (.start m :: es) =
    thoughtContent (grow P es { providerMeta := m }) ++ contents P T (c.opened { providerMeta := m } false) es := by
  simp only [contents, rest, h, List.map_append, showThought_content]

theorem contents_add_none {x : Addition} (h : c.held = none) : contents P T c (.add x :: es) =
    thoughtContent (grow P es (ThinkingEntry.add {} x)) ++
      contents P T (c.opened (ThinkingEntry.add {} x) (c.text && P.keepsText)) es := by
  simp only [contents, rest, h, List.map_append, showThought_content]

theorem contents_start_aggregating {m : Option Fields} {i : Nat} (h : c.held = some (i, e)) :
    contents aggregating T c (.start m :: es) = thoughtContent (grow aggregating es (e.take m)) ++
      contents aggregating T { c with text := false, held := some (i, e.take m) } es := by
  simp only [contents, rest, h, aggregating, if_true, List.map_append, showThought_content]

theorem contents_start_building {m : Option Fields} {i : Nat} (h : c.held = some (i, e)) :
    contents building T c (.start m :: es) = thoughtContent (grow building es { providerMeta := m }) ++
      contents building T (c.opened { providerMeta := m } false) es := by
  simp only [contents, rest, h, building, Bool.false_eq_true, if_false, List.map_append, showThought_content]

theorem contents_add_some {x : Addition} {i : Nat} (h : c.held = some (i, e)) :
    contents P T c (.add x :: es) = contents P T { c with held := some (i, e.add x) } es := by
  simp only [contents, rest, h]

theorem growText_eq (o : Bool) (x : JsString) : growText P o es x = x ++ growText P o es [] := by
  induction es generalizing o x with
  | nil => simp [growText]
  | cons s es ih =>
      cases s with
      | text t =>
          simp only [growText, List.nil_append]
          rw [ih o (x ++ t), ih o t, List.append_assoc]
      | add y =>
          simp only [growText]
          split
          · exact ih true x
          · simp
      | stop => exact ih false x
      | other => exact ih o x
      | tool id => simp [growText]
      | cut => simp [growText]
      | start m => simp [growText]

theorem contents_text (P : Policy) (T : JsMap JsString ToolEntry) (c : Cursor) (t : JsString) (es : List Signal) :
    ∃ c' : Cursor, c'.text = true ∧ c'.held = c.held ∧ contents P T c (.text t :: es) =
      (if c.text then [] else textContent (growText P c.held.isSome es t)) ++ contents P T c' es := by
  by_cases hc : c.text = true
  · exact ⟨c, hc, rfl, by simp only [contents, rest, if_pos hc, List.nil_append]⟩
  · refine ⟨{ c with texts := c.texts + 1, text := true }, rfl, rfl, ?_⟩
    simp only [contents, rest, if_neg hc, List.map_append, showText_content]

theorem held_cases {h h' : Option (Nat × ThinkingEntry)} (heq : h.isSome = h'.isSome) :
    h = none ∧ h' = none ∨ ∃ i a j b, h = some (i, a) ∧ h' = some (j, b) := by
  cases h with
  | none =>
      cases h' with
      | none => exact .inl ⟨rfl, rfl⟩
      | some x => cases heq
  | some x =>
      cases h' with
      | none => cases heq
      | some y => exact .inr ⟨x.1, x.2, y.1, y.2, rfl, rfl⟩

/-- The part that a new thinking block shows is no more under `aggregating` than under `building`. -/
theorem thoughtCount_opened (hq : Quiet aggregating (some e) es) :
    thoughtCount (thoughtContent (grow aggregating es e)) ≤ thoughtCount (thoughtContent (grow building es e)) := by
  cases hr : restarts es with
  | true =>
      rw [thoughtCount_blank (blank_of_quiet hq hr)]
      exact Nat.zero_le _
  | false => rw [grow_eq hr]

theorem thoughtCount_le (hheld : c.held.isSome = d.held.isSome)
    (hq : Quiet aggregating (c.held.map Prod.snd) es) :
    thoughtCount (contents aggregating T c es) ≤ thoughtCount (contents building T d es) := by
  induction es generalizing c d with
  | nil => exact Nat.le_refl _
  | cons s es ih =>
      cases s with
      | text t =>
          obtain ⟨c', -, hA, heqA⟩ := contents_text aggregating T c t es
          obtain ⟨d', -, hB, heqB⟩ := contents_text building T d t es
          have hzero (b : Bool) (u : JsString) : thoughtCount (if b then [] else textContent u) = 0 := by
            cases b
            · exact thoughtCount_text
            · rfl
          have hq' : Quiet aggregating (c'.held.map Prod.snd) es := by
            rw [hA]
            cases hc : c.held <;> simpa [hc, Quiet] using hq
          rw [heqA, heqB, thoughtCount_append, thoughtCount_append, hzero, hzero, Nat.zero_add, Nat.zero_add]
          exact ih (by rw [hA, hB, hheld]) hq'
      | tool id =>
          have hq' : Quiet aggregating (c.held.map Prod.snd) es := by
            cases hc : c.held <;> simpa [hc, Quiet] using hq
          simp only [contents, rest, List.map_append, thoughtCount_append]
          exact Nat.add_le_add_left (ih (c := { c with text := false }) (d := { d with text := false }) hheld hq') _
      | cut =>
          have hq' : Quiet aggregating (c.held.map Prod.snd) es := by
            cases hc : c.held <;> simpa [hc, Quiet] using hq
          exact ih (c := { c with text := false }) (d := { d with text := false }) hheld hq'
      | start m =>
          obtain ⟨hA, hB⟩ | ⟨i, a, j, b, hA, hB⟩ := held_cases hheld
          · rw [hA] at hq
            rw [contents_start_none hA, contents_start_none hB, thoughtCount_append, thoughtCount_append]
            exact Nat.add_le_add (thoughtCount_opened hq) (ih rfl hq)
          · rw [hA] at hq
            rw [contents_start_aggregating hA, contents_start_building hB, thoughtCount_append, thoughtCount_append,
              thoughtCount_blank hq.1]
            exact Nat.add_le_add (Nat.zero_le _) (ih rfl hq.2)
      | add x =>
          obtain ⟨hA, hB⟩ | ⟨i, a, j, b, hA, hB⟩ := held_cases hheld
          · rw [hA] at hq
            rw [contents_add_none hA, contents_add_none hB, thoughtCount_append, thoughtCount_append]
            exact Nat.add_le_add (thoughtCount_opened hq) (ih rfl hq)
          · rw [hA] at hq
            rw [contents_add_some hA, contents_add_some hB]
            exact ih rfl hq
      | stop =>
          have hq' : Quiet aggregating none es := by
            cases hc : c.held <;> simpa [hc, Quiet] using hq
          exact ih (c := { c with held := none }) (d := { d with held := none }) rfl hq'
      | other =>
          have hq' : Quiet aggregating (c.held.map Prod.snd) es := by
            cases hc : c.held <;> simpa [hc, Quiet] using hq
          exact ih (c := c) (d := d) hheld hq'

/-! ## Agreement, one signal at a time -/

/-- The contents still to come agree, given the texts that the open blocks of text still get. -/
def Agreeing (p : TextPhase) (textA textB : JsString) (A B : List ContentBlock) : Prop :=
  match p with
  | .out => A = B
  | .fresh => textContent textA ++ A = textContent textB ++ B
  | .filled => textA = textB ∧ A = B
  | .late => textA = [] ∧ A = textContent textB ++ B

theorem textContent_cons {u v : JsString} {A B : List ContentBlock} (ht : t ≠ []) :
    textContent (t ++ u) ++ A = textContent (t ++ v) ++ B ↔ u = v ∧ A = B := by
  have hu : t ++ u ≠ [] := fun h => ht (List.append_eq_nil_iff.mp h).1
  have hv : t ++ v ≠ [] := fun h => ht (List.append_eq_nil_iff.mp h).1
  simp only [textContent, if_neg hu, if_neg hv, List.cons_append, List.nil_append, List.cons.injEq,
    ContentBlock.text.injEq, List.append_cancel_left_eq]

variable {u v : JsString} {A B : List ContentBlock} {p : TextPhase}

theorem TextPhase.text_ne_out (p : TextPhase) (t : JsString) : p.text t ≠ .out := by
  cases p with
  | out => simp only [TextPhase.text]; split <;> nofun
  | fresh => simp only [TextPhase.text]; split <;> nofun
  | filled => nofun
  | late => nofun

theorem TextPhase.overtaken_eq_out {p : TextPhase} (shown : Bool) : p.overtaken shown = .out ↔ p = .out := by
  cases p <;> cases shown <;> simp [TextPhase.overtaken]

theorem TextPhase.overtaken_ne_filled (p : TextPhase) (shown : Bool) : p.overtaken shown ≠ .filled := by
  cases p <;> cases shown <;> simp [TextPhase.overtaken]

theorem agreeing_first : textContent (t ++ u) ++ A = textContent (t ++ v) ++ B ↔
    Agreeing (TextPhase.out.text t) u v A B := by
  by_cases ht : t = []
  · subst ht
    simp [TextPhase.text, Agreeing]
  · rw [textContent_cons ht]
    simp [TextPhase.text, Agreeing, ht]

theorem agreeing_text (hp : p ≠ .out) : Agreeing p (t ++ u) (t ++ v) A B ↔
    (p = .late → t = []) ∧ Agreeing (p.text t) u v A B := by
  cases p with
  | out => exact absurd rfl hp
  | fresh => exact agreeing_first.trans (iff_and_self.mpr fun _ h => by cases h)
  | filled => simp [Agreeing, TextPhase.text]
  | late =>
      simp only [Agreeing, TextPhase.text, true_implies, List.append_eq_nil_iff, and_assoc]
      refine and_congr_right fun ht => ?_
      rw [ht, List.nil_append]

/-- A thinking block is opened, and shows the same. -/
theorem agreeing_overtaken (e : ThinkingEntry) : Agreeing p u [] (thoughtContent e ++ A) (thoughtContent e ++ B) ↔
    Agreeing (p.overtaken !decide e.Blank) u [] A B := by
  have hnil : textContent [] = [] := rfl
  cases p with
  | out => simp [Agreeing, TextPhase.overtaken]
  | fresh =>
      by_cases he : e.Blank
      · simp [TextPhase.overtaken, he, thoughtContent_blank he]
      · have hone : thoughtContent e = [.thinking e.textBuf (shownSignature e.signature) (shownMeta e.providerMeta)] := by
          unfold thoughtContent showThought
          rw [if_neg he]
          rfl
        rw [hone]
        by_cases hu : u = []
        · simp [TextPhase.overtaken, he, Agreeing, hu, hnil]
        · simp [TextPhase.overtaken, he, Agreeing, hu, textContent]
  | filled => simp [Agreeing, TextPhase.overtaken, hnil]
  | late => simp [Agreeing, TextPhase.overtaken, hnil]

theorem agreeing_nil : Agreeing p [] [] A B ↔ A = B := by
  cases p <;> simp [Agreeing, textContent]

/-- A block of text that is opened again shows what it would have shown. -/
theorem agreeing_reopened {o : Bool} (hp : p ≠ .out) (hfilled : p = .filled → o = true) :
    Agreeing p u (if o then v else []) A ((if o then [] else textContent v) ++ B) ↔ Agreeing p u v A B := by
  cases o with
  | true => simp
  | false =>
      cases p with
      | out => exact absurd rfl hp
      | fresh => simp [Agreeing, textContent]
      | filled => cases hfilled rfl
      | late => simp [Agreeing, textContent]

theorem agreeing_count (h : Agreeing p u v A B) : thoughtCount A = thoughtCount B := by
  cases p with
  | out => rw [show A = B from h]
  | fresh =>
      have h := congrArg thoughtCount (show textContent u ++ A = textContent v ++ B from h)
      simpa [thoughtCount_append, thoughtCount_text] using h
  | filled => rw [h.2]
  | late => rw [h.2, thoughtCount_append, thoughtCount_text, Nat.zero_add]

/-! ## Agreement on a stream -/

/-- The open blocks of text that go with the phase. -/
structure Stage (p : TextPhase) (c d : Cursor) : Prop where
  out : p = .out ↔ c.text = false
  closed : p = .out → d.text = false
  filled : p = .filled → d.text = true

/-- The open thinking blocks are alike, and nothing is shown of one that is to be taken again. -/
def Held (c d : Cursor) (es : List Signal) : Prop :=
  ∀ i a j b, c.held = some (i, a) → d.held = some (j, b) →
    Like a b ∧ (restarts es = true → (grow building es b).Blank)

theorem held_opened {o r : Bool} (hb : restarts es = true → (grow building es e).Blank) :
    Held (c.opened e o) (d.opened e r) es := by
  rintro i a j b ⟨⟩ ⟨⟩
  exact ⟨Like.refl e, hb⟩

/-- The two cursors at a thinking block that both policies open. -/
theorem agreeing_opened (es : List Signal) {o r : Bool}
    (ih : (restarts es = true → (grow building es e).Blank) →
      (Agreeing (p.overtaken !decide (grow building es e).Blank) u [] (contents aggregating T (c.opened e o) es)
        (contents building T (d.opened e r) es) ∧ Quiet aggregating (some e) es ↔
      Tidy (p.overtaken !decide (grow building es e).Blank) true es)) :
    (Agreeing p u [] (thoughtContent (grow aggregating es e) ++ contents aggregating T (c.opened e o) es)
        (thoughtContent (grow building es e) ++ contents building T (d.opened e r) es) ∧
        Quiet aggregating (some e) es) ↔
      (restarts es = true → (grow building es e).Blank) ∧
        Tidy (p.overtaken !decide (grow building es e).Blank) true es := by
  by_cases hb : restarts es = true → (grow building es e).Blank
  · have hsame (hblank : restarts es = true → (grow aggregating es e).Blank) :
        thoughtContent (grow aggregating es e) = thoughtContent (grow building es e) := by
      cases hr : restarts es with
      | true => rw [thoughtContent_blank (hblank hr), thoughtContent_blank (hb hr)]
      | false => rw [grow_eq hr]
    constructor
    · rintro ⟨hagree, hquiet⟩
      rw [hsame (blank_of_quiet hquiet), agreeing_overtaken] at hagree
      exact ⟨hb, (ih hb).mp ⟨hagree, hquiet⟩⟩
    · rintro ⟨-, htidy⟩
      rw [hsame fun hr => blank_of_tidy (Like.refl e) htidy (hb hr), agreeing_overtaken]
      exact (ih hb).mpr htidy
  · refine iff_of_false (fun h => ?_) fun h => hb h.1
    obtain ⟨hagree, hquiet⟩ := h
    simp only [Classical.not_imp] at hb
    have hcount := agreeing_count hagree
    rw [thoughtCount_append, thoughtCount_append, thoughtCount_blank (blank_of_quiet hquiet hb.1),
      thoughtCount_thought hb.2] at hcount
    have hle : thoughtCount (contents aggregating T (c.opened e o) es) ≤
        thoughtCount (contents building T (d.opened e r) es) := thoughtCount_le rfl hquiet
    omega

/-- Under both policies the stream shows the same, and each block once, exactly if it is tidy. -/
theorem agreeing_iff (es : List Signal) (hstage : Stage p c d) (hsome : c.held.isSome = d.held.isSome) (hheld : Held c d es) :
    (Agreeing p (growText aggregating c.held.isSome es [])
        (if d.text then growText building d.held.isSome es [] else []) (contents aggregating T c es)
        (contents building T d es) ∧ Quiet aggregating (c.held.map Prod.snd) es) ↔
      Tidy p d.held.isSome es := by
  induction es generalizing p c d with
  | nil =>
      have hended : (if d.text then growText building d.held.isSome [] [] else []) = [] := ite_self _
      rw [hended]
      exact iff_of_true ⟨agreeing_nil.mpr rfl, trivial⟩ trivial
  | cons s es ih =>
      have hended : (if d.text then ([] : JsString) else []) = [] := ite_self _
      cases s with
      | text t =>
          obtain ⟨c', htA, hA, heqA⟩ := contents_text aggregating T c t es
          obtain ⟨d', htB, hB, heqB⟩ := contents_text building T d t es
          have hout := p.text_ne_out t
          have ih := ih (p := p.text t) ⟨iff_of_false hout fun h => Bool.false_ne_true (h.symm.trans htA),
              fun h => absurd h hout, fun _ => htB⟩
            (by rw [hA, hB, hsome]) (by rw [Held, hA, hB]; exact hheld)
          rw [htB, if_pos rfl, hA, hB] at ih
          have hquiet : Quiet aggregating (c.held.map Prod.snd) (.text t :: es) ↔
              Quiet aggregating (c.held.map Prod.snd) es := by
            cases c.held <;> exact Iff.rfl
          have hgA : growText aggregating c.held.isSome (.text t :: es) [] =
              t ++ growText aggregating c.held.isSome es [] := growText_eq _ t
          have hgB : growText building d.held.isSome (.text t :: es) [] =
              t ++ growText building d.held.isSome es [] := growText_eq _ t
          have htidy : Tidy p d.held.isSome (.text t :: es) ↔
              (p = .late → t = []) ∧ Tidy (p.text t) d.held.isSome es := Iff.rfl
          rw [heqA, heqB, hquiet, hgA, hgB, growText_eq (P := aggregating) _ t, growText_eq (P := building) _ t, htidy,
            ← ih, ← and_assoc]
          refine and_congr_left fun _ => ?_
          by_cases hp : p = .out
          · subst hp
            rw [hstage.out.mp rfl, hstage.closed rfl]
            exact agreeing_first.trans (iff_and_self.mpr fun _ h => by cases h)
          · have hopen : c.text = true := by
              cases hc : c.text with
              | true => rfl
              | false => exact absurd (hstage.out.mpr hc) hp
            rw [hopen, if_pos rfl, List.nil_append, agreeing_reopened hp hstage.filled]
            exact agreeing_text hp
      | tool id =>
          have ih := ih (p := .out) (c := { c with text := false }) (d := { d with text := false })
            ⟨iff_of_true rfl rfl, fun _ => rfl, fun h => by cases h⟩ hsome hheld
          have hquiet : Quiet aggregating (c.held.map Prod.snd) (.tool id :: es) ↔
              Quiet aggregating (c.held.map Prod.snd) es := by
            cases c.held <;> exact Iff.rfl
          have htidy : Tidy p d.held.isSome (.tool id :: es) ↔ Tidy .out d.held.isSome es := Iff.rfl
          have hends : Agreeing p (growText aggregating c.held.isSome (.tool id :: es) [])
              (if d.text then growText building d.held.isSome (.tool id :: es) [] else [])
              (contents aggregating T c (.tool id :: es)) (contents building T d (.tool id :: es)) ↔
              contents aggregating T { c with text := false } es = contents building T { d with text := false } es := by
            simp only [growText, hended, agreeing_nil, contents, rest, List.map_append, List.append_cancel_left_eq]
          rw [hends, hquiet, htidy]
          exact ih
      | cut =>
          have ih := ih (p := .out) (c := { c with text := false }) (d := { d with text := false })
            ⟨iff_of_true rfl rfl, fun _ => rfl, fun h => by cases h⟩ hsome hheld
          have hquiet : Quiet aggregating (c.held.map Prod.snd) (.cut :: es) ↔
              Quiet aggregating (c.held.map Prod.snd) es := by
            cases c.held <;> exact Iff.rfl
          have htidy : Tidy p d.held.isSome (.cut :: es) ↔ Tidy .out d.held.isSome es := Iff.rfl
          have hends : Agreeing p (growText aggregating c.held.isSome (.cut :: es) [])
              (if d.text then growText building d.held.isSome (.cut :: es) [] else [])
              (contents aggregating T c (.cut :: es)) (contents building T d (.cut :: es)) ↔
              contents aggregating T { c with text := false } es = contents building T { d with text := false } es := by
            simp only [growText, hended, agreeing_nil, contents, rest]
          rw [hends, hquiet, htidy]
          exact ih
      | start m =>
          have hends : Agreeing p (growText aggregating c.held.isSome (.start m :: es) [])
              (if d.text then growText building d.held.isSome (.start m :: es) [] else [])
              (contents aggregating T c (.start m :: es)) (contents building T d (.start m :: es)) ↔
              contents aggregating T c (.start m :: es) = contents building T d (.start m :: es) := by
            simp only [growText, hended, agreeing_nil]
          rw [hends]
          obtain ⟨hA, hB⟩ | ⟨i, a, j, b, hA, hB⟩ := held_cases hsome
          · have hopened := agreeing_opened es (p := .out) (u := []) (T := T) (c := c) (d := d) (o := false)
              (r := false) (e := { providerMeta := m }) fun hb =>
                ih (p := .out) ⟨iff_of_true rfl rfl, fun _ => rfl, fun h => by cases h⟩ rfl (held_opened hb)
            rw [contents_start_none hA, contents_start_none hB, hA, hB]
            exact hopened
          · obtain ⟨hlike, hblank⟩ := hheld i a j b hA hB
            have ha : a.Blank := hlike.blank (hblank rfl)
            rw [contents_start_aggregating hA, contents_start_building hB, hA, hB]
            have htidy : Tidy p true (.start m :: es) ↔
                (grow building es { providerMeta := m }).Blank ∧ Tidy .out true es := by simp [Tidy]
            have hquiet : Quiet aggregating (some a) (.start m :: es) ↔
                (grow aggregating es (a.take m)).Blank ∧ Quiet aggregating (some (a.take m)) es := Iff.rfl
            simp only [Option.map_some, Option.isSome_some]
            rw [htidy, hquiet]
            by_cases hb : (grow building es { providerMeta := m }).Blank
            · have ih := ih (p := .out) (c := { c with text := false, held := some (i, a.take m) })
                (d := d.opened { providerMeta := m } false)
                ⟨iff_of_true rfl rfl, fun _ => rfl, fun h => by cases h⟩ rfl (by
                  rintro _ _ _ _ ⟨⟩ ⟨⟩
                  exact ⟨Like.restart ha m, fun _ => hb⟩)
              constructor
              · rintro ⟨hagree, hA', hquiet⟩
                rw [thoughtContent_blank hA', thoughtContent_blank hb] at hagree
                exact ⟨hb, ih.mp ⟨hagree, hquiet⟩⟩
              · rintro ⟨-, htidy⟩
                have hA' := blank_of_tidy (Like.restart ha m) htidy hb
                rw [thoughtContent_blank hA', thoughtContent_blank hb]
                obtain ⟨hagree, hquiet⟩ := ih.mpr htidy
                exact ⟨hagree, hA', hquiet⟩
            · refine iff_of_false (fun h => ?_) fun h => hb h.1
              obtain ⟨hagree, hA', hquiet⟩ := h
              have hcount := congrArg thoughtCount hagree
              rw [thoughtCount_append, thoughtCount_append, thoughtCount_blank hA', thoughtCount_thought hb] at hcount
              have hle : thoughtCount (contents aggregating T { c with text := false, held := some (i, a.take m) } es) ≤
                  thoughtCount (contents building T (d.opened { providerMeta := m } false) es) := thoughtCount_le rfl hquiet
              omega
      | add x =>
          obtain ⟨hA, hB⟩ | ⟨i, a, j, b, hA, hB⟩ := held_cases hsome
          · have hopened := agreeing_opened es (p := p) (u := growText aggregating true es []) (T := T) (c := c) (d := d)
              (o := c.text && aggregating.keepsText) (r := d.text && building.keepsText)
              (e := ThinkingEntry.add {} x) fun hb => by
                have hB' : (d.text && building.keepsText) = false := Bool.and_false _
                have hA' : (c.text && aggregating.keepsText) = c.text := Bool.and_true _
                have ih := ih (p := p.overtaken !decide (grow building es (ThinkingEntry.add {} x)).Blank)
                  (c := c.opened (ThinkingEntry.add {} x) (c.text && aggregating.keepsText))
                  (d := d.opened (ThinkingEntry.add {} x) (d.text && building.keepsText))
                  ⟨(TextPhase.overtaken_eq_out _).trans (hstage.out.trans (by rw [Cursor.opened, hA'])), fun _ => hB',
                    fun h => absurd h (TextPhase.overtaken_ne_filled _ _)⟩ rfl (held_opened hb)
                have hclosed : (d.opened (ThinkingEntry.add {} x) (d.text && building.keepsText)).text = false := hB'
                rw [hclosed, if_neg Bool.false_ne_true] at ih
                exact ih
            have hgB : (if d.text then
                growText building (none : Option (Nat × ThinkingEntry)).isSome (.add x :: es) [] else []) = [] :=
              ite_self _
            rw [contents_add_none hA, contents_add_none hB, hA, hB, hgB]
            exact hopened
          · rw [contents_add_some hA, contents_add_some hB, hA, hB]
            exact ih (p := p) (c := { c with held := some (i, a.add x) }) (d := { d with held := some (j, b.add x) })
              ⟨hstage.out, hstage.closed, hstage.filled⟩ rfl (by
                rintro _ _ _ _ ⟨⟩ ⟨⟩
                obtain ⟨hlike, hblank⟩ := hheld i a j b hA hB
                exact ⟨hlike.add x, hblank⟩)
      | stop =>
          have hquiet : Quiet aggregating (c.held.map Prod.snd) (.stop :: es) ↔ Quiet aggregating none es := by
            cases c.held <;> exact Iff.rfl
          have htidy : Tidy p d.held.isSome (.stop :: es) ↔ Tidy p false es := by
            cases d.held <;> exact Iff.rfl
          rw [hquiet, htidy]
          exact ih (p := p) (c := { c with held := none }) (d := { d with held := none })
            ⟨hstage.out, hstage.closed, hstage.filled⟩ rfl fun _ _ _ _ h => by cases h
      | other =>
          have hquiet : Quiet aggregating (c.held.map Prod.snd) (.other :: es) ↔
              Quiet aggregating (c.held.map Prod.snd) es := by
            cases c.held <;> exact Iff.rfl
          have htidy : Tidy p d.held.isSome (.other :: es) ↔ Tidy p d.held.isSome es := by
            cases d.held <;> exact Iff.rfl
          rw [hquiet, htidy]
          exact ih hstage hsome hheld

end WrongStack.Streaming

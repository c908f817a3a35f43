import WrongStack.Sse.Lemmas.Cuts
import WrongStack.Sse.Theorems

/-!
# The data of folded lines

A message whose lines are folded has data that parses as before, if the pieces of each of its lines meet between
two tokens. It has data that is no JSON text, if some do not.
-/

namespace WrongStack.Sse

open Lib JsString Utf8 JsonParse
open Sse.Parser (field)

variable {number : JsString → JsString} {p p' : Parser} {q q1 : State} {text payload v : JsString}
  {values pieces texts : List JsString} {m m' : SSEMessage}

/-! ## Texts -/

/-- The messages of some lines, with what is left at the end of the body. -/
def read (p : Parser) : List JsString → List SSEMessage
  | [] => p.flush.1.toList
  | text :: texts => (p.processLine text).1.toList ++ read (p.processLine text).2 texts

/-- A line of the body, with what is emitted for it. -/
inductive Folded
  | whole (text : JsString)
  | folded (payload : JsString) (pieces : List JsString)

namespace Folded

def line : Folded → JsString
  | whole text => text
  | folded payload _ => js "data:" ++ payload

def emitted : Folded → List JsString
  | whole text => [text]
  | folded _ pieces => pieces.map (js "data:" ++ ·)

/-- The pieces meet between two tokens. -/
def Seamless : Folded → Prop
  | whole _ => True
  | folded _ pieces => seamless .between pieces = true

/-- Pieces that meet between two tokens are parts of the payload. -/
def Proper : Folded → Prop
  | whole _ => True
  | folded payload pieces => stripSpace payload ≠ [] ∧ pieces ≠ [] ∧ (∀ piece ∈ pieces, piece ≠ []) ∧
      (seamless .between pieces = true → pieces.flatten = payload)

end Folded

/-- The same event, with data that parses to the same value. -/
def SameMeaning (number : JsString → JsString) (m m' : SSEMessage) : Prop :=
  m'.event = m.event ∧ parse number m'.data = parse number m.data

theorem processLine_data (p : Parser) (v : JsString) :
    p.processLine (js "data:" ++ v) = (none, { p with dataLines := p.dataLines ++ [stripSpace v] }) := by
  have hfield : field (js "data:" ++ v) = (js "data", stripSpace v) := by
    unfold field
    rfl
  have hne : js "data:" ++ v ≠ [] := List.append_ne_nil_of_left_ne_nil (by decide) v
  have hhead : (js "data:" ++ v).head? = some (unit 'd') := rfl
  unfold Parser.processLine
  rw [if_neg hne, hhead, if_neg (by decide), hfield]
  rfl

theorem read_pieces (p : Parser) (pieces texts : List JsString) :
    read p (pieces.map (js "data:" ++ ·) ++ texts) =
      read { p with dataLines := p.dataLines ++ pieces.map stripSpace } texts := by
  induction pieces generalizing p with
  | nil => simp
  | cons piece pieces ih =>
      rw [List.map_cons, List.cons_append, read, processLine_data, ih]
      simp

/-! ## Runs over data lines -/

/-- The machine after the data lines. -/
def runLines (number : JsString → JsString) (dataLines : List JsString) : Option State :=
  run number {} (join (js "\n") dataLines)

theorem join_append (ds : List JsString) (hds : ds ≠ []) (hvalues : values ≠ []) :
    join (js "\n") (ds ++ values) = join (js "\n") ds ++ unit '\n' :: join (js "\n") values := by
  induction ds with
  | nil => cases hds rfl
  | cons d ds ih =>
      cases ds with
      | nil =>
          obtain ⟨v, vs, rfl⟩ := List.exists_cons_of_ne_nil hvalues
          have hone : join (js "\n") [d] = d := by simp [join]
          have hjoin : join (js "\n") (d :: v :: vs) = d ++ unit '\n' :: join (js "\n") (v :: vs) := join_cons _ _ _ _
          rw [hone]
          exact hjoin
      | cons e ds =>
          have hrest := ih (by simp)
          rw [List.cons_append, List.cons_append] at *
          have hjoin (rest : List JsString) : join (js "\n") (d :: e :: rest) =
              d ++ unit '\n' :: join (js "\n") (e :: rest) := join_cons _ _ _ _
          rw [hjoin, hjoin, hrest]
          simp

theorem join_pieces (t : JsString) (rest : List JsString) :
    join (js "\n") ((t :: rest).map stripSpace) = stripSpace t ++ onLines rest := by
  induction rest generalizing t with
  | nil =>
      have hone : join (js "\n") [stripSpace t] = stripSpace t := by simp [join]
      simpa [onLines] using hone
  | cons u rest ih =>
      have hjoin : join (js "\n") (stripSpace t :: stripSpace u :: rest.map stripSpace) =
          stripSpace t ++ unit '\n' :: join (js "\n") (stripSpace u :: rest.map stripSpace) := join_cons _ _ _ _
      rw [List.map_cons, List.map_cons, hjoin, ← List.map_cons, ih]
      simp [onLines]

theorem feed_newline_lexeme (h : JsonParse.feed number q (unit '\n') = some q1) : q1.lexeme = .between := by
  cases hlex : q.lexeme with
  | between =>
      rw [feed_newline_between hlex] at h
      cases h
      exact hlex
  | word w =>
      rw [feed_newline_word hlex] at h
      obtain ⟨p, -, rfl⟩ := Option.map_eq_some_iff.mp h
      rfl
  | string s => rw [feed_newline_string (by simp [hlex, Lexeme.mode])] at h; cases h
  | escape s => rw [feed_newline_string (by simp [hlex, Lexeme.mode])] at h; cases h
  | unicode s n left => rw [feed_newline_string (by simp [hlex, Lexeme.mode])] at h; cases h

/-- Pieces that meet between two tokens are read as their text. -/
theorem run_pieces (hq : q.lexeme = .between) (hne : ∀ piece ∈ pieces, piece ≠ []) (hpieces : pieces ≠ [])
    (h : seamless .between pieces = true) :
    run number q (join (js "\n") (pieces.map stripSpace)) = run number q (stripSpace pieces.flatten) := by
  obtain ⟨t, rest, rfl⟩ := List.exists_cons_of_ne_nil hpieces
  obtain ⟨ht, hrest⟩ := List.forall_mem_cons.mp hne
  have hmode : q.lexeme.mode = .between := by rw [hq]; rfl
  rw [join_pieces, ← stripSpace_append ht, run_stripSpace hq, run_onLines hrest (by rw [hmode]; exact h),
    List.flatten_cons, run_stripSpace hq]

/-- Pieces that meet inside a token are no part of a JSON text. -/
theorem run_pieces_split (hq : q.lexeme = .between) (hne : ∀ piece ∈ pieces, piece ≠ []) (hpieces : pieces ≠ [])
    (h : seamless .between pieces = false) (text : JsString) :
    (run number q (join (js "\n") (pieces.map stripSpace) ++ text)).bind (JsonParse.finish number) = none := by
  obtain ⟨t, rest, rfl⟩ := List.exists_cons_of_ne_nil hpieces
  obtain ⟨ht, hrest⟩ := List.forall_mem_cons.mp hne
  have hmode : q.lexeme.mode = .between := by rw [hq]; rfl
  have hstrip : stripSpace t ++ onLines rest ++ text = stripSpace (t ++ (onLines rest ++ text)) := by
    rw [stripSpace_append ht, List.append_assoc]
  rw [join_pieces, hstrip, run_stripSpace hq, ← List.append_assoc]
  exact run_onLines_split hrest (by rw [hmode]; exact h)

theorem parse_join (dataLines : List JsString) :
    parse number (join (js "\n") dataLines) = (runLines number dataLines).bind (JsonParse.finish number) := rfl

theorem runLines_append (ds : List JsString) (hds : ds ≠ []) (hvalues : values ≠ []) :
    runLines number (ds ++ values) =
      ((runLines number ds).bind fun q => JsonParse.feed number q (unit '\n')).bind fun q =>
        run number q (join (js "\n") values) := by
  rw [runLines, join_append ds hds hvalues, JsonParse.run_append, Option.bind_assoc]
  rfl

/-- Two texts that are read alike on a new line are read alike after any lines. -/
theorem runLines_congr {values' : List JsString} (ds ds' : List JsString) (hds : ds' = [] ↔ ds = [])
    (hrun : runLines number ds' = runLines number ds) (hvalues : values ≠ []) (hvalues' : values' ≠ [])
    (h : ∀ q : State, q.lexeme = .between →
      run number q (join (js "\n") values') = run number q (join (js "\n") values)) :
    runLines number (ds' ++ values') = runLines number (ds ++ values) := by
  by_cases hnil : ds = []
  · rw [hnil, hds.mpr hnil]
    exact h {} rfl
  · rw [runLines_append ds' (fun hnil' => hnil (hds.mp hnil')) hvalues', runLines_append ds hnil hvalues, hrun]
    refine Option.bind_congr fun q hq => ?_
    obtain ⟨q0, -, hq0⟩ := Option.bind_eq_some_iff.mp hq
    exact h q (feed_newline_lexeme hq0)

/-! ## Two parsers -/

/-- The second parser has read lines that mean the same. -/
structure Alike (number : JsString → JsString) (p p' : Parser) : Prop where
  event : p'.event = p.event
  empty : p'.dataLines = [] ↔ p.dataLines = []
  run : runLines number p'.dataLines = runLines number p.dataLines

/-- The data of the second parser cannot become a JSON text any more. -/
structure Spoiled (number : JsString → JsString) (p p' : Parser) : Prop where
  event : p'.event = p.event
  full : p.dataLines ≠ [] ∧ p'.dataLines ≠ []
  data : join (js "\n") p.dataLines ≠ []
  never : ∀ text, (run number {} (join (js "\n") p'.dataLines ++ text)).bind (JsonParse.finish number) = none

theorem Alike.flush (h : Alike number p p') :
    List.Forall₂ (SameMeaning number) p.flush.1.toList p'.flush.1.toList ∧ Alike number p.flush.2 p'.flush.2 := by
  unfold Parser.flush
  by_cases hnone : p.dataLines = [] ∧ p.event = js "message"
  · have hnone' : p'.dataLines = [] ∧ p'.event = js "message" := ⟨h.empty.mpr hnone.1, h.event.trans hnone.2⟩
    rw [if_pos hnone, if_pos hnone']
    exact ⟨.nil, h⟩
  · have hnone' : ¬ (p'.dataLines = [] ∧ p'.event = js "message") :=
      fun hnil => hnone ⟨h.empty.mp hnil.1, h.event.symm.trans hnil.2⟩
    rw [if_neg hnone, if_neg hnone']
    refine ⟨.cons ⟨h.event, ?_⟩ .nil, ⟨rfl, by simp, rfl⟩⟩
    rw [parse_join, parse_join, h.run]

theorem Alike.append {values values' : List JsString} (h : Alike number p p') (hvalues : values ≠ [])
    (hvalues' : values' ≠ []) (hrun : ∀ q : State, q.lexeme = .between →
      JsonParse.run number q (join (js "\n") values') = JsonParse.run number q (join (js "\n") values)) :
    Alike number { p with dataLines := p.dataLines ++ values } { p' with dataLines := p'.dataLines ++ values' } :=
  ⟨h.event, by simp [hvalues, hvalues'], runLines_congr _ _ h.empty h.run hvalues hvalues' hrun⟩

theorem Alike.processLine (h : Alike number p p') (text : JsString) :
    List.Forall₂ (SameMeaning number) (p.processLine text).1.toList (p'.processLine text).1.toList ∧
      Alike number (p.processLine text).2 (p'.processLine text).2 := by
  unfold Parser.processLine
  split
  · exact h.flush
  · split
    · exact ⟨.nil, h⟩
    · dsimp only
      split
      · exact ⟨.nil, ⟨rfl, h.empty, h.run⟩⟩
      · split
        · exact ⟨.nil, h.append (by simp) (by simp) fun q _ => rfl⟩
        · exact ⟨.nil, h⟩

theorem Spoiled.append {values values' : List JsString} (h : Spoiled number p p') (hvalues : values ≠ [])
    (hvalues' : values' ≠ []) :
    Spoiled number { p with dataLines := p.dataLines ++ values } { p' with dataLines := p'.dataLines ++ values' } := by
  obtain ⟨hevent, ⟨hfull, hfull'⟩, hdata, hnever⟩ := h
  refine ⟨hevent, ⟨by simp [hvalues], by simp [hvalues']⟩, ?_, fun text => ?_⟩
  · rw [join_append _ hfull hvalues]
    simp
  · rw [join_append _ hfull' hvalues', List.append_assoc]
    exact hnever _

theorem Spoiled.processLine (h : Spoiled number p p') (htext : text ≠ []) :
    (p.processLine text).1 = none ∧ (p'.processLine text).1 = none ∧
      Spoiled number (p.processLine text).2 (p'.processLine text).2 := by
  unfold Parser.processLine
  rw [if_neg htext, if_neg htext]
  split
  · exact ⟨rfl, rfl, h⟩
  · dsimp only
    split
    · exact ⟨rfl, rfl, ⟨rfl, h.full, h.data, h.never⟩⟩
    · split
      · exact ⟨rfl, rfl, h.append (by simp) (by simp)⟩
      · exact ⟨rfl, rfl, h⟩

/-- The message that ends has data that is no JSON text. -/
theorem Spoiled.flush (h : Spoiled number p p') : ∃ m m', p.flush.1 = some m ∧ p'.flush.1 = some m' ∧
    m.data ≠ [] ∧ parse number m'.data = none := by
  obtain ⟨-, ⟨hfull, hfull'⟩, hdata, hnever⟩ := h
  refine ⟨⟨p.event, join (js "\n") p.dataLines⟩, ⟨p'.event, join (js "\n") p'.dataLines⟩, ?_, ?_, hdata, ?_⟩
  · unfold Parser.flush
    rw [if_neg fun h => hfull h.1]
  · unfold Parser.flush
    rw [if_neg fun h => hfull' h.1]
  · simpa [parse] using hnever []

/-! ## Whole bodies -/

/-- The data of the messages are JSON texts. -/
def JsonData (number : JsString → JsString) (messages : List SSEMessage) : Prop :=
  ∀ m ∈ messages, m.data ≠ [] → (parse number m.data).isSome

instance (number : JsString → JsString) (messages : List SSEMessage) : Decidable (JsonData number messages) :=
  inferInstanceAs (Decidable (∀ m ∈ messages, _))

theorem Spoiled.flush_differs {messages messages' : List SSEMessage} (h : Spoiled number p p')
    (hjson : JsonData number (p.flush.1.toList ++ messages)) :
    ¬ List.Forall₂ (SameMeaning number) (p.flush.1.toList ++ messages) (p'.flush.1.toList ++ messages') := by
  obtain ⟨m, m', hm, hm', hdata, hnone⟩ := h.flush
  rw [hm] at hjson ⊢
  rw [hm']
  intro hsame
  obtain ⟨⟨-, hparse⟩, -⟩ := List.forall₂_cons.mp hsame
  have hsome := hjson m (by simp) hdata
  rw [← hparse, hnone] at hsome
  cases hsome

theorem read_spoiled {groups : List Folded} (hproper : ∀ g ∈ groups, g.Proper) (h : Spoiled number p p')
    (hjson : JsonData number (read p (groups.map Folded.line))) :
    ¬ List.Forall₂ (SameMeaning number) (read p (groups.map Folded.line)) (read p' (groups.flatMap Folded.emitted)) := by
  induction groups generalizing p p' with
  | nil =>
      have hempty : p.flush.1.toList ++ [] = p.flush.1.toList ∧ p'.flush.1.toList ++ [] = p'.flush.1.toList :=
        ⟨List.append_nil _, List.append_nil _⟩
      simp only [List.map_nil, List.flatMap_nil, read] at hjson ⊢
      rw [← hempty.1] at hjson ⊢
      rw [← hempty.2]
      exact h.flush_differs hjson
  | cons g groups ih =>
      obtain ⟨hg, hgroups⟩ := List.forall_mem_cons.mp hproper
      cases g with
      | whole text =>
          by_cases htext : text = []
          · subst htext
            exact h.flush_differs hjson
          · obtain ⟨hnone, hnone', hspoiled⟩ := h.processLine htext
            simp only [List.map_cons, List.flatMap_cons, Folded.line, Folded.emitted, List.singleton_append, read,
              hnone, hnone', Option.toList_none, List.nil_append] at hjson ⊢
            exact ih hgroups hspoiled hjson
      | folded payload pieces =>
          obtain ⟨-, hpieces, -, -⟩ := hg
          simp only [List.map_cons, List.flatMap_cons, Folded.line, Folded.emitted, read, processLine_data,
            Option.toList_none, List.nil_append, read_pieces] at hjson ⊢
          exact ih hgroups (h.append (by simp) (by simpa using hpieces)) hjson

/-- A folded line whose pieces meet between two tokens. -/
theorem Alike.seam (h : Alike number p p') (hproper : (Folded.folded payload pieces).Proper)
    (hseamless : seamless .between pieces = true) :
    Alike number { p with dataLines := p.dataLines ++ [stripSpace payload] }
      { p' with dataLines := p'.dataLines ++ pieces.map stripSpace } := by
  obtain ⟨-, hpieces, hne, hflatten⟩ := hproper
  refine h.append (by simp) (by simpa using hpieces) fun q hq => ?_
  have hone : join (js "\n") [stripSpace payload] = stripSpace payload := by simp [join]
  rw [run_pieces hq hne hpieces hseamless, hflatten hseamless, hone]

/-- A folded line of which two pieces meet inside a token. -/
theorem Alike.split (h : Alike number p p') (hproper : (Folded.folded payload pieces).Proper)
    (hsplit : seamless .between pieces = false) :
    Spoiled number { p with dataLines := p.dataLines ++ [stripSpace payload] }
      { p' with dataLines := p'.dataLines ++ pieces.map stripSpace } := by
  obtain ⟨hpayload, hpieces, hne, -⟩ := hproper
  refine ⟨h.event, ⟨by simp, by simp [hpieces]⟩, ?_, fun text => ?_⟩
  · by_cases hnil : p.dataLines = []
    · simpa [hnil, join] using hpayload
    · rw [join_append _ hnil (by simp)]
      simp
  dsimp only
  by_cases hnil : p'.dataLines = []
  · rw [hnil, List.nil_append]
    exact run_pieces_split rfl hne hpieces hsplit text
  · rw [join_append _ hnil (by simpa using hpieces), List.append_assoc, JsonParse.run_append]
    cases hrun : JsonParse.run number {} (join (js "\n") p'.dataLines) with
    | none => rfl
    | some q =>
        rw [Option.bind_some, List.cons_append, JsonParse.run_cons]
        cases hfeed : JsonParse.feed number q (unit '\n') with
        | none => rfl
        | some q1 => exact run_pieces_split (feed_newline_lexeme hfeed) hne hpieces hsplit text

theorem forall₂_append_iff {R : SSEMessage → SSEMessage → Prop} {l l' x y : List SSEMessage} (h : List.Forall₂ R l l') :
    List.Forall₂ R (l ++ x) (l' ++ y) ↔ List.Forall₂ R x y := by
  induction h with
  | nil => rfl
  | cons hab _ ih =>
      rw [List.cons_append, List.cons_append, List.forall₂_cons, ih]
      exact and_iff_right hab

/-- The messages mean the same exactly if all pieces meet between two tokens. -/
theorem read_alike {groups : List Folded} (hproper : ∀ g ∈ groups, g.Proper) (h : Alike number p p')
    (hjson : JsonData number (read p (groups.map Folded.line))) :
    List.Forall₂ (SameMeaning number) (read p (groups.map Folded.line)) (read p' (groups.flatMap Folded.emitted)) ↔
      ∀ g ∈ groups, g.Seamless := by
  induction groups generalizing p p' with
  | nil => exact iff_of_true h.flush.1 (by simp)
  | cons g groups ih =>
      obtain ⟨hg, hgroups⟩ := List.forall_mem_cons.mp hproper
      rw [List.forall_mem_cons]
      cases g with
      | whole text =>
          obtain ⟨hsame, halike⟩ := h.processLine text
          have hmore : JsonData number (read (p.processLine text).2 (groups.map Folded.line)) :=
            fun m hm => hjson m (List.mem_append_right _ hm)
          rw [← ih hgroups halike hmore]
          simp only [List.map_cons, List.flatMap_cons, Folded.line, Folded.emitted, List.singleton_append, read,
            forall₂_append_iff hsame]
          exact (and_iff_right trivial).symm
      | folded payload pieces =>
          simp only [List.map_cons, List.flatMap_cons, Folded.line, Folded.emitted, read, processLine_data,
            Option.toList_none, List.nil_append, read_pieces] at hjson ⊢
          cases hseamless : seamless .between pieces with
          | true =>
              rw [ih hgroups (h.seam hg hseamless) hjson]
              exact (and_iff_right hseamless).symm
          | false =>
              refine iff_of_false (read_spoiled hgroups (h.split hg hseamless) hjson) fun hall => ?_
              exact Bool.false_ne_true (hseamless.symm.trans hall.1)

end WrongStack.Sse

/-!
# Folding

The folded lines go through the parser, and an oversized line is one whose payload keeps its tokens or not.
-/

namespace WrongStack.Sse

open Lib JsString Utf8 JsonParse

variable {p : Parser} {max : Nat} {pending line chunk tail payload : Bytes} {chunks lines rest : List Bytes}

/-! ## The source -/

/-- The messages of a body whose lines may have any length. -/
def sourceMessages (p : Parser) : List Bytes → List SSEMessage
  | [] => p.finish
  | chunk :: chunks => (p.scan [] chunk).1 ++ sourceMessages (p.scan [] chunk).2 chunks

/-- The lines of a body, as its chunks give them, and what is left at the end. -/
def bodyLines (pending : Bytes) : List Bytes → List Bytes × Bytes
  | [] => ([], pending)
  | chunk :: chunks =>
      ((chunkLines pending [] chunk).1 ++ (bodyLines (chunkLines pending [] chunk).2 chunks).1,
        (bodyLines (chunkLines pending [] chunk).2 chunks).2)

/-- The text that is left at the end. -/
def tailTexts (tail : Bytes) : List JsString := if tail = [] then [] else [decode (chomp tail)]

theorem read_withPending (texts : List JsString) : read (withPending p pending) texts = read p texts := by
  induction texts generalizing p with
  | nil => rw [read, flush_withPending, read]
  | cons text texts ih => rw [read, processLine_withPending, ih, read]

theorem read_append (lines : List Bytes) (texts : List JsString) :
    read p (lines.map decode ++ texts) = (feed p lines).1 ++ read (feed p lines).2 texts := by
  induction lines generalizing p with
  | nil => rfl
  | cons line lines ih =>
      rw [List.map_cons, List.cons_append, read, ih, feed]
      simp

theorem finish_withPending (p : Parser) (tail : Bytes) : (withPending p tail).finish = read p (tailTexts tail) := by
  unfold Parser.finish tailTexts
  split
  · rename_i hnil
    have hnil : tail = [] := hnil
    rw [if_pos hnil, flush_withPending]
    rfl
  · rename_i hne
    have hne : tail ≠ [] := hne
    rw [if_neg hne]
    change ((withPending p tail).processLine (decode (chomp tail))).1.toList ++
      ((withPending p tail).processLine (decode (chomp tail))).2.flush.1.toList = _
    rw [processLine_withPending]
    dsimp only
    rw [flush_withPending]
    rfl

theorem sourceMessages_eq (p : Parser) (chunks : List Bytes) : sourceMessages p chunks =
    read p ((bodyLines p.pending chunks).1.map decode ++ tailTexts (bodyLines p.pending chunks).2) := by
  induction chunks generalizing p with
  | nil =>
      have hfinish := finish_withPending p p.pending
      rwa [withPending_self] at hfinish
  | cons chunk chunks ih =>
      rw [sourceMessages, ih, scan_eq]
      simp only [bodyLines, List.map_append, List.append_assoc, withPending_pending, read_withPending]
      exact (read_append _ _).symm

/-! ## What is emitted -/

/-- A `data:` line that is longer than the bound. -/
def oversized (maxLineBytes : Nat) (line : Bytes) : Bool := DATA.isPrefixOf line && maxLineBytes < line.length

/-- The pieces of an oversized line. -/
def piecesOf (maxLineBytes : Nat) (line : Bytes) : List Bytes :=
  foldPieces maxLineBytes (line.drop 5).length (line.drop 5)

/-- The lines that are emitted for a line, each by its chunks. -/
def emittedParts (maxLineBytes : Nat) (line : Bytes) : List (List Bytes) :=
  if oversized maxLineBytes line then (piecesOf maxLineBytes line).map fun piece => [DATA, piece] else [[line]]

/-- The chunks of some lines. -/
def partChunks (parts : List (List Bytes)) : List Bytes := parts.flatMap (· ++ [[LF]])

theorem emitLine_eq (max : Nat) (line : Bytes) : emitLine max line = partChunks (emittedParts max line) := by
  unfold emitLine emittedParts
  split
  · rename_i hover
    have hover : oversized max line = true := hover
    rw [if_pos hover, partChunks, List.flatMap_map]
    rfl
  · rename_i hfits
    have hfits : ¬ oversized max line = true := hfits
    rw [if_neg hfits]
    rfl

theorem foldChunk_eq (max : Nat) (lineBuf line chunk : Bytes) : foldChunk max lineBuf line chunk =
    ((chunkLines lineBuf line chunk).1.flatMap (emitLine max), (chunkLines lineBuf line chunk).2) := by
  induction chunk generalizing lineBuf line with
  | nil => rfl
  | cons byte chunk ih =>
      unfold foldChunk chunkLines
      split
      · rw [ih]
        rfl
      · exact ih lineBuf (line ++ [byte])

/-- The chunk of what is left at the end. -/
def tailChunks (tail : Bytes) : List Bytes := if tail.isEmpty then [] else [tail]

theorem foldChunks_eq (max : Nat) (pending : Bytes) (chunks : List Bytes) : foldChunks max pending chunks =
    partChunks ((bodyLines pending chunks).1.flatMap (emittedParts max)) ++
      tailChunks (bodyLines pending chunks).2 := by
  induction chunks generalizing pending with
  | nil => rfl
  | cons chunk chunks ih =>
      have hlines (ls : List Bytes) : ls.flatMap (emitLine max) = partChunks (ls.flatMap (emittedParts max)) := by
        rw [partChunks, List.flatMap_assoc]
        exact List.flatMap_congr fun l _ => emitLine_eq max l
      simp only [foldChunks, foldChunk_eq, ih, bodyLines, hlines, List.flatMap_append, partChunks, List.append_assoc]

/-! ## Reading what is emitted -/

theorem scan_free (p : Parser) (h : LF ∉ chunk) : p.scan line chunk = ([], withPending p (p.pending ++ (line ++ chunk))) := by
  induction chunk generalizing line with
  | nil => simp [Parser.scan, withPending]
  | cons byte chunk ih =>
      rw [List.mem_cons, not_or] at h
      rw [Parser.scan, if_neg (Ne.symm h.1), ih h.2]
      simp

theorem parse_free (h : LF ∉ chunk) (hle : (pending ++ chunk).length ≤ MAX_BUFFER_BYTES) :
    (withPending p pending).parse (chunk :: rest) = (withPending p (pending ++ chunk)).parse rest := by
  have hconsume : (withPending p pending).consumeChunk chunk = .ok ([], withPending p (pending ++ chunk)) := by
    unfold Parser.consumeChunk
    split
    · rename_i hnil
      simp [hnil]
    · rw [scan_free _ h]
      exact if_neg (Nat.not_lt.mpr hle)
  rw [Parser.parse, hconsume]
  rfl

theorem parse_chunks (h : LF ∉ lines.flatten) (hle : (pending ++ lines.flatten).length ≤ MAX_BUFFER_BYTES) :
    (withPending p pending).parse (lines ++ rest) = (withPending p (pending ++ lines.flatten)).parse rest := by
  induction lines generalizing pending with
  | nil => simp
  | cons l ls ih =>
      rw [List.flatten_cons] at h hle ⊢
      rw [List.mem_append, not_or] at h
      rw [← List.append_assoc] at hle ⊢
      have hfirst : (pending ++ l).length ≤ MAX_BUFFER_BYTES := by
        rw [List.length_append] at hle
        omega
      rw [List.cons_append, parse_free h.1 hfirst]
      exact ih h.2 hle

theorem parse_lf : (withPending p pending).parse ([LF] :: rest) =
    ((p.processLine (decode pending)).1.toList ++
        ((withPending (p.processLine (decode pending)).2 []).parse rest).1,
      ((withPending (p.processLine (decode pending)).2 []).parse rest).2) := by
  have hconsume : (withPending p pending).consumeChunk [LF] =
      .ok ((p.processLine (decode pending)).1.toList, withPending (p.processLine (decode pending)).2 []) := by
    unfold Parser.consumeChunk
    rw [if_neg (by simp), scan_eq]
    have hlines : chunkLines pending [] [LF] = ([pending ++ chomp []], []) := rfl
    have hnil : chomp [] = [] := rfl
    simp only [withPending_pending, hlines, hnil, List.append_nil, feed, processLine_withPending]
    exact if_neg (by simp)
  rw [Parser.parse, hconsume]

/-- The parser reads each line that is emitted, however its chunks are cut. -/
theorem parse_parts {parts : List (List Bytes)} (hparts : ∀ part ∈ parts, LF ∉ part.flatten)
    (hle : ∀ part ∈ parts, part.flatten.length ≤ MAX_BUFFER_BYTES) (htail : LF ∉ tail)
    (htailLe : tail.length ≤ MAX_BUFFER_BYTES) :
    (withPending p []).parse (partChunks parts ++ tailChunks tail) =
      (read p (parts.map (fun part => decode part.flatten) ++ tailTexts tail), none) := by
  induction parts generalizing p with
  | nil =>
      have hend : (withPending p tail).parse [] = (read p (tailTexts tail), none) := by
        rw [Parser.parse, finish_withPending]
      unfold tailChunks
      cases tail with
      | nil => exact hend
      | cons b tail =>
          have hstep : (withPending p []).parse [b :: tail] = (withPending p ([] ++ b :: tail)).parse [] :=
            parse_free htail htailLe
          exact hstep.trans hend
  | cons part parts ih =>
      obtain ⟨hpart, hparts⟩ := List.forall_mem_cons.mp hparts
      obtain ⟨hpartLe, hle⟩ := List.forall_mem_cons.mp hle
      have hsplit : partChunks (part :: parts) ++ tailChunks tail =
          part ++ ([LF] :: (partChunks parts ++ tailChunks tail)) := by simp [partChunks]
      rw [hsplit, parse_chunks hpart hpartLe, List.nil_append, parse_lf, ih hparts hle]
      rfl

/-! ## Lines -/

theorem chunkLines_free (hpending : LF ∉ pending) (hline : LF ∉ line) (chunk : Bytes) :
    (∀ l ∈ (chunkLines pending line chunk).1, LF ∉ l) ∧ LF ∉ (chunkLines pending line chunk).2 := by
  induction chunk generalizing pending line with
  | nil => exact ⟨by simp [chunkLines], by simp [chunkLines, hpending, hline]⟩
  | cons byte chunk ih =>
      unfold chunkLines
      split
      · have hnil : LF ∉ ([] : Bytes) := List.not_mem_nil
        obtain ⟨hlines, htail⟩ := ih hnil hnil
        refine ⟨List.forall_mem_cons.mpr ⟨?_, hlines⟩, htail⟩
        have hchomp : LF ∉ chomp line := by
          unfold chomp
          split
          · exact fun hmem => hline (List.mem_of_mem_dropLast hmem)
          · exact hline
        simp [hpending, hchomp]
      · rename_i hbyte
        exact ih hpending (by simp [hline, Ne.symm hbyte])

theorem bodyLines_free (hpending : LF ∉ pending) (chunks : List Bytes) :
    (∀ l ∈ (bodyLines pending chunks).1, LF ∉ l) ∧ LF ∉ (bodyLines pending chunks).2 := by
  induction chunks generalizing pending with
  | nil => exact ⟨by simp [bodyLines], hpending⟩
  | cons chunk chunks ih =>
      have hnil : LF ∉ ([] : Bytes) := List.not_mem_nil
      obtain ⟨hlines, htail⟩ := chunkLines_free hpending hnil chunk
      obtain ⟨hmore, hend⟩ := ih htail
      exact ⟨List.forall_mem_append.mpr ⟨hlines, hmore⟩, hend⟩

theorem mem_foldPieces {fuel : Nat} {piece : Bytes} (h : piece ∈ foldPieces max fuel payload) : ∀ b ∈ piece, b ∈ payload := by
  induction fuel generalizing payload with
  | zero => cases h
  | succ fuel ih =>
      by_cases hne : payload = []
      · rw [hne, foldPieces_nil] at h
        cases h
      · rw [foldPieces_cons hne] at h
        rcases List.mem_cons.mp h with rfl | h
        · exact fun b hb => List.mem_of_mem_take hb
        · exact fun b hb => List.mem_of_mem_drop (ih h b hb)

theorem emittedParts_free (max : Nat) (h : LF ∉ line) : ∀ part ∈ emittedParts max line, LF ∉ part.flatten := by
  intro part hpart
  unfold emittedParts at hpart
  split at hpart
  · obtain ⟨piece, hpiece, rfl⟩ := List.mem_map.mp hpart
    have hdata : LF ∉ DATA := by decide
    have hfree : LF ∉ piece := fun hmem => h (List.mem_of_mem_drop (mem_foldPieces hpiece LF hmem))
    simp [hdata, hfree]
  · obtain rfl := List.mem_singleton.mp hpart
    simpa using h

theorem splitOn_parts {parts : List (List Bytes)} (hparts : ∀ part ∈ parts, LF ∉ part.flatten) (htail : LF ∉ tail) :
    (partChunks parts ++ tailChunks tail).flatten.splitOn LF = parts.map List.flatten ++ [tail] := by
  induction parts with
  | nil =>
      have hflat : (tailChunks tail).flatten = tail := by cases tail <;> simp [tailChunks]
      simpa [partChunks, hflat] using List.splitOn_eq_singleton htail
  | cons part parts ih =>
      obtain ⟨hpart, hparts⟩ := List.forall_mem_cons.mp hparts
      have hflat : (partChunks (part :: parts) ++ tailChunks tail).flatten =
          part.flatten ++ LF :: (partChunks parts ++ tailChunks tail).flatten := by simp [partChunks]
      rw [hflat, List.splitOn_append_cons_self_of_not_mem hpart, ih hparts]
      rfl

/-! ## Oversized lines -/

theorem decode_data (bytes : Bytes) : decode (DATA ++ bytes) = js "data:" ++ decodeFrom none bytes := by
  have hdata : decodeFrom none (DATA ++ bytes) = js "data:" ++ decodeFrom none bytes := by
    simp only [DATA, List.cons_append, List.nil_append]
    rw [decodeFrom_cons_ascii (by decide), decodeFrom_cons_ascii (by decide), decodeFrom_cons_ascii (by decide),
      decodeFrom_cons_ascii (by decide), decodeFrom_cons_ascii (by decide)]
    rfl
  rw [decode, hdata]
  rfl

theorem oversized_eq (h : oversized max line = true) : line = DATA ++ line.drop 5 ∧ max < line.length := by
  obtain ⟨hdata, hlength⟩ := Bool.and_eq_true_iff.mp h
  obtain ⟨rest, rfl⟩ := List.isPrefixOf_iff_prefix.mp hdata
  exact ⟨rfl, by simpa using hlength⟩

/-- A line with what is emitted for it. -/
def foldedLine (maxLineBytes : Nat) (line : Bytes) : Folded :=
  if oversized maxLineBytes line then
    .folded (decodeFrom none (line.drop 5)) ((piecesOf maxLineBytes line).map (decodeFrom none))
  else .whole (decode line)

theorem foldedLine_line (max : Nat) (line : Bytes) : (foldedLine max line).line = decode line := by
  unfold foldedLine
  split
  · rename_i hover
    obtain ⟨hline, -⟩ := oversized_eq hover
    rw [hline, decode_data]
    rfl
  · rfl

theorem foldedLine_emitted (max : Nat) (line : Bytes) : (foldedLine max line).emitted =
    (emittedParts max line).map fun part => decode part.flatten := by
  unfold foldedLine emittedParts
  split
  · rw [List.map_map, Folded.emitted, List.map_map]
    refine List.map_congr_left fun piece _ => ?_
    simp [decode_data]
  · simp [Folded.emitted]

theorem stripSpace_decode (h : 2 ≤ payload.length) : stripSpace (decodeFrom none payload) ≠ [] := by
  obtain ⟨a, b, rest, rfl⟩ : ∃ a b rest, payload = a :: b :: rest := by
    cases payload with
    | nil => simp at h
    | cons a rest =>
        cases rest with
        | nil => simp at h
        | cons b rest => exact ⟨a, b, rest, rfl⟩
  by_cases hlow : a.toNat < 0x80
  · have hmore : decodeFrom none (b :: rest) ≠ [] := decodeFrom_ne_nil (by simp)
    rw [decodeFrom_cons_ascii hlow]
    unfold stripSpace
    split
    · simpa using hmore
    · simp
  · obtain ⟨c, text, htext, hc⟩ := decodeFrom_cons_high (Nat.not_lt.mp hlow) (b :: rest)
    have hspace : c ≠ unit ' ' := by
      rintro rfl
      exact absurd hc (by decide)
    simp [htext, stripSpace, hspace]

theorem foldedLine_proper (hmax : 64 ≤ max) (line : Bytes) : (foldedLine max line).Proper := by
  unfold foldedLine
  split
  · rename_i hover
    obtain ⟨-, hlength⟩ := oversized_eq hover
    have hpayload : 2 ≤ (line.drop 5).length := by
      rw [List.length_drop]
      omega
    have hne : line.drop 5 ≠ [] := List.ne_nil_of_length_pos (by omega)
    have hpos : 0 < max := by omega
    obtain ⟨piece, pieces, hpieces, -⟩ := foldPieces_ne_nil hpos hne le_rfl
    refine ⟨stripSpace_decode hpayload, ?_, ?_, fun hseamless => ?_⟩
    · rw [piecesOf, hpieces]
      simp
    · intro text htext
      obtain ⟨piece, hpiece, rfl⟩ := List.mem_map.mp htext
      exact decodeFrom_ne_nil (ne_nil_of_mem_foldPieces (by omega) hpiece)
    · rw [piecesOf, seamless_foldPieces (by omega) le_rfl] at hseamless
      exact flatten_foldPieces (by omega) le_rfl hseamless
  · exact trivial

/-- No cut of the line at the byte limit is inside a token. -/
def KeepsTokens (maxLineBytes : Nat) (line : Bytes) : Prop :=
  keepsTokens maxLineBytes (line.drop 5).length (line.drop 5) = true

instance (maxLineBytes : Nat) (line : Bytes) : Decidable (KeepsTokens maxLineBytes line) :=
  inferInstanceAs (Decidable (_ = true))

theorem foldedLine_seamless (hmax : 64 ≤ max) (line : Bytes) :
    (foldedLine max line).Seamless ↔ (oversized max line = true → KeepsTokens max line) := by
  unfold foldedLine
  split
  · rename_i hover
    rw [Folded.Seamless, piecesOf, seamless_foldPieces (by omega) le_rfl]
    exact ⟨fun hkeeps _ => hkeeps, fun hkeeps => hkeeps hover⟩
  · rename_i hfits
    exact iff_of_true trivial fun hover => absurd hover hfits

/-! ## Transparency -/

/-- The messages of a body with JSON data mean the same after folding exactly if no oversized line is cut inside a
token at the byte limit. -/
theorem folding_iff (number : JsString → JsString) {max : Nat} (hmax : 64 ≤ max) (chunks : List Bytes)
    (hjson : JsonData number (sourceMessages {} chunks))
    (hcap : ∀ line ∈ (createSseLineFoldingTransform max chunks).flatten.splitOn LF, line.length ≤ MAX_BUFFER_BYTES) :
    (List.Forall₂ (SameMeaning number) (sourceMessages {} chunks)
        (parseSSE (createSseLineFoldingTransform max chunks)).1 ∧
      (parseSSE (createSseLineFoldingTransform max chunks)).2 = none) ↔
      ∀ line ∈ (bodyLines [] chunks).1, oversized max line = true → KeepsTokens max line := by
  have hnil : LF ∉ ([] : Bytes) := List.not_mem_nil
  obtain ⟨hlines, htail⟩ := bodyLines_free hnil chunks
  have hemitted : createSseLineFoldingTransform max chunks =
      partChunks ((bodyLines [] chunks).1.flatMap (emittedParts max)) ++ tailChunks (bodyLines [] chunks).2 := by
    rw [createSseLineFoldingTransform, if_neg (by omega), foldChunks_eq]
  have hfree : ∀ part ∈ (bodyLines [] chunks).1.flatMap (emittedParts max), LF ∉ part.flatten := by
    intro part hpart
    obtain ⟨line, hline, hpart⟩ := List.mem_flatMap.mp hpart
    exact emittedParts_free max (hlines line hline) part hpart
  rw [hemitted, splitOn_parts hfree htail] at hcap
  have hparts := parse_parts (p := {}) hfree
    (fun part hpart => hcap _ (List.mem_append_left _ (List.mem_map_of_mem hpart))) htail
    (hcap _ (List.mem_append_right _ List.mem_cons_self))
  have hfolded : parseSSE (createSseLineFoldingTransform max chunks) =
      (read {} (((bodyLines [] chunks).1.map (foldedLine max) ++
        (tailTexts (bodyLines [] chunks).2).map Folded.whole).flatMap Folded.emitted), none) := by
    rw [hemitted]
    refine hparts.trans ?_
    have hlinesOf : ((bodyLines [] chunks).1.map (foldedLine max)).flatMap Folded.emitted =
        ((bodyLines [] chunks).1.flatMap (emittedParts max)).map fun part => decode part.flatten := by
      rw [List.flatMap_map, List.map_flatMap]
      exact List.flatMap_congr fun line _ => foldedLine_emitted max line
    have htailOf : ((tailTexts (bodyLines [] chunks).2).map Folded.whole).flatMap Folded.emitted =
        tailTexts (bodyLines [] chunks).2 := by
      rw [List.flatMap_map]
      exact List.flatMap_singleton' _
    rw [List.flatMap_append, hlinesOf, htailOf]
  have hsource : sourceMessages {} chunks =
      read {} (((bodyLines [] chunks).1.map (foldedLine max) ++
        (tailTexts (bodyLines [] chunks).2).map Folded.whole).map Folded.line) := by
    rw [sourceMessages_eq, List.map_append, List.map_map, List.map_map]
    have hline : Folded.line ∘ foldedLine max = decode := funext (foldedLine_line max)
    have hwhole : Folded.line ∘ Folded.whole = id := rfl
    rw [hline, hwhole, List.map_id]
  have hproper : ∀ g ∈ (bodyLines [] chunks).1.map (foldedLine max) ++
      (tailTexts (bodyLines [] chunks).2).map Folded.whole, g.Proper := by
    intro g hg
    rcases List.mem_append.mp hg with hg | hg
    · obtain ⟨line, -, rfl⟩ := List.mem_map.mp hg
      exact foldedLine_proper hmax line
    · obtain ⟨text, -, rfl⟩ := List.mem_map.mp hg
      exact trivial
  rw [hsource] at hjson ⊢
  rw [hfolded, read_alike hproper ⟨rfl, Iff.rfl, rfl⟩ hjson]
  simp only [List.forall_mem_append, List.forall_mem_map, foldedLine_seamless hmax, and_true]
  exact and_iff_left fun text _ => trivial

/-- An object with two fields, in a line of 80 bytes that is cut after the comma. -/
def longObject : Bytes :=
  encode (js "data:\x7b\"a\":\"" ++ List.replicate 40 (unit 'x') ++ js "\",\"b\":\"" ++ List.replicate 20 (unit 'y') ++
    js "\"\x7d\n\n")

theorem folding_iff_longObject :
    (List.Forall₂ (SameMeaning id) (sourceMessages {} [longObject])
        (parseSSE (createSseLineFoldingTransform 64 [longObject])).1 ∧
      (parseSSE (createSseLineFoldingTransform 64 [longObject])).2 = none) ↔
      ∀ line ∈ (bodyLines [] [longObject]).1, oversized 64 line = true → KeepsTokens 64 line :=
  folding_iff id le_rfl [longObject] (by decide +kernel) (by decide +kernel)

theorem parses_of_sameMeaning {messages messages' : List SSEMessage} {number : JsString → JsString}
    (h : List.Forall₂ (SameMeaning number) messages messages') :
    messages'.map (fun m => (parse number m.data).isSome) = messages.map fun m => (parse number m.data).isSome := by
  induction h with
  | nil => rfl
  | cons hab _ ih => rw [List.map_cons, List.map_cons, hab.2, ih]

/-- A number of seventy digits. -/
def longNumber : Bytes := encode (js "data:" ++ List.replicate 70 (unit '7') ++ js "\n\n")

/-- A number is cut at the byte limit, and no message has a JSON text any more. -/
theorem folding_differs : JsonData id (sourceMessages {} [longNumber]) ∧
    (∀ line ∈ (createSseLineFoldingTransform 64 [longNumber]).flatten.splitOn LF, line.length ≤ MAX_BUFFER_BYTES) ∧
    ¬ List.Forall₂ (SameMeaning id) (sourceMessages {} [longNumber])
      (parseSSE (createSseLineFoldingTransform 64 [longNumber])).1 := by
  refine ⟨by decide +kernel, by decide +kernel, fun h => ?_⟩
  have hsame := parses_of_sameMeaning h
  revert hsame
  decide +kernel

end WrongStack.Sse

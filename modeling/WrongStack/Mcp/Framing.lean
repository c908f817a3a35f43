import WrongStack.Lib.Json
import WrongStack.Lib.Utf8

/-!
# Framing

How the transports cut what a server sends into messages: the stdout handler and `onData` of `MCPClient`
(`mcp/src/client.ts`), `SSEReader` and `readSSEBody` (`mcp/src/transport.ts`). `JSON.parse` is a parameter.
-/

namespace WrongStack.McpFraming

open Lib Utf8

def LF : CodeUnit := unit '\n'

/-- The loop over a buffer: the lines that it cuts off, and what it leaves. -/
def takeLines (buffer : JsString) : List JsString × JsString :=
  ((JsString.splitOn LF buffer).dropLast, (JsString.splitOn LF buffer).getLast?.getD [])

/-! ## stdio -/

/-- The lines that `onLine` gets, and `rxBuffer`. -/
def onData (rxBuffer s : JsString) : List JsString × JsString :=
  let parts := takeLines (rxBuffer ++ s)
  ((parts.1.map JsString.trim).filter fun line => !line.isEmpty, parts.2)

/-- The chunks that stdout gives, each after its own `toString()`. -/
def connectStdio (rxBuffer : JsString) : List Bytes → List JsString
  | [] => []
  | chunk :: chunks =>
      let r := onData rxBuffer (decodeFrom none chunk)
      r.1 ++ connectStdio r.2 chunks

/-! ## Server-sent events -/

def SSE_READER_MAX_BUFFER : Nat := 256 * 1024

def SSE_READER_MAX_DATA_LINES : Nat := 1024

inductive FeedError
  /-- SSE: chunk size exceeds max buffer — refusing to accumulate -/
  | chunk
  /-- SSE: pending line exceeds 262144 bytes — upstream is not framing events -/
  | pending
  /-- SSE: exceeded 1024 data lines per event — upstream is not sending blank-line delimiters -/
  | dataLines
  deriving DecidableEq

structure SSEReader where
  buffer : JsString := []
  dataLines : List JsString := []

/-- `.replace(/\r$/, '')` -/
def dropCr (line : JsString) : JsString := if line.getLast? = some (unit '\r') then line.dropLast else line

/-- The field of a line and its value; one space after the colon is not part of it. -/
def field (line : JsString) : JsString × JsString :=
  match line.dropWhile (· != unit ':') with
  | [] => (line, [])
  | _ :: value =>
      (line.takeWhile (· != unit ':'), if value.head? = some (unit ' ') then value.tail else value)

section

variable (parse : JsString → Option Json)

/-- The message of the data lines. -/
def flush (dataLines : List JsString) : Option Json :=
  let data := JsString.trim (JsString.join (js "\n") dataLines)
  if data.isEmpty then none else parse data

/-- The message that a line completes, and the data lines after it. -/
def processLine (dataLines : List JsString) (line : JsString) : Except FeedError (Option Json × List JsString) :=
  if line = [] then .ok (flush parse dataLines, [])
  else if line.head? = some (unit ':') then .ok (none, dataLines)
  else if (field line).1 = js "data" then
    if SSE_READER_MAX_DATA_LINES ≤ dataLines.length then .error .dataLines
    else .ok (none, dataLines ++ [(field line).2])
  else .ok (none, dataLines)

/-- The messages of the lines, and the data lines after them or what is thrown. -/
def processLines (dataLines : List JsString) : List JsString → List Json × Except FeedError (List JsString)
  | [] => ([], .ok dataLines)
  | line :: lines =>
      match processLine parse dataLines (dropCr line) with
      | .error err => ([], .error err)
      | .ok (msg, dataLines) =>
          let rest := processLines dataLines lines
          (msg.toList ++ rest.1, rest.2)

def SSEReader.feed (r : SSEReader) (chunk : JsString) : List Json × Except FeedError SSEReader :=
  if SSE_READER_MAX_BUFFER < chunk.length then ([], .error .chunk)
  else if SSE_READER_MAX_BUFFER < (r.buffer ++ chunk).length then ([], .error .pending)
  else
    let parts := takeLines (r.buffer ++ chunk)
    let out := processLines parse r.dataLines parts.1
    (out.1, out.2.map fun dataLines => { buffer := parts.2, dataLines := dataLines })

/-- A `TextDecoder` between two chunks. -/
structure TextDecoder where
  seq : Option Sequence := none
  bomSeen : Bool := false

/-- `decoder.decode(value, { stream: true })` -/
def TextDecoder.decode (d : TextDecoder) (value : Bytes) : JsString × TextDecoder :=
  let r := emit d.seq value
  (if d.bomSeen then r.1 else dropBom r.1, { seq := r.2, bomSeen := d.bomSeen || !r.1.isEmpty })

/-- The messages dispatched until the body ends or `feed` throws. -/
def readSSEBody (d : TextDecoder) (r : SSEReader) : List Bytes → List Json
  | [] => []
  | value :: values =>
      let chunk := d.decode value
      let fed := r.feed parse chunk.1
      fed.1 ++
        match fed.2 with
        | .error _ => []
        | .ok r => readSSEBody chunk.2 r values

end

/-! ## What the lines say -/

/-- The messages of a text on stdout. -/
def linesOf (text : JsString) : List JsString := (onData [] text).1

/-- The messages of a text of events. An event of too many data lines ends them. -/
def messagesOf (parse : JsString → Option Json) (text : JsString) : List Json :=
  (processLines parse [] (takeLines text).1).1

/-- The texts of the chunks. -/
def texts (d : TextDecoder) : List Bytes → List JsString
  | [] => []
  | value :: values => (d.decode value).1 :: texts (d.decode value).2 values

/-- After the text read so far, each chunk fits into the buffer beside the line that it goes on with, or no message
is left to come. -/
def Fits (parse : JsString → Option Json) (read : JsString) : List JsString → Prop
  | [] => True
  | chunk :: chunks =>
      (((takeLines read).2 ++ chunk).length ≤ SSE_READER_MAX_BUFFER ∨
        messagesOf parse (read ++ (chunk :: chunks).flatten) = messagesOf parse read) ∧
        Fits parse (read ++ chunk) chunks

/-! ## Cutting off lines -/

variable {parse : JsString → Option Json} {read s t : JsString} {lines lines' : List JsString} {dataLines : List JsString}

theorem takeLines_append (s t : JsString) : takeLines (s ++ t) =
    ((takeLines s).1 ++ (takeLines ((takeLines s).2 ++ t)).1, (takeLines ((takeLines s).2 ++ t)).2) := by
  unfold takeLines
  have hne := JsString.splitOn_ne_nil LF ((JsString.splitOn LF s).getLast?.getD [] ++ t)
  rw [JsString.splitOn_append_last, List.dropLast_append_of_ne_nil hne, List.getLast?_append_of_ne_nil _ hne]

theorem linesOf_append (s t : JsString) : linesOf (s ++ t) = linesOf s ++ (onData (takeLines s).2 t).1 := by
  unfold linesOf onData
  dsimp only
  rw [List.nil_append, List.nil_append, takeLines_append, List.map_append, List.filter_append]

/-- What the chunks give is what their texts give together. -/
theorem connectStdio_eq (read : JsString) (chunks : List Bytes) :
    linesOf read ++ connectStdio (takeLines read).2 chunks = linesOf (read ++ decodeParts chunks) := by
  induction chunks generalizing read with
  | nil => rw [connectStdio, List.append_nil, decodeParts, List.map_nil, List.flatten_nil, List.append_nil]
  | cons chunk chunks ih =>
      rw [connectStdio, decodeParts_cons, ← List.append_assoc, ← linesOf_append, ← List.append_assoc, ← ih]
      have hbuffer : (onData (takeLines read).2 (decodeFrom none chunk)).2 =
          (takeLines (read ++ decodeFrom none chunk)).2 := by
        rw [takeLines_append, onData]
      rw [hbuffer]

/-! ## Replacement characters -/

theorem count_splitOn (s : JsString) : (JsString.splitOn LF s).flatten.count 0xFFFD = s.count 0xFFFD := by
  induction s using JsString.sep_induction LF with
  | whole s hmem => rw [JsString.splitOn_self hmem, List.flatten_singleton]
  | parts front back hmem ih =>
      have hne : LF ≠ 0xFFFD := by decide
      rw [JsString.splitOn_append hmem, List.flatten_cons, List.count_append, ih, List.count_append,
        List.count_cons_of_ne hne]

theorem count_takeLines (s : JsString) :
    s.count 0xFFFD = (takeLines s).1.flatten.count 0xFFFD + (takeLines s).2.count 0xFFFD := by
  obtain ⟨front, back, hsplit⟩ : ∃ front back, JsString.splitOn LF s = front ++ [back] :=
    ⟨_, _, (List.dropLast_append_getLast (JsString.splitOn_ne_nil LF s)).symm⟩
  rw [← count_splitOn, takeLines, hsplit, List.dropLast_concat, List.getLast?_concat, Option.getD_some,
    List.flatten_append, List.flatten_singleton, List.count_append]

theorem count_dropWhile (s : JsString) : (s.dropWhile isSpace).count 0xFFFD = s.count 0xFFFD := by
  induction s with
  | nil => rfl
  | cons c s ih =>
      rw [List.dropWhile_cons]
      split
      · rename_i hspace
        have hne : c ≠ 0xFFFD := by
          rintro rfl
          revert hspace
          decide
        rw [ih, List.count_cons_of_ne hne]
      · rfl

theorem count_trim (s : JsString) : (JsString.trim s).count 0xFFFD = s.count 0xFFFD := by
  rw [JsString.trim, List.count_reverse, count_dropWhile, List.count_reverse, count_dropWhile]

theorem count_linesOf (s : JsString) : (linesOf s).flatten.count 0xFFFD = (takeLines s).1.flatten.count 0xFFFD := by
  unfold linesOf onData
  dsimp only
  rw [List.nil_append, List.flatten_filter_not_isEmpty]
  induction (takeLines s).1 with
  | nil => rfl
  | cons line lines ih =>
      rw [List.map_cons, List.flatten_cons, List.flatten_cons, List.count_append, List.count_append, count_trim, ih]

theorem count_terminated (s : JsString) : (linesOf (s ++ [LF])).flatten.count 0xFFFD = (s ++ [LF]).count 0xFFFD := by
  have hlast : (takeLines (s ++ [LF])).2 = [] := by
    rw [takeLines, JsString.splitOn_append_sep]
    simp [JsString.splitOn]
  rw [count_linesOf, count_takeLines (s ++ [LF]), hlast, List.count_nil, Nat.add_zero]

theorem decodeFrom_terminated (bytes : Bytes) : decodeFrom none (bytes ++ [10]) = decodeFrom none bytes ++ [LF] :=
  decodeFrom_concat_ascii (by decide) fun s hs => by cases hs

theorem decodeParts_terminated {chunks : List Bytes} {bytes : Bytes} (h : chunks.flatten = bytes ++ [10]) :
    ∃ text, decodeParts chunks = text ++ [LF] := by
  induction chunks generalizing bytes with
  | nil => simp at h
  | cons chunk chunks ih =>
      rw [List.flatten_cons] at h
      rw [decodeParts_cons]
      rcases List.eq_nil_or_concat chunks.flatten with hnil | ⟨front, last, hconcat⟩
      · have hempty : decodeParts chunks = [] := by
          have hall := List.flatten_eq_nil_iff.mp hnil
          rw [decodeParts, List.flatten_eq_nil_iff]
          intro text htext
          obtain ⟨part, hpart, rfl⟩ := List.mem_map.mp htext
          rw [hall part hpart]
          rfl
        rw [hnil, List.append_nil] at h
        exact ⟨decodeFrom none bytes, by rw [hempty, List.append_nil, h, decodeFrom_terminated]⟩
      · rw [List.concat_eq_append] at hconcat
        rw [hconcat, ← List.append_assoc] at h
        obtain ⟨-, hlast⟩ := List.append_inj' h rfl
        obtain ⟨text, htext⟩ := ih (hlast ▸ hconcat)
        exact ⟨decodeFrom none chunk ++ text, by rw [htext, List.append_assoc]⟩

/-- On stdout the cuts do not show if and only if each falls between two characters. -/
theorem stdio_iff {chunks : List Bytes} (hutf8 : wellFormed none chunks.flatten = true)
    (hends : ∀ b ∈ chunks.flatten.getLast?, b = 10) :
    connectStdio [] chunks = linesOf (decodeFrom none chunks.flatten) ↔ Whole chunks := by
  have hlines : connectStdio [] chunks = linesOf (decodeParts chunks) := connectStdio_eq [] chunks
  rw [hlines]
  rcases decodeParts_cases hutf8 with ⟨hwhole, heq⟩ | ⟨hcut, hlt⟩
  · rw [heq]
    exact iff_of_true rfl hwhole
  · refine iff_of_false (fun heq => ?_) hcut
    rcases List.eq_nil_or_concat chunks.flatten with hnil | ⟨front, last, hconcat⟩
    · refine hcut fun pre hpre => ?_
      have hempty : pre.flatten = [] := by
        rw [List.flatten_eq_nil_iff] at hnil ⊢
        exact fun part hpart => hnil part (hpre.subset hpart)
      rw [hempty]
      rfl
    · rw [List.concat_eq_append] at hconcat
      obtain rfl : last = 10 := hends last (by rw [hconcat, List.getLast?_concat]; rfl)
      obtain ⟨text, htext⟩ := decodeParts_terminated hconcat
      have hcount := congrArg (fun lines => lines.flatten.count (0xFFFD : CodeUnit)) heq
      simp only [htext, hconcat, decodeFrom_terminated, count_terminated] at hcount
      rw [htext, hconcat, decodeFrom_terminated, hcount] at hlt
      exact Nat.lt_irrefl _ hlt

/-! ## The text of the chunks -/

theorem dropBom_append (hs : s ≠ []) : dropBom (s ++ t) = dropBom s ++ t := by
  cases s with
  | nil => exact absurd rfl hs
  | cons c s =>
      rw [List.cons_append, dropBom, dropBom]
      split <;> rfl

theorem decode_append (d : TextDecoder) (a b : Bytes) :
    (d.decode (a ++ b)).1 = (d.decode a).1 ++ ((d.decode a).2.decode b).1 := by
  unfold TextDecoder.decode
  rw [emit_append]
  dsimp only
  cases hseen : d.bomSeen with
  | true => rfl
  | false =>
      simp only [Bool.false_or, Bool.false_eq_true, if_false]
      cases htext : (emit d.seq a).1 with
      | nil => rfl
      | cons c text => exact dropBom_append (by simp)

/-- The decoder carries a character over the end of a chunk. -/
theorem texts_flatten (d : TextDecoder) (chunks : List Bytes) : (texts d chunks).flatten = (d.decode chunks.flatten).1 := by
  induction chunks generalizing d with
  | nil =>
      cases hseen : d.bomSeen <;> simp [texts, TextDecoder.decode, emit, dropBom, hseen]
  | cons chunk chunks ih => rw [texts, List.flatten_cons, ih, List.flatten_cons, decode_append]

/-! ## The lines of events -/

theorem processLines_error {err : FeedError} (h : (processLines parse dataLines lines).2 = .error err) :
    processLines parse dataLines (lines ++ lines') = processLines parse dataLines lines := by
  induction lines generalizing dataLines with
  | nil => cases h
  | cons line lines ih =>
      rw [List.cons_append, processLines, processLines]
      rw [processLines] at h
      cases hline : processLine parse dataLines (dropCr line) with
      | error err => rfl
      | ok r =>
          obtain ⟨msg, dataLines'⟩ := r
          rw [hline] at h
          dsimp only
          rw [ih h]

theorem processLines_ok {dataLines' : List JsString} (h : (processLines parse dataLines lines).2 = .ok dataLines') :
    processLines parse dataLines (lines ++ lines') =
      ((processLines parse dataLines lines).1 ++ (processLines parse dataLines' lines').1,
        (processLines parse dataLines' lines').2) := by
  induction lines generalizing dataLines with
  | nil =>
      obtain rfl := Except.ok.inj h
      rfl
  | cons line lines ih =>
      rw [List.cons_append, processLines, processLines]
      rw [processLines] at h
      cases hline : processLine parse dataLines (dropCr line) with
      | error err =>
          rw [hline] at h
          cases h
      | ok r =>
          obtain ⟨msg, next⟩ := r
          rw [hline] at h
          dsimp only
          rw [ih h, List.append_assoc]

theorem messagesOf_prefix (read text : JsString) : messagesOf parse read <+: messagesOf parse (read ++ text) := by
  unfold messagesOf
  rw [takeLines_append]
  dsimp only
  cases hread : (processLines parse [] (takeLines read).1).2 with
  | error err =>
      rw [processLines_error hread]
  | ok dataLines =>
      rw [processLines_ok hread]
      exact List.prefix_append _ _

/-- What is read after the last message makes no difference. -/
theorem fits_of_silent {chunks : List JsString} (h : messagesOf parse (read ++ chunks.flatten) = messagesOf parse read) :
    Fits parse read chunks := by
  induction chunks generalizing read with
  | nil => trivial
  | cons chunk chunks ih =>
      refine ⟨.inr h, ih ?_⟩
      have hfirst : messagesOf parse read <+: messagesOf parse (read ++ chunk) := messagesOf_prefix read chunk
      have hrest : messagesOf parse (read ++ chunk) <+: messagesOf parse (read ++ chunk ++ chunks.flatten) :=
        messagesOf_prefix _ _
      rw [List.append_assoc, ← List.flatten_cons] at hrest ⊢
      rw [h] at hrest ⊢
      exact List.IsPrefix.eq_of_length_le hfirst hrest.length_le

/-! ## The body -/

/-- The reader has read the text, and nothing has been thrown. -/
structure Reads (parse : JsString → Option Json) (read : JsString) (r : SSEReader) : Prop where
  buffer : r.buffer = (takeLines read).2
  dataLines : (processLines parse [] (takeLines read).1).2 = .ok r.dataLines

theorem readSSEBody_iff {r : SSEReader} (h : Reads parse read r) (d : TextDecoder) (chunks : List Bytes) :
    messagesOf parse read ++ readSSEBody parse d r chunks = messagesOf parse (read ++ (texts d chunks).flatten) ↔
      Fits parse read (texts d chunks) := by
  induction chunks generalizing read r d with
  | nil =>
      refine iff_of_true ?_ trivial
      rw [readSSEBody, texts, List.flatten_nil, List.append_nil, List.append_nil]
  | cons chunk chunks ih =>
      rw [readSSEBody, texts, Fits, ← h.buffer]
      by_cases hfits : (r.buffer ++ (d.decode chunk).1).length ≤ SSE_READER_MAX_BUFFER
      · have hchunk : ¬ SSE_READER_MAX_BUFFER < (d.decode chunk).1.length := by
          rw [List.length_append] at hfits
          omega
        have hmessages : messagesOf parse (read ++ (d.decode chunk).1) = messagesOf parse read ++
            (processLines parse r.dataLines (takeLines (r.buffer ++ (d.decode chunk).1)).1).1 := by
          unfold messagesOf
          rw [takeLines_append, h.buffer]
          dsimp only
          rw [processLines_ok h.dataLines]
        have hfed : r.feed parse (d.decode chunk).1 =
            ((processLines parse r.dataLines (takeLines (r.buffer ++ (d.decode chunk).1)).1).1,
              (processLines parse r.dataLines (takeLines (r.buffer ++ (d.decode chunk).1)).1).2.map fun dataLines =>
                { buffer := (takeLines (r.buffer ++ (d.decode chunk).1)).2, dataLines := dataLines }) := by
          rw [SSEReader.feed, if_neg hchunk, if_neg (Nat.not_lt.mpr hfits)]
        have hall : (processLines parse [] (takeLines (read ++ (d.decode chunk).1)).1).2 =
            (processLines parse r.dataLines (takeLines (r.buffer ++ (d.decode chunk).1)).1).2 := by
          rw [takeLines_append, h.buffer]
          dsimp only
          rw [processLines_ok h.dataLines]
        rw [hfed, List.flatten_cons, ← List.append_assoc, ← List.append_assoc, ← hmessages]
        cases hout : (processLines parse r.dataLines (takeLines (r.buffer ++ (d.decode chunk).1)).1).2 with
        | error err =>
            -- the event has too many data lines, and the reader stops in every cutting
            have hstopped : messagesOf parse (read ++ (d.decode chunk).1 ++ (texts (d.decode chunk).2 chunks).flatten) =
                messagesOf parse (read ++ (d.decode chunk).1) := by
              unfold messagesOf
              rw [takeLines_append (read ++ (d.decode chunk).1)]
              dsimp only
              rw [processLines_error (hall.trans hout)]
            rw [Except.map, hstopped]
            dsimp only
            rw [List.append_nil]
            exact iff_of_true rfl ⟨.inl hfits, fits_of_silent hstopped⟩
        | ok dataLines =>
            have hreads : Reads parse (read ++ (d.decode chunk).1)
                { buffer := (takeLines (r.buffer ++ (d.decode chunk).1)).2, dataLines := dataLines } := by
              refine ⟨?_, hall.trans hout⟩
              rw [takeLines_append read, h.buffer]
            rw [Except.map]
            dsimp only
            rw [ih hreads]
            exact (and_iff_right (.inl hfits)).symm
      · have hfed : ∃ err, r.feed parse (d.decode chunk).1 = ([], .error err) := by
          unfold SSEReader.feed
          split
          · exact ⟨_, rfl⟩
          · rw [if_pos (Nat.not_le.mp hfits)]
            exact ⟨_, rfl⟩
        obtain ⟨err, hfed⟩ := hfed
        rw [hfed, List.append_nil, List.append_nil]
        constructor
        · intro hsilent
          have hall := fits_of_silent hsilent.symm
          rw [Fits, ← h.buffer] at hall
          exact hall
        · rintro ⟨hfit | hsilent, -⟩
          · exact absurd hfit hfits
          · exact hsilent.symm

/-- **The cuts do not show** in what is dispatched: on stdout if and only if each falls between two characters, in a
body of events if and only if each chunk fits into the buffer beside the line that it goes on with, unless no message
is left to come. -/
theorem framing_iff (parse : JsString → Option Json) (bytes : Bytes) (chunks : List Bytes) (hcut : chunks.flatten = bytes)
    (hutf8 : wellFormed none bytes = true) (hends : ∀ b ∈ bytes.getLast?, b = 10) :
    (connectStdio [] chunks = linesOf (decodeFrom none bytes) ↔ Whole chunks) ∧
      (readSSEBody parse {} {} chunks = messagesOf parse (({} : TextDecoder).decode bytes).1 ↔
        Fits parse [] (texts {} chunks)) := by
  subst hcut
  refine ⟨stdio_iff hutf8 hends, ?_⟩
  have hreads : Reads parse [] {} := ⟨rfl, rfl⟩
  rw [← texts_flatten]
  exact readSSEBody_iff hreads {} chunks

/-- A reply with an accented letter, cut before its text and in the letter. -/
def accented : List Bytes := [encode (js "\x7b\"id\":1,\"result\":\""), [0xC3], [0xA9] ++ encode (js "\"\x7d\n")]

theorem framing_whole : (connectStdio [] (accented.take 1 ++ [(accented.drop 1).flatten]) =
    linesOf (decodeFrom none accented.flatten) ↔ Whole (accented.take 1 ++ [(accented.drop 1).flatten])) ∧
      (readSSEBody (fun _ => none) {} {} (accented.take 1 ++ [(accented.drop 1).flatten]) =
        messagesOf (fun _ => none) (({} : TextDecoder).decode accented.flatten).1 ↔
          Fits (fun _ => none) [] (texts {} (accented.take 1 ++ [(accented.drop 1).flatten]))) :=
  framing_iff (fun _ => none) accented.flatten _ (by decide +kernel) (by decide +kernel) (by decide +kernel)

/-- The two halves of the letter are replaced, one by one. -/
theorem cut_letter_replaced : connectStdio [] accented ≠ linesOf (decodeFrom none accented.flatten) := by decide +kernel

end WrongStack.McpFraming

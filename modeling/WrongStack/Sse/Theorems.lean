import Mathlib.Data.List.Forall2
import WrongStack.Sse.Parser

/-!
# Lines of a body

The lines that the chunks give, against those of the whole body. A line that is cut between its CR and its
LF keeps the CR, and nothing else differs.
-/

namespace WrongStack.Sse

open Lib Utf8
open Sse.Parser

variable {p : Parser} {line pending bytes chunk : Bytes} {chunks : List Bytes}

/-! ## Lines -/

/-- A line without the CR that is before its LF. -/
def chomp (line : Bytes) : Bytes := if line.getLast? = some CR then line.dropLast else line

/-- The lines of a body that `line` begins, and what is after the last line end. -/
def splitLines (line : Bytes) : Bytes → List Bytes × Bytes
  | [] => ([], line)
  | byte :: bytes =>
      if byte = LF then (chomp line :: (splitLines [] bytes).1, (splitLines [] bytes).2)
      else splitLines (line ++ [byte]) bytes

/-- No line is longer than what the parser buffers. -/
def LinesFit (line bytes : Bytes) : Prop :=
  ∀ l ∈ (splitLines line bytes).2 :: (splitLines line bytes).1, l.length ≤ MAX_BUFFER_BYTES

instance (line bytes : Bytes) : Decidable (LinesFit line bytes) :=
  inferInstanceAs (Decidable (∀ l ∈ _, _))

/-- The lines that a chunk completes. -/
def chunkLines (pending line : Bytes) : Bytes → List Bytes × Bytes
  | [] => ([], pending ++ line)
  | byte :: chunk =>
      if byte = LF then ((pending ++ chomp line) :: (chunkLines [] [] chunk).1, (chunkLines [] [] chunk).2)
      else chunkLines pending (line ++ [byte]) chunk

theorem splitLines_append (line bytes bytes' : Bytes) : splitLines line (bytes ++ bytes') =
    ((splitLines line bytes).1 ++ (splitLines (splitLines line bytes).2 bytes').1,
      (splitLines (splitLines line bytes).2 bytes').2) := by
  induction bytes generalizing line with
  | nil => rfl
  | cons byte bytes ih =>
      simp only [List.cons_append, splitLines]
      split
      · rw [ih]
        rfl
      · exact ih _

theorem chomp_cr (h : line.getLast? = some CR) : chomp line = line.dropLast := if_pos h

theorem chomp_of_not_cr (h : line.getLast? ≠ some CR) : chomp line = line := if_neg h

theorem chomp_append (hline : line ≠ []) : chomp (pending ++ line) = pending ++ chomp line := by
  unfold chomp
  rw [List.getLast?_append_of_ne_nil _ hline]
  split
  · rw [List.dropLast_append_of_ne_nil hline]
  · rfl

/-! ## Ignored lines -/

/-- A line that the parser makes nothing of, with room for the CR. -/
def Ignored (line : Bytes) : Prop :=
  line.length < MAX_BUFFER_BYTES ∧ decode line ≠ [] ∧ ((decode line).head? = some (unit ':') ∨
    (field (decode line)).1 ≠ js "event" ∧ (field (decode line)).1 ≠ js "data")

/-- The same line, or an ignored one with its CR. -/
def SameLine (line line' : Bytes) : Prop := line' = line ∨ Ignored line ∧ line' = line ++ [CR]

theorem decode_concat_cr (line : Bytes) : decode (line ++ [CR]) = decode line ++ [13] :=
  decode_concat_ascii (by decide)

theorem field_fst (text : JsString) : (field text).1 = text.takeWhile (· != unit ':') := by
  have hsplit := List.takeWhile_append_dropWhile (p := (· != unit ':')) (l := text)
  unfold field
  split
  · rename_i hnone
    rw [hnone, List.append_nil] at hsplit
    exact hsplit.symm
  · rfl

/-- A carriage return after the line makes the name of its field no other one that matters. -/
theorem field_concat_fst {text : JsString} {name : JsString} (hname : name.getLast? ≠ some 13)
    (h : (field text).1 ≠ name) : (field (text ++ [13])).1 ≠ name := by
  rw [field_fst] at h ⊢
  rw [List.takeWhile_append]
  split
  · intro heq
    refine hname ?_
    rw [← heq]
    simp [List.takeWhile, unit]
  · exact h

theorem processLine_skip {text : JsString} (hne : text ≠ []) (h : text.head? = some (unit ':') ∨
    (field text).1 ≠ js "event" ∧ (field text).1 ≠ js "data") : p.processLine text = (none, p) := by
  unfold processLine
  rw [if_neg hne]
  split
  · rfl
  · rename_i hcolon
    obtain ⟨hevent, hdata⟩ := h.resolve_left hcolon
    simp only [if_neg hevent, if_neg hdata]

theorem processLine_ignored (h : Ignored line) : p.processLine (decode line) = (none, p) :=
  processLine_skip h.2.1 h.2.2

theorem processLine_ignored_cr (h : Ignored line) : p.processLine (decode (line ++ [CR])) = (none, p) := by
  obtain ⟨-, hne, h⟩ := h
  rw [decode_concat_cr]
  refine processLine_skip (by simp) ?_
  rcases h with hcolon | ⟨hevent, hdata⟩
  · left
    rw [List.head?_append_of_ne_nil _ hne, hcolon]
  · exact .inr ⟨field_concat_fst (by decide) hevent, field_concat_fst (by decide) hdata⟩

/-! ## Reading lines -/

/-- The parser after some lines, with the messages that they complete. -/
def feed (p : Parser) : List Bytes → List SSEMessage × Parser
  | [] => ([], p)
  | line :: lines =>
      let r := p.processLine (decode line)
      (r.1.toList ++ (feed r.2 lines).1, (feed r.2 lines).2)

def withPending (p : Parser) (pending : Bytes) : Parser := { p with pending }

@[simp] theorem withPending_pending : (withPending p pending).pending = pending := rfl

theorem withPending_self (p : Parser) : withPending p p.pending = p := rfl

theorem flush_withPending : (withPending p pending).flush = (p.flush.1, withPending p.flush.2 pending) := by
  unfold flush withPending
  split <;> rfl

theorem processLine_withPending (text : JsString) : (withPending p pending).processLine text =
    ((p.processLine text).1, withPending (p.processLine text).2 pending) := by
  unfold processLine
  split
  · exact flush_withPending
  · split
    · rfl
    · dsimp only
      split
      · rfl
      · split <;> rfl

theorem feed_withPending (lines : List Bytes) : feed (withPending p pending) lines =
    ((feed p lines).1, withPending (feed p lines).2 pending) := by
  induction lines generalizing p with
  | nil => rfl
  | cons line lines ih => simp only [feed, processLine_withPending, ih]

theorem feed_append (lines lines' : List Bytes) : feed p (lines ++ lines') =
    ((feed p lines).1 ++ (feed (feed p lines).2 lines').1, (feed (feed p lines).2 lines').2) := by
  induction lines generalizing p with
  | nil => rfl
  | cons line lines ih => simp only [List.cons_append, feed, ih, List.append_assoc]

theorem feed_same {lines lines' : List Bytes} (h : List.Forall₂ SameLine lines lines') :
    feed p lines' = feed p lines := by
  induction h generalizing p with
  | nil => rfl
  | cons hline _ ih =>
      rcases hline with rfl | ⟨hignored, rfl⟩
      · simp only [feed, ih]
      · simp only [feed, processLine_ignored hignored, processLine_ignored_cr hignored, ih]

/-! ## Chunks -/

theorem scan_eq (p : Parser) (line chunk : Bytes) : p.scan line chunk =
    ((feed p (chunkLines p.pending line chunk).1).1,
      withPending (feed p (chunkLines p.pending line chunk).1).2 (chunkLines p.pending line chunk).2) := by
  induction chunk generalizing p line with
  | nil => rfl
  | cons byte chunk ih =>
      unfold scan chunkLines
      split
      · have hline : (if line.getLast? = some CR then line.dropLast else line) = chomp line := rfl
        have hempty : { p with pending := [] } = withPending p [] := rfl
        simp only [hline, hempty, processLine_withPending, feed, ih, withPending_pending, feed_withPending]
        rfl
      · exact ih p (line ++ [byte])

theorem chunkLines_nil (line chunk : Bytes) : chunkLines [] line chunk = splitLines line chunk := by
  induction chunk generalizing line with
  | nil => rfl
  | cons byte chunk ih => simp only [chunkLines, splitLines, List.nil_append, ih]

/-- The line that is pending is cut between its CR and its LF. -/
def Cut (pending rest : Bytes) : Prop := pending.getLast? = some CR ∧ rest.head? = some LF

theorem append_of_getLast {pending : Bytes} (h : pending.getLast? = some CR) : pending.dropLast ++ [CR] = pending :=
  List.dropLast_append_getLast? CR h

theorem chunkLines_same (hline : line = [] → Cut pending chunk → Ignored pending.dropLast) :
    List.Forall₂ SameLine (splitLines (pending ++ line) chunk).1 (chunkLines pending line chunk).1 ∧
      (chunkLines pending line chunk).2 = (splitLines (pending ++ line) chunk).2 := by
  induction chunk generalizing line with
  | nil => exact ⟨.nil, rfl⟩
  | cons byte chunk ih =>
      unfold chunkLines splitLines
      split
      · rename_i hlf
        rw [chunkLines_nil]
        refine ⟨.cons ?_ (List.forall₂_same.mpr fun l _ => .inl rfl), rfl⟩
        by_cases hne : line = []
        · subst hne
          have hnil : chomp [] = [] := rfl
          rw [hnil, List.append_nil]
          by_cases hcr : pending.getLast? = some CR
          · rw [chomp_cr hcr]
            exact .inr ⟨hline rfl ⟨hcr, by simp [hlf]⟩, (append_of_getLast hcr).symm⟩
          · rw [chomp_of_not_cr hcr]
            exact .inl rfl
        · exact .inl (chomp_append hne).symm
      · rw [List.append_assoc]
        exact ih fun hnil => absurd hnil (by simp)

instance (pending rest : Bytes) : Decidable (Cut pending rest) :=
  inferInstanceAs (Decidable (_ ∧ _))

/-- No chunk boundary is between the CR and the LF of a line, unless the parser makes nothing of the line. -/
def CutsIgnored (pending : Bytes) : List Bytes → Prop
  | [] => True
  | chunk :: chunks =>
      (Cut pending (chunk ++ chunks.flatten) → Ignored pending.dropLast) ∧
        CutsIgnored (splitLines pending chunk).2 chunks

theorem CutsIgnored.first (h : CutsIgnored pending chunks) :
    Cut pending chunks.flatten → Ignored pending.dropLast := by
  cases chunks with
  | nil => exact fun hcut => by cases hcut.2
  | cons chunk chunks => exact h.1

theorem exists_line_ge (pending bytes : Bytes) :
    ∃ l ∈ (splitLines pending bytes).2 :: (splitLines pending bytes).1, pending.length ≤ l.length + 1 := by
  induction bytes generalizing pending with
  | nil => exact ⟨pending, List.mem_cons_self, Nat.le_succ _⟩
  | cons byte bytes ih =>
      unfold splitLines
      split
      · refine ⟨chomp pending, by simp, ?_⟩
        unfold chomp
        split
        · rw [List.length_dropLast]
          omega
        · exact Nat.le_succ _
      · obtain ⟨l, hl, hle⟩ := ih (pending ++ [byte])
        rw [List.length_append, List.length_singleton] at hle
        exact ⟨l, hl, by omega⟩

/-- What is pending is not longer than the line that it begins. -/
theorem pending_le (h : LinesFit pending bytes) (hcut : Cut pending bytes → Ignored pending.dropLast) :
    pending.length ≤ MAX_BUFFER_BYTES := by
  cases bytes with
  | nil => exact h pending List.mem_cons_self
  | cons byte bytes =>
      by_cases hlf : byte = LF
      · have hline : (chomp pending).length ≤ MAX_BUFFER_BYTES := h _ (by simp [splitLines, hlf])
        by_cases hcr : pending.getLast? = some CR
        · have hshort := (hcut ⟨hcr, by simp [hlf]⟩).1
          rw [List.length_dropLast] at hshort
          omega
        · rwa [chomp_of_not_cr hcr] at hline
      · obtain ⟨l, hl, hle⟩ := exists_line_ge (pending ++ [byte]) bytes
        have hfit : l.length ≤ MAX_BUFFER_BYTES := h l (by simpa [splitLines, hlf] using hl)
        rw [List.length_append, List.length_singleton] at hle
        omega

theorem LinesFit.tail (h : LinesFit pending (chunk ++ bytes)) : LinesFit (splitLines pending chunk).2 bytes := by
  intro l hl
  refine h l ?_
  rw [splitLines_append]
  rcases List.mem_cons.mp hl with rfl | hl
  · exact List.mem_cons_self
  · exact List.mem_cons_of_mem _ (List.mem_append_right _ hl)

/-- A chunk is read, with the lines of the body up to ignored ones. -/
theorem consumeChunk_eq (p : Parser) (chunk : Bytes) (hcut : Cut p.pending chunk → Ignored p.pending.dropLast)
    (hle : (splitLines p.pending chunk).2.length ≤ MAX_BUFFER_BYTES) : p.consumeChunk chunk =
      .ok ((feed p (splitLines p.pending chunk).1).1,
        withPending (feed p (splitLines p.pending chunk).1).2 (splitLines p.pending chunk).2) := by
  obtain ⟨hlines, hpending⟩ := @chunkLines_same [] p.pending chunk fun _ => hcut
  rw [List.append_nil] at hlines hpending
  unfold consumeChunk
  split
  · rename_i hnil
    subst hnil
    rfl
  · simp only [scan_eq, feed_same hlines, hpending]
    exact if_neg (Nat.not_lt.mpr hle)

/-- Chunks that are read give the lines of the body, up to ignored ones. -/
theorem parse_eq (p : Parser) (chunks : List Bytes) (hfit : LinesFit p.pending chunks.flatten)
    (hcuts : CutsIgnored p.pending chunks) : p.parse chunks =
      ((feed p (splitLines p.pending chunks.flatten).1).1 ++
        (withPending (feed p (splitLines p.pending chunks.flatten).1).2
          (splitLines p.pending chunks.flatten).2).finish, none) := by
  induction chunks generalizing p with
  | nil => rfl
  | cons chunk chunks ih =>
      rw [List.flatten_cons] at hfit ⊢
      have hcut : Cut p.pending chunk → Ignored p.pending.dropLast := by
        rintro ⟨hcr, hlf⟩
        refine hcuts.1 ⟨hcr, ?_⟩
        rw [List.head?_append, hlf]
        rfl
      have htail := hcuts.2
      have hle := pending_le hfit.tail htail.first
      unfold parse
      rw [consumeChunk_eq p chunk hcut hle]
      dsimp only
      rw [ih _ hfit.tail htail, splitLines_append, feed_append]
      simp only [withPending_pending, feed_withPending, List.append_assoc]
      rfl

end WrongStack.Sse

/-!
# Chunks do not matter

What the network makes of a body is no part of its meaning, but for a line that it cuts between CR and LF.
-/

namespace WrongStack.Sse

open Lib Utf8

/-- The chunks of a body give the messages of the body, and nothing is thrown. -/
theorem parseSSE_eq (chunks : List Bytes) (hfit : LinesFit [] chunks.flatten) (hcuts : CutsIgnored [] chunks) :
    parseSSE chunks = parseSSE [chunks.flatten] ∧ (parseSSE chunks).2 = none := by
  have hwhole : [chunks.flatten].flatten = chunks.flatten := by simp
  have hcut : CutsIgnored [] [chunks.flatten] := ⟨fun h => absurd h.1 (by simp), trivial⟩
  have hchunks := parse_eq {} chunks hfit hcuts
  have hbody := parse_eq {} [chunks.flatten] (hwhole.symm ▸ hfit) hcut
  rw [hwhole] at hbody
  unfold parseSSE
  exact ⟨hchunks.trans hbody.symm, congrArg Prod.snd hchunks⟩

/-- `data: é` and a blank line, cut within the letter and before a CR. -/
def accented : List Bytes :=
  [[0x64, 0x61, 0x74, 0x61, 0x3A, 0x20, 0xC3], [0xA9, 0x0D, 0x0A], [0x0D, 0x0A]]

theorem parseSSE_accented :
    parseSSE accented = parseSSE [accented.flatten] ∧ (parseSSE accented).2 = none := by
  refine parseSSE_eq accented (by decide +kernel) ⟨?_, ?_, ?_, trivial⟩
  · exact fun h => absurd h (by decide)
  · exact fun h => absurd h (by decide)
  · exact fun h => absurd h (by decide)

/-- `data: a` and a blank line. -/
def plain : Bytes := [0x64, 0x61, 0x74, 0x61, 0x3A, 0x20, 0x61, 0x0D, 0x0A, 0x0D, 0x0A]

/-- A line that is cut between its CR and its LF. -/
theorem cut_differs : parseSSE [plain.take 8, plain.drop 8] ≠ parseSSE [plain] := by decide +kernel

end WrongStack.Sse

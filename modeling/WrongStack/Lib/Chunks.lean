import WrongStack.Lib.Utf8

/-!
# Lines of a file that is read in chunks

A file is a row of lines, each with a newline at its end, and is read in buffers of one size. A scan that carries only
the offset of an unfinished line from one buffer to the next sees of each line its last piece: what lies in the buffer
in which the line ends.
-/

namespace WrongStack.Lib

open Utf8

/-! ## Buffers -/

section Chunks

variable {α : Type*} {size : Nat} {l : List α}

/-- What successive reads return. -/
def chunks (size : Nat) (l : List α) : List (List α) :=
  if 0 < size ∧ l ≠ [] then l.take size :: chunks size (l.drop size) else []
termination_by l.length
decreasing_by
  rename_i h
  have hpos := List.length_pos_iff.mpr h.2
  rw [List.length_drop]
  omega

@[simp] theorem chunks_nil : chunks size ([] : List α) = [] := by
  rw [chunks]
  simp

theorem chunks_of_ne_nil (hsize : 0 < size) (hl : l ≠ []) :
    chunks size l = l.take size :: chunks size (l.drop size) := by
  rw [chunks, if_pos ⟨hsize, hl⟩]

end Chunks

/-! ## Lines -/

def newlineByte : UInt8 := 10

def joinLines (lines : List Bytes) : Bytes := lines.flatMap fun line => line ++ [newlineByte]

/-- The lines that end in a buffer, and what follows the last newline. -/
def splitLines : Bytes → List Bytes × Bytes
  | [] => ([], [])
  | b :: bytes =>
      let rest := splitLines bytes
      if b = newlineByte then ([] :: rest.1, rest.2)
      else match rest.1 with
        | [] => ([], b :: rest.2)
        | line :: lines => ((b :: line) :: lines, rest.2)

section Lines

variable {line : Bytes} {lines : List Bytes} {bytes : Bytes}

@[simp] theorem joinLines_nil : joinLines [] = [] := rfl

theorem joinLines_cons : joinLines (line :: lines) = line ++ newlineByte :: joinLines lines := by
  simp [joinLines]

theorem joinLines_append (lines lines' : List Bytes) :
    joinLines (lines ++ lines') = joinLines lines ++ joinLines lines' := by
  simp [joinLines]

theorem length_joinLines_cons : (joinLines (line :: lines)).length = line.length + 1 + (joinLines lines).length := by
  rw [joinLines_cons, List.length_append, List.length_cons]
  omega

theorem splitLines_of_not_mem (h : newlineByte ∉ bytes) : splitLines bytes = ([], bytes) := by
  induction bytes with
  | nil => rfl
  | cons b bytes ih =>
      rw [List.mem_cons, not_or] at h
      rw [splitLines, ih h.2, if_neg (Ne.symm h.1)]

theorem splitLines_append (h : newlineByte ∉ line) :
    splitLines (line ++ newlineByte :: bytes) = (line :: (splitLines bytes).1, (splitLines bytes).2) := by
  induction line with
  | nil => rw [List.nil_append, splitLines, if_pos rfl]
  | cons b line ih =>
      rw [List.mem_cons, not_or] at h
      rw [List.cons_append, splitLines, ih h.2, if_neg (Ne.symm h.1)]

theorem splitLines_joinLines (hlines : ∀ line ∈ lines, newlineByte ∉ line) (h : newlineByte ∉ bytes) :
    splitLines (joinLines lines ++ bytes) = (lines, bytes) := by
  induction lines with
  | nil => exact splitLines_of_not_mem h
  | cons line lines ih =>
      rw [joinLines_cons, List.append_assoc, List.cons_append,
        splitLines_append (hlines line List.mem_cons_self),
        ih fun l hl => hlines l (List.mem_cons_of_mem line hl)]

/-- Where a newline is found in what is read of a line and what follows it. -/
theorem findIdx?_newline (h : newlineByte ∉ line) (n : Nat) :
    ((line ++ newlineByte :: bytes).take n).findIdx? (· == newlineByte) = if line.length < n then some line.length else none := by
  have hnone : ∀ {l : Bytes}, newlineByte ∉ l → l.findIdx? (· == newlineByte) = none := by
    intro l hl
    rw [List.findIdx?_eq_none_iff]
    intro b hb
    rw [beq_eq_false_iff_ne]
    exact fun heq => hl (heq ▸ hb)
  split
  next hlt =>
    obtain ⟨m, rfl⟩ : ∃ m, n = line.length + (m + 1) := ⟨n - line.length - 1, by omega⟩
    rw [List.take_length_add_append, List.findIdx?_append, hnone h, List.take_succ_cons, List.findIdx?_cons]
    simp
  next hge =>
    rw [List.take_append_of_le_length (by omega)]
    exact hnone fun hmem => h (List.mem_of_mem_take hmem)

theorem length_joinLines_take_lt {k k' : Nat} (hk : k < k') (hk' : k' ≤ lines.length) :
    (joinLines (lines.take k)).length < (joinLines (lines.take k')).length := by
  obtain ⟨d, rfl⟩ : ∃ d, k' = k + (d + 1) := ⟨k' - k - 1, by omega⟩
  have hne : lines.drop k ≠ [] := by
    rw [← List.length_pos_iff, List.length_drop]
    omega
  obtain ⟨line, later, hdrop⟩ := List.exists_cons_of_ne_nil hne
  rw [List.take_add, hdrop, List.take_succ_cons, joinLines_append, List.length_append, length_joinLines_cons]
  omega

/-- The beginning of a file determines how many lines it holds. -/
theorem joinLines_take_inj {k k' : Nat} (hk : k ≤ lines.length) (hk' : k' ≤ lines.length)
    (h : joinLines (lines.take k) = joinLines (lines.take k')) : k = k' := by
  have hlength := congrArg List.length h
  rcases Nat.lt_trichotomy k k' with hlt | heq | hgt
  · exact absurd hlength (length_joinLines_take_lt hlt hk').ne
  · exact heq
  · exact absurd hlength (length_joinLines_take_lt hgt hk).ne'

/-- What a buffer holds of a row of lines: some of them, and a piece of the next one. -/
theorem take_joinLines (n : Nat) (lines : List Bytes) :
    ∃ done rest r, lines = done ++ rest ∧ (joinLines lines).take n = joinLines done ++ r ∧
      ((rest = [] ∧ r = []) ∨ ∃ line later, rest = line :: later ∧ r <+: line ∧ (joinLines done).length + r.length = n) := by
  induction lines generalizing n with
  | nil => exact ⟨[], [], [], rfl, by simp, .inl ⟨rfl, rfl⟩⟩
  | cons line lines ih =>
      by_cases hn : n ≤ line.length
      · refine ⟨[], line :: lines, line.take n, rfl, ?_, .inr ⟨line, lines, rfl, List.take_prefix n line, ?_⟩⟩
        · rw [joinLines_cons, List.take_append_of_le_length hn]
          rfl
        · rw [List.length_take, min_eq_left hn]
          exact Nat.zero_add n
      · obtain ⟨m, rfl⟩ : ∃ m, n = line.length + 1 + m := ⟨n - line.length - 1, by omega⟩
        obtain ⟨done, rest, r, hsplit, htake, hend⟩ := ih m
        refine ⟨line :: done, rest, r, by rw [hsplit]; rfl, ?_, ?_⟩
        · have hassoc : joinLines (line :: lines) = (line ++ [newlineByte]) ++ joinLines lines := by
            rw [joinLines_cons, List.append_cons]
          rw [hassoc, show line.length + 1 + m = (line ++ [newlineByte]).length + m by simp,
            List.take_length_add_append, htake, joinLines_cons]
          simp only [List.append_assoc, List.cons_append, List.nil_append]
        · rcases hend with hnone | ⟨next, later, hrest, hr, hlength⟩
          · exact .inl hnone
          · refine .inr ⟨next, later, hrest, hr, ?_⟩
            rw [length_joinLines_cons]
            omega

end Lines

/-! ## Scans that carry an offset -/

/-- A scan: where the current buffer starts, where the current line starts, and what has been found. -/
structure LineScan (σ : Type*) where
  fileOffset : Nat := 0
  lineStartOffset : Nat := 0
  found : σ

/-- What a scan sees of a line: the offset that it takes for its start, the offset of its newline, and its last piece. -/
structure Piece where
  start : Nat
  newline : Nat
  bytes : Bytes

/-- The last piece of a line that begins at an offset. -/
def pieceOf (size start : Nat) (line : Bytes) : Piece :=
  let newline := start + line.length
  let buffer := newline / size * size
  { start := if buffer ≤ start then start else max start (buffer - size)
    newline
    bytes := line.drop (buffer - start) }

/-- The pieces of a row of lines that begins at an offset. -/
def pieces (size start : Nat) : List Bytes → List Piece
  | [] => []
  | line :: lines => pieceOf size start line :: pieces size (start + line.length + 1) lines

theorem pieceOf_start_le (size start : Nat) (line : Bytes) :
    start ≤ (pieceOf size start line).start ∧ (pieceOf size start line).start ≤ start + line.length := by
  have hbuffer := Nat.div_mul_le_self (start + line.length) size
  simp only [pieceOf]
  split <;> omega

/-- A line that lies in one buffer is seen as it is. -/
theorem pieceOf_inside {size start : Nat} {line : Bytes} (h : start / size = (start + line.length) / size) :
    pieceOf size start line = { start, newline := start + line.length, bytes := line } := by
  have hbuffer := Nat.div_mul_le_self start size
  rw [pieceOf, ← h, if_pos hbuffer, Nat.sub_eq_zero_of_le hbuffer, List.drop_zero]

theorem pieces_append (size start : Nat) (lines lines' : List Bytes) :
    pieces size start (lines ++ lines') =
      pieces size start lines ++ pieces size (start + (joinLines lines).length) lines' := by
  induction lines generalizing start with
  | nil => rfl
  | cons line lines ih =>
      rw [List.cons_append, pieces, ih, length_joinLines_cons, pieces, List.cons_append]
      simp only [Nat.add_assoc]

/-- Lines that each lie in one buffer are seen as they are. -/
theorem pieces_inside {size start : Nat} {lines : List Bytes}
    (h : ∀ lb line la, lines = lb ++ line :: la →
      (start + (joinLines lb).length) / size = (start + (joinLines lb).length + line.length) / size) :
    (pieces size start lines).map Piece.bytes = lines := by
  induction lines generalizing start with
  | nil => rfl
  | cons line lines ih =>
      have hfirst := h [] line lines rfl
      rw [joinLines_nil, List.length_nil, Nat.add_zero] at hfirst
      rw [pieces, List.map_cons, pieceOf_inside hfirst, ih]
      intro lb l la hsplit
      have hl := h (line :: lb) l la (by rw [hsplit]; rfl)
      rw [length_joinLines_cons] at hl
      simpa only [Nat.add_assoc] using hl

theorem length_pieces (size start : Nat) (lines : List Bytes) : (pieces size start lines).length = lines.length := by
  induction lines generalizing start with
  | nil => rfl
  | cons line lines ih => rw [pieces, List.length_cons, ih, List.length_cons]

/-- The pieces before and behind one of them are those of the lines before and behind its line. -/
theorem pieces_split {size start : Nat} {lines : List Bytes} {p : Piece} {before after : List Piece}
    (h : pieces size start lines = before ++ p :: after) :
    ∃ lb line la, lines = lb ++ line :: la ∧ before = pieces size start lb ∧
      p = pieceOf size (start + (joinLines lb).length) line ∧
      after = pieces size (start + (joinLines (lb ++ [line])).length) la := by
  induction lines generalizing start before with
  | nil => simp [pieces] at h
  | cons line lines ih =>
      cases before with
      | nil =>
          obtain ⟨hp, hafter⟩ := List.cons.inj h
          refine ⟨[], line, lines, rfl, rfl, hp.symm, ?_⟩
          rw [← hafter, List.nil_append, length_joinLines_cons]
          rfl
      | cons q before =>
          obtain ⟨hq, hrest⟩ := List.cons.inj h
          obtain ⟨lb, l, la, rfl, hbefore, hp, hafter⟩ := ih hrest
          refine ⟨line :: lb, l, la, rfl, by rw [← hq, hbefore]; rfl, ?_, ?_⟩
          · rw [hp, length_joinLines_cons]
            simp only [Nat.add_assoc]
          · rw [hafter, List.cons_append, length_joinLines_cons]
            simp only [Nat.add_assoc]

namespace LineScan

variable {σ : Type*} (visit : σ → Nat → Bytes → σ)

/-- The lines that end in the buffer, from a position in it on. -/
def endLines (s : LineScan σ) (chunkPos : Nat) : List Bytes → LineScan σ × Nat
  | [] => (s, chunkPos)
  | line :: rest =>
      let next := chunkPos + line.length + 1
      endLines { s with
        found := visit s.found s.lineStartOffset line
        lineStartOffset := s.fileOffset + next } next rest

def chunk (s : LineScan σ) (buf : Bytes) : LineScan σ :=
  let ended := s.endLines visit 0 (splitLines buf).1
  let s := ended.1
  let chunkPos := ended.2
  -- an unfinished line is carried over by its offset
  let s := if (splitLines buf).2.isEmpty then s else { s with lineStartOffset := s.fileOffset + chunkPos }
  let s := { s with fileOffset := s.fileOffset + buf.length }
  if buf.length ≤ chunkPos then { s with lineStartOffset := s.fileOffset } else s

variable {size start chunkPos : Nat} {s : LineScan σ} {line buf : Bytes} {lines : List Bytes}

def visitPiece (found : σ) (p : Piece) : σ := visit found p.start p.bytes

theorem buffer_eq {a e : Nat} (hdvd : size ∣ a) (ha : a ≤ e) (he : e < a + size) :
    e / size * size = a := by
  obtain ⟨k, rfl⟩ := hdvd
  have hdiv : e / size = k := by
    apply Nat.div_eq_of_lt_le
    · rwa [Nat.mul_comm]
    · rw [Nat.succ_mul, Nat.mul_comm]
      exact he
  rw [hdiv, Nat.mul_comm]

/-- Lines that lie in one buffer are seen as they are. -/
theorem endLines_eq (hdvd : size ∣ s.fileOffset) (hstart : s.lineStartOffset = s.fileOffset + chunkPos)
    (hfit : chunkPos + (joinLines lines).length ≤ size) :
    s.endLines visit chunkPos lines =
      ({ s with
          found := (pieces size s.lineStartOffset lines).foldl (visitPiece visit) s.found
          lineStartOffset := s.fileOffset + (chunkPos + (joinLines lines).length) },
        chunkPos + (joinLines lines).length) := by
  induction lines generalizing s chunkPos with
  | nil =>
      cases s
      simp only at hstart
      simp [endLines, pieces, hstart]
  | cons line lines ih =>
      rw [length_joinLines_cons] at hfit ⊢
      have hbuffer : (s.lineStartOffset + line.length) / size * size = s.fileOffset :=
        buffer_eq hdvd (by omega) (by omega)
      have htail := @ih (chunkPos + line.length + 1)
        { s with
          found := visit s.found s.lineStartOffset line
          lineStartOffset := s.fileOffset + (chunkPos + line.length + 1) } hdvd rfl (by omega)
      rw [endLines, htail, pieces, pieceOf, hbuffer]
      have hle : s.fileOffset ≤ s.lineStartOffset := by omega
      have hwhole : line.drop (s.fileOffset - s.lineStartOffset) = line := by
        rw [Nat.sub_eq_zero_of_le hle, List.drop_zero]
      simp only [if_pos hle, hwhole, List.foldl_cons, visitPiece]
      simp only [hstart, Nat.add_assoc]

/-- The scan is at the start of a buffer, with a row of lines before it of which the first may have begun earlier. -/
structure Carries (size : Nat) (s : LineScan σ) (start : Nat) (lines : List Bytes) : Prop where
  buffer : size ∣ s.fileOffset
  begun : start ≤ s.fileOffset
  inFirst : ∀ line later, lines = line :: later → s.fileOffset - start ≤ line.length
  offset : s.lineStartOffset = if s.fileOffset ≤ start then start else max start (s.fileOffset - size)

theorem chunk_unfinished (hr : newlineByte ∉ buf) (hne : buf ≠ []) :
    s.chunk visit buf = { s with fileOffset := s.fileOffset + buf.length, lineStartOffset := s.fileOffset } := by
  have hpos := List.length_pos_iff.mpr hne
  have hlength : ¬ buf.length ≤ 0 := by omega
  simp [chunk, splitLines_of_not_mem hr, endLines, hlength, hne]

theorem chunk_ended (hdvd : size ∣ s.fileOffset) (hfit : (joinLines (line :: lines)).length ≤ size)
    (hlines : ∀ l ∈ line :: lines, newlineByte ∉ l) {r : Bytes} (hr : newlineByte ∉ r) :
    s.chunk visit (joinLines (line :: lines) ++ r) =
      { fileOffset := s.fileOffset + ((joinLines (line :: lines)).length + r.length)
        lineStartOffset := s.fileOffset + (joinLines (line :: lines)).length
        found := (pieces size (s.fileOffset + (line.length + 1)) lines).foldl (visitPiece visit)
          (visit s.found s.lineStartOffset line) } := by
  rw [length_joinLines_cons] at hfit ⊢
  have hlater : 0 + line.length + 1 + (joinLines lines).length ≤ size := by omega
  have hrest := endLines_eq visit (s := { s with
    found := visit s.found s.lineStartOffset line
    lineStartOffset := s.fileOffset + (0 + line.length + 1) }) hdvd rfl hlater
  simp only [Nat.zero_add] at hrest
  simp only [chunk, splitLines_joinLines hlines hr, endLines, Nat.zero_add, hrest, List.length_append,
    length_joinLines_cons]
  cases r with
  | nil => simp
  | cons b r => simp

/-- The scan has seen the last pieces of the lines. -/
theorem foldl_chunk (hsize : 0 < size) (hlines : ∀ line ∈ lines, newlineByte ∉ line) (h : Carries size s start lines) :
    ((chunks size ((joinLines lines).drop (s.fileOffset - start))).foldl (chunk visit) s).found =
      (pieces size start lines).foldl (visitPiece visit) s.found := by
  induction hlength : (joinLines lines).length - (s.fileOffset - start) using Nat.strong_induction_on
    generalizing s start lines with
  | _ n ih =>
  cases lines with
  | nil => simp [pieces]
  | cons line later =>
      obtain ⟨d, hd⟩ : ∃ d, s.fileOffset = start + d := ⟨s.fileOffset - start, by have := h.begun; omega⟩
      have hcut : s.fileOffset - start = d := by omega
      have hin := h.inFirst line later rfl
      have hline := hlines line List.mem_cons_self
      have hoffset := h.offset
      rw [hcut] at hin hlength ⊢
      rw [length_joinLines_cons] at hlength
      have hdrop : (joinLines (line :: later)).drop d = joinLines (line.drop d :: later) := by
        rw [joinLines_cons, joinLines_cons, List.drop_append_of_le_length hin]
      have hne : joinLines (line.drop d :: later) ≠ [] := by simp [joinLines_cons]
      have hfree : newlineByte ∉ line.drop d := fun hmem => hline (List.mem_of_mem_drop hmem)
      rw [hdrop, chunks_of_ne_nil hsize hne, List.foldl_cons]
      obtain ⟨done, rest, r, hsplit, htake, hend⟩ := take_joinLines size (line.drop d :: later)
      rw [htake]
      cases done with
      | nil =>
          -- the line goes on behind the buffer
          obtain ⟨next, _, hrest, hr, hrlength⟩ := hend.resolve_left fun hnone => by
            rw [hnone.1] at hsplit
            cases hsplit
          rw [hrest, List.nil_append] at hsplit
          obtain ⟨rfl, rfl⟩ := List.cons.inj hsplit
          rw [joinLines_nil, List.length_nil, Nat.zero_add] at hrlength
          have hshort := hr.length_le
          rw [List.length_drop] at hshort
          have hrne : r ≠ [] := List.length_pos_iff.mp (by omega)
          rw [joinLines_nil, List.nil_append, chunk_unfinished visit (fun hmem => hfree (hr.subset hmem)) hrne, ← hdrop,
            List.drop_drop]
          have hcarries : Carries size
              { s with fileOffset := s.fileOffset + r.length, lineStartOffset := s.fileOffset } start (line :: later) :=
            { buffer := by
                rw [hrlength]
                exact Nat.dvd_add h.buffer (Nat.dvd_refl size)
              begun := by
                dsimp only
                omega
              inFirst := by
                rintro l ls heq
                obtain ⟨rfl, -⟩ := List.cons.inj heq
                dsimp only
                omega
              offset := by
                dsimp only
                rw [if_neg (by omega)]
                omega }
          have hnext := ih _ (by rw [length_joinLines_cons]; dsimp only; omega) hlines hcarries rfl
          dsimp only at hnext
          rwa [show s.fileOffset + r.length - start = d + size by omega] at hnext
      | cons first done =>
          rw [List.cons_append] at hsplit
          obtain ⟨rfl, rfl⟩ := List.cons.inj hsplit
          have htaken := congrArg List.length htake
          rw [List.length_take, List.length_append] at htaken
          have hdone : ∀ l ∈ line.drop d :: done, newlineByte ∉ l := by
            intro l hl
            rcases List.mem_cons.mp hl with rfl | hmem
            · exact hfree
            · exact hlines l (List.mem_cons_of_mem line (List.mem_append_left rest hmem))
          have hrfree : newlineByte ∉ r := by
            rcases hend with ⟨-, rfl⟩ | ⟨next, _, rfl, hr, -⟩
            · exact List.not_mem_nil
            · exact fun hmem => hlines next
                (List.mem_cons_of_mem line (List.mem_append_right done List.mem_cons_self)) (hr.subset hmem)
          rw [chunk_ended visit h.buffer (by omega) hdone hrfree]
          have hfirst : (line.drop d).length = line.length - d := List.length_drop
          have hbuffer : (start + line.length) / size * size = s.fileOffset := by
            have hlen : (joinLines (line.drop d :: done)).length = (line.drop d).length + 1 + (joinLines done).length :=
              length_joinLines_cons
            exact buffer_eq h.buffer (by omega) (by omega)
          -- the first line is seen from where the buffer starts, the others from their own start
          have hpieces : (pieces size start (line :: (done ++ rest))).foldl (visitPiece visit) s.found =
              (pieces size (s.fileOffset + (joinLines (line.drop d :: done)).length) rest).foldl (visitPiece visit)
                ((pieces size (s.fileOffset + ((line.drop d).length + 1)) done).foldl (visitPiece visit)
                  (visit s.found s.lineStartOffset (line.drop d))) := by
            have hnext : start + line.length + 1 = s.fileOffset + ((line.drop d).length + 1) := by omega
            have hlast : s.fileOffset + ((line.drop d).length + 1) + (joinLines done).length =
                s.fileOffset + (joinLines (line.drop d :: done)).length := by
              rw [length_joinLines_cons]
              omega
            rw [pieces, pieceOf, List.foldl_cons, hbuffer, hnext, pieces_append, List.foldl_append, hlast, visitPiece, hoffset,
              hcut]
          rw [hpieces]
          rcases hend with ⟨rfl, rfl⟩ | ⟨next, after, rfl, hr, hrlength⟩
          · have hall : (joinLines (line.drop d :: (done ++ []))).drop size = [] := by
              rw [List.append_nil, List.append_nil] at htake
              rw [List.append_nil, ← List.length_eq_zero_iff, List.length_drop]
              have hlen := congrArg List.length htake
              rw [List.length_take] at hlen
              omega
            rw [hall, chunks_nil]
            rfl
          · have hlen := hr.length_le
            have hrest : (joinLines (line.drop d :: (done ++ next :: after))).drop size =
                (joinLines (next :: after)).drop r.length := by
              rw [← List.cons_append, joinLines_append, ← hrlength, List.drop_length_add_append]
            have hcarries : Carries size
                { fileOffset := s.fileOffset + ((joinLines (line.drop d :: done)).length + r.length)
                  lineStartOffset := s.fileOffset + (joinLines (line.drop d :: done)).length
                  found := (pieces size (s.fileOffset + ((line.drop d).length + 1)) done).foldl (visitPiece visit)
                    (visit s.found s.lineStartOffset (line.drop d)) }
                (s.fileOffset + (joinLines (line.drop d :: done)).length) (next :: after) :=
              { buffer := by
                  rw [hrlength]
                  exact Nat.dvd_add h.buffer (Nat.dvd_refl size)
                begun := by
                  dsimp only
                  omega
                inFirst := by
                  rintro l ls heq
                  obtain ⟨rfl, -⟩ := List.cons.inj heq
                  dsimp only
                  omega
                offset := by
                  dsimp only
                  split <;> omega }
            have hnext := ih _ (by
              rw [length_joinLines_cons]
              dsimp only
              rw [joinLines_append, List.length_append, length_joinLines_cons] at hlength
              omega)
              (fun l hl => hlines l (List.mem_cons_of_mem line (List.mem_append_right done hl))) hcarries rfl
            dsimp only at hnext
            rw [hrest]
            rwa [show s.fileOffset + ((joinLines (line.drop d :: done)).length + r.length) -
              (s.fileOffset + (joinLines (line.drop d :: done)).length) = r.length by omega] at hnext

theorem foldl_chunk_start (hsize : 0 < size) (hlines : ∀ line ∈ lines, newlineByte ∉ line) (found : σ) :
    ((chunks size (joinLines lines)).foldl (chunk visit) { found }).found =
      (pieces size 0 lines).foldl (visitPiece visit) found := by
  have hcarries : Carries size ({ found } : LineScan σ) 0 lines :=
    { buffer := Nat.dvd_zero size
      begun := Nat.le_refl 0
      inFirst := fun _ _ _ => Nat.zero_le _
      offset := by simp }
  exact foldl_chunk visit hsize hlines hcarries

end LineScan

/-! ## Texts that come in parts -/

open JsString

/-- A scan of the lines of a text: the line that has not ended yet, and what has been found. -/
structure TextScan (σ : Type*) where
  leftover : JsString := []
  found : σ

namespace TextScan

variable {σ : Type*} (visit : σ → JsString → σ)

def part (s : TextScan σ) (text : JsString) : TextScan σ :=
  let parts := splitOn (unit '\n') (s.leftover ++ text)
  { leftover := parts.getLast?.getD []
    found := parts.dropLast.foldl visit s.found }

theorem part_nil {s : TextScan σ} (h : unit '\n' ∉ s.leftover) : s.part visit [] = s := by
  simp [part, splitOn_self h]

theorem leftover_part (s : TextScan σ) (text : JsString) : unit '\n' ∉ (s.part visit text).leftover := by
  have hne := splitOn_ne_nil (unit '\n') (s.leftover ++ text)
  have hlast : (s.part visit text).leftover = (splitOn (unit '\n') (s.leftover ++ text)).getLast hne := by
    rw [part, List.getLast?_eq_some_getLast hne]
    rfl
  rw [hlast]
  exact not_mem_of_splitOn (List.getLast_mem hne)

theorem part_part (s : TextScan σ) (text text' : JsString) :
    (s.part visit text).part visit text' = s.part visit (text ++ text') := by
  have hne := splitOn_ne_nil (unit '\n') ((splitOn (unit '\n') (s.leftover ++ text)).getLast?.getD [] ++ text')
  have hsplit := splitOn_append_last (unit '\n') (s.leftover ++ text) text'
  rw [List.append_assoc] at hsplit
  simp only [part, hsplit, List.getLast?_append_of_ne_nil _ hne, List.dropLast_append_of_ne_nil hne, List.foldl_append]

theorem foldl_part {s : TextScan σ} (h : unit '\n' ∉ s.leftover) (texts : List JsString) :
    texts.foldl (part visit) s = s.part visit texts.flatten := by
  induction texts generalizing s with
  | nil => exact (part_nil visit h).symm
  | cons text texts ih => rw [List.foldl_cons, ih (leftover_part visit s text), part_part, List.flatten_cons]

end TextScan

end WrongStack.Lib

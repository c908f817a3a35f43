import WrongStack.Lib.JsString

/-!
# Think tags

`ThinkTagFilter` (`providers/src/openai.ts`).
-/

namespace WrongStack.Streaming

open Lib

def THINK_OPEN : JsString := js "<think>"

def THINK_CLOSE : JsString := js "</think>"

inductive SegmentKind
  | text | thinking
  deriving DecidableEq

structure ThinkSegment where
  kind : SegmentKind
  text : JsString
  deriving DecidableEq

def isProperPrefix (s tag : JsString) : Bool := s.isPrefixOf tag && s.length < tag.length

/-- Lengths from `k` downwards are tried. -/
def longestTagPrefix (s : JsString) : Nat → Nat
  | 0 => 0
  | k + 1 =>
      let suf := s.drop (s.length - (k + 1))
      if isProperPrefix suf THINK_OPEN || isProperPrefix suf THINK_CLOSE then k + 1 else longestTagPrefix s k

def trailingTagPrefixLen (s : JsString) : Nat := longestTagPrefix s (min s.length (THINK_CLOSE.length - 1))

structure ThinkTagFilter where
  mode : SegmentKind := .text
  carry : JsString := []
  deriving DecidableEq

namespace ThinkTagFilter

def segment (kind : SegmentKind) (text : JsString) : List ThinkSegment := if text.isEmpty then [] else [⟨kind, text⟩]

/-- The end of the buffer: a trailing run that could be the prefix of a tag is held back. -/
def holdBack (mode : SegmentKind) (tail : JsString) : List ThinkSegment × ThinkTagFilter :=
  let hold := trailingTagPrefixLen tail
  if 0 < hold then
    let cut := tail.length - hold
    (segment mode (tail.take cut), ⟨mode, tail.drop cut⟩)
  else (segment mode tail, ⟨mode, []⟩)

/-- The tag that is looked for at a place, and the mode after it. -/
def tagAt (mode : SegmentKind) (rest : JsString) : Option (JsString × SegmentKind) :=
  match mode with
  | .text =>
      if THINK_OPEN.isPrefixOf rest then some (THINK_OPEN, .thinking)
      else if THINK_CLOSE.isPrefixOf rest then some (THINK_CLOSE, .text)
      else none
  | .thinking => if THINK_CLOSE.isPrefixOf rest then some (THINK_CLOSE, .text) else none

/-- The loop of `push`: `skip` code units of a tag are still to be passed over, and `seg` is what stands between
`segStart` and the place. -/
def scan : Nat → SegmentKind → JsString → JsString → List ThinkSegment × ThinkTagFilter
  | _, mode, seg, [] => holdBack mode seg
  | skip + 1, mode, seg, _ :: rest => scan skip mode seg rest
  | 0, mode, seg, c :: rest =>
      match tagAt mode (c :: rest) with
      | some (tag, mode') =>
          let r := scan (tag.length - 1) mode' [] rest
          (segment mode seg ++ r.1, r.2)
      | none => scan 0 mode (seg ++ [c]) rest

def push (f : ThinkTagFilter) (chunk : JsString) : List ThinkSegment × ThinkTagFilter := scan 0 f.mode [] (f.carry ++ chunk)

/-- A held-back run that was never completed is text of the open mode. -/
def flush (f : ThinkTagFilter) : List ThinkSegment × ThinkTagFilter := (segment f.mode f.carry, { f with carry := [] })

/-- One chunk after the other, and the end. -/
def feed (f : ThinkTagFilter) : List JsString → List ThinkSegment
  | [] => f.flush.1
  | chunk :: chunks => (f.push chunk).1 ++ feed (f.push chunk).2 chunks

end ThinkTagFilter

/-! ## What the filter gives out -/

/-- A text with the kind of each of its code units and without its tags; `skip` code units of a tag are still to be
passed over. -/
def strip : Nat → SegmentKind → JsString → List (SegmentKind × UInt16)
  | _, _, [] => []
  | skip + 1, kind, _ :: rest => strip skip kind rest
  | 0, kind, c :: rest =>
      match ThinkTagFilter.tagAt kind (c :: rest) with
      | some (tag, kind') => strip (tag.length - 1) kind' rest
      | none => (kind, c) :: strip 0 kind rest

def labelled (segs : List ThinkSegment) : List (SegmentKind × UInt16) := segs.flatMap fun s => s.text.map (s.kind, ·)

namespace ThinkTagFilter

variable {mode : SegmentKind} {x later : JsString} {r : JsString × SegmentKind}

/-- No tag begins within `x`, given what follows. -/
def Clear (mode : SegmentKind) (x later : JsString) : Prop := ∀ i < x.length, tagAt mode (x.drop i ++ later) = none

theorem labelled_segment (kind : SegmentKind) (text : JsString) : labelled (segment kind text) = text.map (kind, ·) := by
  cases text <;> simp [labelled, segment]

theorem strip_clear (h : Clear mode x later) : strip 0 mode (x ++ later) = x.map (mode, ·) ++ strip 0 mode later := by
  induction x with
  | nil => rfl
  | cons c x ih =>
      have hhead := h 0 (Nat.succ_pos _)
      simp only [List.drop_zero, List.cons_append] at hhead
      simp only [List.cons_append, strip, hhead, List.map_cons]
      rw [ih fun i hi => by simpa using h (i + 1) (Nat.succ_lt_succ hi)]

/-- A tag at the head of a longer text is one of the text, unless the text is too short for it. -/
theorem isPrefixOf_append {tag : JsString} (h : isProperPrefix x tag = false) :
    tag.isPrefixOf (x ++ later) = tag.isPrefixOf x := by
  rw [Bool.eq_iff_iff, List.isPrefixOf_iff_prefix, List.isPrefixOf_iff_prefix]
  refine ⟨fun hlong => ?_, fun hshort => hshort.trans (List.prefix_append ..)⟩
  rcases List.prefix_or_prefix_of_prefix hlong (List.prefix_append x later) with hshort | hx
  · exact hshort
  · have hle : ¬ x.length < tag.length := by
      simpa [isProperPrefix, List.isPrefixOf_iff_prefix.mpr hx] using h
    rw [hx.eq_of_length (by have := hx.length_le; omega)]

theorem tagAt_append (hopen : isProperPrefix x THINK_OPEN = false) (hclose : isProperPrefix x THINK_CLOSE = false) :
    tagAt mode (x ++ later) = tagAt mode x := by
  unfold tagAt
  rw [isPrefixOf_append hopen, isPrefixOf_append hclose]

theorem not_isProperPrefix {tag : JsString} (h : tag.length ≤ x.length) : isProperPrefix x tag = false := by
  simp [isProperPrefix, h]

theorem longestTagPrefix_spec {k i : Nat} (hi : i < x.length - longestTagPrefix x k) (hk : x.length - i ≤ k) :
    isProperPrefix (x.drop i) THINK_OPEN = false ∧ isProperPrefix (x.drop i) THINK_CLOSE = false := by
  induction k with
  | zero => omega
  | succ k ih =>
      unfold longestTagPrefix at hi
      dsimp only at hi
      split at hi
      · omega
      · rename_i hnone
        rcases Nat.lt_or_ge k (x.length - i) with hlt | hge
        · have hplace : x.length - (k + 1) = i := by omega
          rw [hplace] at hnone
          simpa using hnone
        · exact ih hi hge

/-- No tag ends within what is not held back, whatever comes later. -/
theorem clear_released (h : Clear mode x []) (later : JsString) :
    Clear mode (x.take (x.length - trailingTagPrefixLen x)) (x.drop (x.length - trailingTagPrefixLen x) ++ later) := by
  intro i hi
  have hlt : i < x.length - trailingTagPrefixLen x := (List.length_take ▸ hi).trans_le (Nat.min_le_left ..)
  have hclear := h i (hlt.trans_le (Nat.sub_le ..))
  rw [← List.append_assoc, ← List.drop_append_of_le_length hi.le, List.take_append_drop]
  rw [List.append_nil] at hclear
  rcases Nat.lt_or_ge (THINK_CLOSE.length - 1) (x.length - i) with hlong | hshort
  · have hlength : THINK_CLOSE.length ≤ (x.drop i).length := by rw [List.length_drop]; omega
    rw [tagAt_append (not_isProperPrefix (Nat.le_trans (by decide) hlength)) (not_isProperPrefix hlength)]
    exact hclear
  · obtain ⟨hopen, hclose⟩ := longestTagPrefix_spec hlt (by omega)
    rw [tagAt_append hopen hclose]
    exact hclear

theorem holdBack_spec (h : Clear mode x []) (later : JsString) : (holdBack mode x).2.mode = mode ∧
    Clear mode (holdBack mode x).2.carry [] ∧
    labelled (holdBack mode x).1 ++ strip 0 mode ((holdBack mode x).2.carry ++ later) = strip 0 mode (x ++ later) := by
  have hreleased := strip_clear (clear_released h later)
  rw [← List.append_assoc, List.take_append_drop] at hreleased
  unfold holdBack
  dsimp only
  split
  · refine ⟨rfl, fun i hi => ?_, ?_⟩
    · rw [List.drop_drop]
      exact h _ (by rw [List.length_drop] at hi; omega)
    · rw [labelled_segment, hreleased]
  · rename_i hnone
    rw [Nat.eq_zero_of_not_pos hnone] at hreleased
    refine ⟨rfl, nofun, ?_⟩
    simpa [labelled_segment] using hreleased.symm

/-- A tag that was found is found also if more comes later. -/
theorem tagAt_spec (later : JsString) (h : tagAt mode x = some r) : THINK_OPEN.length ≤ r.1.length ∧ r.1.length ≤ x.length ∧
    tagAt mode (x ++ later) = some r := by
  have hfound {tag : JsString} (htag : tag.isPrefixOf x = true) :
      tag.length ≤ x.length ∧ tag.isPrefixOf (x ++ later) = true := by
    have hstart := List.isPrefixOf_iff_prefix.mp htag
    exact ⟨hstart.length_le, List.isPrefixOf_iff_prefix.mpr (hstart.trans (List.prefix_append ..))⟩
  have hle : THINK_OPEN.length ≤ THINK_CLOSE.length := by decide
  cases mode with
  | text =>
      simp only [tagAt] at h ⊢
      split at h
      · cases h
        obtain ⟨hlong, hlater⟩ := hfound ‹_›
        exact ⟨Nat.le_refl _, hlong, if_pos hlater⟩
      · rename_i hopen
        split at h
        · cases h
          obtain ⟨hlong, hlater⟩ := hfound ‹_›
          rw [isPrefixOf_append (not_isProperPrefix (hle.trans hlong)), if_neg hopen]
          exact ⟨hle, hlong, if_pos hlater⟩
        · cases h
  | thinking =>
      simp only [tagAt] at h ⊢
      split at h
      · cases h
        obtain ⟨hlong, hlater⟩ := hfound ‹_›
        exact ⟨hle, hlong, if_pos hlater⟩
      · cases h

theorem scan_spec (skip : Nat) (mode : SegmentKind) (seg buf later : JsString) (hseg : skip = 0 ∨ seg = [])
    (hskip : skip ≤ buf.length) (hclear : Clear mode seg buf) :
    Clear (scan skip mode seg buf).2.mode (scan skip mode seg buf).2.carry [] ∧
      labelled (scan skip mode seg buf).1 ++
          strip 0 (scan skip mode seg buf).2.mode ((scan skip mode seg buf).2.carry ++ later) =
        strip skip mode (seg ++ (buf ++ later)) := by
  fun_induction scan skip mode seg buf with
  | case1 skip mode seg =>
      obtain ⟨hmode, hcarry, hout⟩ := holdBack_spec hclear later
      obtain rfl := Nat.le_zero.mp hskip
      rw [hmode]
      exact ⟨hcarry, hout⟩
  | case2 skip mode seg c rest ih =>
      obtain rfl := hseg.resolve_left (Nat.succ_ne_zero _)
      exact ih (.inr rfl) (Nat.le_of_succ_le_succ hskip) nofun
  | case3 mode seg c rest tag mode' htag r ih =>
      obtain ⟨hopen, hlong, hlater⟩ := tagAt_spec later htag
      have hlonger : Clear mode seg (c :: rest ++ later) := by
        intro i hi
        have hlength : THINK_CLOSE.length ≤ (seg.drop i ++ c :: rest).length := by
          have hlengths : THINK_CLOSE.length ≤ 1 + THINK_OPEN.length := by decide
          rw [List.length_append, List.length_drop]
          omega
        rw [← List.append_assoc, tagAt_append (not_isProperPrefix (Nat.le_trans (by decide) hlength))
          (not_isProperPrefix hlength)]
        exact hclear i hi
      obtain ⟨hcarry, hout⟩ := ih (.inr rfl) (by simp only [List.length_cons] at hlong; omega) nofun
      refine ⟨hcarry, ?_⟩
      rw [strip_clear hlonger, labelled, List.flatMap_append, List.append_assoc]
      refine congrArg₂ _ (labelled_segment ..) (hout.trans ?_)
      rw [List.cons_append] at hlater ⊢
      simp [strip, hlater]
  | case4 mode seg c rest hnone ih =>
      have hnext : Clear mode (seg ++ [c]) rest := by
        intro i hi
        rcases Nat.lt_or_ge i seg.length with hlt | hge
        · rw [List.drop_append_of_le_length hlt.le, List.append_assoc]
          exact hclear i hlt
        · obtain rfl : i = seg.length := by rw [List.length_append, List.length_singleton] at hi; omega
          rwa [List.drop_left]
      obtain ⟨hcarry, hout⟩ := ih (.inl rfl) (Nat.zero_le _) hnext
      refine ⟨hcarry, ?_⟩
      rw [hout]
      simp

/-- The filter gives out the text without its tags, however it is cut into chunks. -/
theorem feed_strips (chunks : List JsString) : labelled (feed {} chunks) = strip 0 .text chunks.flatten := by
  suffices h : ∀ f : ThinkTagFilter, Clear f.mode f.carry [] →
      labelled (feed f chunks) = strip 0 f.mode (f.carry ++ chunks.flatten) from h {} nofun
  induction chunks with
  | nil =>
      intro f hf
      rw [feed, flush, labelled_segment, List.flatten_nil, strip_clear hf, strip, List.append_nil]
  | cons chunk chunks ih =>
      intro f hf
      obtain ⟨hcarry, hout⟩ := scan_spec 0 f.mode [] (f.carry ++ chunk) chunks.flatten (.inl rfl) (Nat.zero_le _) nofun
      rw [feed, labelled, List.flatMap_append, List.flatten_cons, ← List.append_assoc]
      exact (congrArg _ (ih _ hcarry)).trans hout

end ThinkTagFilter

example : ({} : ThinkTagFilter).push (js "a</thi") = ([⟨.text, js "a"⟩], ⟨.text, js "</thi"⟩) := by decide +kernel

end WrongStack.Streaming

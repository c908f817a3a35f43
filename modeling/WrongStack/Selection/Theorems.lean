import WrongStack.Selection.Compactor

/-!
# Lists with replaced ranges

What a plan asks for: every range gives way to one message of the system, and nothing else changes. A list of this
kind is carried out exactly when every range begins at a message and is not widened by rounding.
-/

namespace WrongStack.Selection

open Lib Conversation

/-- From index `k` on, the ranges of the list are replaced by one message each. -/
inductive Replaced (s : List Slot) : Nat → List CollapsedRange → List Slot → Prop
  | done {k : Nat} : Replaced s k [] (s.drop k)
  | range {k : Nat} {r : CollapsedRange} {rs : List CollapsedRange} {m : Message} {tail : List Slot}
      (role : m.role = .system) (later : Replaced s r.afterLast rs tail) :
      Replaced s k (r :: rs) ((s.take r.first).drop k ++ .made m :: tail)

theorem replaced_nil {s out : List Slot} {k : Nat} : Replaced s k [] out ↔ out = s.drop k := by
  constructor
  · rintro ⟨⟩
    rfl
  · rintro rfl
    exact .done

theorem replaced_cons {s out : List Slot} {k : Nat} {r : CollapsedRange} {rs : List CollapsedRange} :
    Replaced s k (r :: rs) out ↔ ∃ m tail, m.role = .system ∧ Replaced s r.afterLast rs tail ∧
      out = (s.take r.first).drop k ++ .made m :: tail := by
  constructor
  · intro h
    cases h with
    | range hrole hlater => exact ⟨_, _, hrole, hlater, rfl⟩
  · rintro ⟨m, tail, hrole, hlater, rfl⟩
    exact .range hrole hlater

/-- Carrying out the range touches what it names and nothing else: it begins at a message, and the number of its
messages is not rounded up, unless the list ends there. -/
structure Range.Aligned (length : Nat) (r : Range) : Prop where
  whole : r.start = (toIndex r.start : ℚ)
  ends : r.afterLast = length ∨
    Double.round (Double.round (r.stop - r.start) + 1) < (toIndex r.stop : ℚ) - toIndex r.start + 2

/-- A summary that is there is a text, or can be made into one. -/
def CollapsedRange.Printable (r : CollapsedRange) : Prop :=
  ∀ v, r.summary = some v → v.truthy = true → (Session.Loader.joinedText v).isSome

/-! ## Original messages -/

def Slot.isMade (x : Slot) : Bool := x.index?.isNone

/-- Only messages of the original list. -/
def Originals (s : List Slot) : Prop := s.countP Slot.isMade = 0

/-- The first message that was made is found at one place only. -/
theorem Originals.split {l l' t t' : List Slot} {m m' : Message} (hl : Originals l) (hl' : Originals l')
    (h : l ++ .made m :: t = l' ++ .made m' :: t') : l = l' ∧ m = m' ∧ t = t' := by
  induction l generalizing l' with
  | nil =>
      cases l' with
      | nil => simpa using h
      | cons y ys =>
          obtain ⟨rfl, -⟩ := List.cons.inj h
          simp [Originals, Slot.isMade, Slot.index?] at hl'
  | cons x xs ih =>
      cases l' with
      | nil =>
          obtain ⟨rfl, -⟩ := List.cons.inj h
          simp [Originals, Slot.isMade, Slot.index?] at hl
      | cons y ys =>
          obtain ⟨rfl, hrest⟩ := List.cons.inj h
          have hxs : Originals xs := by
            simp only [Originals, List.countP_cons, Nat.add_eq_zero_iff] at hl ⊢
            exact hl.1
          have hys : Originals ys := by
            simp only [Originals, List.countP_cons, Nat.add_eq_zero_iff] at hl' ⊢
            exact hl'.1
          obtain ⟨rfl, hm, ht⟩ := ih hxs hys hrest
          exact ⟨rfl, hm, ht⟩

theorem Originals.sublist {l l' : List Slot} (h : Originals l) (hsub : l'.Sublist l) : Originals l' :=
  Nat.le_zero.mp (h ▸ hsub.countP_le)

@[simp] theorem length_slots (messages : List Message) : (slots messages).length = messages.length := by
  simp [slots]

theorem index_slots (messages : List Message) :
    (slots messages).map Slot.index? = (List.range messages.length).map some := by
  have hsnd : (slots messages).map Slot.index? = messages.zipIdx.map (some ∘ Prod.snd) := by
    rw [slots, List.map_map]
    rfl
  rw [hsnd, ← List.map_map, List.zipIdx_map_snd, List.range_eq_range']

theorem originals_slots (messages : List Message) : Originals (slots messages) := by
  rw [Originals, List.countP_eq_zero]
  intro x hx
  have hmem := List.mem_map_of_mem (f := Slot.index?) hx
  rw [index_slots, List.mem_map] at hmem
  obtain ⟨i, -, hi⟩ := hmem
  simp [Slot.isMade, ← hi]

/-- Two pieces of the original list are equal only at the same place. -/
theorem piece_unique {messages : List Message} {a b a' b' : Nat} (hb : b ≤ messages.length)
    (hb' : b' ≤ messages.length) (h : ((slots messages).take b).drop a = ((slots messages).take b').drop a') :
    b - a = b' - a' ∧ (a < b → a = a') := by
  have hlength := congrArg List.length h
  simp only [List.length_drop, List.length_take, length_slots] at hlength
  have heq : b - a = b' - a' := by omega
  refine ⟨heq, fun hlt => ?_⟩
  have hindex := congrArg (fun l => (l.map Slot.index?).head?) h
  simp only [List.map_drop, List.map_take, index_slots, List.head?_drop] at hindex
  rw [List.getElem?_take_of_lt hlt, List.getElem?_take_of_lt (by omega)] at hindex
  simpa [show a < messages.length by omega, show a' < messages.length by omega] using hindex

/-! ## How many messages are made -/

variable {summarize : List Message → JsString} {s s' out : List Slot} {r : CollapsedRange} {rs : List CollapsedRange}

theorem countP_splice {start count : Nat} {m : Message} :
    (splice s start count (.made m)).countP Slot.isMade ≤ s.countP Slot.isMade + 1 := by
  have hsub : (s.drop (start + count)).countP Slot.isMade ≤ (s.drop start).countP Slot.isMade := by
    rw [← List.drop_drop]
    exact (List.drop_sublist _ _).countP_le
  have hsplit : (s.take start).countP Slot.isMade + (s.drop start).countP Slot.isMade = s.countP Slot.isMade := by
    rw [← List.countP_append, List.take_append_drop]
  simp only [splice, List.countP_append, List.countP_cons, Slot.isMade, Slot.index?, Option.isNone_none,
    if_true] at hsub hsplit ⊢
  omega

theorem countP_run (h : Apart s.length rs) (hs : Originals s) (hrun : run summarize s rs = some s') :
    s'.countP Slot.isMade ≤ rs.length := by
  induction rs generalizing s' with
  | nil => cases hrun; exact hs.le
  | cons r rs ih =>
      obtain ⟨mid, summary, hmid, -, -, rfl⟩ := (run_cons_eq_some h).mp hrun
      exact countP_splice.trans (Nat.succ_le_succ (ih h.tail hmid))

theorem Replaced.countP {k : Nat} (hs : Originals s) (h : Replaced s k rs out) :
    out.countP Slot.isMade = rs.length := by
  induction h with
  | done => exact hs.sublist (List.drop_sublist _ _)
  | @range k r _ _ _ _ _ ih =>
      have hbefore : ((s.take r.first).drop k).countP Slot.isMade = 0 :=
        hs.sublist ((List.drop_sublist k _).trans (List.take_sublist r.first s))
      rw [List.countP_append, List.countP_cons, ih, hbefore]
      simp [Slot.isMade, Slot.index?]

/-! ## What survives -/

/-- Is the index in the range? -/
def Range.covers (r : Range) (i : Nat) : Bool := r.start ≤ i && i ≤ r.stop

/-- A message of the original list that no range names. -/
def Slot.unnamed (ranges : List CollapsedRange) (x : Slot) : Bool :=
  x.index?.all fun i => ranges.all fun r => !r.covers i

namespace Range.InBounds

variable {r : Range} {length : Nat}

theorem covers_iff (h : r.InBounds length) {i : Nat} : r.covers i = true ↔ r.first ≤ i ∧ i < r.afterLast := by
  simp only [covers, Bool.and_eq_true, decide_eq_true_eq]
  constructor
  · rintro ⟨hstart, hstop⟩
    exact ⟨first_le hstart, Nat.lt_succ_of_le (le_toIndex hstop)⟩
  · rintro ⟨hfirst, hlast⟩
    constructor
    · exact r.start_le_first.trans (by exact_mod_cast hfirst)
    · have hle : (i : ℚ) ≤ toIndex r.stop := by exact_mod_cast Nat.le_of_lt_succ hlast
      exact hle.trans (toIndex_le h.stop_nonneg)

theorem first_le_afterLast (h : r.InBounds length) : r.first ≤ r.afterLast := by
  apply first_le
  rw [afterLast]
  push_cast
  exact h.ordered.trans (lt_toIndex_succ r.stop).le

end Range.InBounds

theorem mem_piece {messages : List Message} {a b : Nat} {x : Slot} (h : x ∈ ((slots messages).take b).drop a) :
    ∃ i, x.index? = some i ∧ a ≤ i ∧ i < b := by
  have hmem := List.mem_map_of_mem (f := Slot.index?) h
  rw [List.map_drop, List.map_take, index_slots, ← List.map_take, ← List.map_drop, List.mem_map] at hmem
  obtain ⟨i, hi, heq⟩ := hmem
  refine ⟨i, heq.symm, ?_⟩
  rw [List.mem_drop_iff_getElem] at hi
  obtain ⟨j, hj, rfl⟩ := hi
  simp only [List.length_take, List.length_range] at hj
  simp only [List.getElem_take, List.getElem_range]
  omega

theorem piece_append {a b : Nat} (hab : a ≤ b) : (s.take b).drop a ++ s.drop b = s.drop a := by
  obtain ⟨d, rfl⟩ := Nat.exists_eq_add_of_le hab
  rw [List.drop_take, Nat.add_sub_cancel_left, ← List.drop_drop, List.take_append_drop]

theorem mem_drop_slots {messages : List Message} {a : Nat} {x : Slot} (h : x ∈ (slots messages).drop a) :
    ∃ i, x.index? = some i ∧ a ≤ i := by
  have hall : (slots messages).take messages.length = slots messages := by
    rw [← length_slots messages, List.take_length]
  rw [← hall] at h
  obtain ⟨i, hi, hai, -⟩ := mem_piece h
  exact ⟨i, hi, hai⟩

/-- Every message that no range names is there, in its order. -/
theorem Replaced.survivors {messages : List Message} {k : Nat} (h : Apart messages.length rs)
    (hk : ∀ r ∈ rs, k ≤ r.first) (hout : Replaced (slots messages) k rs out) :
    out.filter (fun x => !x.isMade) = ((slots messages).drop k).filter (Slot.unnamed rs) := by
  induction hout with
  | @done k =>
      apply List.filter_congr
      intro x hx
      obtain ⟨i, hi, -⟩ := mem_drop_slots hx
      simp [Slot.isMade, Slot.unnamed, hi]
  | @range k r rs m tail _ _ ih =>
      have hr := h.head
      have hfirst : ∀ r' ∈ rs, r.afterLast ≤ r'.first := by
        intro r' hr'
        have hlt : ((toIndex r.stop : ℕ) : ℚ) < (r'.first : ℕ) := by
          calc ((toIndex r.stop : ℕ) : ℚ) ≤ r.stop := toIndex_le hr.stop_nonneg
            _ < r'.start := h.stop_lt r' hr'
            _ ≤ r'.first := r'.start_le_first
        exact_mod_cast hlt
      have hbefore : ∀ x ∈ ((slots messages).take r.first).drop k,
          (!x.isMade) = true ∧ Slot.unnamed (r :: rs) x = true := by
        intro x hx
        obtain ⟨i, hi, -, hlt⟩ := mem_piece hx
        refine ⟨by simp [Slot.isMade, hi], ?_⟩
        simp only [Slot.unnamed, hi, Option.all_some, List.all_eq_true, Bool.not_eq_true']
        intro r' hr'
        rw [Bool.eq_false_iff]
        intro hcovers
        rcases List.mem_cons.mp hr' with rfl | hmem
        · have := (hr.covers_iff.mp hcovers).1
          omega
        · have hge := ((h.tail.inBounds r' hmem).covers_iff.mp hcovers).1
          have hle := hfirst r' hmem
          have hmid := hr.first_le_afterLast
          omega
      have hnamed : ∀ x ∈ ((slots messages).take r.afterLast).drop r.first, Slot.unnamed (r :: rs) x = false := by
        intro x hx
        obtain ⟨i, hi, hge, hlt⟩ := mem_piece hx
        simp [Slot.unnamed, hi, hr.covers_iff.mpr ⟨hge, hlt⟩]
      have hbehind : ∀ x ∈ (slots messages).drop r.afterLast, Slot.unnamed (r :: rs) x = Slot.unnamed rs x := by
        intro x hx
        obtain ⟨i, hi, hge⟩ := mem_drop_slots hx
        have hout : r.covers i = false := by
          rw [Bool.eq_false_iff]
          intro hcovers
          have := (hr.covers_iff.mp hcovers).2
          omega
        simp [Slot.unnamed, hi, hout]
      have hsplit : (slots messages).drop k = ((slots messages).take r.first).drop k ++
          (((slots messages).take r.afterLast).drop r.first ++ (slots messages).drop r.afterLast) := by
        rw [piece_append hr.first_le_afterLast, piece_append (hk r List.mem_cons_self)]
      rw [hsplit]
      simp only [List.filter_append]
      have hmade : (Slot.made m :: tail).filter (fun x => !x.isMade) = tail.filter fun x => !x.isMade :=
        List.filter_cons_of_neg (by simp [Slot.isMade, Slot.index?])
      have hkept := List.filter_eq_self.mpr fun x hx => (hbefore x hx).1
      have hkept' := List.filter_eq_self.mpr fun x hx => (hbefore x hx).2
      have hgone := List.filter_eq_nil_iff.mpr fun x hx => Bool.eq_false_iff.mp (hnamed x hx)
      rw [hmade, ih h.tail hfirst, hkept, hkept', hgone, List.nil_append, List.filter_congr hbehind]

end WrongStack.Selection

/-!
# Aligned ranges

A list of ranges is carried out as it should be exactly if each of them is aligned. In the one direction the lists are
followed from the last range on; in the other, the first message that was made shows where the first range was cut.
-/

namespace WrongStack.Selection

open Lib Conversation

variable {summarize : List Message → JsString} {s s' out : List Slot} {r : CollapsedRange} {rs : List CollapsedRange}

/-! ## Where a range is cut -/

theorem toIndex_lt {q : ℚ} {k : Nat} (hk : 0 < k) (h : q < k) : toIndex q < k := by
  have hfloor : q.floor < (k : ℤ) := by
    rw [← not_le, Rat.le_floor_iff, not_le]
    exact_mod_cast h
  rw [toIndex]
  omega

namespace Range.InBounds

variable {length : Nat} {r : Range}

theorem whole_iff (h : r.InBounds length) : r.start = (toIndex r.start : ℚ) ↔ toIndex r.start = r.first := by
  constructor
  · intro hwhole
    apply le_antisymm
    · have hle : (toIndex r.start : ℚ) ≤ r.first := hwhole ▸ r.start_le_first
      exact_mod_cast hle
    · exact first_le hwhole.le
  · intro hfirst
    apply le_antisymm
    · calc r.start ≤ r.first := r.start_le_first
        _ = toIndex r.start := by rw [hfirst]
    · exact toIndex_le h.nonneg

variable (h : r.InBounds length) (hlength : length < 2 ^ 32) (hwhole : r.start = (toIndex r.start : ℚ))
include h hlength hwhole

theorem afterLast_le_cut : r.afterLast ≤ toIndex r.start + r.deleteCount := by
  have hstop := h.start_le_stop
  have hafter := h.afterLast_le
  have hspan : ((toIndex r.stop - toIndex r.start : ℕ) : ℚ) ≤ r.stop - r.start := by
    rw [Nat.cast_sub hstop, ← hwhole]
    exact sub_le_sub_right (toIndex_le h.stop_nonneg) _
  rw [afterLast] at hafter ⊢
  have hcount := le_deleteCount hlength (by omega) hspan
  omega

theorem ends_iff : r.afterLast = length ∨
      Double.round (Double.round (r.stop - r.start) + 1) < (toIndex r.stop : ℚ) - toIndex r.start + 2 ↔
    min (toIndex r.start + r.deleteCount) length = r.afterLast := by
  have hcut := h.afterLast_le_cut hlength hwhole
  have hafter := h.afterLast_le
  have hstop := h.start_le_stop
  have hspan : (toIndex r.stop : ℚ) - toIndex r.start + 2 = ((toIndex r.stop - toIndex r.start + 2 : ℕ) : ℚ) := by
    push_cast [Nat.cast_sub hstop]
    rfl
  rw [hspan]
  constructor
  · rintro (hend | hround)
    · omega
    · have hcount : r.deleteCount < toIndex r.stop - toIndex r.start + 2 := toIndex_lt (by omega) hround
      rw [afterLast] at hcut hafter ⊢
      omega
  · intro hmin
    by_cases hend : r.afterLast = length
    · exact .inl hend
    · right
      have hcount : r.deleteCount + 1 = toIndex r.stop - toIndex r.start + 2 := by
        rw [afterLast] at hmin hend
        omega
      calc _ < (r.deleteCount : ℚ) + 1 := lt_toIndex_succ _
        _ = _ := by exact_mod_cast hcount

end Range.InBounds

/-! ## Aligned ranges are replaced -/

theorem replaced_of_aligned (h : Apart s.length rs) (hlength : s.length < 2 ^ 32)
    (haligned : ∀ r ∈ rs, r.Aligned s.length) (hrun : run summarize s rs = some out) {k : Nat}
    (hk : ∀ r ∈ rs, k ≤ toIndex r.start) : Replaced s k rs (out.drop k) := by
  induction rs generalizing out k with
  | nil => cases hrun; exact .done
  | cons r rs ih =>
      obtain ⟨mid, summary, hmid, hbounds, -, rfl⟩ := (run_cons_eq_some h).mp hrun
      have hr := haligned r List.mem_cons_self
      have hfirst := (h.head.whole_iff).mp hr.whole
      have hend := (h.head.ends_iff hlength hr.whole).mp hr.ends
      have hafter : ∀ r' ∈ rs, r.afterLast ≤ toIndex r'.start := by
        intro r' hr'
        have hlt : (toIndex r.stop : ℚ) < toIndex r'.start := by
          calc (toIndex r.stop : ℚ) ≤ r.stop := toIndex_le h.head.stop_nonneg
            _ < r'.start := h.stop_lt r' hr'
            _ = toIndex r'.start := (haligned r' (List.mem_cons_of_mem r hr')).whole
        exact_mod_cast hlt
      have hlater : Replaced s r.afterLast rs (mid.drop r.afterLast) :=
        ih h.tail (fun r' hr' => haligned r' (List.mem_cons_of_mem r hr')) hmid hafter
      have hbefore : mid.take (toIndex r.start) = s.take r.first := by
        rw [run_take h.tail hmid h.start_le, hfirst]
      -- past the end of the list only behind the last range
      have hcut : mid.drop (toIndex r.start + r.deleteCount) = mid.drop r.afterLast := by
        by_cases hinside : toIndex r.start + r.deleteCount ≤ s.length
        · rw [min_eq_left hinside] at hend
          rw [hend]
        · cases rs with
          | nil =>
              cases hmid
              rw [List.drop_eq_nil_of_le (by omega), List.drop_eq_nil_of_le (by omega)]
          | cons r' rs' =>
              have hstart := hafter r' List.mem_cons_self
              have hlast := h.tail.head.start_le_stop
              have hlast' := h.tail.head.afterLast_le
              rw [Range.afterLast] at hlast'
              omega
      rw [splice, hbefore, hcut, List.drop_append_of_le_length]
      · exact .range rfl hlater
      · have hstart := hk r List.mem_cons_self
        have hlen := h.head.first_le_length
        rw [List.length_take]
        omega

theorem run_isSome (h : Apart s.length rs) (hprint : ∀ r ∈ rs, r.Printable) :
    ∃ out, run summarize s rs = some out := by
  induction rs with
  | nil => exact ⟨s, rfl⟩
  | cons r rs ih =>
      obtain ⟨mid, hmid⟩ := ih h.tail fun r' hr' => hprint r' (List.mem_cons_of_mem r hr')
      have hbounds : r.InBounds mid.length :=
        { h.head with below := run_length h.tail hmid h.head.below h.stop_lt }
      have hsummary : ∃ summary, summaryText summarize mid r = some summary := by
        unfold summaryText
        split
        · split
          · exact Option.isSome_iff_exists.mp (hprint r List.mem_cons_self _ ‹_› ‹_›)
          · exact ⟨_, rfl⟩
        · exact ⟨_, rfl⟩
      obtain ⟨summary, hsummary⟩ := hsummary
      exact ⟨_, (run_cons_eq_some h).mpr ⟨mid, summary, hmid, hbounds, hsummary, rfl⟩⟩

/-! ## Replaced ranges are aligned -/

theorem printable_of_run (h : Apart s.length rs) (hrun : run summarize s rs = some out) :
    ∀ r ∈ rs, r.Printable := by
  induction rs generalizing out with
  | nil => exact nofun
  | cons r rs ih =>
      obtain ⟨mid, summary, hmid, -, hsummary, -⟩ := (run_cons_eq_some h).mp hrun
      intro r' hr'
      rcases List.mem_cons.mp hr' with rfl | hrest
      · intro v hv htruthy
        rw [summaryText, hv] at hsummary
        simp only [htruthy, if_true] at hsummary
        exact Option.isSome_of_eq_some hsummary
      · exact ih h.tail hmid r' hrest

/-- The piece of the original list that a made message follows. -/
theorem originals_piece (messages : List Message) (a b : Nat) :
    Originals (((slots messages).take b).drop a) :=
  (originals_slots messages).sublist ((List.drop_sublist a _).trans (List.take_sublist b _))

/-- What is left behind the first range begins where the range ends, and the later ranges are replaced. -/
theorem cut_of_replaced {messages : List Message} (h : Apart messages.length (r :: rs))
    (hrun : run summarize (slots messages) rs = some s') {cut : Nat} (hcut : r.afterLast ≤ cut)
    (htail : Replaced (slots messages) r.afterLast rs (s'.drop cut)) :
    min cut messages.length = r.afterLast ∧ Replaced (slots messages) 0 rs s' := by
  have hafter := h.head.afterLast_le
  cases rs with
  | nil =>
      cases hrun
      refine ⟨?_, replaced_nil.mpr rfl⟩
      have hlength := congrArg List.length (replaced_nil.mp htail)
      simp only [List.length_drop, length_slots] at hlength
      omega
  | cons r' rs =>
      have h' : Apart (slots messages).length (r' :: rs) := by
        rw [length_slots]
        exact h.tail
      obtain ⟨mid, summary, hmid, hbounds, -, rfl⟩ := (run_cons_eq_some h').mp hrun
      have hstay := run_take h'.tail hmid h'.start_le
      have hstart := hbounds.start_le_length
      have hstart' := h.tail.head.start_le_length
      -- behind the message of the next range there are too few made messages
      have hinside : cut ≤ toIndex r'.start := by
        by_contra hpast
        have hcount := htail.countP (originals_slots messages)
        have hfew := countP_run h'.tail (originals_slots messages) hmid
        obtain ⟨d, hd⟩ : ∃ d, cut = toIndex r'.start + (d + 1) := ⟨cut - toIndex r'.start - 1, by omega⟩
        have hdrop : (splice mid (toIndex r'.start) r'.deleteCount (.made (summaryMsg r' summary))).drop cut =
            (mid.drop (toIndex r'.start + r'.deleteCount)).drop d := by
          have hlength : (mid.take (toIndex r'.start)).length = toIndex r'.start := by
            rw [List.length_take, min_eq_left hstart]
          rw [splice, hd, ← List.drop_drop, List.drop_append_of_le_length hlength.ge, List.drop_eq_nil_of_le hlength.le]
          rfl
        rw [hdrop, List.drop_drop] at hcount
        have hsub := (List.drop_sublist (toIndex r'.start + r'.deleteCount + d) mid).countP_le (p := Slot.isMade)
        rw [List.length_cons] at hcount
        omega
      obtain ⟨m, tail, hrole, hlater, heq⟩ := replaced_cons.mp htail
      rw [splice, hstay, List.drop_append_of_le_length
        (by rw [List.length_take, length_slots]; omega)] at heq
      obtain ⟨hpiece, hm, hrest⟩ := (originals_piece messages _ _).split (originals_piece messages _ _) heq
      have hfirst : r.afterLast ≤ r'.first := by
        have hlt : ((toIndex r.stop : ℕ) : ℚ) < (r'.first : ℕ) := by
          calc ((toIndex r.stop : ℕ) : ℚ) ≤ r.stop := toIndex_le h.head.stop_nonneg
            _ < r'.start := h.stop_lt r' List.mem_cons_self
            _ ≤ r'.first := r'.start_le_first
        exact_mod_cast hlt
      have hle : toIndex r'.start ≤ r'.first := by
        have hlt : (toIndex r'.start : ℚ) ≤ r'.first :=
          (toIndex_le h.tail.head.nonneg).trans r'.start_le_first
        exact_mod_cast hlt
      obtain ⟨hsame, hplace⟩ := piece_unique hstart' h.tail.head.first_le_length hpiece
      have hcutEq : cut = r.afterLast := by
        by_cases hlt : cut < toIndex r'.start
        · exact hplace hlt
        · omega
      refine ⟨by omega, replaced_cons.mpr ⟨m, tail, hrole, hlater, ?_⟩⟩
      rw [splice, hstay, hm, hrest, show toIndex r'.start = r'.first by omega, List.drop_zero]

theorem aligned_of_replaced {messages : List Message} (h : Apart messages.length rs)
    (hlength : messages.length < 2 ^ 32) (hrun : run summarize (slots messages) rs = some out)
    (hout : Replaced (slots messages) 0 rs out) : ∀ r ∈ rs, r.Aligned messages.length := by
  induction rs generalizing out with
  | nil => exact nofun
  | cons r rs ih =>
      have h' : Apart (slots messages).length (r :: rs) := by rwa [length_slots]
      obtain ⟨mid, summary, hmid, hbounds, -, rfl⟩ := (run_cons_eq_some h').mp hrun
      obtain ⟨m, tail, hrole, hlater, heq⟩ := replaced_cons.mp hout
      rw [splice, run_take h'.tail hmid h'.start_le] at heq
      obtain ⟨hpiece, -, rfl⟩ :=
        (originals_piece messages 0 _).split (originals_piece messages 0 _) heq
      have hwhole : r.start = (toIndex r.start : ℚ) := by
        rw [h.head.whole_iff]
        have hsame := (piece_unique h.head.start_le_length h.head.first_le_length hpiece).1
        omega
      obtain ⟨hcut, hrest⟩ := cut_of_replaced h hmid (h.head.afterLast_le_cut hlength hwhole) hlater
      have hr : r.Aligned messages.length := ⟨hwhole, (h.head.ends_iff hlength hwhole).mpr hcut⟩
      intro r' hr'
      rcases List.mem_cons.mp hr' with rfl | hmem
      · exact hr
      · exact ih h.tail hmid hrest r' hmem

end WrongStack.Selection

/-!
# Theorems about selector plans

`executePlan` on a plan that `parseSelectorOutput` accepts.
-/

namespace WrongStack.Selection

open Lib Conversation

variable {summarize : List Message → JsString}

theorem rewritten_eq_run (messages : List Message) (plan : SelectorResult) :
    rewritten summarize messages plan = run summarize (slots messages) (sortedCollapsed plan).reverse := by
  rw [rewritten, run, List.reverse_reverse]

theorem executePlan_eq (s : State) {plan : SelectorResult} {out : List Slot}
    (h : Disjoint s.messages.length plan.collapsed) (hout : rewritten summarize s.messages plan = some out) :
    executePlan summarize s plan = some (s.replaceMessages (out.map Slot.message)) := by
  unfold executePlan
  split
  next hempty =>
    have hnil : s.messages = [] := List.isEmpty_iff.mp hempty
    have hranges : plan.collapsed = [] := by
      rw [List.eq_nil_iff_forall_not_mem]
      intro r hr
      have hbounds := h.inBounds r hr
      have hbelow := hbounds.below
      rw [hnil] at hbelow
      exact absurd (hbounds.stop_nonneg.trans_lt hbelow) (by simp)
    have hout' : out = [] := by
      rw [rewritten, sortedCollapsed, hranges, hnil] at hout
      simpa [slots] using hout.symm
    rw [hout']
    cases s
    simp only at hnil
    simp [State.replaceMessages, hnil]
  next => simp [hout]

/-- The list that is committed is the original one with each collapsed range replaced by one message of the system:
the messages that no range names are all there, in their order. -/
def OnlyNamed (summarize : List Message → JsString) (s : State) (plan : SelectorResult) : Prop :=
  ∃ ranges out, ranges.Perm plan.collapsed ∧ ranges.Pairwise (fun a b => a.start < b.start) ∧
    rewritten summarize s.messages plan = some out ∧
    executePlan summarize s plan = some (s.replaceMessages (out.map Slot.message)) ∧
    Replaced (slots s.messages) 0 ranges out ∧
    out.filter (fun x => !x.isMade) = (slots s.messages).filter (Slot.unnamed plan.collapsed)

/-- An accepted plan removes only what it names if and only if each collapsed range is aligned and its summary, if it
has one, can be printed. An array has less than `2 ^ 32` elements. -/
theorem onlyNamed_iff (summarize : List Message → JsString) (parse : JsString → Option Json) (budget : JsNumber)
    (raw : JsString) (s : State) (plan : SelectorResult) (hlength : s.messages.length < 2 ^ 32)
    (h : parseSelectorOutput parse budget raw s.messages = .accepted plan) :
    OnlyNamed summarize s plan ↔ ∀ r ∈ plan.collapsed, r.Aligned s.messages.length ∧ r.Printable := by
  have hdisjoint := accepted_disjoint h
  have hperm : (sortedCollapsed plan).reverse.Perm plan.collapsed :=
    (List.reverse_perm _).trans (List.mergeSort_perm _ _)
  have hsorted := hdisjoint.sorted
  have hascending : (sortedCollapsed plan).reverse.Pairwise fun a b => a.start < b.start :=
    hsorted.ascending.imp_of_mem fun {a b} ha _ hab => (hsorted.inBounds a ha).ordered.trans_lt hab
  constructor
  · rintro ⟨ranges, out, hranges, hpairwise, hrewritten, -, hreplaced, -⟩
    have heq : ranges = (sortedCollapsed plan).reverse :=
      List.Perm.eq_of_pairwise (fun a b _ _ hab hba => absurd hab hba.asymm) hpairwise hascending
        (hranges.trans hperm.symm)
    subst heq
    rw [rewritten_eq_run] at hrewritten
    intro r hr
    have hmem := hperm.mem_iff.mpr hr
    refine ⟨aligned_of_replaced hsorted hlength hrewritten hreplaced r hmem, ?_⟩
    exact printable_of_run (by rwa [length_slots]) hrewritten r hmem
  · intro hgood
    have hsorted' : Apart (slots s.messages).length (sortedCollapsed plan).reverse := by rwa [length_slots]
    obtain ⟨out, hout⟩ : ∃ out, run summarize (slots s.messages) (sortedCollapsed plan).reverse = some out :=
      run_isSome hsorted' fun r hr => (hgood r (hperm.mem_iff.mp hr)).2
    have hrewritten : rewritten summarize s.messages plan = some out := by rw [rewritten_eq_run, hout]
    have hreplaced : Replaced (slots s.messages) 0 (sortedCollapsed plan).reverse out := by
      refine replaced_of_aligned (k := 0) hsorted' (by rwa [length_slots]) ?_ hout fun _ _ => Nat.zero_le _
      intro r hr
      rw [length_slots]
      exact (hgood r (hperm.mem_iff.mp hr)).1
    refine ⟨_, out, hperm, hascending, hrewritten, executePlan_eq s hdisjoint hrewritten, hreplaced, ?_⟩
    rw [hreplaced.survivors hsorted fun _ _ => Nat.zero_le _, List.drop_zero]
    apply List.filter_congr
    intro x _
    simp only [Slot.unnamed, hperm.all_eq]

theorem filterMap_index (out : List Slot) :
    (out.filter fun x => !x.isMade).filterMap Slot.index? = (out.map Slot.index?).filterMap id := by
  rw [List.filterMap_filter, List.filterMap_map]
  apply List.filterMap_congr
  intro x _
  cases h : x.index? <;> simp [Slot.isMade, h]

/-! ## A range between two messages -/

def bounds (index : String) : List (JsString × Json) := [(js "from", .num (js index)), (js "to", .num (js index))]

def halfwayText : JsString :=
  js "\x7b\"kept\":[\x7b\"from\":0,\"to\":0\x7d],\"collapsed\":[\x7b\"from\":0.5,\"to\":0.5,\"summary\":\"x\"\x7d]\x7d"

def halfwayRange : Json := .obj (bounds "0.5" ++ [(js "summary", .str (js "x"))])

def halfwayJson : Json :=
  .obj [(js "kept", .arr [.obj (bounds "0")]), (js "collapsed", .arr [halfwayRange])]

def halfwayParse (text : JsString) : Option Json := if text = halfwayText then some halfwayJson else none

def question : State :=
  { messages := [{ role := .user, content := .text (js "a") }, { role := .assistant, content := .text (js "b") }] }

def halfwayPlan : SelectorResult where
  kept := [{ «from» := js "0", «to» := js "0", importance := .str (js "medium") }]
  collapsed := [{ «from» := js "0.5", «to» := js "0.5", summary := some (.str (js "x")) }]

theorem halfway_accepted :
    parseSelectorOutput halfwayParse (.finite 100) halfwayText question.messages = .accepted halfwayPlan := by
  have hjson : jsonPart halfwayText = some halfwayText := by decide +kernel
  have hkept : readRange 2 (.obj (bounds "0")) = .ok ⟨js "0", js "0"⟩ := by decide +kernel
  have hcollapsed : readRange 2 halfwayRange = .ok ⟨js "0.5", js "0.5"⟩ := by decide +kernel
  have hoverlap : anyOverlap [⟨js "0", js "0"⟩, ⟨js "0.5", js "0.5"⟩] = false := by decide +kernel
  have hplan : readPlan 2 halfwayJson = .ok halfwayPlan := by
    have hkeptRaw : property halfwayJson (js "kept") = .ok (.arr [.obj (bounds "0")]) := rfl
    have hcollapsedRaw : property halfwayJson (js "collapsed") = .ok (.arr [halfwayRange]) := rfl
    have hkept' : readKept 2 (.obj (bounds "0")) =
        .ok { «from» := js "0", «to» := js "0", importance := .str (js "medium") } := by
      rw [readKept, hkept]
      rfl
    have hcollapsed' : readCollapsed 2 halfwayRange =
        .ok { «from» := js "0.5", «to» := js "0.5", summary := some (.str (js "x")) } := by
      rw [readCollapsed, hcollapsed]
      rfl
    simp only [readPlan, hkeptRaw, hcollapsedRaw, iterate, List.mapM_cons, List.mapM_nil, hkept', hcollapsed', bind,
      Except.bind, pure, Except.pure, List.map_cons, List.map_nil, List.cons_append, List.nil_append, hoverlap]
    rfl
  have hsome : question.messages.isEmpty = false := rfl
  have hlength : question.messages.length = 2 := rfl
  have hparse : halfwayParse halfwayText = some halfwayJson := if_pos rfl
  simp only [parseSelectorOutput, hsome, hjson, hlength, Option.bind_some, hparse, hplan]
  rfl

theorem onlyNamed_iff_halfway :
    OnlyNamed (fun _ => js "(empty)") question halfwayPlan ↔
      ∀ r ∈ halfwayPlan.collapsed, r.Aligned question.messages.length ∧ r.Printable :=
  onlyNamed_iff _ halfwayParse (.finite 100) halfwayText question halfwayPlan (by decide) halfway_accepted

/-- The range names no message, and the kept one goes. -/
theorem halfway_removes_kept :
    parseSelectorOutput halfwayParse (.finite 100) halfwayText question.messages = .accepted halfwayPlan ∧
      ¬ OnlyNamed (fun _ => js "(empty)") question halfwayPlan := by
  refine ⟨halfway_accepted, ?_⟩
  rintro ⟨ranges, out, -, -, hout, -, -, hfilter⟩
  have hrun : ((halfwayPlan.collapsed.foldlM (collapse fun _ => js "(empty)") (slots question.messages)).map
      (·.map Slot.index?)) = some [none, some 1] := by decide +kernel
  have hsorted : sortedCollapsed halfwayPlan = halfwayPlan.collapsed := List.mergeSort_singleton _
  rw [rewritten, hsorted] at hout
  rw [hout] at hrun
  have hplaces : out.map Slot.index? = [none, some 1] := Option.some.inj hrun
  have hleft : (out.filter fun x => !x.isMade).filterMap Slot.index? = [1] := by
    rw [filterMap_index, hplaces]
    rfl
  have hright : ((slots question.messages).filter (Slot.unnamed halfwayPlan.collapsed)).filterMap Slot.index? =
      [0, 1] := by decide +kernel
  rw [hfilter, hright] at hleft
  exact absurd hleft (by decide)

end WrongStack.Selection

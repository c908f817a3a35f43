import WrongStack.Conversation.Compactors
import WrongStack.Conversation.Lemmas.Adjacency

/-!
# Cutting a conversation

A cut of a paired list leaves two paired lists if no tool is used right before it. The walk for a cut
goes back over messages of the system and over those that use a tool, and stops at any message of the
user: where that carries results, the use they answer is right before it.
-/

namespace WrongStack.Conversation

open Lib

variable {ms : List Message} {b : Nat}

/-! ## Where a cut is safe -/

theorem Linked.take {R : Option ToolView → Option ToolView → Prop} (h : Linked R ms) (b : Nat) :
    Linked R (ms.take b) := by
  unfold Linked at h ⊢
  rw [List.map_take, ← List.take_succ_cons]
  exact h.take _

theorem Linked.fits {R : Option ToolView → Option ToolView → Prop} (h : Linked R ms) {m : Message}
    (hm : ms[b]? = some m) : R (lastView (ms.take b)) (some (toolView m)) := by
  have htake := h.take (b + 1)
  rw [List.take_add_one, hm, Option.toList_some] at htake
  exact (linked_concat.mp htake).2

theorem Paired.take (h : Paired ms) (hhead : ∀ m ∈ ms[b]?, hasToolResult m = false) :
    Paired (ms.take b) := by
  obtain ⟨hlinked, hlast⟩ := (paired_iff ms).mp h
  refine (paired_iff _).mpr ⟨hlinked.take b, ?_⟩
  cases hm : ms[b]? with
  | none => rwa [List.take_of_length_le (List.getElem?_eq_none_iff.mp hm)]
  | some m =>
      -- a use right before the cut would be answered right behind it
      have hfits := hlinked.fits hm
      refine List.eq_nil_iff_forall_not_mem.mpr fun id hid => ?_
      obtain ⟨v, hv, -, hres⟩ := hfits.1 id hid
      cases hv
      rw [toolResults_eq_nil.mpr (hhead m hm)] at hres
      cases hres

/-- A list whose first message answers nothing may stand behind nothing. -/
theorem linked_of_isChain (hchain : List.IsChain Fits (ms.map fun m => some (toolView m)))
    (hhead : ∀ m ∈ ms.head?, hasToolResult m = false) : Linked Fits ms := by
  refine hchain.cons fun y hy => ?_
  cases ms with
  | nil => cases hy
  | cons m ms =>
      cases hy
      refine ⟨fun id hid => absurd hid List.not_mem_nil, fun id hid => ?_⟩
      simp [toolResults_eq_nil.mpr (hhead m rfl)] at hid

theorem lastView_drop (hb : b < ms.length) : lastView (ms.drop b) = lastView ms := by
  rw [lastView, List.getLast?_drop, if_neg (Nat.not_le.mpr hb)]
  rfl

theorem Paired.drop (h : Paired ms) (hhead : ∀ m ∈ ms[b]?, hasToolResult m = false) :
    Paired (ms.drop b) := by
  obtain ⟨hlinked, hlast⟩ := (paired_iff ms).mp h
  have hchain : List.IsChain Fits ((ms.drop b).map fun m => some (toolView m)) := by
    rw [List.map_drop]
    exact hlinked.tail.drop b
  refine (paired_iff _).mpr ⟨linked_of_isChain hchain (by rwa [List.head?_drop]), ?_⟩
  by_cases hb : b < ms.length
  · rw [lastView_drop hb]
    exact hlast
  · rw [List.drop_eq_nil_of_le (Nat.le_of_not_lt hb)]
    rfl

/-- A cut in front of results takes away the use they answer. -/
theorem not_paired_drop {m : Message} (hm : ms[b]? = some m) (hres : hasToolResult m = true) :
    ¬ Paired (ms.drop b) := by
  intro h
  have hlinked := ((paired_iff _).mp h).1
  have hfits : Fits (lastView ((ms.drop b).take 0)) (some (toolView m)) :=
    hlinked.fits (by rw [List.getElem?_drop, Nat.add_zero, hm])
  have hne : (toolView m).results ≠ [] := by
    rw [Ne, toolResults_eq_nil, hres]
    simp
  obtain ⟨id, hid⟩ := List.exists_mem_of_ne_nil _ hne
  obtain ⟨v, hv, -⟩ := hfits.2 id hid
  cases hv

theorem Paired.role_of_result (h : Paired ms) {m : Message} (hm : m ∈ ms) {c : ContentBlock}
    (hc : c ∈ m.blocks) {id : JsString} (hid : c.toolResultId? = some id) : m.role = .user := by
  obtain ⟨i, hi⟩ := List.getElem?_of_mem hm
  have hfits := ((paired_iff ms).mp h).1.fits hi
  obtain ⟨v, hv, -, huse⟩ := hfits.2 id (List.mem_filterMap.mpr ⟨c, hc, hid⟩)
  obtain ⟨u, hu, hrole, -⟩ := hfits.1 id (by rwa [hv])
  cases hu
  exact hrole

/-! ## The walk back -/

/-- What the walk goes past: a message of the system, or one that uses a tool. -/
def Passed (m : Message) : Prop := m.role ≠ .user ∧ (m.role = .assistant → hasToolUse m = true)

theorem exchangeStartFrom_cons {m : Message} (h : Passed m) (before : List Message) :
    exchangeStartFrom (m :: before) = exchangeStartFrom before := by
  rw [exchangeStartFrom]
  cases hrole : m.role with
  | user => exact absurd hrole h.1
  | system => rfl
  | assistant => exact if_pos (h.2 hrole)

theorem exchangeStartFrom_append {later : List Message} (h : ∀ m ∈ later, Passed m) (before : List Message) :
    exchangeStartFrom (later ++ before) = exchangeStartFrom before := by
  induction later with
  | nil => rfl
  | cons m later ih =>
      obtain ⟨hm, hlater⟩ := List.forall_mem_cons.mp h
      rw [List.cons_append, exchangeStartFrom_cons hm, ih hlater]

/-- Where the walk ends: at the start, right behind an assistant message without a tool use, or on a
message of the user. -/
theorem exchangeStartFrom_cases (before : List Message) :
    exchangeStartFrom before = 0 ∨
      ∃ later m earlier, before = later ++ m :: earlier ∧ (∀ x ∈ later, Passed x) ∧
        (m.role = .assistant ∧ hasToolUse m = false ∧ exchangeStartFrom before = earlier.length + 1 ∨
          m.role = .user ∧ exchangeStartFrom before = earlier.length) := by
  induction before with
  | nil => exact Or.inl rfl
  | cons m before ih =>
      by_cases hpassed : Passed m
      · rw [exchangeStartFrom_cons hpassed]
        rcases ih with hzero | ⟨later, x, earlier, rfl, hlater, hstop⟩
        · exact Or.inl hzero
        · exact Or.inr ⟨m :: later, x, earlier, rfl, List.forall_mem_cons.mpr ⟨hpassed, hlater⟩, hstop⟩
      · refine Or.inr ⟨[], m, before, rfl, List.forall_mem_nil _, ?_⟩
        rw [exchangeStartFrom]
        cases hrole : m.role with
        | system => exact absurd ⟨by simp [hrole], by simp [hrole]⟩ hpassed
        | user => exact Or.inr ⟨rfl, rfl⟩
        | assistant =>
            have huse : hasToolUse m = false := by
              by_contra huse
              exact hpassed ⟨by simp [hrole], fun _ => by simpa using huse⟩
            exact Or.inl ⟨rfl, huse, if_neg (by rw [← hasToolUse, huse]; exact Bool.false_ne_true)⟩

/-! ## The range -/

/-- The message of the index `i` holds the last words of the user in the range. -/
structure LastWords (ms : List Message) (lo hi : Int) (i : Nat) : Prop where
  low : lo ≤ i
  high : i ≤ hi
  words : ∃ m, ms[i]? = some m ∧ m.role = .user ∧ m.hasTextContent = true
  last : ∀ j : Nat, i < j → j ≤ hi → ∀ m, ms[j]? = some m → m.role = .user → m.hasTextContent = false

variable {lo hi : Int}

theorem LastWords.unique {i j : Nat} (hi' : LastWords ms lo hi i) (hj : LastWords ms lo hi j) : i = j := by
  obtain ⟨m, hm, hrole, htext⟩ := hi'.words
  obtain ⟨x, hx, hrole', htext'⟩ := hj.words
  rcases Nat.lt_trichotomy i j with hlt | heq | hgt
  · simp [hi'.last j hlt hj.high x hx hrole'] at htext'
  · exact heq
  · simp [hj.last i hgt hi'.high m hm hrole] at htext

theorem safeBoundaryFrom_eq_some {n : Nat} (hn : n = (hi - lo + 1).toNat) :
    safeBoundaryFrom ms n hi = some b ↔ ∃ i, LastWords ms lo hi i ∧ b = findExchangeStart ms i := by
  induction n generalizing hi with
  | zero =>
      refine ⟨fun h => absurd h (by simp [safeBoundaryFrom]), ?_⟩
      rintro ⟨i, hwords, -⟩
      have := hwords.low
      have := hwords.high
      omega
  | succ n ih =>
      have hlow : lo ≤ hi := by omega
      have hnext := @ih (hi - 1) (by omega)
      have hskip (hno : ∀ m, (if 0 ≤ hi then ms[hi.toNat]? else none) = some m → m.role = .user →
          m.hasTextContent = false) (i : Nat) : LastWords ms lo (hi - 1) i ↔ LastWords ms lo hi i := by
        constructor
        · intro h
          refine ⟨h.low, Int.le_trans h.high (by omega), h.words, fun j hij hj m hm hrole => ?_⟩
          by_cases htop : (j : Int) = hi
          · refine hno m ?_ hrole
            rw [if_pos (by omega), ← htop, Int.toNat_natCast]
            exact hm
          · exact h.last j hij (by omega) m hm hrole
        · intro h
          refine ⟨h.low, ?_, h.words, fun j hij hj => h.last j hij (by omega)⟩
          have hhigh := h.high
          by_contra htop
          obtain ⟨m, hm, hrole, htext⟩ := h.words
          have hat : (if 0 ≤ hi then ms[hi.toNat]? else none) = some m := by
            rw [if_pos (by omega), show hi.toNat = i by omega]
            exact hm
          rw [hno m hat hrole] at htext
          cases htext
      rw [safeBoundaryFrom]
      cases hat : if 0 ≤ hi then ms[hi.toNat]? else none with
      | none =>
          simp only [hskip (fun m hm => by rw [hat] at hm; cases hm)] at hnext
          exact hnext
      | some m =>
          simp only
          split
          · rename_i huser
            have htop : (hi.toNat : Int) = hi ∧ ms[hi.toNat]? = some m := by
              split at hat
              · exact ⟨by omega, hat⟩
              · cases hat
            have hwords : LastWords ms lo hi hi.toNat :=
              ⟨by rwa [htop.1], Int.le_of_eq htop.1, ⟨m, htop.2, huser⟩, fun j hlt hle => by
                rw [← htop.1, Int.ofNat_le] at hle
                exact absurd hlt (Nat.not_lt.mpr hle)⟩
            rw [Option.some.injEq]
            constructor
            · exact fun h => ⟨_, hwords, h.symm⟩
            · rintro ⟨i, hi', rfl⟩
              rw [hwords.unique hi']
          · rename_i hno
            simp only [hskip (fun x hx hrole => by
              rw [hat] at hx
              cases hx
              simpa [hrole] using hno)] at hnext
            exact hnext

theorem findSafeBoundary_eq_some : findSafeBoundary ms lo hi = some b ↔
    ∃ i, LastWords ms lo hi i ∧ b = findExchangeStart ms i :=
  safeBoundaryFrom_eq_some rfl

end WrongStack.Conversation

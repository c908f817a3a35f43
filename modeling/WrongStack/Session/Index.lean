import Mathlib.Data.List.Lex
import Mathlib.Data.List.Sort
import WrongStack.Lib.JsMap
import WrongStack.Lib.Json

/-!
# The session index

`_index.jsonl` as `DefaultSessionStore` (`core/src/storage/session-store.ts`) reads and compacts it.
The file is the list of its lines and a line is what `JSON.parse` makes of it; the lock around every
access and the cache that is checked against the file's time and size are left out. `localeCompare`
comes from the collation of the runtime.
-/

namespace WrongStack.Session

open Lib

/-- A `SessionSummary` that was parsed from a line. `fields` are its other fields, which the index only
carries. -/
structure IndexEntry where
  id : JsString
  startedAt : JsString
  fields : List (JsString × Json) := []

/-- A line that is blank, is not JSON or has no `id` is `corrupt`. -/
inductive IndexLine
  | summary (entry : IndexEntry)
  | tombstone (id : JsString)
  | corrupt

/-- The variables of the loop in `readIndex`. -/
structure IndexScan where
  deleted : List JsString := []
  seen : JsMap JsString IndexEntry := .empty

def IndexScan.line (scan : IndexScan) : IndexLine → IndexScan
  | .tombstone id =>
      if id = [] then scan
      else { deleted := id :: scan.deleted, seen := scan.seen.delete id }
  | .summary entry =>
      -- a tombstone also keeps out the entries that come after it
      if entry.id = [] || scan.deleted.contains entry.id then scan
      else { scan with seen := scan.seen.set entry.id entry }
  | .corrupt => scan

variable (localeCompare : JsString → JsString → Ordering)

def compareSummaries (a b : IndexEntry) : Ordering :=
  if a.startedAt < b.startedAt then .gt
  else if b.startedAt < a.startedAt then .lt
  else localeCompare a.id b.id

/-- `Array.prototype.sort` is stable. -/
def sortSummaries (summaries : List IndexEntry) : List IndexEntry :=
  summaries.insertionSort fun a b => (compareSummaries localeCompare a b).isLE = true

def readIndex (lines : List IndexLine) : List IndexEntry :=
  sortSummaries localeCompare ((lines.foldl IndexScan.line {}).seen.entries.map Prod.snd)

def compactIndexInner (lines : List IndexLine) : List IndexLine :=
  let entries := readIndex localeCompare lines
  if entries.isEmpty then lines else entries.map .summary

end WrongStack.Session

/-!
# What an index shows

The scan of the lines is summed up by two functions of the lines, for each id: whether there is a
tombstone for it, and its last entry.
-/

namespace WrongStack.Session

open Lib

variable {id : JsString} {lines L M : List IndexLine} {lc : JsString → JsString → Ordering}

def isTombstoneOf (id : JsString) : IndexLine → Bool
  | .tombstone d => d == id && id != []
  | _ => false

def tombstoned (id : JsString) (lines : List IndexLine) : Bool := lines.any (isTombstoneOf id)

def entryOf (id : JsString) : IndexLine → Option IndexEntry
  | .summary entry => if entry.id = id ∧ id ≠ [] then some entry else none
  | _ => none

/-- The entry of the last line that has one for the id. -/
def lastEntry (id : JsString) (lines : List IndexLine) : Option IndexEntry :=
  lines.foldl (fun last line => (entryOf id line).or last) none

theorem foldl_lastEntry (init : Option IndexEntry) :
    lines.foldl (fun last line => (entryOf id line).or last) init = (lastEntry id lines).or init := by
  induction lines generalizing init with
  | nil => rfl
  | cons line lines ih =>
      rw [lastEntry, List.foldl_cons, List.foldl_cons, ih, ih, Option.or_assoc, Option.or_none]

theorem lastEntry_append : lastEntry id (L ++ M) = (lastEntry id M).or (lastEntry id L) := by
  rw [lastEntry, List.foldl_append]
  exact foldl_lastEntry _

theorem tombstoned_append : tombstoned id (L ++ M) = (tombstoned id L || tombstoned id M) :=
  List.any_append

theorem lastEntry_cons (line : IndexLine) :
    lastEntry id (line :: lines) = (lastEntry id lines).or (entryOf id line) := by
  rw [lastEntry, List.foldl_cons, Option.or_none]
  exact foldl_lastEntry _

theorem entryOf_eq_some {entry : IndexEntry} {line : IndexLine} (h : entryOf id line = some entry) :
    line = .summary entry ∧ entry.id = id ∧ id ≠ [] := by
  cases line with
  | summary s =>
      rw [entryOf] at h
      split at h
      · rename_i hid
        cases h
        exact ⟨rfl, hid⟩
      · cases h
  | _ => cases h

theorem lastEntry_eq_some {entry : IndexEntry} (h : lastEntry id lines = some entry) :
    IndexLine.summary entry ∈ lines ∧ entry.id = id ∧ id ≠ [] := by
  induction lines with
  | nil => cases h
  | cons line lines ih =>
      rw [lastEntry_cons, Option.or_eq_some_iff] at h
      rcases h with h | ⟨-, h⟩
      · exact ⟨List.mem_cons_of_mem line (ih h).1, (ih h).2⟩
      · obtain ⟨rfl, hid⟩ := entryOf_eq_some h
        exact ⟨List.mem_cons_self, hid⟩

/-! ## The scan -/

theorem scan_line (id : JsString) (scan : IndexScan) (line : IndexLine) :
    (id ∈ (scan.line line).deleted ↔ id ∈ scan.deleted ∨ isTombstoneOf id line = true) ∧
      (scan.line line).seen.get? id = if isTombstoneOf id line = true then none
        else if id ∈ scan.deleted then scan.seen.get? id
        else (entryOf id line).or (scan.seen.get? id) := by
  cases line with
  | corrupt => simp [IndexScan.line, isTombstoneOf, entryOf]
  | tombstone d =>
      simp only [IndexScan.line, isTombstoneOf, entryOf, Option.none_or, ite_self, Bool.and_eq_true,
        beq_iff_eq, bne_iff_ne]
      by_cases hd : d = []
      · have hnot : ¬ (d = id ∧ id ≠ []) := by
          rintro ⟨rfl, hne⟩
          exact hne hd
        simp only [hd, ↓reduceIte, hd ▸ hnot, or_false, and_self]
      · have hiff : (d = id ∧ id ≠ []) ↔ d = id := by
          rw [and_iff_left_iff_imp]
          rintro rfl
          exact hd
        simp only [hd, ↓reduceIte, hiff, List.mem_cons, JsMap.get?_delete, and_true]
        rw [eq_comm, or_comm]
  | summary s =>
      simp only [isTombstoneOf, Bool.false_eq_true, or_false, ↓reduceIte, entryOf, IndexScan.line,
        Bool.or_eq_true, decide_eq_true_eq, List.contains_iff_mem]
      by_cases hs : s.id = [] ∨ s.id ∈ scan.deleted
      · simp only [hs, ↓reduceIte, true_and]
        split
        · rfl
        · rename_i hid
          have hne : ¬ (s.id = id ∧ id ≠ []) := by
            rintro ⟨rfl, hne⟩
            exact hs.elim hne hid
          simp only [hne, ↓reduceIte, Option.none_or]
      · simp only [hs, ↓reduceIte, true_and, JsMap.get?_set]
        rw [not_or] at hs
        by_cases hid : s.id = id
        · subst hid
          simp [hs]
        · simp [hid]

/-- An id is shown by its last entry, unless there is a tombstone for it. -/
def shown (id : JsString) (lines : List IndexLine) : Option IndexEntry :=
  if tombstoned id lines = true then none else lastEntry id lines

theorem scan_spec (lines : List IndexLine) :
    (id ∈ (lines.foldl IndexScan.line {}).deleted ↔ tombstoned id lines = true) ∧
      (lines.foldl IndexScan.line {}).seen.get? id = shown id lines := by
  induction lines using List.reverseRecOn with
  | nil => simp [tombstoned, shown, lastEntry]
  | append_singleton lines line ih =>
      obtain ⟨hdel, hseen⟩ := ih
      obtain ⟨hdel', hseen'⟩ := scan_line id (lines.foldl IndexScan.line {}) line
      have hlast : lastEntry id [line] = entryOf id line := by simp [lastEntry]
      have htomb : tombstoned id [line] = isTombstoneOf id line := by simp [tombstoned]
      rw [List.foldl_append, List.foldl_cons, List.foldl_nil]
      refine ⟨by rw [hdel', hdel, tombstoned_append, htomb, Bool.or_eq_true], ?_⟩
      rw [hseen']
      unfold shown at hseen ⊢
      simp only [hdel, hseen, tombstoned_append, lastEntry_append, hlast, htomb]
      cases isTombstoneOf id line <;> cases tombstoned id lines <;> simp

/-! ## The order -/

theorem isLE_compareSummaries {a b : IndexEntry} :
    (compareSummaries lc a b).isLE = true ↔
      b.startedAt < a.startedAt ∨ (a.startedAt = b.startedAt ∧ (lc a.id b.id).isLE = true) := by
  unfold compareSummaries
  split
  · rename_i h
    have hnot : ¬ b.startedAt < a.startedAt := List.lt_asymm h
    have hne : a.startedAt ≠ b.startedAt := fun e => List.lt_irrefl _ (e ▸ h)
    simp [hnot, hne]
  · rename_i h
    split
    · rename_i h'
      simp [h']
    · rename_i h'
      have heq : a.startedAt = b.startedAt :=
        List.le_antisymm (List.not_lt.mp h') (List.not_lt.mp h)
      simp [heq]

instance [Std.TransCmp lc] : Std.Total fun a b => (compareSummaries lc a b).isLE = true where
  total a b := by
    simp only [isLE_compareSummaries]
    by_cases hab : a.startedAt < b.startedAt
    · exact Or.inr (Or.inl hab)
    · by_cases hba : b.startedAt < a.startedAt
      · exact Or.inl (Or.inl hba)
      · have heq : a.startedAt = b.startedAt :=
          List.le_antisymm (List.not_lt.mp hba) (List.not_lt.mp hab)
        have hswap : lc b.id a.id = (lc a.id b.id).swap := Std.OrientedCmp.eq_swap
        cases hlc : lc a.id b.id with
        | gt => exact Or.inr (Or.inr ⟨heq.symm, by rw [hswap, hlc]; rfl⟩)
        | _ => exact Or.inl (Or.inr ⟨heq, rfl⟩)

instance [Std.TransCmp lc] : IsTrans _ fun a b => (compareSummaries lc a b).isLE = true where
  trans a b c := by
    simp only [isLE_compareSummaries]
    rintro (hab | ⟨hab, hl⟩) (hbc | ⟨hbc, hl'⟩)
    · exact Or.inl (List.lt_trans hbc hab)
    · exact Or.inl (hbc ▸ hab)
    · exact Or.inl (hab ▸ hbc)
    · exact Or.inr ⟨hab.trans hbc, Std.TransCmp.isLE_trans hl hl'⟩

/-! ## Reading -/

theorem shown_eq_some {entry : IndexEntry} :
    shown id lines = some entry ↔ tombstoned id lines = false ∧ lastEntry id lines = some entry := by
  unfold shown
  cases tombstoned id lines <;> simp

theorem mem_readIndex {entry : IndexEntry} :
    entry ∈ readIndex lc lines ↔ shown entry.id lines = some entry := by
  rw [readIndex, sortSummaries, (List.perm_insertionSort _ _).mem_iff, List.mem_map, Prod.exists]
  simp only [exists_eq_right, JsMap.mem_entries_iff, (scan_spec lines).2]
  constructor
  · rintro ⟨id, h⟩
    obtain ⟨-, rfl, -⟩ := lastEntry_eq_some (shown_eq_some.mp h).2
    exact h
  · exact fun h => ⟨entry.id, h⟩

theorem nodup_readIndex (lc : JsString → JsString → Ordering) (lines : List IndexLine) :
    ((readIndex lc lines).map IndexEntry.id).Nodup := by
  rw [readIndex, sortSummaries, ((List.perm_insertionSort _ _).map _).nodup_iff, List.map_map]
  have hkeys : (lines.foldl IndexScan.line {}).seen.entries.map (IndexEntry.id ∘ Prod.snd) =
      (lines.foldl IndexScan.line {}).seen.entries.map Prod.fst := by
    refine List.map_congr_left fun p hp => ?_
    have hget := JsMap.mem_entries_iff.mp hp
    rw [(scan_spec lines).2] at hget
    exact (lastEntry_eq_some (shown_eq_some.mp hget).2).2.1
  rw [hkeys]
  exact (lines.foldl IndexScan.line {}).seen.nodup

theorem pairwise_readIndex [Std.TransCmp lc] (lines : List IndexLine) :
    (readIndex lc lines).Pairwise fun a b => (compareSummaries lc a b).isLE = true :=
  List.pairwise_insertionSort _ _

/-! ## Compaction -/

theorem tombstoned_map_summary (entries : List IndexEntry) :
    tombstoned id (entries.map .summary) = false := by
  simp [tombstoned, isTombstoneOf]

theorem lastEntry_map_summary {entries : List IndexEntry}
    (hn : (entries.map IndexEntry.id).Nodup) {entry : IndexEntry} (hid : id ≠ []) :
    lastEntry id (entries.map .summary) = some entry ↔ entry ∈ entries ∧ entry.id = id := by
  induction entries generalizing entry with
  | nil => simp [lastEntry]
  | cons e entries ih =>
      rw [List.map_cons, List.nodup_cons] at hn
      rw [List.map_cons, lastEntry_cons, Option.or_eq_some_iff, ih hn.2, List.mem_cons]
      constructor
      · rintro (⟨hm, hi⟩ | ⟨-, h⟩)
        · exact ⟨Or.inr hm, hi⟩
        · obtain ⟨heq, hi, -⟩ := entryOf_eq_some h
          cases heq
          exact ⟨Or.inl rfl, hi⟩
      · rintro ⟨rfl | hm, hi⟩
        · refine Or.inr ⟨?_, by simp [entryOf, hi, hid]⟩
          rw [Option.eq_none_iff_forall_not_mem]
          intro e' he'
          obtain ⟨hm, hi'⟩ := (ih hn.2).mp he'
          exact hn.1 (hi.trans hi'.symm ▸ List.mem_map_of_mem hm)
        · exact Or.inl ⟨hm, hi⟩

/-- A compacted index shows what it showed, and forgets its tombstones. -/
theorem shown_compact (id : JsString) (hne : readIndex lc L ≠ []) :
    tombstoned id (compactIndexInner lc L) = false ∧
      lastEntry id (compactIndexInner lc L) = shown id L := by
  have hcompact : compactIndexInner lc L = (readIndex lc L).map .summary := by
    simp [compactIndexInner, hne]
  rw [hcompact]
  refine ⟨tombstoned_map_summary _, Option.ext fun entry => ?_⟩
  by_cases hid : id = []
  · refine iff_of_false (fun h => (lastEntry_eq_some h).2.2 hid) fun h => ?_
    exact (lastEntry_eq_some (shown_eq_some.mp h).2).2.2 hid
  · rw [lastEntry_map_summary (nodup_readIndex lc L) hid, mem_readIndex]
    constructor
    · rintro ⟨h, rfl⟩
      exact h
    · intro h
      obtain ⟨-, rfl, -⟩ := lastEntry_eq_some (shown_eq_some.mp h).2
      exact ⟨h, rfl⟩

/-- Indexes that show the same entries read alike, if no two of their ids are tied. -/
theorem readIndex_congr [Std.TransCmp lc] {lines' : List IndexLine}
    (hshown : ∀ id, shown id lines' = shown id lines)
    (hties : ∀ a b, IndexLine.summary a ∈ lines → IndexLine.summary b ∈ lines →
      lc a.id b.id = .eq → a.id = b.id) : readIndex lc lines' = readIndex lc lines := by
  have hmem : ∀ entry, entry ∈ readIndex lc lines' ↔ entry ∈ readIndex lc lines := fun entry => by
    rw [mem_readIndex, mem_readIndex, hshown]
  have hperm : (readIndex lc lines').Perm (readIndex lc lines) :=
    (List.perm_ext_iff_of_nodup (List.Nodup.of_map _ (nodup_readIndex lc lines'))
      (List.Nodup.of_map _ (nodup_readIndex lc lines))).mpr hmem
  refine hperm.eq_of_pairwise ?_ (pairwise_readIndex lines') (pairwise_readIndex lines)
  intro a b ha hb hab hba
  rw [hmem, mem_readIndex] at ha
  rw [mem_readIndex] at hb
  have hid : a.id = b.id := by
    refine hties a b (lastEntry_eq_some (shown_eq_some.mp ha).2).1
      (lastEntry_eq_some (shown_eq_some.mp hb).2).1 ?_
    rw [isLE_compareSummaries] at hab hba
    have hswap : lc b.id a.id = (lc a.id b.id).swap := Std.OrientedCmp.eq_swap
    rcases hab with hlt | ⟨heq, hle⟩
    · rcases hba with hlt' | ⟨heq', -⟩
      · exact absurd hlt' (List.lt_asymm hlt)
      · exact absurd hlt (heq' ▸ List.lt_irrefl _)
    · rcases hba with hlt' | ⟨-, hle'⟩
      · exact absurd hlt' (heq ▸ List.lt_irrefl _)
      · rw [hswap] at hle'
        cases hlc : lc a.id b.id with
        | eq => rfl
        | lt => rw [hlc] at hle'; cases hle'
        | gt => rw [hlc] at hle; cases hle
  exact Option.some.inj (ha.symm.trans ((congrArg (shown · lines) hid).trans hb))

end WrongStack.Session

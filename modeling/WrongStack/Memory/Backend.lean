import Mathlib.Data.List.DropRight
import Mathlib.Logic.Function.Basic
import WrongStack.Tools.ToolExecutor

/-!
# The memory file

`FileMemoryBackend` (`core/src/storage/memory-backend.ts`) under `DefaultMemoryStore` (`memory-store.ts`), for one scope.
Several processes, each with a store of its own, change one file. A step is one access to the file; `toLowerCase` is a
parameter.
-/

namespace WrongStack.Memory

open Lib

inductive MemoryType
  | fact
  | decision
  | convention
  | preference
  | reference
  | anti_pattern
  deriving DecidableEq

inductive MemoryPriority
  | critical
  | high
  | medium
  | low
  deriving DecidableEq

def MemoryType.text : MemoryType → JsString
  | fact => js "fact"
  | decision => js "decision"
  | convention => js "convention"
  | preference => js "preference"
  | reference => js "reference"
  | anti_pattern => js "anti_pattern"

def MemoryPriority.text : MemoryPriority → JsString
  | critical => js "critical"
  | high => js "high"
  | medium => js "medium"
  | low => js "low"

structure MemoryEntry where
  ts : JsString
  text : JsString
  type : Option MemoryType := none
  priority : Option MemoryPriority := none
  tags : List JsString := []
  /-- How many bytes `JSON.stringify` of the entry has. -/
  bytes : Nat := 0
  deriving DecidableEq

/-! ## Texts -/

def newline : CodeUnit := 10

def lines (text : JsString) : List JsString := JsString.splitOn newline text

def formatMetadata (entry : MemoryEntry) : JsString :=
  let parts :=
    (match entry.type, entry.priority with
      | some type, some priority => [js "[" ++ type.text ++ js "|" ++ priority.text ++ js "]"]
      | some type, none => [js "[" ++ type.text ++ js "]"]
      | none, some priority => [js "[" ++ priority.text ++ js "]"]
      | none, none => []) ++
    if entry.tags.isEmpty then [] else [JsString.join (js " ") (entry.tags.map (js "#" ++ ·))]
  if parts.isEmpty then [] else js " " ++ JsString.join (js " ") parts

/-- The text of an entry between its line breaks. -/
def entryText (id : JsString) (entry : MemoryEntry) : JsString :=
  js "- [" ++ entry.ts ++ js "] " ++ id ++ formatMetadata entry ++ js " " ++
    entry.text.map fun c => if c = newline then unit ' ' else c

def remembered (existing id : JsString) (entry : MemoryEntry) : JsString :=
  let line := newline :: entryText id entry ++ [newline]
  if (JsString.trim existing).isEmpty then js "# Agent Memory" ++ newline :: line
  else existing.rdropWhile (· == newline) ++ line

/-- A line that `forget` and `consolidate` look at. -/
def isEntryLine (line : JsString) : Bool := (js "- ").isPrefixOf (JsString.trim line)

def idMatcher : Regex := .concat [.lit "mem_", .plus (.oneOf isDigit), .lit "_", .plus (.oneOf isWord)]

/-- The rule of `forget`. -/
def forgets (toLowerCase : JsString → JsString) (query line : JsString) : Bool :=
  let trimmed := JsString.trim line
  isEntryLine line &&
    (idMatcher.test query && (idMatcher.matchAll trimmed).head? == some query ||
      decide (toLowerCase query <:+: toLowerCase trimmed))

/-- What `forget` leaves. -/
def forgotten (toLowerCase : JsString → JsString) (query existing : JsString) : JsString :=
  let kept := (lines existing).filter fun line => !forgets toLowerCase query line
  if kept.length = 0 ∨ kept.length = 1 ∧ kept.all (fun line => (JsString.trim line).isEmpty) = true then []
  else JsString.join [newline] kept

/-- A line of an entry without its timestamp, id, type and tags. -/
def norm (toLowerCase : JsString → JsString) (line : JsString) : JsString :=
  let bracketed : Regex := .concat [.char '[', .plus (.oneOf (· != unit ']')), .char ']']
  let id : Regex := .concat [.wordBoundary, idMatcher, .star .space]
  let tag : Regex := .concat [.char '#', .plus (.oneOf fun c => isWord c || c == unit '-')]
  let text := tag.replaceAll [] (id.replaceFirst [] none (bracketed.replaceAll [] (JsString.trim line)))
  toLowerCase (JsString.trim (JsString.collapseSpaces text))

/-- Whether the loop of `consolidate` drops a line. -/
def isDuplicate (toLowerCase : JsString → JsString) (seen : List JsString) (line : JsString) : Bool :=
  isEntryLine line && decide (norm toLowerCase line ∈ seen)

/-- The loop of `consolidate`: the lines that are kept and those that are dropped. -/
def dedupe (toLowerCase : JsString → JsString) (seen : List JsString) :
    List JsString → List JsString × List JsString
  | [] => ([], [])
  | line :: rest =>
      if isDuplicate toLowerCase seen line then
        ((dedupe toLowerCase seen rest).1, line :: (dedupe toLowerCase seen rest).2)
      else
        let seen := if isEntryLine line then norm toLowerCase line :: seen else seen
        (line :: (dedupe toLowerCase seen rest).1, (dedupe toLowerCase seen rest).2)

def consolidated (toLowerCase : JsString → JsString) (existing : JsString) : JsString :=
  JsString.join [newline] (dedupe toLowerCase [] (lines existing)).1

/-! ## Stores -/

inductive Call
  /-- `id` is the one that the call draws. -/
  | remember (id : JsString) (entry : MemoryEntry)
  | forget (query : JsString)
  | consolidate
  /-- `clear()` without a scope leaves the tracked size alone. -/
  | clear (oneScope : Bool)

/-- What a call that resolves has done. -/
inductive Outcome
  | remembered (id : JsString) (entry : MemoryEntry)
  | forgot (removed : List JsString)
  | consolidated
  | cleared
  deriving DecidableEq

/-- What the running call of a store does next. `runSerialized` lets the other calls of the store wait. -/
inductive Stage
  | idle
  | rememberRead (id : JsString) (entry : MemoryEntry)
  | rememberWrite (id : JsString) (entry : MemoryEntry) (existing : JsString)
  /-- `remember` looks at the tracked size, which it may have to read. -/
  | rememberSize (id : JsString) (entry : MemoryEntry)
  | forgetLock (query : JsString)
  | forgetRead (query : JsString)
  | forgetWrite (query existing : JsString)
  | forgetUnlock (removed : List JsString)
  | clearWrite (oneScope : Bool)
  | consolidateRead (outcome : Outcome)
  | consolidateWrite (outcome : Outcome) (existing : JsString)
  | recalc (outcome : Outcome)

structure Store where
  stage : Stage := .idle
  trackedByteSize : Option Nat := none

structure State where
  file : Option JsString := none
  lock : Bool := false
  stores : Nat → Store := fun _ => {}
  /-- The calls that have resolved. -/
  resolved : List Outcome := []

def maxBytesTotal : Nat := 32000

/-- `_recalcTrackedByteSize` -/
def totalSize (raw : JsString) : Nat :=
  (((lines raw).filter fun line => !(JsString.trim line).isEmpty).map Tools.byteLength).foldl (· + ·) 0

namespace State

variable (s : State) (p : Nat)

/-- `readFile(file, 'utf8')`; without the file it fails. -/
def readFile : Option JsString := s.file.map JsString.toWellFormed

def text : JsString := s.readFile.getD []

def become (stage : Stage) : State :=
  { s with stores := Function.update s.stores p { s.stores p with stage := stage } }

def track (size : Nat) : State :=
  { s with stores := Function.update s.stores p { s.stores p with trackedByteSize := some size } }

def finish (outcome : Outcome) : State :=
  let s := match outcome with
    | .remembered _ entry => s.track p ((s.stores p).trackedByteSize.getD 0 + entry.bytes)
    | .forgot _ | .consolidated | .cleared => s
  { s.become p .idle with resolved := outcome :: s.resolved }

end State

inductive Op
  | call (p : Nat) (call : Call)
  /-- The call of `p` makes its next access, which fails when `ok` is false. -/
  | step (p : Nat) (ok : Bool)
  /-- A `forget` has waited too long for the lock. -/
  | timeout (p : Nat)
  /-- A waiting `forget` removes a lock file that has become stale. -/
  | breakLock (p : Nat)
  | crash (p : Nat)

variable (toLowerCase : JsString → JsString)

def resume (s : State) (p : Nat) (ok : Bool) : State :=
  let read := if ok then s.readFile else none
  match (s.stores p).stage with
  | .idle => s
  | .rememberRead id entry => s.become p (.rememberWrite id entry (read.getD []))
  | .rememberWrite id entry existing =>
      if ok then { s with file := some (remembered existing id entry) }.become p (.rememberSize id entry)
      else s.become p .idle
  | .rememberSize id entry =>
      let size := (s.stores p).trackedByteSize.getD (totalSize (read.getD []))
      let s := s.track p size
      if maxBytesTotal < size then s.become p (.consolidateRead (.remembered id entry))
      else s.finish p (.remembered id entry)
  | .forgetLock query =>
      if s.lock then s
      else if ok then { s with lock := true }.become p (.forgetRead query)
      else s.become p .idle
  | .forgetRead query =>
      match read with
      | none => s.become p (.forgetUnlock [])
      | some existing =>
          if (lines existing).any (forgets toLowerCase query) then s.become p (.forgetWrite query existing)
          else s.become p (.forgetUnlock [])
  | .forgetWrite query existing =>
      if ok then
        { s with file := some (forgotten toLowerCase query existing) }.become p
          (.forgetUnlock ((lines existing).filter (forgets toLowerCase query)))
      else { s with lock := false }.become p .idle
  | .forgetUnlock removed =>
      let s := { s with lock := false }
      if removed.isEmpty then s.finish p (.forgot []) else s.become p (.recalc (.forgot removed))
  | .clearWrite oneScope =>
      if ok then
        let s := { s with file := some [] }
        (if oneScope then s.track p 0 else s).finish p .cleared
      else s.become p .idle
  | .consolidateRead outcome =>
      match read with
      | none => s.finish p outcome
      | some existing => s.become p (.consolidateWrite outcome existing)
  | .consolidateWrite outcome existing =>
      if ok then
        let s := { s with file := some (consolidated toLowerCase existing) }
        if (dedupe toLowerCase [] (lines existing)).2.isEmpty then s.finish p outcome else s.become p (.recalc outcome)
      else s.finish p outcome
  | .recalc outcome => (s.track p (totalSize (read.getD []))).finish p outcome

def step (s : State) : Op → State
  | .call p call =>
      match (s.stores p).stage with
      | .idle =>
          match call with
          | .remember id entry => s.become p (.rememberRead id entry)
          | .forget query => s.become p (.forgetLock query)
          | .consolidate => s.become p (.consolidateRead .consolidated)
          | .clear oneScope => s.become p (.clearWrite oneScope)
      | _ => s
  | .step p ok => resume toLowerCase s p ok
  | .timeout p =>
      match (s.stores p).stage with
      | .forgetLock _ => s.become p .idle
      | _ => s
  | .breakLock p =>
      match (s.stores p).stage with
      | .forgetLock _ => { s with lock := false }
      | _ => s
  | .crash p => { s with stores := Function.update s.stores p {} }

end WrongStack.Memory

/-!
# What the calls write

The text that a call writes, as it is read afterwards: which lines of the text before it keeps, which it drops and
which are new.
-/

namespace WrongStack.Memory

open Lib JsString

variable {toLowerCase : JsString → JsString} {existing next query line id : JsString} {entry : MemoryEntry}
  {block : List JsString}

/-- The lines of an entry, as they are read. -/
def stored (id : JsString) (entry : MemoryEntry) : List JsString := lines (toWellFormed (entryText id entry))

theorem lines_toWellFormed (text : JsString) : lines (toWellFormed text) = (lines text).map toWellFormed :=
  splitOn_toWellFormed (by decide) (by decide) text

theorem lines_ne_nil (text : JsString) : lines text ≠ [] := splitOn_ne_nil newline text

/-- The lines of a text that has been read are as they were written. -/
theorem toWellFormed_line (h : toWellFormed existing = existing) (hline : line ∈ lines existing) :
    toWellFormed line = line := by
  rw [← h, lines_toWellFormed] at hline
  obtain ⟨written, -, rfl⟩ := List.mem_map.mp hline
  exact toWellFormed_toWellFormed written

theorem map_toWellFormed (h : toWellFormed existing = existing) (hblock : block ⊆ lines existing) :
    block.map toWellFormed = block := by
  rw [List.map_congr_left fun line hline => toWellFormed_line h (hblock hline), List.map_id']

/-! ## Entries -/

theorem stored_ne_nil (id : JsString) (entry : MemoryEntry) : stored id entry ≠ [] := lines_ne_nil _

theorem getLast?_stored (id : JsString) (entry : MemoryEntry) : (stored id entry).getLast? ≠ some [] := by
  have hlast : ∃ c, (entryText id entry).getLast? = some c ∧ c ≠ newline := by
    cases h : (entry.text.map fun c => if c = newline then unit ' ' else c).getLast? with
    | none =>
        have hnil := List.getLast?_eq_none_iff.mp h
        refine ⟨unit ' ', ?_, by decide⟩
        rw [entryText, hnil, List.append_nil, List.getLast?_append]
        rfl
    | some c =>
        refine ⟨c, by rw [entryText, List.getLast?_append, h]; rfl, ?_⟩
        obtain ⟨d, -, rfl⟩ := List.mem_map.mp (List.mem_of_getLast? h)
        split
        · decide
        · assumption
  obtain ⟨c, hc, hne⟩ := hlast
  rw [stored, lines_toWellFormed, List.getLast?_map]
  intro heq
  obtain ⟨last, hlast, hnil⟩ := Option.map_eq_some_iff.mp heq
  have hempty : last = [] := by
    cases last with
    | nil => rfl
    | cons d last => cases last <;> simp [toWellFormed] at hnil; split at hnil <;> cases hnil
  exact getLast?_splitOn hc hne (hempty ▸ hlast)

theorem exists_dash (id : JsString) (entry : MemoryEntry) : ∃ line ∈ stored id entry, unit '-' ∈ line := by
  have hmem : unit '-' ∈ entryText id entry := by
    rw [entryText]
    simp only [List.append_assoc]
    exact List.mem_append_left _ (by decide)
  exact exists_mem_splitOn ((mem_toWellFormed (by decide) (by decide)).mpr hmem) (by decide)

theorem trim_ne_nil_of_dash (h : unit '-' ∈ line) : (trim line).isEmpty = false := by
  rw [List.isEmpty_eq_false_iff]
  intro hnil
  have hspace := trim_eq_nil_iff.mp hnil _ h
  revert hspace
  decide

/-! ## Rewriting the file -/

/-- `next` is written where `existing` was read: an entry is kept if none of its lines is dropped, and a line of an entry
was there before or is one of `adds`. -/
structure Rewrites (existing next : JsString) (drops : JsString → Prop) (adds : List JsString) : Prop where
  keeps : ∀ id entry, stored id entry <:+: lines existing → (∀ line ∈ stored id entry, ¬drops line) →
    stored id entry <:+: lines (toWellFormed next)
  only : ∀ line ∈ lines (toWellFormed next), isEntryLine line = true → line ∈ lines existing ∨ line ∈ adds

theorem not_isEntryLine_nil : isEntryLine [] = false := by decide

/-- What is read of lines that were read and are written again. -/
theorem lines_join (h : toWellFormed existing = existing) {kept : List JsString} (hsub : kept ⊆ lines existing)
    (hne : kept ≠ []) : lines (toWellFormed (join [newline] kept)) = kept := by
  rw [lines_toWellFormed, lines, splitOn_join hne fun line hline => not_mem_of_splitOn (hsub hline),
    map_toWellFormed h hsub]

theorem Rewrites.of_lines {drops : JsString → Prop} (h : toWellFormed existing = existing) {kept : List JsString}
    (hsub : kept ⊆ lines existing)
    (hkeeps : ∀ id entry, stored id entry <:+: lines existing → (∀ line ∈ stored id entry, ¬drops line) →
      stored id entry <:+: kept) :
    Rewrites existing (join [newline] kept) drops [] := by
  by_cases hne : kept = []
  · subst hne
    refine ⟨fun id entry hold hdrops => ?_, fun line hline hentry => ?_⟩
    · exact absurd (List.infix_nil.mp (hkeeps id entry hold hdrops)) (stored_ne_nil id entry)
    · have hnil : line = [] := by simpa [lines, join, toWellFormed, splitOn] using hline
      rw [hnil, not_isEntryLine_nil] at hentry
      cases hentry
  · have hread := lines_join h hsub hne
    refine ⟨fun id entry hold hdrops => ?_, fun line hline hentry => ?_⟩
    · rw [hread]
      exact hkeeps id entry hold hdrops
    · rw [hread] at hline
      exact .inl (hsub hline)

/-! ## `remember` -/

theorem lines_rdropWhile (existing : JsString) :
    ∃ n, lines existing = lines (existing.rdropWhile (· == newline)) ++ List.replicate n [] := by
  refine ⟨(existing.rtakeWhile (· == newline)).length, ?_⟩
  have htail : existing.rtakeWhile (· == newline) =
      List.replicate (existing.rtakeWhile (· == newline)).length newline :=
    List.eq_replicate_of_mem fun c hc => beq_iff_eq.mp (List.mem_rtakeWhile_imp (p := (· == newline)) hc)
  have hsplit := splitOn_append_replicate newline (existing.rdropWhile (· == newline))
    (existing.rtakeWhile (· == newline)).length
  rwa [← htail, List.rdropWhile_append_rtakeWhile] at hsplit

theorem infix_of_append_replicate {front : List JsString} {n : Nat} (h : block <:+: front ++ List.replicate n [])
    (hlast : block.getLast? ≠ some []) (hne : block ≠ []) : block <:+: front := by
  induction n with
  | zero => simpa using h
  | succ n ih =>
      rw [List.replicate_succ', ← List.append_assoc] at h
      rcases List.infix_concat_iff.mp h with hsuffix | hwithin
      · rcases List.suffix_concat_iff.mp hsuffix with hnil | ⟨start, rfl, -⟩
        · exact absurd hnil hne
        · exact absurd List.getLast?_concat hlast
      · exact ih hwithin

theorem lines_line (text id : JsString) (entry : MemoryEntry) :
    lines (toWellFormed (text ++ (newline :: entryText id entry ++ [newline]))) =
      lines (toWellFormed text) ++ stored id entry ++ [[]] := by
  have hnewline : isSurrogate newline = false := by decide
  rw [List.cons_append, toWellFormed_append_cons hnewline, toWellFormed_append_cons hnewline, lines,
    splitOn_append_sep, splitOn_append_sep, ← List.append_assoc]
  rfl

theorem stored_infix_remembered (existing id : JsString) (entry : MemoryEntry) :
    stored id entry <:+: lines (toWellFormed (remembered existing id entry)) := by
  unfold remembered
  split
  · rw [show ∀ rest, js "# Agent Memory" ++ newline :: rest = (js "# Agent Memory" ++ [newline]) ++ rest by simp,
      lines_line]
    exact ⟨_, _, rfl⟩
  · rw [lines_line]
    exact ⟨_, _, rfl⟩

theorem rewrites_remembered (h : toWellFormed existing = existing) (id : JsString) (entry : MemoryEntry) :
    Rewrites existing (remembered existing id entry) (fun _ => False) (stored id entry) := by
  unfold remembered
  split
  · rename_i hempty
    rw [show ∀ rest, js "# Agent Memory" ++ newline :: rest = (js "# Agent Memory" ++ [newline]) ++ rest by simp]
    refine ⟨fun id' entry' hold _ => ?_, fun line hline hentry => ?_⟩
    · -- the file holds only white space, and no entry
      obtain ⟨line, hline, hdash⟩ := exists_dash id' entry'
      have hmem := mem_of_mem_splitOn (hold.subset hline) hdash
      rw [trim_ne_nil_of_dash hmem] at hempty
      cases hempty
    · rw [lines_line, List.append_assoc, List.mem_append, List.mem_append, List.mem_singleton] at hline
      rcases hline with hheader | hnew | rfl
      · have hheads : ∀ line ∈ lines (toWellFormed (js "# Agent Memory" ++ [newline])), isEntryLine line = false := by
          decide +kernel
        rw [hheads line hheader] at hentry
        cases hentry
      · exact .inr hnew
      · rw [not_isEntryLine_nil] at hentry
        cases hentry
  · obtain ⟨n, hn⟩ := lines_rdropWhile existing
    have hfront : lines (toWellFormed (existing.rdropWhile (· == newline))) =
        lines (existing.rdropWhile (· == newline)) := by
      rw [lines_toWellFormed, map_toWellFormed h (hn ▸ List.subset_append_left _ _)]
    refine ⟨fun id' entry' hold _ => ?_, fun line hline hentry => ?_⟩
    · rw [hn] at hold
      have hkept := infix_of_append_replicate hold (getLast?_stored id' entry') (stored_ne_nil id' entry')
      rw [lines_line, hfront, List.append_assoc]
      exact List.infix_append_of_infix_left hkept
    · rw [lines_line, hfront, List.append_assoc, List.mem_append, List.mem_append, List.mem_singleton] at hline
      rcases hline with hold | hnew | rfl
      · exact .inl (hn ▸ List.mem_append_left _ hold)
      · exact .inr hnew
      · rw [not_isEntryLine_nil] at hentry
        cases hentry

/-! ## `forget` -/

theorem isEntryLine_of_forgets (h : forgets toLowerCase query line = true) : isEntryLine line = true :=
  ((Bool.and_eq_true _ _).mp h).1

theorem rewrites_forgotten (h : toWellFormed existing = existing) (query : JsString) :
    Rewrites existing (forgotten toLowerCase query existing) (fun line => forgets toLowerCase query line = true) [] := by
  have hsub : (lines existing).filter (fun line => !forgets toLowerCase query line) ⊆ lines existing :=
    List.filter_subset_self _
  have hkeeps (id : JsString) (entry : MemoryEntry) (hold : stored id entry <:+: lines existing)
      (hdrops : ∀ line ∈ stored id entry, ¬forgets toLowerCase query line = true) :
      stored id entry <:+: (lines existing).filter fun line => !forgets toLowerCase query line := by
    have hself : (stored id entry).filter (fun line => !forgets toLowerCase query line) = stored id entry :=
      List.filter_eq_self.mpr fun line hline => by simpa using hdrops line hline
    exact hself ▸ hold.filter _
  unfold forgotten
  dsimp only
  split
  · rename_i hblank
    refine ⟨fun id entry hold hdrops => ?_, fun line hline hentry => ?_⟩
    · -- what is left is one blank line at most
      have hwithin := hkeeps id entry hold hdrops
      obtain ⟨line, hline, hdash⟩ := exists_dash id entry
      rcases hblank with hnone | ⟨-, hall⟩
      · rw [List.length_eq_zero_iff.mp hnone] at hwithin
        exact absurd (List.infix_nil.mp hwithin) (stored_ne_nil id entry)
      · have htrim := List.all_eq_true.mp hall line (hwithin.subset hline)
        rw [trim_ne_nil_of_dash hdash] at htrim
        cases htrim
    · have hnil : line = [] := by simpa [lines, toWellFormed, splitOn] using hline
      rw [hnil, not_isEntryLine_nil] at hentry
      cases hentry
  · exact Rewrites.of_lines h hsub hkeeps

theorem not_mem_forgotten (h : toWellFormed existing = existing) (hline : forgets toLowerCase query line = true) :
    line ∉ lines (toWellFormed (forgotten toLowerCase query existing)) := by
  intro hmem
  have hentry := isEntryLine_of_forgets hline
  unfold forgotten at hmem
  dsimp only at hmem
  split at hmem
  · have hnil : line = [] := by simpa [lines, toWellFormed, splitOn] using hmem
    rw [hnil, not_isEntryLine_nil] at hentry
    cases hentry
  · rename_i hsome
    have hne : (lines existing).filter (fun line => !forgets toLowerCase query line) ≠ [] :=
      fun hnil => hsome (.inl (List.length_eq_zero_iff.mpr hnil))
    rw [lines_join h (List.filter_subset_self _) hne] at hmem
    have hkept := (List.mem_filter.mp hmem).2
    rw [hline] at hkept
    cases hkept

/-! ## `consolidate` -/

theorem dedupe_sublist (seen texts : List JsString) : (dedupe toLowerCase seen texts).1.Sublist texts := by
  fun_induction dedupe toLowerCase seen texts with
  | case1 => exact List.Sublist.refl _
  | case2 seen line rest hdup ih => exact ih.cons line
  | case3 seen line rest hdup seen' ih => exact ih.cons_cons line

/-- Lines in a row of which none is dropped stay in a row. -/
theorem infix_dedupe (seen front back : List JsString)
    (h : ∀ line ∈ block, line ∉ (dedupe toLowerCase seen (front ++ block ++ back)).2) :
    block <:+: (dedupe toLowerCase seen (front ++ block ++ back)).1 := by
  induction front generalizing seen with
  | nil =>
      suffices hstarts : block <+: (dedupe toLowerCase seen (block ++ back)).1 from hstarts.isInfix
      induction block generalizing seen with
      | nil => exact List.nil_prefix
      | cons line block ih =>
          rw [List.nil_append, List.cons_append, dedupe] at h
          rw [List.cons_append, dedupe]
          split
          · rename_i hdup
            rw [if_pos hdup] at h
            exact absurd List.mem_cons_self (h line List.mem_cons_self)
          · rename_i hdup
            rw [if_neg hdup] at h
            exact List.cons_prefix_cons.mpr ⟨rfl, ih _ fun other hother => h other (List.mem_cons_of_mem line hother)⟩
  | cons line front ih =>
      rw [List.cons_append, List.cons_append, dedupe] at h ⊢
      split
      · rename_i hdup
        rw [if_pos hdup] at h
        exact ih seen fun other hother hmem => h other hother (List.mem_cons_of_mem line hmem)
      · rename_i hdup
        rw [if_neg hdup] at h
        exact List.infix_cons (ih _ h)

/-- The rule of `consolidate`: the lines that it drops from the text. -/
def Duplicate (toLowerCase : JsString → JsString) (existing line : JsString) : Prop :=
  line ∈ (dedupe toLowerCase [] (lines existing)).2

theorem rewrites_consolidated (h : toWellFormed existing = existing) :
    Rewrites existing (consolidated toLowerCase existing) (Duplicate toLowerCase existing) [] := by
  refine Rewrites.of_lines h (dedupe_sublist [] _).subset fun id entry hold hdrops => ?_
  obtain ⟨front, back, heq⟩ := hold
  rw [← heq]
  exact infix_dedupe [] front back fun line hline => heq ▸ hdrops line hline

end WrongStack.Memory

import WrongStack.Memory.Backend
import WrongStack.Utils.SchemaTheorems

/-!
# Listing memories

What `FileMemoryBackend.list` reads of a file (`core/src/storage/memory-backend.ts`), after the entries that
`remember` has written. The regular expressions of the parser have one way to match, and are written as
functions.
-/

namespace WrongStack.Memory

open Lib JsString

/-! ## The parser -/

/-- An entry as it is listed. -/
structure ListedEntry where
  text : JsString
  ts : JsString
  type : Option JsString
  priority : Option JsString
  tags : List JsString
  deriving DecidableEq

/-- `/^-\s*\[([^\]]+)\]/`: its group, and what comes after the match. -/
def matchTimestamp : JsString → Option (JsString × JsString)
  | [] => none
  | dash :: rest =>
      if dash = unit '-' then
        match rest.dropWhile isSpace with
        | [] => none
        | bracket :: rest =>
            if bracket = unit '[' then
              let ts := rest.takeWhile (· != unit ']')
              match rest.dropWhile (· != unit ']') with
              | [] => none
              | _ :: rest => if ts.isEmpty then none else some (ts, rest)
            else none
      else none

/-- What a run of `\w+` takes, with what comes after the code unit `stop` that ends it. -/
def wordUpTo (stop : CodeUnit) (s : JsString) : Option (JsString × JsString) :=
  match s.dropWhile isWord with
  | c :: rest => if c = stop ∧ s.takeWhile isWord ≠ [] then some (s.takeWhile isWord, rest) else none
  | [] => none

/-- `TYPE_PRIORITY_RE`: its groups, and what comes after the match. -/
def matchTypePriority : JsString → Option (JsString × JsString × JsString)
  | [] => none
  | bracket :: rest =>
      if bracket = unit '[' then
        match wordUpTo (unit '|') rest with
        | none => none
        | some (a, rest) =>
            match wordUpTo (unit ']') rest with
            | none => none
            | some (b, rest) => if rest.head?.any isSpace then some (a, b, rest.dropWhile isSpace) else none
      else none

/-- `/^mem_\d+_\w+\s+/` taken off. -/
def dropId (s : JsString) : Option JsString :=
  if (js "mem_").isPrefixOf s then
    let digits := (s.drop 4).takeWhile isDigit
    match (s.drop 4).dropWhile isDigit with
    | [] => none
    | c :: rest =>
        if c = unit '_' ∧ digits ≠ [] ∧ rest.takeWhile isWord ≠ [] ∧ (rest.dropWhile isWord).head?.any isSpace then
          some ((rest.dropWhile isWord).dropWhile isSpace)
        else none
  else none

/-- `s in MEMORY_TYPE_LABELS` -/
def isMemoryType (s : JsString) : Bool :=
  [MemoryType.fact, .decision, .convention, .preference, .reference, .anti_pattern].any (fun t => t.text == s) ||
    SchemaWalk.inheritedNames.contains s

def isPriority (s : JsString) : Bool :=
  [MemoryPriority.critical, .high, .medium, .low].any fun p => p.text == s

def isTagUnit (c : CodeUnit) : Bool := isWord c || c == unit '-'

/-- A `#` and the tag after it; without one the `#` is text. -/
def closeTag (tag : JsString) (r : List JsString × JsString) : List JsString × JsString :=
  if tag.isEmpty then (r.1, unit '#' :: r.2) else (tag :: r.1, r.2)

/-- The matches of `TAG_RE`, and the text without them. The argument is the tag that is being read. -/
def scanTags : Option JsString → JsString → List JsString × JsString
  | none, [] => ([], [])
  | some tag, [] => closeTag tag ([], [])
  | none, c :: cs =>
      if c = unit '#' then scanTags (some []) cs
      else ((scanTags none cs).1, c :: (scanTags none cs).2)
  | some tag, c :: cs =>
      if c = unit '#' then closeTag tag (scanTags (some []) cs)
      else if isTagUnit c then scanTags (some (tag ++ [c])) cs
      else closeTag tag ((scanTags none cs).1, c :: (scanTags none cs).2)

/-- `.replace(/\s{2,}/g, ' ')`. The argument is what stands for the white space just read. -/
def collapseRuns : Option CodeUnit → JsString → JsString
  | none, [] => []
  | some w, [] => [w]
  | none, c :: cs => if isSpace c then collapseRuns (some c) cs else c :: collapseRuns none cs
  | some w, c :: cs => if isSpace c then collapseRuns (some (unit ' ')) cs else w :: c :: collapseRuns none cs

/-- The optional type and priority, and the rest of the line. -/
def typeAndPriority (rest : JsString) : Option JsString × Option JsString × JsString :=
  match matchTypePriority rest with
  | none => (none, none, rest)
  | some (a, b, after) =>
      if isMemoryType a then (some a, if isPriority b then some b else none, trim after)
      else if isPriority a then (none, some a, trim after)
      else (none, none, trim after)

def lineToEntry (line : JsString) : Option ListedEntry :=
  let trimmed := trim line
  if (js "- [").isPrefixOf trimmed then
    match matchTimestamp trimmed with
    | none => none
    | some (ts, rest) =>
        let (type, priority, rest) := typeAndPriority (trim rest)
        let text := match dropId rest with
          | some after => trim after
          | none => trim rest
        let (tags, shown) := scanTags none text
        let cleanText := trim (collapseRuns none shown)
        if cleanText.isEmpty then none
        else some { text := cleanText, ts := ts, type := type, priority := priority, tags := tags }
  else none

/-- Newest first. -/
def parseEntries (raw : JsString) : List ListedEntry := ((lines raw).filterMap lineToEntry).reverse

/-! ## The backend -/

/-- One file and what the backend remembers of it. -/
structure FileMemoryBackend where
  file : Option JsString := none
  mtimeMs : Nat := 0
  /-- `entryCache` and `mtimeCache` -/
  cache : Option (List ListedEntry × Nat) := none

/-- A call of `remember`: the id and the time of the file are drawn by it. -/
structure Remembering where
  id : JsString
  mtimeMs : Nat
  entry : MemoryEntry
  deriving DecidableEq

namespace FileMemoryBackend

def readAll (b : FileMemoryBackend) : JsString := (b.file.map toWellFormed).getD []

/-- The file is written and its caches are dropped. -/
def remember (b : FileMemoryBackend) (r : Remembering) : FileMemoryBackend where
  file := some (remembered b.readAll r.id r.entry)
  mtimeMs := r.mtimeMs

def loadEntries (b : FileMemoryBackend) : List ListedEntry :=
  match b.cache with
  | some (entries, mtime) => if mtime = b.mtimeMs then entries else parsed
  | none => parsed
where
  parsed : List ListedEntry := if (trim b.readAll).isEmpty then [] else parseEntries b.readAll

def list (b : FileMemoryBackend) (limit : Option Nat) : List ListedEntry :=
  match limit with
  | some n => if n = 0 then b.loadEntries else b.loadEntries.take n
  | none => b.loadEntries

end FileMemoryBackend

variable {c : CodeUnit} {s t rest ts id : JsString} {tags : List JsString} {e : MemoryEntry} {existing : JsString}

/-! ## Runs of a class -/

theorem isTagUnit_range (h : isTagUnit c = true) : 45 ≤ c.toNat ∧ c.toNat ≤ 122 := by
  simp only [isTagUnit, isWord, isUpper, isLower, isDigit, unit, Bool.or_eq_true, Bool.and_eq_true, decide_eq_true_eq,
    beq_iff_eq, UInt16.le_iff_toNat_le, ← UInt16.toNat_inj] at h
  simp at h
  omega

theorem isTagUnit_plain (h : isTagUnit c = true) :
    c < 128 ∧ isSpace c = false ∧ c ≠ newline ∧ c ≠ unit '#' := by
  have hrange := isTagUnit_range h
  refine ⟨?_, ?_, ?_, ?_⟩
  · rw [UInt16.lt_iff_toNat_lt]
    simp
    omega
  · simp only [isSpace, Bool.or_eq_false_iff, Bool.and_eq_false_iff, decide_eq_false_iff_not, UInt16.le_iff_toNat_le,
      beq_eq_false_iff_ne, ne_eq, ← UInt16.toNat_inj]
    simp
    omega
  · rintro rfl
    exact absurd hrange.1 (by decide)
  · rintro rfl
    exact absurd hrange.1 (by decide)

theorem isSurrogate_of_ascii (h : c < 128) : isSurrogate c = false := by
  rw [UInt16.lt_iff_toNat_lt] at h
  simp at h
  simp only [isSurrogate, isHighSurrogate, isLowSurrogate, Bool.or_eq_false_iff, Bool.and_eq_false_iff,
    decide_eq_false_iff_not, UInt16.le_iff_toNat_le, UInt16.lt_iff_toNat_lt]
  simp
  omega

theorem toWellFormed_ascii (h : ∀ c ∈ s, c < 128) : toWellFormed s = s := by
  induction s with
  | nil => rfl
  | cons c s ih =>
      obtain ⟨hc, hs⟩ := List.forall_mem_cons.mp h
      rw [toWellFormed_cons (isSurrogate_of_ascii hc), ih hs]

theorem takeWhile_stop {p : CodeUnit → Bool} (rest : JsString) (hs : ∀ c ∈ s, p c = true) (hc : p c = false) :
    (s ++ c :: rest).takeWhile p = s ∧ (s ++ c :: rest).dropWhile p = c :: rest := by
  constructor
  · rw [List.takeWhile_append_of_pos hs, List.takeWhile_cons_of_neg (by simp [hc]), List.append_nil]
  · rw [List.dropWhile_append_of_pos hs, List.dropWhile_cons_of_neg (by simp [hc])]

theorem dropWhile_head {p : CodeUnit → Bool} (h : s.head?.any p = false) : s.dropWhile p = s := by
  cases s with
  | nil => rfl
  | cons c s => exact List.dropWhile_cons_of_neg (by simpa using h)

theorem trim_self (hhead : s.head?.any isSpace = false) (hlast : s.getLast?.any isSpace = false) : trim s = s := by
  rw [trim, dropWhile_head hhead, dropWhile_head (by rwa [List.head?_reverse]), List.reverse_reverse]

theorem trim_space (h : isSpace c = true) : trim (c :: s) = trim s := by
  rw [trim, List.dropWhile_cons_of_pos h, trim]

/-! ## Tags and white space -/

/-- The text has white space only inside, and never two of it in a row. -/
structure SingleSpaced (t : JsString) : Prop where
  head : t.head?.any isSpace = false
  last : t.getLast?.any isSpace = false
  chain : t.IsChain fun a b => ¬ (isSpace a = true ∧ isSpace b = true)

theorem collapseRuns_chain (h : s.IsChain fun a b => ¬ (isSpace a = true ∧ isSpace b = true)) :
    collapseRuns none s = s ∧ ∀ w, s.head?.any isSpace = false → collapseRuns (some w) s = w :: s := by
  induction s with
  | nil => exact ⟨rfl, fun w _ => rfl⟩
  | cons c s ih =>
      obtain ⟨hnone, hsome⟩ := ih h.tail
      cases hc : isSpace c with
      | false => simp [collapseRuns, hc, hnone]
      | true =>
          have hnext : s.head?.any isSpace = false := by
            cases s with
            | nil => rfl
            | cons d s =>
                have hpair := (List.isChain_cons_cons.mp h).1
                simpa [hc] using hpair
          simp [collapseRuns, hc, hsome c hnext]

theorem collapseRuns_spaces (n : Nat) (hhead : t.head?.any isSpace = false)
    (h : t.IsChain fun a b => ¬ (isSpace a = true ∧ isSpace b = true)) :
    collapseRuns (some (unit ' ')) (List.replicate n (unit ' ') ++ t) = unit ' ' :: t := by
  have hspace : isSpace (unit ' ') = true := by decide
  induction n with
  | zero => exact (collapseRuns_chain h).2 _ hhead
  | succ n ih =>
      rw [List.replicate_succ, List.cons_append, collapseRuns, if_pos hspace]
      exact ih

/-- The white space that the tags leave in front is trimmed. -/
theorem trim_collapseRuns (n : Nat) (h : SingleSpaced t) :
    trim (collapseRuns none (List.replicate n (unit ' ') ++ t)) = t := by
  have hspace : isSpace (unit ' ') = true := by decide
  cases n with
  | zero =>
      rw [List.replicate_zero, List.nil_append, (collapseRuns_chain h.chain).1]
      exact trim_self h.head h.last
  | succ n =>
      rw [List.replicate_succ, List.cons_append, collapseRuns, if_pos hspace, collapseRuns_spaces n h.head h.chain,
        trim_space hspace]
      exact trim_self h.head h.last

/-- The tags of an entry, each with the space after it. -/
def tagText (tags : List JsString) : JsString := tags.flatMap fun tag => unit '#' :: tag ++ [unit ' ']

theorem scanTags_plain (h : unit '#' ∉ t) : scanTags none t = ([], t) := by
  induction t with
  | nil => rfl
  | cons c t ih =>
      obtain ⟨hc, ht⟩ := List.ne_and_not_mem_of_not_mem_cons h
      rw [scanTags, if_neg fun heq => hc heq.symm, ih ht]

theorem scanTags_tag (tag done : JsString) (h : ∀ c ∈ tag, isTagUnit c = true) :
    scanTags (some done) (tag ++ rest) = scanTags (some (done ++ tag)) rest := by
  induction tag generalizing done with
  | nil => rw [List.nil_append, List.append_nil]
  | cons c tag ih =>
      obtain ⟨hc, htag⟩ := List.forall_mem_cons.mp h
      rw [List.cons_append, scanTags, if_neg (isTagUnit_plain hc).2.2.2, if_pos hc, ih _ htag, List.append_assoc]
      rfl

theorem scanTags_tagText (htags : ∀ tag ∈ tags, tag ≠ [] ∧ ∀ c ∈ tag, isTagUnit c = true) (ht : unit '#' ∉ t) :
    scanTags none (tagText tags ++ t) = (tags, List.replicate tags.length (unit ' ') ++ t) := by
  induction tags with
  | nil => exact scanTags_plain ht
  | cons tag tags ih =>
      obtain ⟨⟨hne, hunits⟩, hrest⟩ := List.forall_mem_cons.mp htags
      have hspace : unit ' ' ≠ unit '#' := by decide
      have hnot : ¬ isTagUnit (unit ' ') = true := by decide
      have hempty : tag.isEmpty = false := List.isEmpty_eq_false_iff.mpr hne
      rw [tagText, List.flatMap_cons, ← tagText]
      simp only [List.cons_append, List.append_assoc, List.nil_append]
      rw [scanTags, if_pos rfl, scanTags_tag tag [] hunits, List.nil_append, scanTags, if_neg hspace, if_neg hnot,
        ih hrest, closeTag, hempty]
      rfl

theorem nil_not_mem_scanTags (pending : Option JsString) (s : JsString) : [] ∉ (scanTags pending s).1 := by
  have hclose : ∀ tag r, [] ∉ (r : List JsString × JsString).1 → [] ∉ (closeTag tag r).1 := by
    intro tag r hr
    rw [closeTag]
    split
    · exact hr
    · rename_i hne
      rw [List.mem_cons, not_or]
      refine ⟨?_, hr⟩
      rintro rfl
      exact hne rfl
  induction s generalizing pending with
  | nil =>
      cases pending with
      | none => simp [scanTags]
      | some tag => exact hclose tag _ (List.not_mem_nil)
  | cons c s ih =>
      cases pending with
      | none =>
          rw [scanTags]
          split
          · exact ih _
          · exact ih _
      | some tag =>
          rw [scanTags]
          split
          · exact hclose tag _ (ih _)
          · split
            · exact ih _
            · exact hclose tag _ (ih none)

/-! ## One line -/

/-- An id as `remember` makes it. -/
def IsId (id : JsString) : Prop :=
  ∃ digits word, id = js "mem_" ++ digits ++ unit '_' :: word ∧ digits ≠ [] ∧ (∀ c ∈ digits, isDigit c = true) ∧
    word ≠ [] ∧ ∀ c ∈ word, isWord c = true

theorem isDigit_isWord (h : isDigit c = true) : isWord c = true := by
  simp [isWord, h]

theorem isWord_isTagUnit (h : isWord c = true) : isTagUnit c = true := by
  simp [isTagUnit, h]

theorem IsId.units (h : IsId id) : ∀ c ∈ id, isTagUnit c = true := by
  obtain ⟨digits, word, rfl, -, hdigits, -, hword⟩ := h
  intro c hc
  apply isWord_isTagUnit
  rw [List.mem_append, List.mem_append, List.mem_cons] at hc
  rcases hc with (hc | hc) | rfl | hc
  · have hopens : ∀ c ∈ js "mem_", isWord c = true := List.all_eq_true.mp (by decide)
    exact hopens c hc
  · exact isDigit_isWord (hdigits c hc)
  · decide
  · exact hword c hc

theorem dropId_append (hid : IsId id) (hhead : s.head?.any isSpace = false) : dropId (id ++ unit ' ' :: s) = some s := by
  obtain ⟨digits, word, rfl, hne, hdigits, hwne, hword⟩ := hid
  have hopens : (js "mem_").isPrefixOf (js "mem_" ++ digits ++ unit '_' :: word ++ unit ' ' :: s) = true := by
    rw [List.isPrefixOf_iff_prefix]
    simp only [List.append_assoc]
    exact List.prefix_append _ _
  have hdrop : (js "mem_" ++ digits ++ unit '_' :: word ++ unit ' ' :: s).drop 4 =
      digits ++ unit '_' :: (word ++ unit ' ' :: s) := by
    simp only [List.append_assoc, List.cons_append]
    exact List.drop_left' (by decide)
  have hunder : isDigit (unit '_') = false := by decide
  have hspace : isWord (unit ' ') = false := by decide
  obtain ⟨htake, hskip⟩ := takeWhile_stop (word ++ unit ' ' :: s) hdigits hunder
  obtain ⟨htake', hskip'⟩ := takeWhile_stop s hword hspace
  rw [dropId, if_pos hopens, hdrop, htake, hskip]
  simp only [htake', hskip', hne, hwne, ne_eq, not_false_eq_true, true_and, List.head?_cons, Option.any_some]
  rw [if_pos (by decide), List.dropWhile_cons_of_pos (by decide), dropWhile_head hhead]

theorem matchTimestamp_append (hne : ts ≠ []) (hts : unit ']' ∉ ts) :
    matchTimestamp (js "- [" ++ ts ++ unit ']' :: rest) = some (ts, rest) := by
  have hne' : ∀ c ∈ ts, (c != unit ']') = true := by
    intro c hc
    rw [bne_iff_ne]
    rintro rfl
    exact hts hc
  have hstop : (unit ']' != unit ']') = false := by decide
  obtain ⟨htake, hskip⟩ := takeWhile_stop rest hne' hstop
  have hempty : ts.isEmpty = false := List.isEmpty_eq_false_iff.mpr hne
  have hopen : js "- [" ++ ts ++ unit ']' :: rest = unit '-' :: unit ' ' :: unit '[' :: (ts ++ unit ']' :: rest) := by
    rw [List.append_assoc]
    rfl
  have hspaces : (unit ' ' :: unit '[' :: (ts ++ unit ']' :: rest)).dropWhile isSpace =
      unit '[' :: (ts ++ unit ']' :: rest) := by
    rw [List.dropWhile_cons_of_pos (by decide), List.dropWhile_cons_of_neg (by decide)]
  rw [hopen, matchTimestamp, if_pos rfl, hspaces]
  simp only [if_true, htake, hskip, hempty, Bool.false_eq_true, if_false]

/-- The line of an entry: the id comes first, and what is in front of the text is part of the text. -/
theorem lineToEntry_line (hid : IsId id) (hne : ts ≠ []) (hts : unit ']' ∉ ts) (hs : s ≠ [])
    (hhead : s.head?.any isSpace = false) (hlast : s.getLast?.any isSpace = false) :
    lineToEntry (js "- [" ++ ts ++ unit ']' :: unit ' ' :: (id ++ unit ' ' :: s)) =
      if (trim (collapseRuns none (scanTags none s).2)).isEmpty then none
      else some ⟨trim (collapseRuns none (scanTags none s).2), ts, none, none, (scanTags none s).1⟩ := by
  have hend : ∀ front : JsString, (front ++ s).getLast?.any isSpace = false := by
    intro front
    rw [List.getLast?_append_of_ne_nil _ hs]
    exact hlast
  have hidhead : ∃ word, id = unit 'm' :: word := by
    obtain ⟨digits, word, rfl, -⟩ := hid
    exact ⟨_, rfl⟩
  obtain ⟨word, hword⟩ := hidhead
  have hrest : trim (id ++ unit ' ' :: s) = id ++ unit ' ' :: s := by
    apply trim_self
    · rw [hword]
      exact (by decide : isSpace (unit 'm') = false)
    · rw [show id ++ unit ' ' :: s = (id ++ [unit ' ']) ++ s by simp]
      exact hend _
  have hline : trim (js "- [" ++ ts ++ unit ']' :: unit ' ' :: (id ++ unit ' ' :: s)) =
      js "- [" ++ ts ++ unit ']' :: unit ' ' :: (id ++ unit ' ' :: s) := by
    apply trim_self
    · rw [List.append_assoc]
      exact (by decide : isSpace (unit '-') = false)
    · rw [show js "- [" ++ ts ++ unit ']' :: unit ' ' :: (id ++ unit ' ' :: s) =
        (js "- [" ++ ts ++ unit ']' :: unit ' ' :: (id ++ [unit ' '])) ++ s by simp]
      exact hend _
  have hopens : (js "- [").isPrefixOf (js "- [" ++ ts ++ unit ']' :: unit ' ' :: (id ++ unit ' ' :: s)) = true := by
    rw [List.isPrefixOf_iff_prefix, List.append_assoc]
    exact List.prefix_append _ _
  have hplain : typeAndPriority (id ++ unit ' ' :: s) = (none, none, id ++ unit ' ' :: s) := by
    have hnone : matchTypePriority (id ++ unit ' ' :: s) = none := by
      rw [hword, List.cons_append, matchTypePriority, if_neg (by decide)]
    rw [typeAndPriority, hnone]
  rw [lineToEntry, hline]
  simp only [hopens, if_true, matchTimestamp_append hne hts, trim_space (show isSpace (unit ' ') = true by decide),
    hrest, hplain, dropId_append hid hhead, trim_self hhead hlast]

/-! ## What is written -/

/-- An entry that is single-spaced, has no `#` in its text and tags of word characters. -/
structure Storable (e : MemoryEntry) : Prop where
  ts_ne : e.ts ≠ []
  ts : ∀ c ∈ e.ts, c < 128 ∧ c ≠ unit ']' ∧ c ≠ newline
  tags : ∀ tag ∈ e.tags, ∀ c ∈ tag, isTagUnit c = true
  text_ne : e.text ≠ []
  text : unit '#' ∉ e.text ∧ newline ∉ e.text
  spaced : SingleSpaced e.text

/-- The entry as it should be listed. -/
def MemoryEntry.listed (e : MemoryEntry) : ListedEntry where
  text := e.text
  ts := e.ts
  type := e.type.map MemoryType.text
  priority := e.priority.map MemoryPriority.text
  tags := e.tags

/-- Neither a type nor a priority, no empty tag, and no unpaired surrogate. -/
structure Recoverable (e : MemoryEntry) : Prop where
  type : e.type = none
  priority : e.priority = none
  tags : [] ∉ e.tags
  text : toWellFormed e.text = e.text

def label (e : MemoryEntry) : JsString :=
  match e.type, e.priority with
  | some type, some priority => js "[" ++ type.text ++ js "|" ++ priority.text ++ js "] "
  | some type, none => js "[" ++ type.text ++ js "] "
  | none, some priority => js "[" ++ priority.text ++ js "] "
  | none, none => []

/-- The line of an entry, as it is read. -/
def entryLine (id : JsString) (e : MemoryEntry) : JsString :=
  js "- [" ++ e.ts ++ unit ']' :: unit ' ' ::
    (id ++ unit ' ' :: (label e ++ tagText e.tags ++ toWellFormed e.text))

theorem join_tags (h : tags ≠ []) :
    join (js " ") (tags.map (js "#" ++ ·)) ++ [unit ' '] = tagText tags := by
  induction tags with
  | nil => exact absurd rfl h
  | cons tag tags ih =>
      cases tags with
      | nil => simp [join, tagText, js, utf16, unit]
      | cons tag' tags =>
          have hrest := ih (by simp)
          rw [tagText, List.flatMap_cons, ← tagText, ← hrest, List.map_cons, List.map_cons, join,
            List.intercalate_cons_cons]
          simp [join, js, utf16, unit]

theorem formatMetadata_text (e : MemoryEntry) (t : JsString) :
    formatMetadata e ++ js " " ++ t = unit ' ' :: (label e ++ tagText e.tags ++ t) := by
  have hspace : js " " = [unit ' '] := by decide
  have htags : e.tags ≠ [] → join [unit ' '] (e.tags.map (js "#" ++ ·)) ++ [unit ' '] = tagText e.tags := by
    intro hne
    have hjoin := join_tags hne
    rwa [hspace] at hjoin
  rw [formatMetadata, label]
  by_cases hne : e.tags = []
  · rw [hne]
    cases e.type <;> cases e.priority <;> simp [join, tagText, js, utf16, unit]
  · rw [← htags hne]
    have hempty : e.tags.isEmpty = false := List.isEmpty_eq_false_iff.mpr hne
    cases e.type <;> cases e.priority <;> simp [join, hempty, js, utf16, unit, List.intercalate]

def isPlain (c : CodeUnit) : Bool := decide (c < 128) && c != newline

theorem isPlain_iff : isPlain c = true ↔ c < 128 ∧ c ≠ newline := by
  simp [isPlain]

theorem label_plain (e : MemoryEntry) : (label e).all isPlain = true := by
  rw [label]
  cases e.type with
  | none =>
      cases e.priority with
      | none => rfl
      | some priority => cases priority <;> decide
  | some type =>
      cases e.priority with
      | none => cases type <;> decide
      | some priority => cases type <;> cases priority <;> decide

theorem tagText_ascii (h : ∀ tag ∈ tags, ∀ c ∈ tag, isTagUnit c = true) :
    ∀ c ∈ tagText tags, c < 128 ∧ c ≠ newline := by
  intro c hc
  obtain ⟨tag, htag, hc⟩ := List.mem_flatMap.mp hc
  rw [List.mem_append, List.mem_cons, List.mem_singleton] at hc
  rcases hc with (rfl | hc) | rfl
  · decide
  · have hplain := isTagUnit_plain (h tag htag c hc)
    exact ⟨hplain.1, hplain.2.2.1⟩
  · decide

theorem stored_eq (hid : IsId id) (h : Storable e) : stored id e = [entryLine id e] := by
  have htext : (e.text.map fun c => if c = newline then unit ' ' else c) = e.text := by
    conv_rhs => rw [← List.map_id' e.text]
    apply List.map_congr_left
    intro c hc
    rw [if_neg]
    rintro rfl
    exact h.text.2 hc
  have hclose : js "] " = [unit ']', unit ' '] := by decide
  have hwritten : entryText id e = (js "- [" ++ e.ts ++ unit ']' :: unit ' ' :: (id ++ unit ' ' ::
      (label e ++ tagText e.tags))) ++ e.text := by
    rw [entryText, htext, List.append_assoc, List.append_assoc, ← List.append_assoc (formatMetadata e),
      formatMetadata_text, hclose]
    simp only [List.append_assoc, List.cons_append, List.nil_append]
  have hfront : ∀ c ∈ js "- [" ++ e.ts ++ unit ']' :: unit ' ' :: (id ++ unit ' ' :: (label e ++ tagText e.tags)),
      c < 128 ∧ c ≠ newline := by
    intro c hc
    simp only [List.mem_append, List.mem_cons] at hc
    rcases hc with (hc | hc) | rfl | rfl | hc | rfl | hc | hc
    · exact isPlain_iff.mp (List.all_eq_true.mp (by decide : (js "- [").all isPlain = true) c hc)
    · exact ⟨(h.ts c hc).1, (h.ts c hc).2.2⟩
    · decide
    · decide
    · have hplain := isTagUnit_plain (hid.units c hc)
      exact ⟨hplain.1, hplain.2.2.1⟩
    · decide
    · exact isPlain_iff.mp (List.all_eq_true.mp (label_plain e) c hc)
    · exact tagText_ascii h.tags c hc
  have hread : toWellFormed (entryText id e) = (js "- [" ++ e.ts ++ unit ']' :: unit ' ' :: (id ++ unit ' ' ::
      (label e ++ tagText e.tags))) ++ toWellFormed e.text := by
    rw [hwritten, toWellFormed_append (toWellFormed_ascii fun c hc => (hfront c hc).1)]
  have hnone : newline ∉ toWellFormed (entryText id e) := by
    rw [hread, List.mem_append, not_or]
    refine ⟨fun hc => (hfront newline hc).2 rfl, ?_⟩
    rw [mem_toWellFormed (by decide) (by decide)]
    exact h.text.2
  rw [stored, lines, splitOn_self hnone, hread, entryLine]
  simp only [List.append_assoc, List.cons_append]

theorem map_isSpace_toWellFormed (t : JsString) : (toWellFormed t).map isSpace = t.map isSpace := by
  have hreplace : ∀ c, isSpace (replaceSurrogate c) = isSpace c := by
    intro c
    rw [replaceSurrogate]
    split
    · rename_i hc
      have hrange : 0xD800 ≤ c.toNat ∧ c.toNat < 0xE000 := by
        by_contra hout
        have hnot := hc
        simp only [isSurrogate, isHighSurrogate, isLowSurrogate, Bool.or_eq_true, Bool.and_eq_true, decide_eq_true_eq,
          UInt16.le_iff_toNat_le, UInt16.lt_iff_toNat_lt] at hnot
        simp at hnot
        omega
      symm
      rw [show isSpace 0xFFFD = false by decide]
      simp only [isSpace, Bool.or_eq_false_iff, Bool.and_eq_false_iff, decide_eq_false_iff_not, UInt16.le_iff_toNat_le,
        beq_eq_false_iff_ne, ne_eq, ← UInt16.toNat_inj]
      simp
      omega
    · rfl
  fun_induction toWellFormed t with
  | case1 hi lo rest hpair ih => simp only [List.map_cons, ih]
  | case2 hi lo rest hpair ih =>
      rw [List.map_cons, hreplace, ih]
      rfl
  | case3 c => simp only [List.map_cons, List.map_nil, hreplace]
  | case4 => rfl

theorem SingleSpaced.of_map {t' : JsString} (h : SingleSpaced t) (heq : t'.map isSpace = t.map isSpace) :
    SingleSpaced t' where
  head := by
    have hhead := congrArg List.head? heq
    rw [List.head?_map, List.head?_map] at hhead
    have := h.head
    cases ht : t.head? with
    | none => simp [ht] at hhead; simp [hhead]
    | some c =>
        rw [ht] at hhead this
        obtain ⟨d, hd, hdc⟩ := Option.map_eq_some_iff.mp hhead
        simpa [hd, hdc] using this
  last := by
    have hlast := congrArg List.getLast? heq
    rw [List.getLast?_map, List.getLast?_map] at hlast
    have := h.last
    cases ht : t.getLast? with
    | none => simp [ht] at hlast; simp [hlast]
    | some c =>
        rw [ht] at hlast this
        obtain ⟨d, hd, hdc⟩ := Option.map_eq_some_iff.mp hlast
        simpa [hd, hdc] using this
  chain := by
    have hchain := h.chain
    rw [← List.isChain_map (R := fun a b => ¬ (a = true ∧ b = true)) isSpace] at hchain ⊢
    rwa [heq]

theorem lineToEntry_stored (hid : IsId id) (h : Storable e) :
    (stored id e).filterMap lineToEntry = (lineToEntry (entryLine id e)).toList := by
  rw [stored_eq hid h]
  cases hline : lineToEntry (entryLine id e) with
  | none => simp [hline]
  | some l => simp [hline]

/-- An entry is read back exactly if it is recoverable. -/
theorem lineToEntry_iff (hid : IsId id) (h : Storable e) :
    lineToEntry (entryLine id e) = some e.listed ↔ Recoverable e := by
  have hspaced : SingleSpaced (toWellFormed e.text) := h.spaced.of_map (map_isSpace_toWellFormed e.text)
  have hne : toWellFormed e.text ≠ [] := by
    intro hnil
    have hmap := map_isSpace_toWellFormed e.text
    rw [hnil] at hmap
    exact h.text_ne (List.map_eq_nil_iff.mp hmap.symm)
  have hsharp : unit '#' ∉ toWellFormed e.text := by
    rw [mem_toWellFormed (by decide) (by decide)]
    exact h.text.1
  have hbracket : unit ']' ∉ e.ts := fun hc => (h.ts _ hc).2.1 rfl
  have hhead : (label e ++ tagText e.tags ++ toWellFormed e.text).head?.any isSpace = false := by
    rw [label]
    cases htags : e.tags with
    | nil =>
        cases e.type <;> cases e.priority
        · exact hspaced.head
        · exact (by decide : isSpace (unit '[') = false)
        · exact (by decide : isSpace (unit '[') = false)
        · exact (by decide : isSpace (unit '[') = false)
    | cons tag tags =>
        cases e.type <;> cases e.priority
        · exact (by decide : isSpace (unit '#') = false)
        · exact (by decide : isSpace (unit '[') = false)
        · exact (by decide : isSpace (unit '[') = false)
        · exact (by decide : isSpace (unit '[') = false)
  have hlast : (label e ++ tagText e.tags ++ toWellFormed e.text).getLast?.any isSpace = false := by
    rw [List.getLast?_append_of_ne_nil _ hne]
    exact hspaced.last
  have hread := lineToEntry_line hid h.ts_ne hbracket (List.append_ne_nil_of_right_ne_nil _ hne) hhead hlast
  rw [entryLine, hread]
  constructor
  · intro hsome
    split at hsome
    · cases hsome
    · have hl := Option.some.inj hsome
      have htype : none = e.type.map MemoryType.text := congrArg ListedEntry.type hl
      have hpriority : none = e.priority.map MemoryPriority.text := congrArg ListedEntry.priority hl
      have htags : (scanTags none _).1 = e.tags := congrArg ListedEntry.tags hl
      have htype : e.type = none := Option.map_eq_none_iff.mp htype.symm
      have hpriority : e.priority = none := Option.map_eq_none_iff.mp hpriority.symm
      have hnil : [] ∉ e.tags := htags ▸ nil_not_mem_scanTags none _
      have hlabel : label e = [] := by
        rw [label, htype, hpriority]
      have htext := congrArg ListedEntry.text hl
      have hunits : ∀ tag ∈ e.tags, tag ≠ [] ∧ ∀ c ∈ tag, isTagUnit c = true :=
        fun tag htag => ⟨fun heq => hnil (heq ▸ htag), h.tags tag htag⟩
      simp only [hlabel, List.nil_append, scanTags_tagText hunits hsharp, trim_collapseRuns _ hspaced] at htext
      exact ⟨htype, hpriority, hnil, htext⟩
  · intro hrec
    have hlabel : label e = [] := by
      rw [label, hrec.type, hrec.priority]
    have hunits : ∀ tag ∈ e.tags, tag ≠ [] ∧ ∀ c ∈ tag, isTagUnit c = true :=
      fun tag htag => ⟨fun heq => hrec.tags (heq ▸ htag), h.tags tag htag⟩
    have hempty : (toWellFormed e.text).isEmpty = false := List.isEmpty_eq_false_iff.mpr hne
    simp only [hlabel, List.nil_append, scanTags_tagText hunits hsharp, trim_collapseRuns _ hspaced, hempty]
    simp [MemoryEntry.listed, hrec.type, hrec.priority, hrec.text]

/-! ## The file -/

/-- The entries of a text, oldest first. -/
def parsed (raw : JsString) : List ListedEntry := (lines raw).filterMap lineToEntry

theorem lineToEntry_blank (h : ∀ c ∈ s, isSpace c = true) : lineToEntry s = none := by
  rw [lineToEntry, trim_eq_nil_iff.mpr h]
  rfl

theorem parsed_blank (h : (trim existing).isEmpty = true) : parsed existing = [] := by
  rw [parsed, List.filterMap_eq_nil_iff]
  intro line hline
  apply lineToEntry_blank
  intro c hc
  exact trim_eq_nil_iff.mp (List.isEmpty_iff.mp h) c (mem_of_mem_splitOn hline hc)

/-- A new entry comes after the ones that are read, and nothing else is read. -/
theorem parsed_remembered (h : toWellFormed existing = existing) (id : JsString) (e : MemoryEntry) :
    parsed (toWellFormed (remembered existing id e)) = parsed existing ++ (stored id e).filterMap lineToEntry := by
  have hnil : lineToEntry [] = none := lineToEntry_blank (by simp)
  unfold remembered
  split
  · rename_i hempty
    rw [parsed_blank hempty, parsed,
      show ∀ rest, js "# Agent Memory" ++ newline :: rest = (js "# Agent Memory" ++ [newline]) ++ rest by simp,
      lines_line, List.filterMap_append, List.filterMap_append]
    have hheader : (lines (toWellFormed (js "# Agent Memory" ++ [newline]))).filterMap lineToEntry = [] := by
      decide +kernel
    rw [hheader]
    simp [hnil]
  · obtain ⟨n, hlines⟩ := lines_rdropWhile existing
    have hfront : (lines (existing.rdropWhile (· == newline))).map toWellFormed =
        lines (existing.rdropWhile (· == newline)) := by
      apply map_toWellFormed h
      rw [hlines]
      exact List.subset_append_left _ _
    have hpadding : (List.replicate n ([] : JsString)).filterMap lineToEntry = [] := by
      rw [List.filterMap_eq_nil_iff]
      intro line hline
      rw [List.eq_of_mem_replicate hline, hnil]
    rw [parsed, parsed, lines_line, lines_toWellFormed, hfront, hlines, List.filterMap_append, List.filterMap_append,
      List.filterMap_append, hpadding]
    simp [hnil]

namespace FileMemoryBackend

theorem toWellFormed_readAll (b : FileMemoryBackend) : toWellFormed b.readAll = b.readAll := by
  unfold readAll
  cases b.file with
  | none => rfl
  | some text => exact toWellFormed_toWellFormed text

theorem list_parsed (b : FileMemoryBackend) (h : b.cache = none) : b.list none = (Memory.parsed b.readAll).reverse := by
  rw [list, loadEntries, h]
  simp only [loadEntries.parsed]
  split
  · rename_i hempty
    rw [parsed_blank hempty]
    rfl
  · rfl

theorem parsed_run (rs : List Remembering) (b : FileMemoryBackend) :
    Memory.parsed (rs.foldl remember b).readAll =
      Memory.parsed b.readAll ++ rs.flatMap fun r => (stored r.id r.entry).filterMap lineToEntry := by
  induction rs generalizing b with
  | nil => simp
  | cons r rs ih =>
      have hread : (b.remember r).readAll = toWellFormed (remembered b.readAll r.id r.entry) := rfl
      rw [List.foldl_cons, ih, hread, parsed_remembered b.toWellFormed_readAll, List.flatMap_cons, List.append_assoc]

theorem cache_run (rs : List Remembering) (b : FileMemoryBackend) (h : b.cache = none) :
    (rs.foldl remember b).cache = none := by
  cases rs using List.reverseRecOn with
  | nil => exact h
  | append_singleton rs r => rw [List.foldl_append]; rfl

end FileMemoryBackend

theorem flatMap_toList_eq_map_iff {α β : Type*} {f : α → Option β} {g : α → β} (as : List α) :
    (as.flatMap fun a => (f a).toList) = as.map g ↔ ∀ a ∈ as, f a = some (g a) := by
  have hle : ∀ as : List α, (as.flatMap fun a => (f a).toList).length ≤ as.length := by
    intro as
    induction as with
    | nil => simp
    | cons a as ih =>
        rw [List.flatMap_cons, List.length_append, List.length_cons]
        cases f a with
        | none => exact (Nat.zero_add _).trans_le (Nat.le_succ_of_le ih)
        | some b => exact (Nat.add_comm _ _).trans_le (Nat.succ_le_succ ih)
  induction as with
  | nil => simp
  | cons a as ih =>
      rw [List.flatMap_cons, List.map_cons, List.forall_mem_cons]
      cases hf : f a with
      | none =>
          simp only [Option.toList_none, List.nil_append, reduceCtorEq, false_and, iff_false]
          intro heq
          have hlength := hle as
          rw [heq, List.length_cons, List.length_map] at hlength
          omega
      | some b =>
          rw [Option.toList_some, List.singleton_append, List.cons.injEq, Option.some.injEq]
          exact and_congr_right fun _ => ih

/-- **The entries that were remembered are listed, newest first, exactly if none of them has a type, a
priority or an empty tag.** The writer puts the id before the type and the priority, and the parser looks
for it after them. -/
theorem list_remembered_iff (file : Option JsString) (hfile : file = none ∨ file = some []) (rs : List Remembering)
    (hid : ∀ r ∈ rs, IsId r.id) (hstorable : ∀ r ∈ rs, Storable r.entry) :
    (rs.foldl FileMemoryBackend.remember { file := file }).list none = (rs.map fun r => r.entry.listed).reverse ↔
      ∀ r ∈ rs, Recoverable r.entry := by
  have hstart : parsed ({ file := file } : FileMemoryBackend).readAll = [] := by
    rcases hfile with rfl | rfl
    · exact parsed_blank rfl
    · exact parsed_blank rfl
  have hlines : (rs.flatMap fun r => (stored r.id r.entry).filterMap lineToEntry) = rs.flatMap fun r =>
      (lineToEntry (entryLine r.id r.entry)).toList :=
    List.flatMap_congr fun r hr => lineToEntry_stored (hid r hr) (hstorable r hr)
  rw [FileMemoryBackend.list_parsed _ (FileMemoryBackend.cache_run rs _ rfl), FileMemoryBackend.parsed_run, hstart,
    List.nil_append, hlines, List.reverse_inj, flatMap_toList_eq_map_iff]
  exact forall₂_congr fun r hr => lineToEntry_iff (hid r hr) (hstorable r hr)

def pnpm : Remembering where
  id := js "mem_1780000000000_ab12cd34"
  mtimeMs := 1
  entry := { ts := js "2026-06-07T08:00:00.000Z", text := js "Use pnpm", tags := [js "build"] }

theorem isId_pnpm : IsId pnpm.id :=
  ⟨js "1780000000000", js "ab12cd34", by decide +kernel, by decide, List.all_eq_true.mp (by decide), by decide,
    List.all_eq_true.mp (by decide)⟩

theorem storable_pnpm : Storable pnpm.entry where
  ts_ne := by decide
  ts c hc := by
    have hall : (pnpm.entry.ts.all fun c => isPlain c && c != unit ']') = true := by decide
    have hplain := List.all_eq_true.mp hall c hc
    rw [Bool.and_eq_true, isPlain_iff, bne_iff_ne] at hplain
    exact ⟨hplain.1.1, hplain.2, hplain.1.2⟩
  tags := List.forall_mem_singleton.mpr (List.all_eq_true.mp (by decide))
  text_ne := by decide
  text := by decide
  spaced := ⟨by decide, by decide, by decide +kernel⟩

/-- The same memory with a priority. -/
def important : Remembering := { pnpm with entry := { pnpm.entry with priority := some .high } }

theorem storable_important : Storable important.entry :=
  ⟨storable_pnpm.ts_ne, storable_pnpm.ts, storable_pnpm.tags, storable_pnpm.text_ne, storable_pnpm.text,
    storable_pnpm.spaced⟩

theorem list_remembered_pnpm :
    ([pnpm].foldl FileMemoryBackend.remember {}).list none = [pnpm.entry.listed] :=
  (list_remembered_iff none (Or.inl rfl) [pnpm] (List.forall_mem_singleton.mpr isId_pnpm)
    (List.forall_mem_singleton.mpr storable_pnpm)).mpr
      (List.forall_mem_singleton.mpr ⟨rfl, rfl, by decide, by decide⟩)

/-- The priority becomes a part of the text. -/
theorem priority_in_text :
    ([important].foldl FileMemoryBackend.remember {}).list none =
        [{ pnpm.entry.listed with text := js "[high] Use pnpm" }] ∧
      ¬ ∀ rs : List Remembering, (∀ r ∈ rs, IsId r.id) → (∀ r ∈ rs, Storable r.entry) →
        (rs.foldl FileMemoryBackend.remember {}).list none = (rs.map fun r => r.entry.listed).reverse := by
  have hlist : ([important].foldl FileMemoryBackend.remember {}).list none =
      [{ pnpm.entry.listed with text := js "[high] Use pnpm" }] := by decide +kernel
  refine ⟨hlist, fun h => ?_⟩
  have hread := h [important] (List.forall_mem_singleton.mpr isId_pnpm) (List.forall_mem_singleton.mpr storable_important)
  rw [hlist] at hread
  revert hread
  decide +kernel

end WrongStack.Memory

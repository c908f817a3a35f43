import WrongStack.Lib.JsonText
import WrongStack.Replay.ReplayLogStore

/-!
# What is read back of the entries
-/

namespace WrongStack.Replay

open Lib Utils Utf8 JsString

variable {parse : JsString → Option Json} {e : ReplayEntry} {es fs : List ReplayEntry} {rest : JsString}
  {bytes : Bytes}

/-- An entry of JSON values, which `JSON.parse` reads back. -/
structure ReplayEntry.Proper (parse : JsString → Option Json) (e : ReplayEntry) : Prop where
  prints : e.toJson.NumbersPrint
  parses : parse e.toJson.stringify = some e.toJson

/-- An entry that can be read from its line. -/
structure Readable (parse : JsString → Option Json) (e : ReplayEntry) : Prop extends e.Proper parse where
  short : e.toJson.stringify.length ≤ maxBytes

/-! ## Lines -/

theorem stringify_toJson (e : ReplayEntry) :
    ∃ inner, e.toJson.stringify = unit '\x7b' :: inner ++ [unit '\x7d'] := ⟨_, rfl⟩

theorem isLine_toJson (h : e.Proper parse) : IsLine e.toJson.stringify := Json.isLine_stringify e.toJson h.prints

theorem newline_not_mem (h : e.Proper parse) : newline ∉ e.toJson.stringify := (isLine_toJson h).oneLine

theorem trim_stringify_ne_nil (e : ReplayEntry) : (trim e.toJson.stringify).isEmpty = false := by
  obtain ⟨inner, heq⟩ := stringify_toJson e
  have hmem : unit '\x7b' ∈ e.toJson.stringify := by simp [heq]
  have hne : trim e.toJson.stringify ≠ [] := by
    intro hnil
    have hspace := trim_eq_nil_iff.mp hnil _ hmem
    revert hspace
    decide
  simpa using hne

theorem parseReplayLine_toJson (h : Readable parse e) : parseReplayLine parse e.toJson.stringify = some e.toJson := by
  have hsafe : safeParse parse e.toJson.stringify = some e.toJson := by
    rw [safeParse, if_neg (by have := h.short; omega), h.parses]
  rw [parseReplayLine, hsafe]
  rfl

theorem trimEnd_lineOf (e : ReplayEntry) : trimEnd (lineOf e.toJson) = e.toJson.stringify := by
  obtain ⟨inner, heq⟩ := stringify_toJson e
  have hspace : isSpace newline = true := by decide
  have hbrace : isSpace (unit '\x7d') = false := by decide
  rw [lineOf, heq, trimEnd]
  simp [hspace, hbrace]

theorem toWellFormed_lineOf (h : e.Proper parse) : toWellFormed (lineOf e.toJson) = lineOf e.toJson := by
  rw [lineOf, toWellFormed_append (isLine_toJson h).wellFormed]
  rfl

/-! ## Files -/

def textOf (es : List ReplayEntry) : JsString := es.flatMap fun e => lineOf e.toJson

/-- What a file holds that consists of the lines of `es`. -/
def fileOf (es : List ReplayEntry) : Bytes := es.flatMap fun e => encode (lineOf e.toJson)

theorem textOf_append (es fs : List ReplayEntry) : textOf (es ++ fs) = textOf es ++ textOf fs := List.flatMap_append

theorem fileOf_append (es fs : List ReplayEntry) : fileOf (es ++ fs) = fileOf es ++ fileOf fs := List.flatMap_append

theorem fileOf_concat (es : List ReplayEntry) (e : ReplayEntry) :
    fileOf (es ++ [e]) = fileOf es ++ encode (lineOf e.toJson) := by
  rw [fileOf_append]
  simp [fileOf]

theorem toWellFormed_textOf (h : ∀ e ∈ es, e.Proper parse) : toWellFormed (textOf es) = textOf es := by
  induction es with
  | nil => rfl
  | cons e es ih =>
      have hcons : textOf (e :: es) = lineOf e.toJson ++ textOf es := rfl
      rw [hcons, toWellFormed_append (toWellFormed_lineOf (h e List.mem_cons_self)),
        ih fun f hf => h f (List.mem_cons_of_mem e hf)]

theorem encode_textOf (h : ∀ e ∈ es, e.Proper parse) (rest : JsString) :
    encode (textOf es ++ rest) = fileOf es ++ encode rest := by
  induction es with
  | nil => rfl
  | cons e es ih =>
      have htext : textOf (e :: es) = lineOf e.toJson ++ textOf es := rfl
      have hfile : fileOf (e :: es) = encode (lineOf e.toJson) ++ fileOf es := rfl
      rw [htext, hfile, List.append_assoc, encode_append (toWellFormed_lineOf (h e List.mem_cons_self)),
        ih fun f hf => h f (List.mem_cons_of_mem e hf), List.append_assoc]

theorem decodeFrom_fileOf (h : ∀ e ∈ es, e.Proper parse) : decodeFrom none (fileOf es) = textOf es := by
  have hencode := encode_textOf h []
  have hdecode := decodeFrom_encode_append (textOf es) []
  rw [List.append_nil] at hencode
  rw [List.append_nil, hencode, toWellFormed_textOf h] at hdecode
  simpa [encode, decodeFrom] using hdecode

theorem splitOn_textOf (h : ∀ e ∈ es, e.Proper parse) (rest : JsString) (hrest : newline ∉ rest) :
    splitOn newline (textOf es ++ rest) = es.map (fun e => e.toJson.stringify) ++ [rest] := by
  induction es with
  | nil => exact splitOn_self hrest
  | cons e es ih =>
      have htext : textOf (e :: es) ++ rest = e.toJson.stringify ++ newline :: (textOf es ++ rest) := by
        simp [textOf, lineOf]
      rw [htext, splitOn_append (newline_not_mem (h e List.mem_cons_self)),
        ih fun f hf => h f (List.mem_cons_of_mem e hf), List.map_cons, List.cons_append]

/-- What is read of a text of entries up to some place: whole lines, and the beginning of another one. -/
theorem exists_lines_of_isPrefix (h : ∀ e ∈ es, e.Proper parse) {text : JsString} (hstarts : text <+: textOf es) :
    ∃ ls rest, ls <+: es ∧ text = textOf ls ++ rest ∧ newline ∉ rest := by
  induction es generalizing text with
  | nil => exact ⟨[], [], List.prefix_rfl, List.prefix_nil.mp hstarts, List.not_mem_nil⟩
  | cons e es ih =>
      have hline := newline_not_mem (h e List.mem_cons_self)
      have htext : textOf (e :: es) = e.toJson.stringify ++ newline :: textOf es := by simp [textOf, lineOf]
      obtain ⟨after, hafter⟩ := hstarts
      rw [htext] at hafter
      rcases List.append_eq_append_iff.mp hafter with ⟨inner, hinner, -⟩ | ⟨later, rfl, hlater⟩
      · refine ⟨[], text, List.nil_prefix, rfl, fun hmem => hline ?_⟩
        rw [hinner]
        exact List.mem_append_left inner hmem
      · cases later with
        | nil => exact ⟨[], e.toJson.stringify, List.nil_prefix, by simp [textOf], hline⟩
        | cons c later =>
            obtain ⟨rfl, hrest⟩ := List.cons.inj hlater
            obtain ⟨ls, rest, hls, rfl, hmem⟩ :=
              ih (fun f hf => h f (List.mem_cons_of_mem e hf)) ⟨after, hrest.symm⟩
            refine ⟨e :: ls, rest, List.cons_prefix_cons.mpr ⟨rfl, hls⟩, ?_, hmem⟩
            simp [textOf, lineOf]

theorem readAll_fileOf (h : ∀ e ∈ es, Readable parse e) :
    readAll parse (fileOf es) = es.map ReplayEntry.toJson := by
  have hproper : ∀ e ∈ es, e.Proper parse := fun e he => (h e he).toProper
  have hsplit := splitOn_textOf hproper [] List.not_mem_nil
  rw [List.append_nil] at hsplit
  rw [readAll, decodeFrom_fileOf hproper, hsplit, List.filter_append, List.filterMap_append]
  have hlast : (List.filter (fun line => !(trim line).isEmpty) [[]]).filterMap (parseReplayLine parse) = [] := rfl
  rw [hlast, List.append_nil]
  clear hsplit hlast hproper
  induction es with
  | nil => rfl
  | cons e es ih =>
      have hparse := parseReplayLine_toJson (h e List.mem_cons_self)
      have hrest := ih fun f hf => h f (List.mem_cons_of_mem e hf)
      simp only [List.map_cons, List.filter_cons, trim_stringify_ne_nil, Bool.not_false, ↓reduceIte,
        List.filterMap_cons_some hparse, hrest]

/-! ## Lengths -/

theorem length_encodePoint (c : CodeUnit) :
    (encodePoint (replaceSurrogate c).toNat).length = Tools.byteLength.unitBytes c := by
  rw [replaceSurrogate]
  split
  next h =>
    have hhigh : 0xD800 ≤ c.toNat := by
      rw [Json.isSurrogate_eq, Bool.and_eq_true] at h
      simpa [UInt16.le_iff_toNat_le] using h.1
    have hone : ¬c < 0x80 := by
      rw [UInt16.lt_iff_toNat_lt]
      simp
      omega
    have htwo : ¬c < 0x800 := by
      rw [UInt16.lt_iff_toNat_lt]
      simp
      omega
    rw [Tools.byteLength.unitBytes, if_neg hone, if_neg htwo]
    rfl
  next h =>
    have hone : c < 0x80 ↔ c.toNat < 0x80 := UInt16.lt_iff_toNat_lt
    have htwo : c < 0x800 ↔ c.toNat < 0x800 := UInt16.lt_iff_toNat_lt
    have hthree : c.toNat < 0x10000 := c.toNat_lt
    rw [Tools.byteLength.unitBytes, encodePoint]
    simp only [hone, htwo, hthree, ↓reduceIte]
    split
    · rfl
    · split
      · rfl
      · rfl

theorem length_encode (s : JsString) : (encode s).length = Tools.byteLength s := by
  fun_induction encode s with
  | case1 hi lo rest hpair ih =>
      have hcond : (0xD800 ≤ hi && hi < 0xDC00 && 0xDC00 ≤ lo && lo < 0xE000) = true := by
        rw [← hpair, Bool.and_assoc]
        rfl
      have hfour : (encodePoint (pairPoint hi lo)).length = 4 := by
        rw [encodePoint, if_neg (by unfold pairPoint; omega), if_neg (by unfold pairPoint; omega),
          if_neg (by unfold pairPoint; omega)]
        rfl
      rw [List.length_append, hfour, ih, Tools.byteLength, if_pos hcond]
  | case2 hi lo rest hpair ih =>
      have hcond : ¬(0xD800 ≤ hi && hi < 0xDC00 && 0xDC00 ≤ lo && lo < 0xE000) = true := by
        intro hcond
        refine hpair ?_
        rw [← hcond, Bool.and_assoc]
        rfl
      rw [List.length_append, length_encodePoint, ih, Tools.byteLength, if_neg hcond]
  | case3 c => rw [length_encodePoint, Tools.byteLength]
  | case4 => rfl

end WrongStack.Replay

/-!
# Locations in a file

A scan of a file that consists of the lines of entries finds where they stand, as long as no chunk ends within a
character.
-/

namespace WrongStack.Replay

open Lib Utils Utf8 JsString

variable {parse : JsString → Option Json} {e f : ReplayEntry} {es fs : List ReplayEntry} {file : Nat}
  {location : ReplayEntryLocation} {locations : Locations} {hash : JsString}

/-- Where an entry stands among the lines of a file. -/
structure PlacedAt (es : List ReplayEntry) (location : ReplayEntryLocation) (pre : List ReplayEntry)
    (e : ReplayEntry) : Prop where
  lines : pre ++ [e] <+: es
  offset : location.offset = (fileOf pre).length
  length : location.length = (encode (lineOf e.toJson)).length

/-- A location in a file: an entry stands there, and it is what has been read there if anything has been. -/
def Placed (es : List ReplayEntry) (location : ReplayEntryLocation) (e : ReplayEntry) : Prop :=
  (∃ pre, PlacedAt es location pre e) ∧ ∀ v, location.entry = some v → v = e.toJson

theorem Placed.mono (h : Placed es location e) (hstarts : es <+: fs) : Placed fs location e := by
  obtain ⟨⟨pre, hpre⟩, hmemo⟩ := h
  exact ⟨⟨pre, hpre.lines.trans hstarts, hpre.offset, hpre.length⟩, hmemo⟩

theorem Placed.mem (h : Placed es location e) : e ∈ es := by
  obtain ⟨⟨pre, hpre⟩, -⟩ := h
  exact hpre.lines.subset (List.mem_append_right pre (List.mem_singleton_self e))

theorem Placed.memo (h : Placed es location e) : Placed es { location with entry := some e.toJson } e := by
  obtain ⟨⟨pre, hpre⟩, -⟩ := h
  refine ⟨⟨pre, hpre.lines, hpre.offset, hpre.length⟩, fun v hv => ?_⟩
  cases hv
  rfl

theorem Placed.bytes (h : Placed es location e) :
    ((fileOf es).drop location.offset).take location.length = encode (lineOf e.toJson) := by
  obtain ⟨⟨pre, ⟨post, rfl⟩, hoffset, hlength⟩, -⟩ := h
  rw [hoffset, hlength, fileOf_append, fileOf_concat, List.append_assoc, List.drop_left, List.take_left]

theorem Placed.read (h : Placed es location e) (he : Readable parse e) :
    parseReplayLine parse (trimEnd (decodeFrom none (((fileOf es).drop location.offset).take location.length))) =
      some e.toJson := by
  have hdecode := decodeFrom_encode_append (lineOf e.toJson) []
  rw [List.append_nil, toWellFormed_lineOf he.toProper] at hdecode
  have hline : decodeFrom none (encode (lineOf e.toJson)) = lineOf e.toJson := by simpa [decodeFrom] using hdecode
  rw [h.bytes, hline, trimEnd_lineOf, parseReplayLine_toJson he]

theorem Placed.unique (h : Placed es location e) (h' : Placed es location f) (he : Readable parse e)
    (hf : Readable parse f) : e.toJson = f.toJson :=
  Option.some.inj ((h.read he).symm.trans (h'.read hf))

/-! ## Indexes -/

/-- The last entry with its hash. -/
def LastIn (es : List ReplayEntry) (e : ReplayEntry) : Prop :=
  ∃ pre post, es = pre ++ e :: post ∧ ∀ f ∈ post, f.hash ≠ e.hash

theorem lastIn_concat : LastIn (es ++ [f]) e ↔ e = f ∨ LastIn es e ∧ f.hash ≠ e.hash := by
  constructor
  · rintro ⟨pre, post, heq, hpost⟩
    cases post using List.reverseRecOn with
    | nil =>
        have hlast := List.append_inj_right' heq rfl
        exact .inl (List.cons.inj hlast).1.symm
    | append_singleton post g =>
        rw [← List.cons_append, ← List.append_assoc] at heq
        obtain ⟨hes, hlast⟩ := List.append_inj' heq rfl
        obtain rfl := (List.cons.inj hlast).1
        exact .inr ⟨⟨pre, post, hes, fun g hg => hpost g (List.mem_append_left _ hg)⟩,
          hpost f (List.mem_append_right post (List.mem_singleton_self f))⟩
  · rintro (rfl | ⟨⟨pre, post, rfl, hpost⟩, hhash⟩)
    · exact ⟨es, [], rfl, nofun⟩
    · refine ⟨pre, post ++ [f], by simp, fun g hg => ?_⟩
      rcases List.mem_append.mp hg with hold | hnew
      · exact hpost g hold
      · rwa [List.mem_singleton.mp hnew]

theorem LastIn.of_suffix (h : LastIn es e) (hsuffix : es <:+ fs) : LastIn fs e := by
  obtain ⟨before, rfl⟩ := hsuffix
  obtain ⟨pre, post, rfl, hpost⟩ := h
  exact ⟨before ++ pre, post, by simp, hpost⟩

/-- Where the hashes are distinct, each entry is the last one with its hash. -/
theorem LastIn.of_nodup (h : (es.map ReplayEntry.hash).Nodup) (he : e ∈ es) : LastIn es e := by
  obtain ⟨pre, post, rfl⟩ := List.mem_iff_append.mp he
  refine ⟨pre, post, rfl, fun f hf heq => ?_⟩
  rw [List.map_append, List.map_cons, List.nodup_append] at h
  have hnot := (List.nodup_cons.mp h.2.1).1
  exact hnot (heq ▸ List.mem_map_of_mem hf)

/-- The locations of the lines of a file, each hash with the last of its entries. -/
structure Indexed (file : Nat) (es : List ReplayEntry) (locations : Locations) : Prop where
  placed : ∀ hash location, locations.get? hash = some location →
    location.file = file ∧ ∃ e, e.hash = hash ∧ Placed es location e
  last : ∀ e, LastIn es e → ∃ location, locations.get? e.hash = some location ∧ location.file = file ∧
    Placed es location e

theorem Indexed.nil (file : Nat) : Indexed file [] JsMap.empty where
  placed _ _ h := nomatch h
  last e h := by
    obtain ⟨pre, post, heq, -⟩ := h
    simp at heq

theorem placed_concat (es : List ReplayEntry) (e : ReplayEntry) {memo : Option Json}
    (hmemo : ∀ v, memo = some v → v = e.toJson) (file : Nat) :
    Placed (es ++ [e])
      { entry := memo, offset := (fileOf es).length, length := Tools.byteLength (lineOf e.toJson), file } e :=
  ⟨⟨es, List.prefix_rfl, rfl, (length_encode _).symm⟩, hmemo⟩

theorem Indexed.concat (h : Indexed file es locations) (e : ReplayEntry) {memo : Option Json}
    (hmemo : ∀ v, memo = some v → v = e.toJson) :
    Indexed file (es ++ [e]) (locations.set e.hash
      { entry := memo, offset := (fileOf es).length, length := Tools.byteLength (lineOf e.toJson), file }) where
  placed hash location hget := by
    rw [JsMap.get?_set] at hget
    split at hget
    next heq =>
      cases hget
      exact ⟨rfl, e, heq, placed_concat es e hmemo file⟩
    next hne =>
      obtain ⟨hfile, f, hhash, hplaced⟩ := h.placed hash location hget
      exact ⟨hfile, f, hhash, hplaced.mono (List.prefix_append es [e])⟩
  last f hlast := by
    rcases lastIn_concat.mp hlast with rfl | ⟨hold, hhash⟩
    · exact ⟨_, JsMap.get?_set_self _ _ _, rfl, placed_concat es f hmemo file⟩
    · obtain ⟨location, hget, hfile, hplaced⟩ := h.last f hold
      refine ⟨location, ?_, hfile, hplaced.mono (List.prefix_append es [e])⟩
      rw [JsMap.get?_set, if_neg hhash]
      exact hget

/-! ## Scans -/

/-- The bytes of a text: no character begins before them or ends after them. -/
def WholeText (bytes : Bytes) : Prop := encode (decodeFrom none bytes) = bytes

theorem toWellFormed_of_wholeText {bytes : Bytes} (h : WholeText bytes) :
    toWellFormed (decodeFrom none bytes) = decodeFrom none bytes := by
  have hdecode := decodeFrom_encode_append (decodeFrom none bytes) []
  rw [List.append_nil, h] at hdecode
  simpa [decodeFrom] using hdecode.symm

/-- What a scan has read so far: the lines `es`, and the beginning of another one. -/
structure Scanned (fs : List ReplayEntry) (scan : Scan) (es : List ReplayEntry) : Prop where
  lines : es <+: fs
  bytes : encode (textOf es ++ scan.leftover) = (fileOf fs).take scan.fileOffset
  bounded : scan.fileOffset ≤ (fileOf fs).length
  wellFormed : toWellFormed scan.leftover = scan.leftover
  oneLine : newline ∉ scan.leftover
  offset : scan.leftoverOffset = (fileOf es).length
  indexed : Indexed scan.file es scan.cache

theorem Scanned.start (fs : List ReplayEntry) (file : Nat) : Scanned fs { file } [] where
  lines := List.nil_prefix
  bytes := rfl
  bounded := Nat.zero_le _
  wellFormed := rfl
  oneLine := List.not_mem_nil
  offset := rfl
  indexed := .nil file

theorem Scanned.mono {scan : Scan} {gs : List ReplayEntry} (h : Scanned fs scan es) (hstarts : fs <+: gs) :
    Scanned gs scan es := by
  obtain ⟨more, rfl⟩ := hstarts
  refine { h with lines := h.lines.trans (List.prefix_append fs more), bytes := ?_, bounded := ?_ }
  · rw [h.bytes, fileOf_append, List.take_append_of_le_length h.bounded]
  · rw [fileOf_append, List.length_append]
    exact h.bounded.trans (Nat.le_add_right _ _)

/-- A loop that sets the location of each line, one after the other. -/
theorem foldl_locations {α : Type*} {next : Nat × Locations → α → Nat × Locations} {item : ReplayEntry → α}
    (memo : ReplayEntry → Option Json) (hmemo : ∀ e v, memo e = some v → v = e.toJson)
    (hnext : ∀ e ∈ fs, ∀ es locations, next ((fileOf es).length, locations) (item e) =
      ((fileOf (es ++ [e])).length, locations.set e.hash
        { entry := memo e, offset := (fileOf es).length, length := Tools.byteLength (lineOf e.toJson), file }))
    (hindexed : Indexed file es locations) :
    ∃ locations', (fs.map item).foldl next ((fileOf es).length, locations) =
      ((fileOf (es ++ fs)).length, locations') ∧ Indexed file (es ++ fs) locations' := by
  induction fs generalizing es locations with
  | nil => exact ⟨locations, by simp, by simpa using hindexed⟩
  | cons e fs ih =>
      obtain ⟨locations', heq, hall⟩ :=
        ih (fun f hf => hnext f (List.mem_cons_of_mem e hf)) (hindexed.concat e (hmemo e))
      rw [List.append_assoc, List.singleton_append] at heq hall
      refine ⟨locations', ?_, hall⟩
      rw [List.map_cons, List.foldl_cons, hnext e List.mem_cons_self, heq]

theorem length_fileOf_concat (es : List ReplayEntry) (e : ReplayEntry) :
    (fileOf (es ++ [e])).length = (fileOf es).length + Tools.byteLength (lineOf e.toJson) := by
  rw [fileOf_concat, List.length_append, length_encode]

theorem foldl_scanLine (h : ∀ e ∈ fs, Readable parse e) (hindexed : Indexed file es locations) :
    ∃ locations', (fs.map fun e => e.toJson.stringify).foldl (scanLine parse file) ((fileOf es).length, locations) =
      ((fileOf (es ++ fs)).length, locations') ∧ Indexed file (es ++ fs) locations' := by
  refine foldl_locations (fun _ => none) (fun _ _ h => nomatch h) (fun e he es locations => ?_) hindexed
  rw [scanLine, addLine, trim_stringify_ne_nil, parseReplayLine_toJson (h e he), length_fileOf_concat]
  rfl

/-- What is left to read begins with the rest of the line that has been begun. -/
theorem Scanned.rest {scan : Scan} (h : Scanned (es ++ fs) scan es) (hproper : ∀ e ∈ es ++ fs, e.Proper parse)
    {chunk after : Bytes} (hsplit : fileOf (es ++ fs) = (fileOf (es ++ fs)).take scan.fileOffset ++ (chunk ++ after))
    (hwhole : WholeText chunk) : scan.leftover ++ decodeFrom none chunk <+: textOf fs := by
  have hes : ∀ e ∈ es, e.Proper parse := fun e he => hproper e (List.mem_append_left fs he)
  have hread := decodeFrom_fileOf hproper
  rw [hsplit, ← h.bytes, decodeFrom_encode_append, toWellFormed_append (toWellFormed_textOf hes), h.wellFormed,
    ← hwhole, decodeFrom_encode_append, toWellFormed_of_wholeText hwhole, textOf_append, List.append_assoc] at hread
  exact ⟨decodeFrom none after, by rw [List.append_assoc]; exact List.append_cancel_left hread⟩

theorem chunkAt_isPrefix (bytes : Bytes) (offset : Nat) : chunkAt bytes offset <+: bytes.drop offset :=
  List.take_prefix CHUNK (bytes.drop offset)

theorem Scanned.chunk {scan : Scan} (h : Scanned fs scan es) (hfs : ∀ e ∈ fs, Readable parse e)
    (hwhole : WholeText (chunkAt (fileOf fs) scan.fileOffset)) :
    ∃ es', Scanned fs (scan.chunk parse (chunkAt (fileOf fs) scan.fileOffset)) es' := by
  obtain ⟨fs', rfl⟩ := h.lines
  have hproper : ∀ e ∈ es ++ fs', e.Proper parse := fun e he => (hfs e he).toProper
  have hes : ∀ e ∈ es, e.Proper parse := fun e he => hproper e (List.mem_append_left fs' he)
  obtain ⟨after, hafter⟩ := chunkAt_isPrefix (fileOf (es ++ fs')) scan.fileOffset
  have htake := List.take_append_drop scan.fileOffset (fileOf (es ++ fs'))
  rw [← hafter] at htake
  have hstarts := h.rest hproper htake.symm hwhole
  generalize chunkAt (fileOf (es ++ fs')) scan.fileOffset = chunk at *
  obtain ⟨ls, rest, hls, htext, hrest⟩ :=
    exists_lines_of_isPrefix (fun e he => hproper e (List.mem_append_right es he)) hstarts
  have hlsReadable : ∀ e ∈ ls, Readable parse e := fun e he => hfs e (List.mem_append_right es (hls.subset he))
  have hlsProper : ∀ e ∈ ls, e.Proper parse := fun e he => (hlsReadable e he).toProper
  obtain ⟨locations, hfold, hindexed⟩ := foldl_scanLine hlsReadable h.indexed
  have hlines := splitOn_textOf hlsProper rest hrest
  rw [← htext] at hlines
  have hscan : scan.chunk parse chunk =
      { scan with
        fileOffset := scan.fileOffset + chunk.length, leftover := rest
        leftoverOffset := (fileOf (es ++ ls)).length, cache := locations } := by
    rw [Scan.chunk, hlines, List.dropLast_concat, List.getLast?_concat, h.offset, hfold]
    rfl
  have hbefore : toWellFormed (textOf es ++ scan.leftover) = textOf es ++ scan.leftover := by
    rw [toWellFormed_append (toWellFormed_textOf hes), h.wellFormed]
  rw [hscan]
  refine ⟨es ++ ls, ?_, ?_, ?_, ?_, hrest, rfl, hindexed⟩
  · exact List.prefix_append_right_inj es |>.mpr hls
  · have hchunk : chunk = ((fileOf (es ++ fs')).drop scan.fileOffset).take chunk.length :=
      List.prefix_iff_eq_take.mp ⟨after, hafter⟩
    rw [textOf_append, List.append_assoc, ← htext, ← List.append_assoc, encode_append hbefore, h.bytes, hwhole,
      List.take_add, ← hchunk]
  · have hlength := congrArg List.length hafter
    rw [List.length_append, List.length_drop] at hlength
    have hbounded := h.bounded
    dsimp only
    omega
  · have hwf : toWellFormed (textOf ls ++ rest) = textOf ls ++ rest := by
      rw [← htext, toWellFormed_append h.wellFormed, toWellFormed_of_wholeText hwhole]
    rw [toWellFormed_append (toWellFormed_textOf hlsProper)] at hwf
    exact List.append_cancel_left hwf

/-- Where nothing is left to read, all lines have been. -/
theorem Scanned.finish {scan : Scan} (h : Scanned fs scan es) (hfs : ∀ e ∈ fs, Readable parse e)
    (hend : chunkAt (fileOf fs) scan.fileOffset = []) : Indexed scan.file fs (scan.finish parse) := by
  obtain ⟨fs', rfl⟩ := h.lines
  have hproper : ∀ e ∈ es ++ fs', e.Proper parse := fun e he => (hfs e he).toProper
  have hes : ∀ e ∈ es, e.Proper parse := fun e he => hproper e (List.mem_append_left fs' he)
  have hdrop : (fileOf (es ++ fs')).drop scan.fileOffset = [] := by
    rcases List.take_eq_nil_iff.mp hend with hzero | hnil
    · cases hzero
    · exact hnil
  have hread := decodeFrom_fileOf hproper
  have hall := List.take_append_drop scan.fileOffset (fileOf (es ++ fs'))
  rw [hdrop, ← h.bytes] at hall
  rw [← hall, decodeFrom_encode_append, toWellFormed_append (toWellFormed_textOf hes), h.wellFormed, textOf_append,
    List.append_assoc] at hread
  have hleftover : scan.leftover = textOf fs' := by simpa [decodeFrom] using List.append_cancel_left hread
  cases fs' with
  | nil =>
      have hfinish : scan.finish parse = scan.cache := by
        rw [Scan.finish, hleftover]
        rfl
      rw [hfinish, List.append_nil]
      exact h.indexed
  | cons e fs' =>
      refine absurd ?_ h.oneLine
      rw [hleftover]
      simp [textOf, lineOf]

/-! ## All at once -/

theorem length_chunkAt (bytes : Bytes) (offset : Nat) :
    (chunkAt bytes offset).length = min CHUNK (bytes.length - offset) := by
  rw [chunkAt, List.length_take, List.length_drop]

theorem indexed_scanFile {n : Nat} {scan : Scan} (h : Scanned fs scan es) (hfs : ∀ e ∈ fs, Readable parse e)
    (hwhole : ∀ k, WholeText (chunkAt (fileOf fs) (k * CHUNK)))
    (hoffset : (∃ k, scan.fileOffset = k * CHUNK) ∨ scan.fileOffset = (fileOf fs).length)
    (hfuel : (fileOf fs).length - scan.fileOffset < n) : Indexed scan.file fs (scanFile parse (fileOf fs) n scan) := by
  induction n generalizing scan es with
  | zero => omega
  | succ n ih =>
      have hlength := length_chunkAt (fileOf fs) scan.fileOffset
      rw [scanFile]
      split
      next hend => exact h.finish hfs (List.isEmpty_iff.mp hend)
      next hmore =>
        have hpos : 0 < (chunkAt (fileOf fs) scan.fileOffset).length :=
          List.length_pos_iff.mpr fun hnil => hmore (List.isEmpty_iff.mpr hnil)
        rcases hoffset with ⟨k, hk⟩ | hend
        · obtain ⟨es', hnext⟩ := h.chunk hfs (hk ▸ hwhole k)
          have hadvance : (scan.chunk parse (chunkAt (fileOf fs) scan.fileOffset)).fileOffset =
              scan.fileOffset + (chunkAt (fileOf fs) scan.fileOffset).length := rfl
          refine ih hnext ?_ (by omega)
          by_cases hfull : CHUNK ≤ (fileOf fs).length - scan.fileOffset
          · refine .inl ⟨k + 1, ?_⟩
            rw [hadvance, hlength, min_eq_left hfull, hk, Nat.succ_mul]
          · exact .inr (by omega)
        · omega

/-- `ensureCache` on a file whose chunks are all texts. -/
theorem indexed_ensureCache (hfs : ∀ e ∈ fs, Readable parse e)
    (hwhole : ∀ k, WholeText (chunkAt (fileOf fs) (k * CHUNK))) (file : Nat) :
    Indexed file fs (scanFile parse (fileOf fs) ((fileOf fs).length + 1) { file }) :=
  indexed_scanFile (Scanned.start fs file) hfs hwhole (.inl ⟨0, (Nat.zero_mul _).symm⟩) (by dsimp only; omega)

/-! ## A rewrite -/

theorem foldl_refresh (fs : List ReplayEntry) (file : Nat) :
    Indexed file fs ((fs.map ReplayEntry.toJson).foldl (refresh file) (0, JsMap.empty)).2 := by
  have hstart : (0, JsMap.empty) = ((fileOf []).length, (JsMap.empty : Locations)) := rfl
  have hmemo : ∀ (e : ReplayEntry) v, some e.toJson = some v → v = e.toJson := fun _ _ h => (Option.some.inj h).symm
  have hnext : ∀ e ∈ fs, ∀ es locations, refresh file ((fileOf es).length, locations) e.toJson =
      ((fileOf (es ++ [e])).length, locations.set e.hash {
        entry := some e.toJson, offset := (fileOf es).length
        length := Tools.byteLength (lineOf e.toJson), file }) := by
    intro e _ es locations
    rw [refresh, length_fileOf_concat]
    rfl
  obtain ⟨locations, heq, hindexed⟩ := foldl_locations (fun e => some e.toJson) hmemo hnext (Indexed.nil file)
  rw [hstart, heq]
  exact hindexed

theorem encode_body (h : ∀ e ∈ es, e.Proper parse) : encode (body (es.map ReplayEntry.toJson)) = fileOf es := by
  have htext : body (es.map ReplayEntry.toJson) = textOf es := by
    induction es with
    | nil => rfl
    | cons e es ih =>
        have hrest := ih fun f hf => h f (List.mem_cons_of_mem e hf)
        have htext : textOf (e :: es) = lineOf e.toJson ++ textOf es := rfl
        cases es with
        | nil => simp [body, textOf, lineOf, JsString.join, List.intercalate]
        | cons f es =>
            rw [htext, ← hrest]
            simp [body, lineOf, join_cons]
  have hencode := encode_textOf h []
  rw [List.append_nil] at hencode
  rw [htext, hencode]
  simp [encode]

end WrongStack.Replay

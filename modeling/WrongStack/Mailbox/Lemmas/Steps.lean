import WrongStack.Mailbox.GlobalMailbox

/-!
# The invariant of the caches

What is recorded in a mailbox belongs to files there were, and its cache holds the messages of the file
that the history names.
-/

namespace WrongStack.Mailbox

open Lib

variable {contents contents' : Nat → List Line} {n n' : Nat} {origin : Option Nat} {box : GlobalMailbox}
  {messages : List MailboxMessage} {file : Option MessageFile}

/-! ## One mailbox -/

/-- The recorded mtime and size, and those that are under way, are of a file there was by `n`. -/
structure Recorded (contents : Nat → List Line) (n : Nat) (box : GlobalMailbox) : Prop where
  cached : 0 ≤ box.messageCacheSize →
    ∃ v ≤ n, box.messageCacheMtime = v ∧ box.messageCacheSize = sizeOfLines (contents v)
  stats : ∀ st, some st ∈ box.stats → st.mtime ≤ n ∧ st.size = sizeOfLines (contents st.mtime)

def Holds (contents : Nat → List Line) (n : Nat) (origin : Option Nat) (box : GlobalMailbox) : Prop :=
  ∀ cache ∈ box.messageCache, ∀ v ∈ origin, v ≤ n ∧ cache = parseLines (contents v)

theorem Recorded.mono (h : Recorded contents n box) (hn : n ≤ n')
    (hc : ∀ v ≤ n, contents' v = contents v) : Recorded contents' n' box where
  cached hsize := by
    obtain ⟨v, hv, hmtime, hbytes⟩ := h.cached hsize
    exact ⟨v, hv.trans hn, hmtime, by rw [hc v hv, hbytes]⟩
  stats st hst := by
    obtain ⟨hv, hbytes⟩ := h.stats st hst
    exact ⟨hv.trans hn, by rw [hc st.mtime hv, hbytes]⟩

theorem Holds.mono (h : Holds contents n origin box) (hn : n ≤ n')
    (hc : ∀ v ≤ n, contents' v = contents v) : Holds contents' n' origin box := by
  intro cache hcache v hv
  obtain ⟨hle, heq⟩ := h cache hcache v hv
  exact ⟨hle.trans hn, by rw [hc v hle, heq]⟩

theorem recorded_initial : Recorded contents n {} where
  cached hsize := absurd hsize (by decide)
  stats _ hst := absurd hst List.not_mem_nil

theorem Recorded.close (h : Recorded contents n box) : Recorded contents n box.close where
  cached hsize := absurd (show (0 : Int) ≤ -1 from hsize) (by decide)
  stats := h.stats

theorem Recorded.setMessageCache_none (h : Recorded contents n box) (messages : List MailboxMessage) :
    Recorded contents n (box.setMessageCache messages none) := by
  unfold GlobalMailbox.setMessageCache
  split
  · exact h.close
  · refine ⟨h.cached, ?_⟩
    intro st hst
    rcases List.mem_append.mp hst with hst | hst
    · exact h.stats st hst
    · cases List.mem_singleton.mp hst

theorem Recorded.setMessageCache_some (h : Recorded contents n box) {mtime size : Int}
    (hrec : 0 ≤ size → ∃ v ≤ n, mtime = v ∧ size = sizeOfLines (contents v)) :
    Recorded contents n (box.setMessageCache messages (some (mtime, size))) := by
  unfold GlobalMailbox.setMessageCache
  split
  · exact h.close
  · exact ⟨hrec, h.stats⟩

theorem Recorded.pushToCache (h : Recorded contents n box) (msg : MailboxMessage) :
    Recorded contents n (box.pushToCache msg) := by
  unfold GlobalMailbox.pushToCache
  split
  · exact h
  · split
    · exact h.close
    · exact ⟨h.cached, h.stats⟩

theorem Recorded.statLooks (h : Recorded contents n box) (k : Nat)
    (hfile : ∀ f ∈ file, f.mtime = n ∧ f.lines = contents n) : Recorded contents n (box.statLooks k file) := by
  unfold GlobalMailbox.statLooks
  split
  · split
    · rename_i f
      obtain ⟨hmtime, hlines⟩ := hfile f rfl
      refine ⟨h.cached, ?_⟩
      intro st hst
      rcases List.mem_or_eq_of_mem_set hst with hst | hst
      · exact h.stats st hst
      · cases hst
        simp only [MessageFile.stat, hmtime, hlines, le_refl, and_self]
    · exact ⟨h.cached, fun st hst => h.stats st (List.mem_of_mem_eraseIdx hst)⟩
  · exact h

theorem Recorded.statReturns (h : Recorded contents n box) (k : Nat) :
    Recorded contents n (box.statReturns k) := by
  unfold GlobalMailbox.statReturns
  split
  · rename_i st hst
    obtain ⟨hv, hbytes⟩ := h.stats st (List.mem_of_getElem? hst)
    refine ⟨fun _ => ⟨st.mtime, hv, rfl, by rw [hbytes]⟩, ?_⟩
    exact fun st' hst' => h.stats st' (List.mem_of_mem_eraseIdx hst')
  · exact h

theorem holds_none (h : box.messageCache = none) : Holds contents n origin box := by
  intro cache hcache
  rw [h] at hcache
  cases hcache

theorem cache_setMessageCache {recorded : Option (Int × Int)} :
    ∀ cache ∈ (box.setMessageCache messages recorded).messageCache, cache = messages := by
  intro cache hcache
  unfold GlobalMailbox.setMessageCache at hcache
  split at hcache
  · cases hcache
  · cases recorded with
    | none => exact (Option.some.inj hcache).symm
    | some => exact (Option.some.inj hcache).symm

theorem holds_setMessageCache (recorded : Option (Int × Int)) (hmessages : messages = parseLines (contents n)) :
    Holds contents n (some n) (box.setMessageCache messages recorded) := by
  unfold GlobalMailbox.setMessageCache
  split
  · exact holds_none rfl
  · intro cache hcache v hv
    cases hv
    cases recorded <;> cases hcache <;> exact ⟨le_refl n, hmessages⟩

theorem Holds.statReturns (h : Holds contents n origin box) (k : Nat) :
    Holds contents n origin (box.statReturns k) := by
  unfold GlobalMailbox.statReturns
  split <;> exact h

theorem Holds.statLooks (h : Holds contents n origin box) (k : Nat) :
    Holds contents n origin (box.statLooks k file) := by
  unfold GlobalMailbox.statLooks
  split
  · split <;> exact h
  · exact h

/-- A message that is appended to the file and pushed to a cache of it. -/
theorem Holds.pushToCache {msg : MailboxMessage} (h : Holds contents n origin box)
    (hc : contents' (n + 1) = contents n ++ [Line.ofMessage msg]) :
    Holds contents' (n + 1) (if origin = some n then some (n + 1) else none) (box.pushToCache msg) := by
  cases hcache : box.messageCache with
  | none =>
      rw [GlobalMailbox.pushToCache, hcache]
      exact holds_none hcache
  | some cache =>
      rw [GlobalMailbox.pushToCache, hcache]
      by_cases hfull : messageCacheMaxEntries ≤ cache.length
      · simp only [hfull, ↓reduceIte]
        exact holds_none rfl
      · simp only [hfull, ↓reduceIte]
        intro cache' hcache' v hv
        cases hcache'
        split at hv
        · rename_i horigin
          cases hv
          obtain ⟨-, hcurrent⟩ := h cache hcache n horigin
          refine ⟨le_refl _, ?_⟩
          rw [hc, parseLines_append, ← hcurrent]
          rfl
        · cases hv

/-! ## All mailboxes and the file -/

section World

variable {ι : Type*} {w w' : World ι} {h h' : History ι} {i j : ι} {lines : List Line}

/-- The invariant of a run. -/
structure Coherent (w : World ι) (h : History ι) : Prop where
  lines : h.contents w.version = w.lines
  recorded : ∀ i, Recorded h.contents w.version (w.mailbox i)
  holds : ∀ i, Holds h.contents w.version (h.origin i) (w.mailbox i)

theorem coherent_start (file : Option MessageFile) :
    Coherent ({ file } : World ι) (History.start file) where
  lines := rfl
  recorded _ := recorded_initial
  holds _ := holds_none rfl

theorem Coherent.file_eq (hw : Coherent w h) {f : MessageFile} (hf : f ∈ w.file) :
    f.mtime = w.version ∧ f.lines = h.contents w.version := by
  have hfile := Option.mem_def.mp hf
  refine ⟨by rw [World.version, hfile], ?_⟩
  rw [hw.lines, World.lines, hfile]

/-- `w'` is `w` after a step of the mailbox `i`, which writes the file at most once. -/
structure StepOf (i : ι) (w w' : World ι) : Prop where
  file : w'.file = w.file ∨ w'.version = w.version + 1
  others : ∀ j ≠ i, w'.mailbox j = w.mailbox j

theorem stepOf_refl (i : ι) (w : World ι) : StepOf i w w := ⟨Or.inl rfl, fun _ _ => rfl⟩

theorem StepOf.version_le (hs : StepOf i w w') : w.version ≤ w'.version := by
  rcases hs.file with hfile | hversion
  · rw [World.version, World.version, hfile]
  · omega

theorem StepOf.writeFile (hs : StepOf i w w') (hfile : w'.file = w.file) (lines : List Line) :
    StepOf i w (w'.writeFile lines) where
  file := by
    right
    change w'.version + 1 = w.version + 1
    rw [World.version, World.version, hfile]
  others := hs.others

@[simp] theorem recordFile_version (h : History ι) (w' : World ι) (origin : ι → Option Nat) :
    (h.recordFile w' origin).contents w'.version = w'.lines := Function.update_self ..

theorem Coherent.recordFile_of_le (hw : Coherent w h) (hs : StepOf i w w') (origin : ι → Option Nat)
    {v : Nat} (hv : v ≤ w.version) : (h.recordFile w' origin).contents v = h.contents v := by
  change Function.update h.contents w'.version w'.lines v = h.contents v
  rcases hs.file with hfile | hversion
  · have hsame : w'.version = w.version ∧ w'.lines = w.lines := by
      simp only [World.version, World.lines, hfile, and_self]
    rw [hsame.1, hsame.2, ← hw.lines, Function.update_eq_self]
  · rw [Function.update_of_ne (by omega)]

theorem Coherent.stepOf (hw : Coherent w h) (hs : StepOf i w w') {origin : ι → Option Nat}
    (horigin : ∀ j ≠ i, origin j = h.origin j)
    (hrecorded : Recorded h.contents w.version (w'.mailbox i))
    (hholds : Holds (h.recordFile w' origin).contents w'.version (origin i) (w'.mailbox i)) :
    Coherent w' (h.recordFile w' origin) := by
  have hbefore : ∀ v ≤ w.version, (h.recordFile w' origin).contents v = h.contents v :=
    fun _ hv => hw.recordFile_of_le hs origin hv
  refine ⟨recordFile_version h w' origin, ?_, ?_⟩
  · intro j
    by_cases hj : j = i
    · subst hj
      exact hrecorded.mono hs.version_le hbefore
    · rw [hs.others j hj]
      exact (hw.recorded j).mono hs.version_le hbefore
  · intro j
    by_cases hj : j = i
    · subst hj
      exact hholds
    · rw [hs.others j hj]
      change Holds _ _ (origin j) _
      rw [horigin j hj]
      exact (hw.holds j).mono hs.version_le hbefore

theorem Coherent.recordFile_self (hw : Coherent w h) : h.recordFile w h.origin = h := by
  have hsame : Function.update h.contents w.version w.lines = h.contents := by
    rw [← hw.lines, Function.update_eq_self]
  rw [History.recordFile, hsame]

variable [DecidableEq ι]

@[simp] theorem World.setMailbox_mailbox_self : (w.setMailbox i box).mailbox i = box :=
  Function.update_self ..

theorem StepOf.setMailbox (hs : StepOf i w w') (box : GlobalMailbox) :
    StepOf i w (w'.setMailbox i box) where
  file := hs.file
  others j hj := by
    rw [← hs.others j hj]
    exact Function.update_of_ne hj ..

end World

end WrongStack.Mailbox

/-!
# The steps keep the invariant
-/

namespace WrongStack.Mailbox

open Lib

variable {ι : Type*} [DecidableEq ι] {w w₂ : World ι} {h : History ι} {i : ι} {early : Bool}
  {snapshot : List MailboxMessage}

theorem parseLines_serialize (messages : List MailboxMessage) : parseLines (serialize messages) = messages := by
  cases messages with
  | nil => rfl
  | cons msg messages => exact parseLines_ofMessage (msg :: messages)

/-! ## The rewrites -/

theorem Coherent.readMessagesFresh (hw : Coherent w h) (i : ι) (early : Bool) :
    StepOf i w (w.readMessagesFresh i early).1 ∧
      Recorded h.contents w.version ((w.readMessagesFresh i early).1.mailbox i) := by
  refine ⟨(stepOf_refl i w).setMailbox _, ?_⟩
  have hbox := (hw.recorded i).setMessageCache_none w.readMessages
  rw [World.readMessagesFresh, World.setMailbox_mailbox_self]
  cases early with
  | false => exact hbox
  | true => exact hbox.statLooks _ fun _ hf => hw.file_eq hf

/-- The file was read, and perhaps written, and the cache is replaced by what it holds now. -/
theorem Coherent.promote (hw : Coherent w h) (hs : StepOf i w w₂)
    (hrecorded : Recorded h.contents w.version (w₂.mailbox i)) (hsnapshot : parseLines w₂.lines = snapshot) :
    Coherent (w₂.promote i snapshot)
      (h.recordFile (w₂.promote i snapshot) (Function.update h.origin i (some w₂.version))) := by
  refine hw.stepOf (i := i) (hs.setMailbox _) (fun j hj => Function.update_of_ne hj ..) ?_ ?_
  · rw [World.setMailbox_mailbox_self]
    exact hrecorded.setMessageCache_none snapshot
  · rw [World.setMailbox_mailbox_self, Function.update_self]
    refine holds_setMessageCache none ?_
    rw [← hsnapshot]
    exact congrArg parseLines (recordFile_version h w₂ _).symm

/-- After the read the file is written if `changed`. -/
theorem Coherent.rewrite (hw : Coherent w h) (i : ι) (early changed : Bool) {messages : List MailboxMessage}
    (hsame : changed = false → messages = w.readMessages) (hw₂ : w₂ = if changed = true
      then (w.readMessagesFresh i early).1.writeFile (serialize messages)
      else (w.readMessagesFresh i early).1) :
    Coherent (w₂.promote i messages)
      (h.recordFile (w₂.promote i messages) (Function.update h.origin i (some w₂.version))) := by
  obtain ⟨hs, hrecorded⟩ := hw.readMessagesFresh i early
  cases changed with
  | true =>
      subst hw₂
      exact hw.promote (hs.writeFile rfl _) hrecorded (parseLines_serialize messages)
  | false =>
      subst hw₂
      exact hw.promote hs hrecorded (hsame rfl).symm

theorem MailboxAckInput.apply_unchanged {a : MailboxAckInput} {now : JsString} {msg : MailboxMessage}
    (hchanged : (a.apply now msg).2 = false) : (a.apply now msg).1 = msg := by
  simp only [apply, Bool.or_eq_false_iff] at hchanged ⊢
  obtain ⟨⟨hreads, hcompletes⟩, houtcomes⟩ := hchanged
  simp only [hreads, hcompletes, houtcomes, Bool.false_eq_true, ↓reduceIte, Bool.or_false]

/-- Acks that change no message leave all messages as they are. -/
theorem ackAll_unchanged {byId : JsMap JsString MailboxAckInput} {now : JsString}
    {all : List MailboxMessage} (hchanged : (ackAll byId now all).2.2 = false) :
    (ackAll byId now all).1 = all := by
  induction all with
  | nil => rfl
  | cons msg rest ih =>
      cases ha : byId.get? msg.id with
      | none =>
          simp only [ackAll, ha] at hchanged ⊢
          rw [ih hchanged]
      | some a =>
          simp only [ackAll, ha, Bool.or_eq_false_iff] at hchanged ⊢
          rw [ih hchanged.2, MailboxAckInput.apply_unchanged hchanged.1]

/-! ## The cached read -/

theorem readMessagesCached_cases (w : World ι) (i : ι) :
    (w.file = none ∧ w.readMessagesCached i =
        (w.setMailbox i ((w.mailbox i).setMessageCache [] (some (-1, -1))), [])) ∨
      ∃ file, w.file = some file ∧
        ((∃ cache, (w.mailbox i).messageCache = some cache ∧ (w.mailbox i).hits file.stat = true ∧
            w.readMessagesCached i = (w, cache)) ∨
          (∃ cache, (w.mailbox i).messageCache = some cache ∧ (w.mailbox i).hits file.stat = false ∧
            (w.mailbox i).grew file.stat = true ∧ w.readMessagesCached i =
              (w.setMailbox i { w.mailbox i with
                messageCache := some ((w.mailbox i).readNewMessagesOnly file)
                messageCacheMtime := file.stat.mtime, messageCacheSize := file.stat.size },
              (w.mailbox i).readNewMessagesOnly file)) ∨
          w.readMessagesCached i =
            (w.setMailbox i ((w.mailbox i).setMessageCache w.readMessages
              (some (file.stat.mtime, file.stat.size))), w.readMessages)) := by
  cases hfile : w.file with
  | none =>
      left
      exact ⟨rfl, by rw [World.readMessagesCached, hfile]⟩
  | some file =>
      right
      refine ⟨file, rfl, ?_⟩
      by_cases hhits : (w.mailbox i).hits file.stat = true
      · left
        obtain ⟨cache, hcache⟩ := Option.isSome_iff_exists.mp (Bool.and_eq_true_iff.mp hhits).1
        refine ⟨cache, hcache, hhits, ?_⟩
        simp only [World.readMessagesCached, hfile, hhits, ↓reduceIte, hcache, Option.getD_some]
      · right
        by_cases hgrew : (w.mailbox i).grew file.stat = true
        · left
          obtain ⟨cache, hcache⟩ := Option.isSome_iff_exists.mp (Bool.and_eq_true_iff.mp hgrew).1
          refine ⟨cache, hcache, Bool.eq_false_iff.mpr hhits, hgrew, ?_⟩
          simp only [World.readMessagesCached, hfile, hhits, hgrew, Bool.false_eq_true, ↓reduceIte]
        · right
          simp only [World.readMessagesCached, hfile, hhits, hgrew, Bool.false_eq_true, ↓reduceIte]

/-- The end of a file that begins with what the cache was read from. -/
theorem readNewMessagesOnly_extended {box : GlobalMailbox} {file : MessageFile} {lines : List Line}
    (hcache : box.messageCache = some (parseLines lines))
    (hsize : box.messageCacheSize = sizeOfLines lines) (hbegins : lines <+: file.lines) :
    box.readNewMessagesOnly file = parseLines file.lines := by
  obtain ⟨tail, htail⟩ := hbegins
  rw [GlobalMailbox.readNewMessagesOnly, hcache, hsize, ← htail, Int.toNat_natCast,
    linesFrom_sizeOfLines, parseLines_append, Option.getD_some]

/-- A sound query returns what a read of the whole file would. -/
theorem readMessagesCached_eq (hw : Coherent w h) (hsound : w.Sound h i) :
    (w.readMessagesCached i).2 = w.readMessages := by
  rcases readMessagesCached_cases w i with ⟨hnone, hread⟩ | ⟨file, hfile, hcases⟩
  · rw [hread, World.readMessages, World.lines, hnone]
    rfl
  · have hmessages : w.readMessages = parseLines file.lines := by rw [World.readMessages, World.lines, hfile]
    have hcurrent : ∀ cache, (w.mailbox i).messageCache = some cache → h.origin i = some file.mtime →
        cache = w.readMessages := by
      intro cache hcache horigin
      obtain ⟨hmtime, hlines⟩ := hw.file_eq hfile
      rw [(hw.holds i cache hcache file.mtime horigin).2, hmtime, hw.lines, World.readMessages]
    have hs := hsound file hfile
    rcases hcases with ⟨cache, hcache, hhits, hread⟩ | ⟨cache, hcache, hhits, hgrew, hread⟩ | hread
    · rw [if_pos hhits] at hs
      rw [hread]
      exact hcurrent cache hcache hs
    · rw [if_neg (Bool.eq_false_iff.mp hhits), if_pos hgrew] at hs
      rw [hread]
      rcases hs with ⟨v, hv, hmtime, hbegins⟩ | ⟨horigin, hnothing⟩
      · have hsize : 0 ≤ (w.mailbox i).messageCacheSize := by
          simp only [GlobalMailbox.grew, Bool.and_eq_true, decide_eq_true_eq] at hgrew
          exact hgrew.2.1
        obtain ⟨v', -, hmtime', hbytes⟩ := (hw.recorded i).cached hsize
        have hvv : v' = v := by
          rw [hmtime] at hmtime'
          exact_mod_cast hmtime'.symm
        subst hvv
        rw [hmessages]
        refine readNewMessagesOnly_extended ?_ hbytes hbegins
        rw [hcache, (hw.holds i cache hcache v' hv).2]
      · change (w.mailbox i).readNewMessagesOnly file = w.readMessages
        rw [GlobalMailbox.readNewMessagesOnly, hnothing, List.append_nil, hcache, Option.getD_some]
        exact hcurrent cache hcache horigin
    · rw [hread]

theorem readMessagesCached_cache (w : World ι) (i : ι) :
    ∀ cache ∈ ((w.readMessagesCached i).1.mailbox i).messageCache, cache = (w.readMessagesCached i).2 := by
  rcases readMessagesCached_cases w i with ⟨-, hread⟩ | ⟨file, hfile, hcases⟩
  · rw [hread, World.setMailbox_mailbox_self]
    exact cache_setMessageCache
  · rcases hcases with ⟨cache, hcache, -, hread⟩ | ⟨cache, hcache, -, -, hread⟩ | hread
    · rw [hread]
      intro cache' hcache'
      exact Option.some.inj (hcache'.symm.trans hcache)
    · rw [hread, World.setMailbox_mailbox_self]
      intro cache' hcache'
      exact (Option.some.inj hcache').symm
    · rw [hread, World.setMailbox_mailbox_self]
      exact cache_setMessageCache

theorem readMessagesCached_stepOf (w : World ι) (i : ι) :
    StepOf i w (w.readMessagesCached i).1 ∧ (w.readMessagesCached i).1.file = w.file := by
  rcases readMessagesCached_cases w i with ⟨-, hread⟩ | ⟨file, hfile, hcases⟩
  · rw [hread]
    exact ⟨(stepOf_refl i w).setMailbox _, rfl⟩
  · rcases hcases with ⟨cache, -, -, hread⟩ | ⟨cache, -, -, -, hread⟩ | hread
    · rw [hread]
      exact ⟨stepOf_refl i w, rfl⟩
    · rw [hread]
      exact ⟨(stepOf_refl i w).setMailbox _, rfl⟩
    · rw [hread]
      exact ⟨(stepOf_refl i w).setMailbox _, rfl⟩

theorem Coherent.query (hw : Coherent w h) (i : ι) :
    Coherent (w.readMessagesCached i).1 (h.recordFile (w.readMessagesCached i).1
      (Function.update h.origin i
        (if w.Sound h i then some (w.readMessagesCached i).1.version else none))) := by
  obtain ⟨hs, hfile⟩ := readMessagesCached_stepOf w i
  have hrecorded : Recorded h.contents w.version ((w.readMessagesCached i).1.mailbox i) := by
    rcases readMessagesCached_cases w i with ⟨-, hread⟩ | ⟨file, hfile, hcases⟩
    · rw [hread, World.setMailbox_mailbox_self]
      exact (hw.recorded i).setMessageCache_some fun hsize => absurd hsize (by decide)
    · obtain ⟨hmtime, hlines⟩ := hw.file_eq hfile
      have hrecord : ∃ v ≤ w.version, (file.stat.mtime : Int) = v ∧
          (file.stat.size : Int) = sizeOfLines (h.contents v) := by
        refine ⟨w.version, le_refl _, ?_, ?_⟩
        · rw [← hmtime]
          rfl
        · rw [← hlines]
          rfl
      rcases hcases with ⟨cache, -, -, hread⟩ | ⟨cache, -, -, -, hread⟩ | hread
      · rw [hread]
        exact hw.recorded i
      · rw [hread, World.setMailbox_mailbox_self]
        exact ⟨fun _ => hrecord, (hw.recorded i).stats⟩
      · rw [hread, World.setMailbox_mailbox_self]
        exact (hw.recorded i).setMessageCache_some fun _ => hrecord
  refine hw.stepOf hs (fun j hj => Function.update_of_ne hj ..) hrecorded ?_
  rw [Function.update_self]
  intro cache hcache v hv
  split at hv
  · rename_i hsound
    cases hv
    refine ⟨le_refl _, ?_⟩
    rw [readMessagesCached_cache w i cache hcache, readMessagesCached_eq hw hsound, recordFile_version,
      World.readMessages, World.lines, World.lines, hfile]
  · cases hv

/-! ## All steps -/

theorem Coherent.send (hw : Coherent w h) (i : ι) (input : MailboxSendInput) (id now : JsString) :
    Coherent (w.send i input id now).1 (h.recordFile (w.send i input id now).1 (Function.update h.origin i
      (if h.origin i = some w.version then some (w.send i input id now).1.version else none))) := by
  have hs : StepOf i w (w.send i input id now).1 := ((stepOf_refl i w).writeFile rfl _).setMailbox _
  refine hw.stepOf hs (fun j hj => Function.update_of_ne hj ..) ?_ ?_
  · rw [World.send, World.setMailbox_mailbox_self]
    exact (hw.recorded i).pushToCache _
  · rw [Function.update_self, World.send, World.setMailbox_mailbox_self]
    refine (hw.holds i).pushToCache ?_
    rw [hw.lines]
    exact recordFile_version h (w.send i input id now).1 _

/-- A step of the mailbox alone, which keeps what its cache stands for. -/
theorem Coherent.setMailbox (hw : Coherent w h) {box : GlobalMailbox}
    (hrecorded : Recorded h.contents w.version box)
    (hholds : Holds h.contents w.version (h.origin i) box) :
    Coherent (w.setMailbox i box) (h.recordFile (w.setMailbox i box) h.origin) := by
  have hs : StepOf i w (w.setMailbox i box) := (stepOf_refl i w).setMailbox box
  refine hw.stepOf hs (fun _ _ => rfl) ?_ ?_
  · rw [World.setMailbox_mailbox_self]
    exact hrecorded
  · rw [World.setMailbox_mailbox_self]
    exact hholds.mono (le_refl _) fun _ hv => hw.recordFile_of_le hs _ hv

theorem Coherent.ackMany (hw : Coherent w h) (i : ι) {acks : List MailboxAckInput}
    (hacks : acks.isEmpty = false) (now : JsString) (early : Bool) :
    Coherent (w.ackMany i acks now early).1 (h.recordFile (w.ackMany i acks now early).1
      (Function.update h.origin i (some (w.ackMany i acks now early).1.version))) := by
  have hstep := hw.rewrite i early (ackAll (acks.foldl (fun m a => m.set a.messageId a) JsMap.empty) now
    w.readMessages).2.2 ackAll_unchanged rfl
  simp only [World.ackMany, hacks, Bool.false_eq_true, ↓reduceIte]
  exact hstep

theorem Coherent.purgeStale (hw : Coherent w h) (i : ι) (getTime : JsString → Option Int)
    (opts : PurgeOptions) (now : Int) (early : Bool) :
    Coherent (w.purgeStale i getTime opts now early).1
      (h.recordFile (w.purgeStale i getTime opts now early).1
        (Function.update h.origin i (some (w.purgeStale i getTime opts now early).1.version))) := by
  have hkept : ∀ {kept : List MailboxMessage}, kept = w.readMessages.filter (keeps getTime opts now) →
      decide (kept.length < w.readMessages.length) = false → kept = w.readMessages := by
    intro kept hkept hlength
    have hle : w.readMessages.length ≤ kept.length := Nat.le_of_not_lt (of_decide_eq_false hlength)
    exact (hkept ▸ List.filter_sublist).eq_of_length_le hle
  have hstep := hw.rewrite i early _ (hkept rfl) rfl
  simp only [decide_eq_true_eq] at hstep
  exact hstep

theorem Coherent.replace (hw : Coherent w h) (i : ι) (early : Bool) (messages : List MailboxMessage)
    (hw₂ : w₂ = (w.readMessagesFresh i early).1.writeFile (serialize messages)) :
    Coherent (w₂.promote i messages)
      (h.recordFile (w₂.promote i messages) (Function.update h.origin i (some w₂.version))) :=
  hw.rewrite i early true (fun hfalse => by cases hfalse) hw₂

theorem Coherent.step (hw : Coherent w h) (getTime : JsString → Option Int) (o : Op ι) :
    Coherent (step getTime w o) (h.next getTime w o) := by
  cases o with
  | send i input id now => exact hw.send i input id now
  | query i q => exact hw.query i
  | ackMany i acks now early =>
      cases hacks : acks.isEmpty with
      | true =>
          have hstep : Mailbox.step getTime w (.ackMany i acks now early) = w := by
            simp only [Mailbox.step, World.ackMany, hacks, ↓reduceIte]
          rw [History.next, hstep, History.originAfter, if_pos hacks, hw.recordFile_self]
          exact hw
      | false =>
          have horigin := hw.ackMany i hacks now early
          rw [History.next, History.originAfter, if_neg (Bool.eq_false_iff.mp hacks)]
          exact horigin
  | softDelete i mailId by_ now early => exact hw.replace i early _ rfl
  | restore i mailId early => exact hw.replace i early _ rfl
  | clearAll i =>
      exact hw.promote ((stepOf_refl i w).writeFile rfl []) (hw.recorded i) rfl
  | purgeStale i opts now early => exact hw.purgeStale i getTime opts now early
  | close i => exact hw.setMailbox (hw.recorded i).close (holds_none rfl)
  | statLooks i k =>
      exact hw.setMailbox ((hw.recorded i).statLooks k fun _ hf => hw.file_eq hf) ((hw.holds i).statLooks k)
  | statReturns i k =>
      exact hw.setMailbox ((hw.recorded i).statReturns k) ((hw.holds i).statReturns k)

end WrongStack.Mailbox

import WrongStack.Session.Index
import WrongStack.Session.Lemmas.Writer
import WrongStack.Session.Lemmas.Loader
import WrongStack.Session.Rewinder

/-!
# The session log over whole runs
-/

namespace WrongStack.Session

open Lib Utils

/-! ## The writer -/

variable (c : WriterConfig)

/-- The writer after these operations, and the events it was called with. -/
def writerAfter (ops : List WriterOp) : Writer × List SessionEvent :=
  run (withHistory (Writer.step c) Writer.called) ({}, []) ops

theorem inv_writerAfter (ops : List WriterOp) :
    Writer.Inv c (writerAfter c ops).1 (writerAfter c ops).2 :=
  run_invariant (I := fun wh : Writer × List SessionEvent => Writer.Inv c wh.1 wh.2)
    (fun _ o h => h.step o) Writer.Inv.start ops

variable {c} {w : Writer} {called : List SessionEvent}

theorem closed_close (hopen : w.closed = false) : w.close.closed = true := by
  simp [Writer.close, hopen, Writer.flush_eq]

theorem complete_of_closeSafe (hi : w.Inv c called) (hopen : w.closed = false) (h : w.CloseSafe)
    {post : List WriterOp} (hres : (run (Writer.step c) w.close post).closing = .resolved) :
    Complete c called (run (Writer.step c) w.close post) := by
  have hstart : Writer.Settling c called w.close := Writer.Settling.close h hopen
  have hsettling := Writer.run_settling hi.close (closed_close hopen) hstart post
  unfold Writer.Settling at hsettling
  simpa only [hres] using hsettling

theorem incomplete_of_not_closeSafe (hi : w.Inv c called) (hopen : w.closed = false)
    (h : ¬ w.CloseSafe) : ∃ post, (run (Writer.step c) w.close post).closing = .resolved ∧
      ¬ Complete c called (run (Writer.step c) w.close post) := by
  have hclose : w.close.closing = .flushing ∧ w.close.suspended = w.suspended ∧
      w.close.init = w.init ∧ w.close.resumeFirst = decide (w.init = .done) := by
    simp [Writer.close, hopen, Writer.flush_eq]
  obtain ⟨hclosing, hsusp, hinit, hfirst⟩ := hclose
  obtain ⟨hcut, hfills⟩ := not_or.mp h
  by_cases hdone : w.init = .done
  · -- the calls are continued first, and the events of the last one stay in the buffer
    obtain ⟨last, hlast⟩ := Option.ne_none_iff_exists'.mp (mt List.getLast?_eq_none_iff.mp hcut)
    obtain ⟨before, hbefore⟩ := List.getLast?_eq_some_iff.mp hlast
    have hnil : last ≠ [] := hi.nonempty last (List.mem_of_getLast? hlast)
    have hshort : last.length < FLUSH_SIZE := by
      by_contra hfull
      exact hfills ⟨hdone, last, hlast, Nat.not_lt.mp hfull⟩
    obtain ⟨post, hflushing, hall, hleft⟩ := Writer.exists_left_over (c := c) hclosing
      (hinit.trans hdone) (hsusp.trans hbefore) hnil hshort
    have hreached := Writer.run_closed hi.close (closed_close hopen) post
    obtain ⟨post', hres, hincomplete⟩ :=
      Writer.exists_incomplete hreached.1 hflushing (Or.inr hall) (Or.inl hleft)
    exact ⟨post ++ post', by rwa [run_append], by rwa [run_append]⟩
  · -- the close need not wait for the calls
    exact Writer.exists_incomplete hi.close hclosing (Or.inl (by simp [hfirst, hdone]))
      (Or.inr (by rwa [hsusp]))

/-- The file is always the start of the log of all events, each once and in the order of the calls.
A close leaves nothing out, whatever happens until it resolves, if and only if it cuts off no call. -/
theorem writer_lossless (c : WriterConfig) (ops : List WriterOp) :
    (writerAfter c ops).1.file <+: fullLog c (writerAfter c ops).2 ∧
      ((writerAfter c ops).1.closed = false →
        ((∀ post, (run (Writer.step c) (writerAfter c ops).1.close post).closing = .resolved →
            Complete c (writerAfter c ops).2 (run (Writer.step c) (writerAfter c ops).1.close post)) ↔
          (writerAfter c ops).1.CloseSafe)) := by
  have hi := inv_writerAfter c ops
  refine ⟨hi.written, fun hopen => ⟨fun hall => ?_, fun hsafe post hres => ?_⟩⟩
  · by_contra hcut
    obtain ⟨post, hres, hincomplete⟩ := incomplete_of_not_closeSafe hi hopen hcut
    exact hincomplete (hall post hres)
  · exact complete_of_closeSafe hi hopen hsafe hres

def plainConfig : WriterConfig := { id := js "s", startedAt := js "t" }

/-- One event, appended and pushed before the close. -/
theorem writer_lossless_pushed : ∀ post,
    (run (Writer.step plainConfig) (writerAfter plainConfig
      [.append (.error (js "e")), .writeDone, .initDone, .resume]).1.close post).closing = .resolved →
    Complete plainConfig [.error (js "e")] (run (Writer.step plainConfig) (writerAfter plainConfig
      [.append (.error (js "e")), .writeDone, .initDone, .resume]).1.close post) :=
  ((writer_lossless plainConfig
    [.append (.error (js "e")), .writeDone, .initDone, .resume]).2 rfl).mpr (Or.inl rfl)

/-- The close is called right behind the first append: only the start record is written. -/
theorem writer_lossy_close :
    (run (Writer.step plainConfig) (writerAfter plainConfig [.append (.error (js "e"))]).1.close
        [.writeDone, .closeStep, .closeStep, .closeStep]).closing = .resolved ∧
      ¬ Complete plainConfig [.error (js "e")]
        (run (Writer.step plainConfig) (writerAfter plainConfig [.append (.error (js "e"))]).1.close
          [.writeDone, .closeStep, .closeStep, .closeStep]) := by
  refine ⟨rfl, fun h => ?_⟩
  have hlength := congrArg List.length h.1
  revert hlength
  decide

/-! ## The rewinder -/

section Rewinder

variable {r : Rewinder} {fs : FileSystem} {events : List SessionEvent} {i : Nat} (paths : Set AbsPath)

theorem rewindToCheckpoint_iff (h : r.TrueLog fs events) {k : Int}
    (hi : events.findIdx? (isCheckpoint k) = some i) :
    ∃ fs' result, r.rewindToCheckpoint events (r.filesAfter fs events) k = .ok (fs', result) ∧
      (SameFiles paths fs' (r.filesAfter fs (events.take (i + 1))) ↔
        r.LastIsFirst paths (snapshotsToCheckpoint k (events.drop (i + 1)))
          (allSnapshots (events.drop (i + 1))) (r.filesAfter fs events)) := by
  obtain ⟨hlater, hafter⟩ := h.split (i + 1)
  have haction : ∀ file ∈ filesOf (snapshotsToCheckpoint k (events.drop (i + 1))), TrueAction file := by
    intro file hfile
    obtain ⟨snapshot, hs, hmem⟩ := List.mem_flatMap.mp hfile
    exact hlater.action file
      (List.mem_flatMap.mpr ⟨snapshot, (snapshotsToCheckpoint_sublist k _).subset hs, hmem⟩)
  refine ⟨_, _, by rw [Rewinder.rewindToCheckpoint, hi], ?_⟩
  have hrevert := Rewinder.sameFiles_revert paths hlater haction
  rw [hafter] at hrevert
  exact hrevert

/-- Reverting all later snapshots, the newest first. -/
theorem revert_reverse_iff (h : r.TrueLog fs events) :
    SameFiles paths (r.revertSnapshots (allSnapshots events).reverse (r.filesAfter fs events)).fs fs ↔
      r.LevelFirst paths (allSnapshots events) (r.filesAfter fs events) := by
  rw [← Rewinder.lastIsFirst_reverse paths]
  refine Rewinder.sameFiles_revert paths h fun file hfile => h.action file ?_
  obtain ⟨snapshot, hs, hmem⟩ := List.mem_flatMap.mp hfile
  exact List.mem_flatMap.mpr ⟨snapshot, List.mem_reverse.mp hs, hmem⟩

theorem rewindLastN_iff (h : r.TrueLog fs events) {n : Nat}
    (hi : events.findIdx? (isCheckpoint (lastNTarget events n)) = some i) :
    SameFiles paths (r.rewindLastN events (r.filesAfter fs events) n).1
        (r.filesAfter fs (events.take (i + 1))) ↔
      r.LevelFirst paths (allSnapshots (events.drop (i + 1))) (r.filesAfter fs events) := by
  obtain ⟨hlater, hafter⟩ := h.split (i + 1)
  have hrevert := revert_reverse_iff paths hlater
  rw [hafter] at hrevert
  simp only [Rewinder.rewindLastN, checkpointIndices_of_findIdx hi, Bool.false_eq_true, ↓reduceIte,
    snapshotsAfter_of_findIdx hi]
  exact hrevert

theorem rewindToStart_iff (h : r.TrueLog fs events) :
    SameFiles paths (r.rewindToStart events (r.filesAfter fs events)).1 fs ↔
      r.LevelFirst paths (allSnapshots events) (r.filesAfter fs events) := by
  rw [← revert_reverse_iff paths h]
  simp only [Rewinder.rewindToStart]
  split
  · rename_i hempty
    rw [List.isEmpty_iff.mp hempty]
    rfl
  · rfl

/-- Rewinding a true log to a checkpoint restores the files `paths` as they were at that checkpoint,
and rewinding to the start as they were before the log, exactly if the entry each of them is reverted
by last found what its first entry found. -/
theorem rewind_restores (r : Rewinder) (fs : FileSystem) (events : List SessionEvent)
    (paths : Set AbsPath) (h : r.TrueLog fs events) :
    (∀ k i, events.findIdx? (isCheckpoint k) = some i →
      ∃ fs' result, r.rewindToCheckpoint events (r.filesAfter fs events) k = .ok (fs', result) ∧
        (SameFiles paths fs' (r.filesAfter fs (events.take (i + 1))) ↔
          r.LastIsFirst paths (snapshotsToCheckpoint k (events.drop (i + 1)))
            (allSnapshots (events.drop (i + 1))) (r.filesAfter fs events))) ∧
      (∀ n i, events.findIdx? (isCheckpoint (lastNTarget events n)) = some i →
        (SameFiles paths (r.rewindLastN events (r.filesAfter fs events) n).1
            (r.filesAfter fs (events.take (i + 1))) ↔
          r.LevelFirst paths (allSnapshots (events.drop (i + 1))) (r.filesAfter fs events))) ∧
      (SameFiles paths (r.rewindToStart events (r.filesAfter fs events)).1 fs ↔
        r.LevelFirst paths (allSnapshots events) (r.filesAfter fs events)) :=
  ⟨fun _ _ hi => rewindToCheckpoint_iff paths h hi, fun _ _ hi => rewindLastN_iff paths h hi,
    rewindToStart_iff paths h⟩

def project : Rewinder := { projectRoot := js "/p", cwd := [js "p"] }

/-- One file, changed in two prompts. -/
def twoPrompts : List SessionEvent :=
  [ .checkpoint 0 [],
    .fileSnapshot 0 [⟨js "/p/a", .created, none, some (js "v1")⟩],
    .checkpoint 1 [],
    .fileSnapshot 1 [⟨js "a", .modified, some (js "v1"), some (js "v2")⟩] ]

theorem rewind_restores_twoPrompts :
    SameFiles Set.univ
      (project.rewindToStart twoPrompts (project.filesAfter (fun _ => none) twoPrompts)).1
      (fun _ => none) := by
  have hlog : project.TrueLog (fun _ => none) twoPrompts := ⟨by decide, by decide⟩
  refine (rewind_restores project (fun _ => none) twoPrompts Set.univ hlog).2.2.mpr ?_
  intro p _ snapshot hfind
  by_cases hp : p = [js "p", js "a"]
  · subst hp
    have hsnapshot : snapshot = ⟨0, [⟨js "/p/a", .created, none, some (js "v1")⟩]⟩ :=
      (Option.some.inj hfind).symm
    subst hsnapshot
    decide
  · have htouches := List.find?_some hfind
    have hmem := List.mem_of_find?_eq_some hfind
    have hno : ∀ s ∈ allSnapshots twoPrompts, project.touches p s = false := by
      have hkeys : ∀ s ∈ allSnapshots twoPrompts, ∀ file ∈ s.files,
          project.absPath file = [js "p", js "a"] := by decide
      intro s hs
      simp only [Rewinder.touches, List.any_eq_false, decide_eq_true_eq]
      exact fun file hfile he => hp (he.symm.trans (hkeys s hs file hfile))
    rw [hno snapshot hmem] at htouches
    cases htouches

/-- One file, changed only in the prompt after the next one. -/
def laterPrompt : List SessionEvent :=
  [ .checkpoint 0 [],
    .checkpoint 1 [],
    .fileSnapshot 1 [⟨js "/p/a", .created, none, some (js "v1")⟩] ]

theorem rewind_stops_early : project.TrueLog (fun _ => none) laterPrompt ∧
    ∃ fs' result, project.rewindToCheckpoint laterPrompt
        (project.filesAfter (fun _ => none) laterPrompt) 0 = .ok (fs', result) ∧
      ¬ SameFiles {[js "p", js "a"]} fs' (project.filesAfter (fun _ => none) (laterPrompt.take 1)) := by
  refine ⟨⟨by decide, by decide⟩, _, _, rfl, fun h => ?_⟩
  have hfile := h [js "p", js "a"] rfl
  revert hfile
  decide

end Rewinder

/-! ## The index -/

/-- No two different ids of the entries are equal to the collation. -/
def NoTies (lc : JsString → JsString → Ordering) (lines : List IndexLine) : Prop :=
  ∀ a b, IndexLine.summary a ∈ lines → IndexLine.summary b ∈ lines → lc a.id b.id = .eq → a.id = b.id

/-- After a compaction that rewrites `L`, the lines `M` have no entry for an id that was deleted in
`L`, unless they delete it again. -/
def NoRevival (lc : JsString → JsString → Ordering) (L M : List IndexLine) : Prop :=
  readIndex lc L ≠ [] →
    ∀ id, tombstoned id L = true → lastEntry id M ≠ none → tombstoned id M = true

/-- The index shows the last entry of each id that no tombstone deletes, and compaction changes
nothing for an index in which deleted ids stay deleted. -/
theorem index_shows (lc : JsString → JsString → Ordering) [Std.TransCmp lc] :
    (∀ L, (∀ entry, entry ∈ readIndex lc L ↔
        tombstoned entry.id L = false ∧ lastEntry entry.id L = some entry) ∧
      ((readIndex lc L).map IndexEntry.id).Nodup ∧
      (readIndex lc L).Pairwise fun a b => b.startedAt < a.startedAt ∨
        (a.startedAt = b.startedAt ∧ (lc a.id b.id).isLE = true)) ∧
    ∀ L M, NoTies lc (L ++ M) → NoRevival lc L M →
      readIndex lc (compactIndexInner lc L ++ M) = readIndex lc (L ++ M) := by
  constructor
  · intro L
    refine ⟨fun entry => mem_readIndex.trans shown_eq_some, nodup_readIndex lc L, ?_⟩
    exact (pairwise_readIndex L).imp fun h => isLE_compareSummaries.mp h
  · intro L M hties hrevival
    by_cases hne : readIndex lc L = []
    · have hcompact : compactIndexInner lc L = L := by simp [compactIndexInner, hne]
      rw [hcompact]
    · refine readIndex_congr (fun id => ?_) hties
      obtain ⟨htomb, hlast⟩ := shown_compact id hne
      unfold shown at hlast ⊢
      rw [tombstoned_append, tombstoned_append, lastEntry_append, lastEntry_append, htomb, hlast]
      cases hL : tombstoned id L with
      | false => simp
      | true =>
          cases hM : tombstoned id M with
          | true => simp
          | false =>
              have hnone : lastEntry id M = none := by
                by_contra h
                rw [hrevival hne id hL h] at hM
                cases hM
              simp [hnone]

/-- A session is renamed after its index was compacted. -/
theorem index_shows_rename :
    let L : List IndexLine := [.summary { id := js "a", startedAt := js "1" },
      .summary { id := js "b", startedAt := js "2" }]
    let M : List IndexLine := [.summary { id := js "a", startedAt := js "1", fields := [(js "name", .null)] }]
    readIndex compare (compactIndexInner compare L ++ M) = readIndex compare (L ++ M) := by
  refine (index_shows compare).2 _ _ ?_ ?_
  · intro a b _ _ h
    exact Std.LawfulEqCmp.eq_of_compare h
  · intro _ id h
    simp [tombstoned, isTombstoneOf] at h

/-- The last line for `a` is an entry, and the tombstone before it keeps it out. -/
theorem index_hides_recreated :
    ¬ ∀ L M : List IndexLine,
      readIndex compare (compactIndexInner compare L ++ M) = readIndex compare (L ++ M) ∧
      ∀ entry, entry ∈ readIndex compare L ↔ ∃ pre post, L = pre ++ .summary entry :: post ∧
        entry.id ≠ [] ∧ tombstoned entry.id post = false ∧ lastEntry entry.id post = none := by
  intro h
  let a : IndexEntry := { id := js "a", startedAt := js "1" }
  have hmem := ((h [.tombstone a.id, .summary a] []).2 a).mpr
    ⟨[.tombstone a.id], [], rfl, by decide, rfl, rfl⟩
  rw [mem_readIndex, shown_eq_some] at hmem
  exact absurd hmem.1 (by decide)

/-! ## The loaders -/

namespace Loader

/-- The same data but for the messages. -/
structure Agree (full eventsOnly : SessionData) : Prop where
  metadata : full.metadata = eventsOnly.metadata
  events : full.events = eventsOnly.events
  usage : full.usage = eventsOnly.usage
  toolCallEnds : full.toolCallEnds = eventsOnly.toolCallEnds

/-- An event whose processing throws leaves nothing behind. -/
def SkipsBadLines (plus : Json → Json → Json) (lines : List Line) : Prop :=
  ∀ pre ev post, eventsOf lines = pre ++ ev :: post →
    (replayEvent plus (replay plus pre) ev).2 = true →
    (replayEvent plus (replay plus pre) ev).1 = replay plus pre

structure LoadsSoundly (plus : Json → Json → Json) (id : JsString) (lines : List Line) : Prop where
  returns : ∃ data, load plus id lines = some data ∧ Agree data (loadEventsOnly plus id lines)
  noEvents : load plus id (lines.filter fun line => (line.bind asEvent).isSome) = load plus id lines
  badEvents : SkipsBadLines plus lines

variable {plus : Json → Json → Json} {id : JsString} {lines : List Line} {ev : LoggedEvent}

theorem load_isSome (plus : Json → Json → Json) (id : JsString) (lines : List Line) :
    (load plus id lines).isSome = true ↔
    Readable (replay plus (eventsOf lines)).messages := by
  rw [load, Option.isSome_map, repairToolUseAdjacency_isSome]

theorem load_filter :
    load plus id (lines.filter fun line => (line.bind asEvent).isSome) = load plus id lines := by
  have hevents : eventsOf (lines.filter fun line => (line.bind asEvent).isSome) = eventsOf lines := by
    rw [eventsOf, eventsOf, List.filterMap_filter]
    refine List.filterMap_congr fun line _ => ?_
    cases line.bind asEvent <;> rfl
  rw [load, load, hevents]

theorem wellFormed_of_loadsSoundly (h : LoadsSoundly plus id lines) (hev : ev ∈ eventsOf lines) :
    wellFormed ev = true := by
  obtain ⟨pre, post, hsplit⟩ := List.append_of_mem hev
  obtain ⟨data, hdata, -⟩ := h.returns
  have hread : Readable (replay plus (pre ++ [ev] ++ post)).messages := by
    rw [List.append_assoc, List.singleton_append, ← hsplit, ← load_isSome plus id, hdata]
    rfl
  have hreadable := (replayEvent_readable.mp (replay_concat pre ev ▸ readable_of_replay hread)).2
  refine wellFormed_iff.mpr ⟨fun hu => hreadable (Or.inl hu), fun hl => ?_⟩
  obtain ⟨hmessages, hthrew, -⟩ := replayEvent_llmResponse plus (replay plus pre) hl
  by_contra hbad
  -- the message of the response was pushed before its processing threw
  have hskip := h.badEvents pre ev post hsplit (by
    rw [hthrew, Bool.not_eq_true', ← Bool.not_eq_true, Bool.and_eq_true]
    exact hbad)
  rw [hskip] at hmessages
  simpa using congrArg List.length hmessages

theorem loadsSoundly_of_wellFormed (h : ∀ ev ∈ eventsOf lines, wellFormed ev = true) :
    LoadsSoundly plus id lines := by
  obtain ⟨hread, husage⟩ := replay_wellFormed plus h
  refine ⟨?_, load_filter, ?_⟩
  · obtain ⟨data, hdata⟩ := Option.isSome_iff_exists.mp ((load_isSome plus id lines).mpr hread)
    refine ⟨data, hdata, ?_⟩
    obtain ⟨messages, -, rfl⟩ := Option.map_eq_some_iff.mp hdata
    exact ⟨rfl, rfl, husage, rfl⟩
  · intro pre ev post hsplit hthrew
    rw [hsplit] at h
    have hpre := (replay_wellFormed plus fun e he => h e (List.mem_append_left _ he)).1
    have hev := h ev (List.mem_append_right _ List.mem_cons_self)
    rw [(replayEvent_wellFormed plus hev hpre).2.1] at hthrew
    cases hthrew

/-- Any other line may hold anything. -/
theorem loadsSoundly_iff (plus : Json → Json → Json) (id : JsString) (lines : List Line) :
    LoadsSoundly plus id lines ↔ ∀ ev ∈ eventsOf lines, wellFormed ev = true :=
  ⟨fun h _ hev => wellFormed_of_loadsSoundly h hev, loadsSoundly_of_wellFormed⟩

def promptWithoutContent : Line :=
  some (.obj [(js "type", .str (js "user_input")), (js "ts", .str (js "t0"))])

/-- The prompt is pushed without its content, and the repair, which nothing catches, throws on it. -/
theorem unloadable_prompt : ¬ ∃ plus, LoadsSoundly plus (js "s") [promptWithoutContent] := by
  rintro ⟨plus, h⟩
  obtain ⟨data, hdata, -⟩ := h.returns
  have hread : Readable (replay plus (eventsOf [promptWithoutContent])).messages := by
    rw [← load_isSome plus (js "s"), hdata]
    rfl
  have hmessages : (replay plus (eventsOf [promptWithoutContent])).messages =
      [⟨.user, none, js "t0"⟩] := rfl
  rw [hmessages] at hread
  exact absurd (hread _ (List.mem_singleton_self _)) (by decide)

end Loader

end WrongStack.Session

import WrongStack.Audit.ToolAuditLog

/-!
# Histories verify, and edits show
-/

namespace WrongStack.Audit

open Lib Utils

variable {sha256 : JsString → JsString} {s : State}

/-! ## Histories -/

/-- `verify` accepts the file and counts its entries, which include those of all calls that resolved. -/
def Verifies (sha256 : JsString → JsString) (s : State) : Prop :=
  verify sha256 s.lines = some (.ok (readAll s.lines).length) ∧
    (s.resolved.map AuditEntry.toJson).Sublist (readAll s.lines)

/-- Nothing comes after the last line break. -/
def State.terminated (s : State) : Bool := ((s.file.map File.rest).getD none).isNone

/-- A call that resolves has found the file at the beginning of a line, and its own line is short enough to be read. -/
def State.continues (sha256 : JsString → JsString) (s : State) : Op → Bool
  | .record a =>
      match attempt sha256 s a with
      | some (_, entry) =>
          a.dies || !a.complete entry || s.terminated && decide (entry.toJson.stringify.length ≤ maxBytes)
      | none => true
  | .restart _ => true

structure Inv (sha256 : JsString → JsString) (s : State) : Prop where
  honest : Honest sha256 (readAll s.lines)
  kept : (s.resolved.map AuditEntry.toJson).Sublist (completeOf s.file)
  caches : ∀ i, (s.caches i).Sound s.file

theorem Inv.verifies (h : Inv sha256 s) : Verifies sha256 s :=
  ⟨verify_of_honest h.honest, h.kept.trans (completeOf_isPrefix s.file).sublist⟩

theorem Inv.start (sha256 : JsString → JsString) : Inv sha256 {} where
  honest := trivial
  kept := List.Sublist.slnil
  caches _ := Cache.sound_empty

theorem sound_update {caches : Nat → Cache} {file : Option File} {i : Nat} {cache : Cache}
    (h : ∀ j, (caches j).Sound file) (hcache : cache.Sound file) (j : Nat) :
    (Function.update caches i cache j).Sound file := by
  by_cases hj : j = i
  · subst hj
    simpa using hcache
  · simpa [Function.update_of_ne hj] using h j

theorem Honest.append {file : Option File} (h : Honest sha256 (valuesOf file)) {entry : AuditEntry}
    (hentry : Follows sha256 (tipOf (valuesOf file)) entry.toJson) (a : Attempt) :
    Honest sha256 (valuesOf (appendFile file entry a)) := by
  rcases valuesOf_appendFile file entry a with ⟨lost, hlost⟩ | hnew
  · rw [← hlost] at h
    exact (chained_append.mp h).1
  · rw [hnew]
    exact chained_concat.mpr ⟨h, hentry⟩

theorem appended_of_complete {a : Attempt} {entry : AuditEntry} (hterminated : s.terminated = true)
    (hshort : entry.toJson.stringify.length ≤ maxBytes) (hcomplete : a.complete entry = true) :
    completeOf (appendFile s.file entry a) = completeOf s.file ++ [entry.toJson] ∧
      valuesOf (appendFile s.file entry a) = valuesOf s.file ++ [entry.toJson] := by
  have hbytes : Tools.byteLength entry.toJson.stringify < a.written := of_decide_eq_true hcomplete
  have hrest : (s.file.getD {}).rest = none := by
    rw [State.terminated] at hterminated
    cases hs : s.file with
    | none => rfl
    | some f => simpa [hs] using hterminated
  obtain ⟨hlines, hall⟩ := File.append_of_complete (lineOf entry.toJson) a.now hrest hbytes
  have hread := readAll_lineOf hshort
  rw [appendFile_eq s.file entry (by omega), valuesOf, completeOf]
  simp only [Option.map_some, Option.getD_some, hlines, hall, readAll_append, hread]
  cases s.file <;> exact ⟨rfl, rfl⟩

theorem Inv.record (h : Inv sha256 s) {a : Attempt} (hc : s.continues sha256 (.record a) = true) :
    Inv sha256 (Audit.record sha256 s a) := by
  rw [Audit.record]
  cases hattempt : attempt sha256 s a with
  | none => exact h
  | some made =>
      obtain ⟨tip, entry⟩ := made
      simp only [State.continues, hattempt] at hc
      obtain ⟨tip', htip, hpair⟩ := Option.map_eq_some_iff.mp hattempt
      obtain ⟨rfl, hmade⟩ := Prod.mk.inj hpair
      obtain ⟨hprev, hcache⟩ := resolveChainTip_spec (h.caches a.instanceId) htip
      have hentry : Follows sha256 tip'.prevHash entry.toJson := hmade ▸ follows_newEntry
      rw [hprev] at hentry
      have hhonest : Honest sha256 (valuesOf (appendFile s.file entry a)) := h.honest.append hentry a
      have hstarts := completeOf_prefix_appendFile s.file entry a
      have hcaches (cache : Cache) (hnew : cache.Sound (appendFile s.file entry a)) (i : Nat) :=
        sound_update (i := a.instanceId) (fun j => (h.caches j).append entry a) hnew i
      simp only
      split
      · exact ⟨hhonest, h.kept.trans hstarts.sublist, hcaches {} Cache.sound_empty⟩
      · split
        next hlives hcomplete =>
          obtain ⟨hterminated, hshort⟩ : s.terminated = true ∧ entry.toJson.stringify.length ≤ maxBytes := by
            simpa [hlives, hcomplete] using hc
          obtain ⟨hlines, hall⟩ := appended_of_complete hterminated hshort hcomplete
          refine ⟨hhonest, ?_, hcaches _ ((hcache.append entry a).refresh ?_ _ a.statAfter)⟩
          · rw [List.map_append]
            rw [hlines]
            exact h.kept.append (List.Sublist.refl _)
          · rw [hall, tipOf, chainTip_concat, hashOf_toJson]
        next => exact ⟨hhonest, h.kept.trans hstarts.sublist, hcaches _ (hcache.append entry a)⟩

theorem Inv.step (h : Inv sha256 s) {op : Op} (hc : s.continues sha256 op = true) :
    Inv sha256 (Audit.step sha256 s op) := by
  cases op with
  | record a => exact h.record hc
  | restart i => exact ⟨h.honest, h.kept, sound_update h.caches Cache.sound_empty⟩

theorem history_verifies (sha256 : JsString → JsString) (ops : List Op)
    (h : Under (step sha256) (fun s op => s.continues sha256 op = true) {} ops) :
    Verifies sha256 (run (step sha256) {} ops) :=
  (run_invariant_under (fun _ _ hs hc => hs.step hc) (Inv.start sha256) h).verifies

/-- A call whose first `written` bytes reach the file. -/
def bash (i : Nat) (id : JsString) (written now : Nat) (dies : Bool) : Op :=
  .record {
    instanceId := i, id, written, now, dies, ts := js "2026-01-01T00:00:00.000Z"
    call := {
      toolName := js "bash", toolUseId := js "toolu_1"
      input := some (.obj [(js "command", .str (js "ls"))]), output := some (.str (js "README.md")) } }

/-- Two processes take turns, and one dies while it writes. -/
def turns : List Op :=
  [bash 0 (js "a") 9999 1 false, bash 1 (js "b") 9999 2 false, bash 0 (js "c") 9999 3 false, .restart 1,
    bash 1 (js "d") 10 4 true]

theorem history_verifies_turns :
    Verifies (fun text => text) (run (step fun text => text) {} turns) :=
  history_verifies (fun text => text) turns (by decide +kernel)

/-- A process dies while it writes its line, and another one continues. -/
def torn : List Op :=
  [bash 0 (js "a") 9999 1 false, bash 1 (js "b") 10 2 true, bash 0 (js "c") 9999 3 false]

/-- The entry that is appended to a torn line is lost. -/
theorem torn_line_takes_entry : ¬Verifies (fun text => text) (run (step fun text => text) {} torn) := by
  intro h
  have hlost : (readAll (run (step fun text => text) {} torn).lines).length <
      (run (step fun text => text) {} torn).resolved.length := by decide +kernel
  have hcount := h.2.length_le
  rw [List.length_map] at hcount
  omega

/-! ## Edits -/

variable {pre post vs : List Json} {v : Json} {lines : List Line}

theorem genuine_step (h : ∀ v ∈ readAll s.lines, Genuine sha256 v) (op : Op) :
    ∀ v ∈ readAll (step sha256 s op).lines, Genuine sha256 v := by
  cases op with
  | restart i => exact h
  | record a =>
      cases hattempt : attempt sha256 s a with
      | none =>
          have hstep : step sha256 s (.record a) = s := by rw [step, Audit.record, hattempt]
          rwa [hstep]
      | some made =>
          obtain ⟨tip, entry⟩ := made
          have hmade : ∃ tip, Follows sha256 tip entry.toJson := by
            obtain ⟨tip', -, hpair⟩ := Option.map_eq_some_iff.mp hattempt
            obtain ⟨-, hentry⟩ := Prod.mk.inj hpair
            exact ⟨tip'.prevHash, hentry ▸ follows_newEntry⟩
          have hfile : (step sha256 s (.record a)).file = appendFile s.file entry a := by
            rw [step, Audit.record, hattempt]
            simp only
            split
            · rfl
            · split <;> rfl
          intro v hv
          have hvalues : v ∈ valuesOf (appendFile s.file entry a) := hfile ▸ hv
          rcases valuesOf_appendFile s.file entry a with hold | hnew
          · exact h v (hold.subset hvalues)
          · rw [hnew] at hvalues
            rcases List.mem_append.mp hvalues with hold | hlast
            · exact h v hold
            · rwa [List.mem_singleton.mp hlast]

/-- All that is ever read from the file is what some call has made. -/
theorem genuine_run (sha256 : JsString → JsString) (ops : List Op) :
    ∀ v ∈ readAll (run (step sha256) {} ops).lines, Genuine sha256 v := by
  refine run_invariant (I := fun s : State => ∀ v ∈ readAll s.lines, Genuine sha256 v) ?_ ?_ ops
  · exact fun _ op h => genuine_step h op
  · exact fun _ hv => absurd hv List.not_mem_nil

/-- Whatever is torn, each value that is read has its own hash. -/
theorem sealed_run (sha256 : JsString → JsString) (ops : List Op) :
    ∀ v ∈ readAll (run (step sha256) {} ops).lines, Sealed sha256 v := by
  intro v hv
  obtain ⟨_, _, hsealed⟩ := genuine_run sha256 ops v hv
  exact hsealed

theorem sealed_run_torn :
    ∃ v ∈ readAll (run (step fun text => text) {} torn).lines, Sealed (fun text => text) v := by
  have hread : 0 < (readAll (run (step fun text => text) {} torn).lines).length := by decide +kernel
  obtain ⟨v, hv⟩ := List.exists_mem_of_length_pos hread
  exact ⟨v, hv, sealed_run (fun text => text) torn v hv⟩

/-- What shows on the link `tip`: that the values that follow are not linked to it, or that a value which stands before
them is not linked itself, in a way that can be printed, or not sealed. -/
def ShowsAfter (sha256 : JsString → JsString) (tip : JsString) (post : List Json) : Option Json → Prop
  | none => ¬Linked tip post
  | some v =>
      (LinkedTo tip v → ¬Sealed sha256 v ∨ ¬Linked (hashOf v) post) ∧ (¬LinkedTo tip v → Printable v)

/-- An edit shows when it leaves a link that does not fit. The first value of all need not be printed. -/
def Shows (sha256 : JsString → JsString) (pre : List Json) (new : Option Json) (post : List Json) : Prop :=
  ¬Linked GENESIS_PREV pre ∨ ShowsAfter sha256 (tipOf pre) post new ∨
    pre = [] ∧ ∃ v, new = some v ∧ ¬LinkedTo GENESIS_PREV v

theorem broken_walk_of_genuine {tip : JsString} {i : Nat} (h : ∀ v ∈ vs, Genuine sha256 v) :
    Broken (walk sha256 tip i vs) ↔ ¬Linked tip vs := by
  have hwalk := broken_walk_genuine tip i [] h
  rw [List.append_nil] at hwalk
  rw [hwalk]
  simp [walk, Broken]

theorem broken_walk_showsAfter {tip : JsString} {i : Nat} (hpost : ∀ v ∈ post, Genuine sha256 v)
    (new : Option Json) :
    Broken (walk sha256 tip i (new.toList ++ post)) ↔ ShowsAfter sha256 tip post new := by
  cases new with
  | none => exact broken_walk_of_genuine hpost
  | some v =>
      rw [Option.toList_some, List.singleton_append, ShowsAfter]
      by_cases hlinked : LinkedTo tip v
      · rw [broken_walk_of_linkedTo hlinked, broken_walk_of_genuine hpost]
        simp [hlinked]
      · rw [broken_walk_of_not_linkedTo hlinked]
        simp [hlinked]

theorem broken_verify_iff_shows {new : Option Json} (hlines : readAll lines = pre ++ (new.toList ++ post))
    (hpre : ∀ v ∈ pre, Genuine sha256 v) (hpost : ∀ v ∈ post, Genuine sha256 v) :
    Broken (verify sha256 lines) ↔ Shows sha256 pre new post := by
  have hwalk : Broken (walk sha256 GENESIS_PREV 0 (readAll lines)) ↔
      ¬Linked GENESIS_PREV pre ∨ ShowsAfter sha256 (tipOf pre) post new := by
    rw [hlines, broken_walk_genuine GENESIS_PREV 0 _ hpre, broken_walk_showsAfter hpost]
    rfl
  cases hvs : readAll lines with
  | nil =>
      obtain ⟨rfl, hrest⟩ := List.append_eq_nil_iff.mp (hlines.symm.trans hvs)
      obtain ⟨hnew, rfl⟩ := List.append_eq_nil_iff.mp hrest
      obtain rfl : new = none := by simpa using hnew
      rw [verify, hvs]
      simp [Broken, Shows, ShowsAfter, Linked, Chained]
  | cons u us =>
      rw [broken_verify hvs, ← hvs, hwalk, Shows]
      cases pre with
      | nil =>
          cases new with
          | none =>
              obtain rfl : post = u :: us := by simpa [hvs] using hlines.symm
              have hlink : ¬LinkedTo GENESIS_PREV u → ¬Linked GENESIS_PREV (u :: us) := fun h hlinked => h hlinked.1
              simp only [ShowsAfter, tipOf, chainTip_nil, reduceCtorEq, false_and, exists_false, and_false, or_false]
              tauto
          | some v =>
              obtain rfl : v = u := by
                have hcons : v :: post = u :: us := by simpa [hvs] using hlines.symm
                exact (List.cons.inj hcons).1
              simp only [Option.some.injEq, exists_eq_left', true_and]
              tauto
      | cons p ps =>
          obtain rfl : p = u := by
            have hcons : p :: (ps ++ (new.toList ++ post)) = u :: us := by rw [← List.cons_append, ← hlines, hvs]
            exact (List.cons.inj hcons).1
          have hlink : ¬LinkedTo GENESIS_PREV p → ¬Linked GENESIS_PREV (p :: ps) := fun h hlinked => h hlinked.1
          simp only [reduceCtorEq, false_and, or_false]
          tauto

theorem verify_ne_none :
    verify sha256 lines ≠ none ↔
      ∀ pre v post, readAll lines = pre ++ v :: post → pre ≠ [] → Honest sha256 pre → Printable v := by
  rw [verify]
  cases hvs : readAll lines with
  | nil => simp
  | cons u us =>
      by_cases hlinked : LinkedTo GENESIS_PREV u
      · have htext : isText (u.get? (js "prevHash")) GENESIS_PREV = true := isText_iff.mpr hlinked
        simp only [htext, ↓reduceIte, walk_ne_none]
        constructor
        · exact fun h pre v post hsplit _ hpre => h pre v post hsplit hpre
        · intro h pre v post hsplit hpre
          cases pre with
          | nil =>
              obtain ⟨rfl, -⟩ := List.cons.inj hsplit
              exact hlinked.printable
          | cons p ps => exact h (p :: ps) v post hsplit (List.cons_ne_nil p ps) hpre
      · have htext : isText (u.get? (js "prevHash")) GENESIS_PREV = false :=
          Bool.eq_false_iff.mpr fun htext => hlinked (isText_iff.mp htext)
        simp only [htext, Bool.false_eq_true, ↓reduceIte, ne_eq, reduceCtorEq, not_false_eq_true, true_iff]
        intro pre v post hsplit hne hpre
        cases pre with
        | nil => exact absurd rfl hne
        | cons p ps =>
            obtain ⟨rfl, -⟩ := List.cons.inj hsplit
            exact absurd hpre.1.1 hlinked

/-- Two entries. -/
def twoEntries : List Op := [bash 0 (js "a") 9999 1 false, bash 0 (js "b") 9999 2 false]

end WrongStack.Audit

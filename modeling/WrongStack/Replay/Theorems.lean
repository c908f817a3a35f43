import WrongStack.Replay.Lemmas.States

/-!
# Lookups return what was recorded
-/

namespace WrongStack.Replay

open Lib Utils Utf8

variable {parse : JsString → Option Json} {maxEntries : Option Nat} {Fs : Nat → List ReplayEntry} {s : State}
  {e : ReplayEntry} {q : Query} {cache : Nat} {hash : JsString} {location : ReplayEntryLocation}

/-- A lookup returns the entry that is due for its hash, nothing but entries recorded for it, and never throws. -/
def Answers (s : State) : Prop :=
  ∀ c hash, (s.calls c).stage ≠ .failed (.lookup hash) ∧
    ∀ entry, (s.calls c).stage = .returned (.lookup hash) entry → Answer s.recorded hash (s.calls c).due entry

theorem Inv.answers (h : Inv parse maxEntries Fs s) : Answers s := by
  intro c hash
  have hstage := h.calls c
  refine ⟨fun hfailed => ?_, fun entry hreturned => ?_⟩
  · rw [hfailed] at hstage
    exact hstage hash rfl
  · rw [hreturned] at hstage
    exact hstage hash rfl

/-- What keeps the instances in step. Where a file is scanned no chunk ends within a character. Who looks up or records
a hash that is due has not missed it, and who knows a hash that it records knows it to be due. A location is read in the
file that it is about. The line of an entry is short enough to be read. -/
def InStep (parse : JsString → Option Json) (maxEntries : Option Nat) (s : State) : Op → Prop
  | .record store e =>
      let s' := ensureCache parse s store
      let cache := s'.caches (s'.cacheOf store)
      ((s.stores store).cache = none → ∀ file, s.current = some file →
          ∀ k, WholeText (chunkAt (s.files file) (k * CHUNK))) ∧
        e.toJson.stringify.length ≤ maxBytes ∧
        ((s.due maxEntries e.hash).isSome → e.hash ∉ cache.missed) ∧
        (cache.entries.has e.hash → (s.due maxEntries e.hash).isSome ∨ maxEntries = some 0)
  | .resume c =>
      match (s.calls c).stage with
      | .readChunk _ scan _ => WholeText (chunkAt (s.files scan.file) scan.fileOffset)
      | .useCache (.lookup hash) cache => (s.due maxEntries hash).isSome → hash ∉ (s.caches cache).missed
      | .hydrateOpen _ _ _ location => s.current = some location.file
      | _ => True
  | .lookup .. | .load .. => True

/-! ## `lookup` and `load` -/

/-- The entry of a location of a hash: the one that is due, if one is. -/
theorem Inv.entry (h : Inv parse maxEntries Fs s) (hvalid : cache < s.nextCache)
    (hc : (s.due maxEntries hash).isSome → hash ∉ (s.caches cache).missed)
    (hget : (s.caches cache).entries.get? hash = some location) :
    ∃ e, e.hash = hash ∧ Placed (Fs location.file) location e ∧
      ∀ f, s.due maxEntries hash = some f → f = e := by
  have hcache := h.caches cache hvalid
  cases hdue : s.due maxEntries hash with
  | none =>
      obtain ⟨e, hhash, hplaced⟩ := hcache.placed hash location hget
      exact ⟨e, hhash, hplaced, nofun⟩
  | some e =>
      obtain ⟨hmem, rfl⟩ := mem_dueEntries_of_due hdue
      rcases hcache.due e hmem with hmissed | ⟨l, hl, hplaced⟩
      · exact absurd hmissed (hc (by rw [hdue]; rfl))
      · rw [hget] at hl
        cases hl
        exact ⟨e, rfl, hplaced, fun f hf => (Option.some.inj hf).symm⟩

/-- A hash that the cache does not know is not due. -/
theorem Inv.due_eq_none (h : Inv parse maxEntries Fs s) (hvalid : cache < s.nextCache)
    (hc : (s.due maxEntries hash).isSome → hash ∉ (s.caches cache).missed)
    (hget : (s.caches cache).entries.get? hash = none) : s.due maxEntries hash = none := by
  cases hdue : s.due maxEntries hash with
  | none => rfl
  | some e =>
      obtain ⟨hmem, rfl⟩ := mem_dueEntries_of_due hdue
      rcases (h.caches cache hvalid).due e hmem with hmissed | ⟨l, hl, -⟩
      · exact absurd hmissed (hc (by rw [hdue]; rfl))
      · rw [hget] at hl
        cases hl

theorem Inv.useCache (h : Inv parse maxEntries Fs s) {c : Nat} (hstage : (s.calls c).stage = .useCache q cache)
    (hc : InStep parse maxEntries s (.resume c)) :
    Inv parse maxEntries Fs (Replay.useCache maxEntries s c q cache) := by
  have hvalid : cache < s.nextCache := by
    have hok := h.calls c
    rwa [hstage] at hok
  simp only [InStep, hstage] at hc
  cases q with
  | lookup hash =>
      have hok : StageOk maxEntries Fs s (s.due maxEntries hash) (s.calls c).stage := by
        rw [hstage]
        exact hvalid
      have hnoted := h.setCall c { s.calls c with due := s.due maxEntries hash } hok
      have hdue : (Function.update s.calls c { s.calls c with due := s.due maxEntries hash } c).due =
          s.due maxEntries hash := by rw [Function.update_self]
      simp only [Replay.useCache]
      cases hget : (s.caches cache).entries.get? hash with
      | none =>
          have hnone := h.due_eq_none hvalid hc hget
          refine hnoted.setStage c fun h' hq => ?_
          rw [hdue, hnone]
          exact ⟨fun _ hf => (by cases hf), fun _ hv => (by cases hv)⟩
      | some location =>
          obtain ⟨e, hhash, hplaced, honly⟩ := h.entry hvalid hc hget
          simp only
          cases hmemo : location.entry with
          | none =>
              refine hnoted.setStage c ⟨hvalid, e, hhash, hplaced, ⟨location, hget, hplaced⟩, fun h' hq => ?_⟩
              cases hq
              rw [hdue]
              exact ⟨rfl, honly⟩
          | some v =>
              obtain rfl := hplaced.2 v hmemo
              refine hnoted.setStage c fun h' hq => ?_
              cases hq
              rw [hdue]
              refine ⟨fun f hf => by rw [honly f hf], fun v hv => ?_⟩
              cases hv
              exact ⟨e, h.recorded _ hplaced.mem, hhash, rfl⟩
  | load entries =>
      simp only [Replay.useCache]
      cases hnext : (s.caches cache).entries.entries[entries.length]? with
      | none => exact h.setStage c fun _ hq => by cases hq
      | some pair =>
          obtain ⟨hash, location⟩ := pair
          have hget := JsMap.mem_entries_iff.mp (List.mem_of_getElem? hnext)
          obtain ⟨e, hhash, hplaced⟩ := (h.caches cache hvalid).placed hash location hget
          simp only
          cases hmemo : location.entry with
          | none => exact h.setStage c ⟨hvalid, e, hhash, hplaced, ⟨location, hget, hplaced⟩, fun _ hq => by cases hq⟩
          | some v => exact h.setStage c hvalid

theorem Inv.hydrate (h : Inv parse maxEntries Fs s) {c file : Nat}
    (hstage : (s.calls c).stage = .hydrateRead q cache hash location file) :
    Inv parse maxEntries Fs (Replay.hydrate parse s c q cache hash location file) := by
  have hok := h.calls c
  rw [hstage] at hok
  obtain ⟨⟨hvalid, e, rfl, hplaced, hknown, hq⟩, rfl⟩ := hok
  have hread := hplaced.read (h.readable _ e hplaced.mem)
  have hmemo := h.memoize hvalid hknown
  rw [Replay.hydrate, h.files, hread]
  simp only
  cases q with
  | load entries => exact hmemo.setStage c hvalid
  | lookup hash =>
      obtain ⟨rfl, hdue⟩ := hq hash rfl
      refine hmemo.setStage c fun h' hq' => ?_
      cases hq'
      refine ⟨fun f hf => by rw [hdue f hf], fun v hv => ?_⟩
      cases hv
      exact ⟨e, h.recorded _ hplaced.mem, rfl, rfl⟩

theorem Inv.resume (h : Inv parse maxEntries Fs s) {c : Nat} (hc : InStep parse maxEntries s (.resume c)) :
    Inv parse maxEntries Fs (Replay.resume parse maxEntries s c) := by
  have hok := h.calls c
  rw [Replay.resume]
  cases hstage : (s.calls c).stage with
  | idle => exact h
  | returned => exact h
  | failed => exact h
  | ensure q =>
      simp only
      split
      next cache hstore => exact h.setStage c (h.stores _ cache hstore)
      next => exact h.setStage c trivial
  | openFile q =>
      simp only
      split
      next file hcurrent =>
        exact h.setStage c ⟨⟨[], Scanned.start _ file⟩, fun e he => .inr (h.lastIn hcurrent he)⟩
      next hcurrent =>
        refine h.setStage c ⟨nofun, fun e he => ?_⟩
        rw [h.dueEntries_eq_nil hcurrent] at he
        cases he
  | readChunk q scan missed =>
      rw [hstage] at hok
      obtain ⟨⟨es, hscanned⟩, hdue⟩ := hok
      have hreadable := h.readable scan.file
      simp only [InStep, hstage] at hc
      simp only
      rw [h.files] at hc ⊢
      split
      next hend =>
        exact h.setStage c (CacheOk.of_indexed (hscanned.finish hreadable (List.isEmpty_iff.mp hend)) hdue)
      next =>
        obtain ⟨es', hnext⟩ := hscanned.chunk hreadable hc
        exact h.setStage c ⟨⟨es', hnext⟩, hdue⟩
  | closeFile q entries missed =>
      rw [hstage] at hok
      exact (h.setCache _ { entries, missed } _ hok).setStage c (Nat.lt_succ_self _)
  | useCache q cache => exact h.useCache hstage hc
  | hydrateOpen q cache hash location =>
      simp only [InStep, hstage] at hc
      rw [hstage] at hok
      simp only [hc]
      exact h.setStage c ⟨hok, rfl⟩
  | hydrateRead q cache hash location file => exact h.hydrate hstage

/-! ## `record` -/

theorem ensureCache_recorded (s : State) (store : Nat) : (ensureCache parse s store).recorded = s.recorded := by
  rw [ensureCache]
  split <;> rfl

theorem Inv.ensureCache (h : Inv parse maxEntries Fs s) {store : Nat}
    (hwhole : (s.stores store).cache = none → ∀ file, s.current = some file →
      ∀ k, WholeText (chunkAt (s.files file) (k * CHUNK))) :
    Inv parse maxEntries Fs (Replay.ensureCache parse s store) ∧
      (Replay.ensureCache parse s store).cacheOf store < (Replay.ensureCache parse s store).nextCache := by
  rw [Replay.ensureCache]
  split
  next cache hstore =>
    refine ⟨h, ?_⟩
    rw [State.cacheOf, hstore]
    exact h.stores store cache hstore
  next hstore =>
    have hnew (c : Cache) (n : Nat) : (s.setCache store c n).cacheOf store < (s.setCache store c n).nextCache := by
      simp [State.cacheOf, State.setCache]
    split
    next file hcurrent =>
      have hwhole := hwhole hstore file hcurrent
      rw [h.files] at hwhole ⊢
      have hindexed := indexed_ensureCache (h.readable file) hwhole file
      exact ⟨h.setCache store _ _ (CacheOk.of_indexed hindexed fun e he => .inr (h.lastIn hcurrent he)), hnew _ _⟩
    next hcurrent =>
      refine ⟨h.setCache store _ _ ⟨nofun, fun e he => ?_⟩, hnew _ _⟩
      rw [h.dueEntries_eq_nil hcurrent] at he
      cases he

theorem Inv.record_none (h : Inv parse maxEntries Fs s) {recorded : List ReplayEntry} (hsub : s.recorded ⊆ recorded)
    (hdue : lastOf maxEntries recorded = []) : Inv parse maxEntries Fs { s with recorded } := by
  have hsubset : ({ s with recorded } : State).dueEntries maxEntries ⊆ s.dueEntries maxEntries := by
    rw [State.dueEntries, hdue]
    exact List.nil_subset _
  exact { h with
    recorded := fun f => List.Subset.trans (h.recorded f) hsub
    last := by
      rw [State.dueEntries, hdue]
      exact List.nil_suffix
    distinct := by
      rw [State.dueEntries, hdue]
      exact List.nodup_nil
    caches := fun c hc => (h.caches c hc).mono (fun _ => List.prefix_rfl) hsubset
    calls := fun d => (h.calls d).mono (.of_caches hsub le_rfl fun _ _ => rfl) hsubset }

/-- The entries of `file` are now `es`, with a new one at the end, and who has not read it there misses it. -/
structure Written (parse : JsString → Option Json) (maxEntries : Option Nat) (Fs : Nat → List ReplayEntry)
    (s : State) (e : ReplayEntry) (file : Nat) (es : List ReplayEntry) (t : State) : Prop where
  fresh : ∀ f ∈ s.dueEntries maxEntries, f.hash ≠ e.hash
  recorded : t.recorded = s.recorded ++ [e]
  files : t.files = Function.update s.files file (fileOf es)
  grow : Fs file <+: es
  readable : ∀ f ∈ es, Readable parse f
  entries : es ⊆ t.recorded
  nextFile : s.nextFile ≤ t.nextFile ∧ file < t.nextFile
  current : t.current = some file
  last : t.dueEntries maxEntries <:+ es
  calls : t.calls = (s.miss e.hash file).calls

namespace Written

variable {t : State} {file : Nat} {es : List ReplayEntry}

theorem prefix_update (h : Written parse maxEntries Fs s e file es t) (f : Nat) :
    Fs f <+: Function.update Fs file es f := by
  by_cases hf : f = file
  · subst hf
    simpa using h.grow
  · simp [Function.update_of_ne hf]

theorem due_suffix (h : Written parse maxEntries Fs s e file es t) :
    t.dueEntries maxEntries <:+ s.dueEntries maxEntries ++ [e] := by
  rw [State.dueEntries, h.recorded]
  exact lastOf_concat maxEntries s.recorded e

theorem due_subset (h : Written parse maxEntries Fs s e file es t) :
    t.dueEntries maxEntries ⊆ e :: s.dueEntries maxEntries := by
  intro f hf
  rcases List.mem_append.mp (h.due_suffix.subset hf) with hold | hnew
  · exact List.mem_cons_of_mem e hold
  · rw [List.mem_singleton.mp hnew]
    exact List.mem_cons_self

theorem distinct (h : Written parse maxEntries Fs s e file es t)
    (hdistinct : ((s.dueEntries maxEntries).map ReplayEntry.hash).Nodup) :
    ((t.dueEntries maxEntries).map ReplayEntry.hash).Nodup := by
  have hall : ((s.dueEntries maxEntries ++ [e]).map ReplayEntry.hash).Nodup := by
    rw [List.map_append, List.map_singleton, List.nodup_append]
    refine ⟨hdistinct, List.nodup_singleton _, fun hash hold other hnew => ?_⟩
    obtain ⟨f, hf, rfl⟩ := List.mem_map.mp hold
    rw [List.mem_singleton.mp hnew]
    exact h.fresh f hf
  exact hall.sublist (h.due_suffix.sublist.map ReplayEntry.hash)

theorem lastIn (h : Written parse maxEntries Fs s e file es t)
    (hdistinct : ((s.dueEntries maxEntries).map ReplayEntry.hash).Nodup) {f : ReplayEntry}
    (hf : f ∈ t.dueEntries maxEntries) : LastIn (Function.update Fs file es file) f := by
  rw [Function.update_self]
  exact (LastIn.of_nodup (h.distinct hdistinct) hf).of_suffix h.last

theorem inv (w : Written parse maxEntries Fs s e file es t) (h : Inv parse maxEntries Fs s)
    (hnextCache : s.nextCache ≤ t.nextCache)
    (hcaches : ∀ c < t.nextCache, CacheOk (Function.update Fs file es) (t.dueEntries maxEntries) (t.caches c).entries
      (t.caches c).missed)
    (hkeep : ∀ c < s.nextCache, ∀ hash l, (s.caches c).entries.get? hash = some l →
      (t.caches c).entries.get? hash = some l)
    (hstores : ∀ i c, (t.stores i).cache = some c → c < t.nextCache) :
    Inv parse maxEntries (Function.update Fs file es) t where
  files f := by
    rw [w.files]
    by_cases hf : f = file
    · subst hf
      simp
    · simp only [Function.update_of_ne hf, h.files]
  readable f := by
    by_cases hf : f = file
    · subst hf
      simpa using w.readable
    · simpa [Function.update_of_ne hf] using h.readable f
  recorded f := by
    by_cases hf : f = file
    · subst hf
      simpa using w.entries
    · rw [Function.update_of_ne hf, w.recorded]
      exact List.Subset.trans (h.recorded f) (List.subset_append_left _ _)
  unused f hf := by
    have hne : f ≠ file := by
      have := w.nextFile.2
      omega
    rw [Function.update_of_ne hne]
    exact h.unused f (w.nextFile.1.trans hf)
  current f hf := by
    rw [w.current] at hf
    cases hf
    exact w.nextFile.2
  last := by
    rw [w.current]
    simpa using w.last
  distinct := w.distinct h.distinct
  caches := hcaches
  stores := hstores
  calls d := by
    have hext : Extends Fs s (Function.update Fs file es) t := by
      refine ⟨w.prefix_update, ?_, hnextCache, fun c hc hash l f hget hl => ⟨l, hkeep c hc hash l hget, ?_⟩⟩
      · rw [w.recorded]
        exact List.subset_append_left _ _
      · exact hl.mono (w.prefix_update _)
    have hothers : ∀ f, f ≠ file → Function.update Fs file es f = Fs f := fun f hf => Function.update_of_ne hf ..
    rw [w.calls]
    exact (h.calls d).miss hext hothers w.due_subset fun f hf => w.lastIn h.distinct hf

end Written

theorem Inv.append (h : Inv parse maxEntries Fs s) {store : Nat} (hvalid : s.cacheOf store < s.nextCache)
    (he : Readable parse e) (hfresh : ∀ f ∈ s.dueEntries maxEntries, f.hash ≠ e.hash)
    (hnew : (s.caches (s.cacheOf store)).entries.get? e.hash = none) :
    ∃ Gs, Inv parse maxEntries Gs { Replay.append s store e with recorded := s.recorded ++ [e] } := by
  have hfile : (s.current.map Fs).getD [] = Fs (s.current.getD s.nextFile) := by
    cases hcurrent : s.current with
    | none => exact (h.unused _ le_rfl).symm
    | some f => rfl
  have hbytes := h.bytes
  have hlast := h.last
  have hfileBound : s.current.getD s.nextFile < max s.nextFile (s.current.getD s.nextFile + 1) := by omega
  rw [hfile] at hbytes hlast
  have w : Written parse maxEntries Fs s e (s.current.getD s.nextFile) (Fs (s.current.getD s.nextFile) ++ [e])
      { Replay.append s store e with recorded := s.recorded ++ [e] } :=
    { fresh := hfresh
      recorded := rfl
      files := by
        rw [fileOf_concat, ← hbytes]
        rfl
      grow := List.prefix_append _ _
      readable := fun f hf => by
        rcases List.mem_append.mp hf with hold | hlast
        · exact h.readable _ f hold
        · rwa [List.mem_singleton.mp hlast]
      entries := fun f hf => by
        rcases List.mem_append.mp hf with hold | hlast
        · exact List.mem_append_left _ (h.recorded _ hold)
        · exact List.mem_append_right _ hlast
      nextFile := ⟨le_max_left _ _, hfileBound⟩
      current := rfl
      last := (lastOf_concat maxEntries s.recorded e).trans (suffix_concat hlast e)
      calls := rfl }
  have hothers (c : Nat) (hc : c ≠ s.cacheOf store) : (Replay.append s store e).caches c =
      { s.caches c with missed := e.hash :: (s.caches c).missed } := Function.update_of_ne hc ..
  have hown : (Replay.append s store e).caches (s.cacheOf store) =
      { s.caches (s.cacheOf store) with
        entries := (s.caches (s.cacheOf store)).entries.set e.hash {
          entry := some e.toJson, offset := s.bytes.length, length := Tools.byteLength (lineOf e.toJson)
          file := s.current.getD s.nextFile } } := Function.update_self ..
  refine ⟨_, w.inv h le_rfl (fun c hc => ?_) (fun c hc hash l hget => ?_) fun i c hstore => ?_⟩
  · by_cases hcache : c = s.cacheOf store
    · subst hcache
      refine (congrArg (fun c : Cache => CacheOk _ _ c.entries c.missed) hown).mpr ?_
      refine (h.caches _ hc).set w.prefix_update w.due_subset hfresh ?_
      rw [hbytes]
      simpa using placed_concat (Fs (s.current.getD s.nextFile)) e (fun v hv => (Option.some.inj hv).symm)
        (s.current.getD s.nextFile)
    · refine (congrArg (fun c : Cache => CacheOk _ _ c.entries c.missed) (hothers c hcache)).mpr ?_
      exact (h.caches c hc).miss w.prefix_update w.due_subset
  · by_cases hcache : c = s.cacheOf store
    · subst hcache
      have hne : e.hash ≠ hash := by
        rintro rfl
        rw [hnew] at hget
        cases hget
      refine (congrArg (fun c : Cache => c.entries.get? hash = some l) hown).mpr ?_
      dsimp only
      rw [JsMap.get?_set, if_neg hne]
      exact hget
    · exact (congrArg (fun c : Cache => c.entries.get? hash = some l) (hothers c hcache)).mpr hget
  · refine h.stores i c ?_
    by_cases hi : i = store
    · subst hi
      have hsame : (Replay.append s i e).stores i = { s.stores i with diskCount := (s.stores i).diskCount + 1 } :=
        Function.update_self ..
      exact (congrArg (fun st : Store => st.cache = some c) hsame).mp hstore
    · have hsame : (Replay.append s store e).stores i = s.stores i := Function.update_of_ne hi ..
      exact (congrArg (fun st : Store => st.cache = some c) hsame).mp hstore

theorem Inv.evict (h : Inv parse maxEntries Fs s) (store : Nat)
    (he : Readable parse e) (hfresh : ∀ f ∈ s.dueEntries maxEntries, f.hash ≠ e.hash) :
    ∃ Gs, Inv parse maxEntries Gs { Replay.evict parse maxEntries s store e with recorded := s.recorded ++ [e] } := by
  have hall : ∀ f ∈ (s.current.map Fs).getD [] ++ [e], Readable parse f ∧ f ∈ s.recorded ++ [e] := by
    intro f hf
    rcases List.mem_append.mp hf with hold | hnew
    · cases hcurrent : s.current with
      | none =>
          rw [hcurrent] at hold
          cases hold
      | some file =>
          rw [hcurrent] at hold
          exact ⟨h.readable file f hold, List.mem_append_left _ (h.recorded file hold)⟩
    · rw [List.mem_singleton.mp hnew]
      exact ⟨he, List.mem_append_right _ List.mem_cons_self⟩
  have hread : readAll parse s.bytes = ((s.current.map Fs).getD []).map ReplayEntry.toJson := by
    rw [h.bytes]
    exact readAll_fileOf fun f hf => (hall f (List.mem_append_left _ hf)).1
  have hkeep : sliceLast maxEntries (readAll parse s.bytes ++ [e.toJson]) =
      (sliceLast maxEntries ((s.current.map Fs).getD [] ++ [e])).map ReplayEntry.toJson := by
    rw [hread, map_sliceLast, List.map_append]
    rfl
  have hslice : sliceLast maxEntries ((s.current.map Fs).getD [] ++ [e]) ⊆ (s.current.map Fs).getD [] ++ [e] := by
    rw [sliceLast]
    split
    · exact List.Subset.refl _
    · exact (lastOf_suffix _ _).subset
  have hlast := lastOf_suffix_sliceLast h.last e
  generalize sliceLast maxEntries ((s.current.map Fs).getD [] ++ [e]) = keep at hkeep hslice hlast
  have hproper : ∀ f ∈ keep, f.Proper parse := fun f hf => (hall f (hslice hf)).1.toProper
  have hnone : Fs s.nextFile = [] := h.unused _ le_rfl
  have w : Written parse maxEntries Fs s e s.nextFile keep
      { Replay.evict parse maxEntries s store e with recorded := s.recorded ++ [e] } :=
    { fresh := hfresh
      recorded := rfl
      files := by
        rw [← encode_body hproper, ← hkeep]
        rfl
      grow := hnone ▸ List.nil_prefix
      readable := fun f hf => (hall f (hslice hf)).1
      entries := fun f hf => (hall f (hslice hf)).2
      nextFile := ⟨Nat.le_succ _, Nat.lt_succ_self _⟩
      current := rfl
      last := hlast
      calls := rfl }
  have hothers (c : Nat) (hc : c < s.nextCache) : (Replay.evict parse maxEntries s store e).caches c =
      { s.caches c with missed := e.hash :: (s.caches c).missed } := Function.update_of_ne hc.ne ..
  have hnew : (Replay.evict parse maxEntries s store e).caches s.nextCache =
      { entries := ((keep.map ReplayEntry.toJson).foldl (refresh s.nextFile) (0, JsMap.empty)).2 } := by
    rw [← hkeep]
    exact Function.update_self ..
  refine ⟨_, w.inv h (Nat.le_succ _) (fun c hc => ?_) (fun c hc hash l hget => ?_) fun i c hstore => ?_⟩
  · rcases Nat.lt_succ_iff_lt_or_eq.mp hc with hlt | rfl
    · refine (congrArg (fun c : Cache => CacheOk _ _ c.entries c.missed) (hothers c hlt)).mpr ?_
      exact (h.caches c hlt).miss w.prefix_update w.due_subset
    · refine (congrArg (fun c : Cache => CacheOk _ _ c.entries c.missed) hnew).mpr ?_
      have hindexed := foldl_refresh keep s.nextFile
      have hkept : keep = Function.update Fs s.nextFile keep s.nextFile := by rw [Function.update_self]
      exact CacheOk.of_indexed ((congrArg (Indexed _ · _) hkept).mp hindexed) fun f hf => .inr (w.lastIn h.distinct hf)
  · exact (congrArg (fun c : Cache => c.entries.get? hash = some l) (hothers c hc)).mpr hget
  · by_cases hi : i = store
    · subst hi
      have hsame : ((Replay.evict parse maxEntries s i e).stores i).cache = some s.nextCache := by
        simp [Replay.evict, State.setCache, State.miss]
      obtain rfl := Option.some.inj (hsame.symm.trans hstore)
      exact Nat.lt_succ_self _
    · have hsame : (Replay.evict parse maxEntries s store e).stores i = s.stores i := Function.update_of_ne hi ..
      exact (h.stores i c ((congrArg (fun st : Store => st.cache = some c) hsame).mp hstore)).trans (Nat.lt_succ_self _)

theorem Inv.record (h : Inv parse maxEntries Fs s) {store : Nat} (he : e.Proper parse)
    (hc : InStep parse maxEntries s (.record store e)) :
    ∃ Gs, Inv parse maxEntries Gs (Replay.record parse maxEntries s store e) := by
  obtain ⟨hwhole, hshort, hmissed, hknown⟩ := hc
  obtain ⟨hs', hvalid⟩ := h.ensureCache hwhole
  have hsame : (Replay.ensureCache parse s store).recorded = s.recorded := ensureCache_recorded s store
  have hdue : (Replay.ensureCache parse s store).due maxEntries = s.due maxEntries := by
    funext hash
    rw [State.due, hsame]
    rfl
  rw [Replay.record]
  generalize Replay.ensureCache parse s store = s' at *
  rw [← hsame, ← hdue]
  rw [← hdue] at hmissed hknown
  split
  next hhas =>
    refine ⟨Fs, ?_⟩
    rcases hknown hhas with hsome | hzero
    · rw [if_pos hsome]
      exact hs'
    · refine hs'.record_none ?_ ?_
      · split
        · exact List.Subset.refl _
        · exact List.subset_append_left _ _
      · rw [hzero, lastOf]
        simp
  next hhas =>
    have hnew : (s'.caches (s'.cacheOf store)).entries.get? e.hash = none := JsMap.has_eq_false.mp (by simpa using hhas)
    have hnone : s'.due maxEntries e.hash = none := hs'.due_eq_none hvalid hmissed hnew
    have hfresh : ∀ f ∈ s'.dueEntries maxEntries, f.hash ≠ e.hash := by
      intro f hf heq
      have hsome := due_isSome hf
      rw [heq, hnone] at hsome
      cases hsome
    rw [hnone]
    split
    · exact hs'.evict store ⟨he, hshort⟩ hfresh
    · exact hs'.append hvalid ⟨he, hshort⟩ hfresh hnew

theorem Inv.step (h : Inv parse maxEntries Fs s) {op : Op}
    (hproper : ∀ store e, op = .record store e → e.Proper parse)
    (hc : InStep parse maxEntries s op) : ∃ Gs, Inv parse maxEntries Gs (Replay.step parse maxEntries s op) := by
  have hstart (c store : Nat) (q : Query) : Inv parse maxEntries Fs (Replay.start s c store q) := by
    rw [Replay.start]
    split
    · exact h.setCall c { store, stage := .ensure q } trivial
    · exact h
  cases op with
  | record store e => exact h.record (hproper store e rfl) hc
  | lookup c store hash => exact ⟨Fs, hstart c store _⟩
  | load c store => exact ⟨Fs, hstart c store _⟩
  | resume c => exact ⟨Fs, h.resume hc⟩

/-- JSON entries, which `JSON.parse` reads back, are found again by all instances that keep in step. -/
theorem lookups_answer (parse : JsString → Option Json) (maxEntries : Option Nat) (ops : List Op)
    (hproper : ∀ store e, .record store e ∈ ops → e.Proper parse)
    (h : Under (step parse maxEntries) (InStep parse maxEntries) {} ops) :
    Answers (run (step parse maxEntries) {} ops) := by
  have hops : Under (step parse maxEntries) (fun _ op => ∀ store e, op = .record store e → e.Proper parse) {} ops :=
    under_of_forall fun op hop store e heq => hproper store e (heq ▸ hop)
  have hinv : ∃ Fs, Inv parse maxEntries Fs (run (step parse maxEntries) {} ops) := by
    refine run_invariant_under (I := fun s => ∃ Fs, Inv parse maxEntries Fs s) ?_ ⟨_, Inv.start parse maxEntries⟩
      (under_and.mpr ⟨h, hops⟩)
    rintro s op ⟨Fs, hs⟩ ⟨hc, hop⟩
    exact hs.step hop hc
  obtain ⟨Fs, hs⟩ := hinv
  exact hs.answers

/-- An entry without a request and a response. -/
def entry (hash : JsString) : ReplayEntry :=
  { hash, ts := js "2026-01-01T00:00:00.000Z", request := .null, response := .null }

/-- What `JSON.parse` makes of the lines of two entries. -/
def parseEntries (text : JsString) : Option Json :=
  if text = (entry (js "a")).toJson.stringify then some (entry (js "a")).toJson
  else if text = (entry (js "b")).toJson.stringify then some (entry (js "b")).toJson
  else none

/-- An instance looks up what it has recorded. -/
def ownLookup : List Op := [.record 0 (entry (js "a")), .lookup 0 0 (js "a"), .resume 0, .resume 0]

theorem lookups_answer_own : Answers (run (step parseEntries (some 1)) {} ownLookup) :=
  lookups_answer parseEntries (some 1) ownLookup
    (fun store e h => by
      simp only [ownLookup, List.mem_cons, reduceCtorEq, List.not_mem_nil, or_false, Op.record.injEq] at h
      obtain ⟨-, rfl⟩ := h
      exact ⟨⟨trivial, trivial, trivial, trivial, trivial⟩, by rw [parseEntries, if_pos rfl]⟩)
    ⟨⟨nofun, by decide +kernel, by decide +kernel, by decide +kernel⟩, trivial, trivial,
      fun _ => List.not_mem_nil, trivial⟩

/-- Another instance has looked up something before, and does not see what is recorded since. -/
def staleLookup : List Op :=
  [.lookup 1 1 (js "a"), .resume 1, .resume 1, .resume 1, .resume 1, .record 0 (entry (js "b")), .lookup 0 1 (js "b"),
    .resume 0, .resume 0]

theorem stale_lookup_misses : ¬Answers (run (step parseEntries (some 1)) {} staleLookup) := by
  intro h
  have hstage : ((run (step parseEntries (some 1)) {} staleLookup).calls 0).stage =
      .returned (.lookup (js "b")) none := rfl
  have hdue : ((run (step parseEntries (some 1)) {} staleLookup).calls 0).due = some (entry (js "b")) := rfl
  have hanswer := ((h 0 (js "b")).2 none hstage).1 _ hdue
  cases hanswer

end WrongStack.Replay

import WrongStack.Replay.Lemmas.Scan

/-!
# What the instances know of the files
-/

namespace WrongStack.Replay

open Lib Utils Utf8

variable {parse : JsString → Option Json} {maxEntries : Option Nat} {Fs Gs : Nat → List ReplayEntry} {s t : State}
  {e : ReplayEntry} {due : List ReplayEntry} {locations : Locations} {missed : List JsString}

/-! ## The last entries -/

section LastOf

variable {α β : Type*} {l m : List α} {x : α}

theorem lastOf_suffix (maxEntries : Option Nat) (l : List α) : lastOf maxEntries l <:+ l := by
  cases maxEntries with
  | none => exact List.suffix_rfl
  | some n => exact List.drop_suffix _ l

theorem length_lastOf (n : Nat) (l : List α) : (lastOf (some n) l).length = min n l.length := by
  simp only [lastOf, List.length_drop]
  omega

theorem map_lastOf (f : α → β) (maxEntries : Option Nat) (l : List α) :
    (lastOf maxEntries l).map f = lastOf maxEntries (l.map f) := by
  cases maxEntries with
  | none => rfl
  | some n => simp [lastOf, List.map_drop]

theorem map_sliceLast (f : α → β) (maxEntries : Option Nat) (l : List α) :
    (sliceLast maxEntries l).map f = sliceLast maxEntries (l.map f) := by
  rw [sliceLast, sliceLast]
  split
  · rfl
  · exact map_lastOf f maxEntries l

theorem suffix_concat {l m : List α} (h : l <:+ m) (x : α) : l ++ [x] <:+ m ++ [x] := by
  obtain ⟨before, rfl⟩ := h
  exact ⟨before, by simp⟩

theorem lastOf_concat (maxEntries : Option Nat) (l : List α) (x : α) :
    lastOf maxEntries (l ++ [x]) <:+ lastOf maxEntries l ++ [x] := by
  cases maxEntries with
  | none => exact List.suffix_rfl
  | some n =>
      refine List.suffix_of_suffix_length_le (lastOf_suffix _ _) (suffix_concat (lastOf_suffix _ l) x) ?_
      rw [length_lastOf, List.length_append, List.length_append, length_lastOf]
      simp only [List.length_singleton]
      omega

/-- A rewrite keeps the last entries that are recorded. -/
theorem lastOf_suffix_sliceLast (h : lastOf maxEntries l <:+ m) (x : α) :
    lastOf maxEntries (l ++ [x]) <:+ sliceLast maxEntries (m ++ [x]) := by
  have hall : lastOf maxEntries (l ++ [x]) <:+ m ++ [x] := (lastOf_concat maxEntries l x).trans (suffix_concat h x)
  rw [sliceLast]
  split
  · exact hall
  · cases maxEntries with
    | none => exact hall
    | some n =>
        refine List.suffix_of_suffix_length_le hall (lastOf_suffix _ _) ?_
        have hlength := hall.length_le
        rw [length_lastOf] at hlength ⊢
        rw [length_lastOf]
        omega

end LastOf

/-! ## Caches -/

def State.dueEntries (maxEntries : Option Nat) (s : State) : List ReplayEntry := lastOf maxEntries s.recorded

theorem mem_dueEntries_of_due {hash : JsString} (h : s.due maxEntries hash = some e) :
    e ∈ s.dueEntries maxEntries ∧ e.hash = hash := by
  refine ⟨List.mem_of_find?_eq_some h, ?_⟩
  have hfound := List.find?_some h
  exact beq_iff_eq.mp hfound

theorem due_isSome (h : e ∈ s.dueEntries maxEntries) : (s.due maxEntries e.hash).isSome = true :=
  List.find?_isSome.mpr ⟨e, h, beq_self_eq_true e.hash⟩

/-- Each location leads to an entry with its hash, and what is due is there unless it has been missed. -/
structure CacheOk (Fs : Nat → List ReplayEntry) (due : List ReplayEntry) (locations : Locations)
    (missed : List JsString) : Prop where
  placed : ∀ hash location, locations.get? hash = some location →
    ∃ e, e.hash = hash ∧ Placed (Fs location.file) location e
  due : ∀ e ∈ due, e.hash ∈ missed ∨
    ∃ location, locations.get? e.hash = some location ∧ Placed (Fs location.file) location e

theorem CacheOk.mono {due' : List ReplayEntry} (h : CacheOk Fs due locations missed)
    (hfiles : ∀ f, Fs f <+: Gs f) (hdue : due' ⊆ due) : CacheOk Gs due' locations missed where
  placed hash location hget := by
    obtain ⟨e, hhash, hplaced⟩ := h.placed hash location hget
    exact ⟨e, hhash, hplaced.mono (hfiles _)⟩
  due e he := by
    rcases h.due e (hdue he) with hmissed | ⟨location, hget, hplaced⟩
    · exact .inl hmissed
    · exact .inr ⟨location, hget, hplaced.mono (hfiles _)⟩

/-- An entry is recorded, and the cache has nothing of it. -/
theorem CacheOk.miss {due' : List ReplayEntry} (h : CacheOk Fs due locations missed)
    (hfiles : ∀ f, Fs f <+: Gs f) (hdue : due' ⊆ e :: due) : CacheOk Gs due' locations (e.hash :: missed) where
  placed := (h.mono hfiles (List.Subset.refl due)).placed
  due f hf := by
    rcases List.mem_cons.mp (hdue hf) with rfl | hold
    · exact .inl List.mem_cons_self
    · rcases (h.mono hfiles (List.Subset.refl due)).due f hold with hmissed | hplaced
      · exact .inl (List.mem_cons_of_mem _ hmissed)
      · exact .inr hplaced

theorem CacheOk.set {due' : List ReplayEntry} (h : CacheOk Fs due locations missed) (hfiles : ∀ f, Fs f <+: Gs f)
    (hdue : due' ⊆ e :: due) (hnew : ∀ f ∈ due, f.hash ≠ e.hash) {location : ReplayEntryLocation}
    (hplaced : Placed (Gs location.file) location e) : CacheOk Gs due' (locations.set e.hash location) missed where
  placed hash l hget := by
    rw [JsMap.get?_set] at hget
    split at hget
    next heq =>
      cases hget
      exact ⟨e, heq, hplaced⟩
    next => exact (h.mono hfiles (List.Subset.refl due)).placed hash l hget
  due f hf := by
    rcases List.mem_cons.mp (hdue hf) with rfl | hold
    · exact .inr ⟨location, JsMap.get?_set_self _ _ _, hplaced⟩
    · rcases (h.mono hfiles (List.Subset.refl due)).due f hold with hmissed | ⟨l, hget, hl⟩
      · exact .inl hmissed
      · refine .inr ⟨l, ?_, hl⟩
        rw [JsMap.get?_set, if_neg (Ne.symm (hnew f hold))]
        exact hget

theorem CacheOk.of_indexed {file : Nat} (h : Indexed file (Fs file) locations)
    (hdue : ∀ e ∈ due, e.hash ∈ missed ∨ LastIn (Fs file) e) : CacheOk Fs due locations missed where
  placed hash location hget := by
    obtain ⟨hfile, hplaced⟩ := h.placed hash location hget
    rwa [hfile]
  due e he := by
    rcases hdue e he with hmissed | hlast
    · exact .inl hmissed
    · obtain ⟨location, hget, hfile, hplaced⟩ := h.last e hlast
      exact .inr ⟨location, hget, by rwa [hfile]⟩

/-! ## Calls -/

/-- What a lookup may return: the entry that is due, and in any case one that has been recorded for its hash. -/
def Answer (recorded : List ReplayEntry) (hash : JsString) (due : Option ReplayEntry) (entry : Option Json) : Prop :=
  (∀ e, due = some e → entry = some e.toJson) ∧
    ∀ v, entry = some v → ∃ e ∈ recorded, e.hash = hash ∧ v = e.toJson

structure ScanOk (Fs : Nat → List ReplayEntry) (due : List ReplayEntry) (scan : Scan) (missed : List JsString) :
    Prop where
  scanned : ∃ es, Scanned (Fs scan.file) scan es
  due : ∀ e ∈ due, e.hash ∈ missed ∨ LastIn (Fs scan.file) e

/-- A location that a call has taken from a cache, of the entry that is due if one is. -/
structure HydrateOk (Fs : Nat → List ReplayEntry) (s : State) (due : Option ReplayEntry) (q : Query) (cache : Nat)
    (hash : JsString) (location : ReplayEntryLocation) : Prop where
  valid : cache < s.nextCache
  entry : ∃ e, e.hash = hash ∧ Placed (Fs location.file) location e ∧
    (∃ l, (s.caches cache).entries.get? hash = some l ∧ Placed (Fs l.file) l e) ∧
    ∀ h, q = .lookup h → h = hash ∧ ∀ f, due = some f → f = e

def StageOk (maxEntries : Option Nat) (Fs : Nat → List ReplayEntry) (s : State) (due : Option ReplayEntry) :
    Stage → Prop
  | .idle | .ensure _ | .openFile _ => True
  | .readChunk _ scan missed => ScanOk Fs (s.dueEntries maxEntries) scan missed
  | .closeFile _ entries missed => CacheOk Fs (s.dueEntries maxEntries) entries missed
  | .useCache _ cache => cache < s.nextCache
  | .hydrateOpen q cache hash location => HydrateOk Fs s due q cache hash location
  | .hydrateRead q cache hash location file => HydrateOk Fs s due q cache hash location ∧ file = location.file
  | .returned q entry => ∀ h, q = .lookup h → Answer s.recorded h due entry
  | .failed q => ∀ h, q ≠ .lookup h

/-- What becomes of the caches: each location of an entry is one of that entry later. -/
structure Extends (Fs : Nat → List ReplayEntry) (s : State) (Gs : Nat → List ReplayEntry) (t : State) : Prop where
  files : ∀ f, Fs f <+: Gs f
  recorded : s.recorded ⊆ t.recorded
  nextCache : s.nextCache ≤ t.nextCache
  caches : ∀ c < s.nextCache, ∀ hash l e, (s.caches c).entries.get? hash = some l → Placed (Fs l.file) l e →
    ∃ l', (t.caches c).entries.get? hash = some l' ∧ Placed (Gs l'.file) l' e

variable {dueEntry : Option ReplayEntry} {q : Query} {cache : Nat} {hash : JsString} {location : ReplayEntryLocation}

theorem Answer.mono {recorded recorded' : List ReplayEntry} {entry : Option Json}
    (h : Answer recorded hash dueEntry entry) (hsub : recorded ⊆ recorded') :
    Answer recorded' hash dueEntry entry := by
  refine ⟨h.1, fun v hv => ?_⟩
  obtain ⟨e, he, hhash⟩ := h.2 v hv
  exact ⟨e, hsub he, hhash⟩

theorem HydrateOk.mono (h : HydrateOk Fs s dueEntry q cache hash location) (hext : Extends Fs s Gs t) :
    HydrateOk Gs t dueEntry q cache hash location where
  valid := h.valid.trans_le hext.nextCache
  entry := by
    obtain ⟨e, hhash, hplaced, ⟨l, hget, hl⟩, hq⟩ := h.entry
    exact ⟨e, hhash, hplaced.mono (hext.files _), hext.caches cache h.valid hash l e hget hl, hq⟩

theorem StageOk.mono {stage : Stage} (h : StageOk maxEntries Fs s dueEntry stage) (hext : Extends Fs s Fs t)
    (hdue : t.dueEntries maxEntries ⊆ s.dueEntries maxEntries) : StageOk maxEntries Fs t dueEntry stage := by
  cases stage with
  | idle | ensure | openFile => trivial
  | readChunk q scan missed => exact ⟨h.scanned, fun e he => h.due e (hdue he)⟩
  | closeFile q entries missed => exact CacheOk.mono h hext.files hdue
  | useCache q cache => exact Nat.lt_of_lt_of_le h hext.nextCache
  | hydrateOpen q cache hash location => exact HydrateOk.mono h hext
  | hydrateRead q cache hash location file => exact ⟨h.1.mono hext, h.2⟩
  | returned q entry => exact fun hash hq => (h hash hq).mono hext.recorded
  | failed q => exact h

/-- An entry is recorded in `file`, where all that is due is found. -/
theorem StageOk.miss {stage : Stage} {file : Nat} (h : StageOk maxEntries Fs s dueEntry stage)
    (hext : Extends Fs s Gs t) (hothers : ∀ f, f ≠ file → Gs f = Fs f)
    (hdue : t.dueEntries maxEntries ⊆ e :: s.dueEntries maxEntries)
    (hlast : ∀ e ∈ t.dueEntries maxEntries, LastIn (Gs file) e) :
    StageOk maxEntries Gs t dueEntry (stage.miss e.hash file) := by
  cases stage with
  | idle | ensure | openFile => trivial
  | readChunk q scan missed =>
      obtain ⟨⟨es, hscanned⟩, hold⟩ := h
      refine ⟨⟨es, hscanned.mono (hext.files _)⟩, fun f hf => ?_⟩
      by_cases hfile : scan.file = file
      · exact .inr (hfile ▸ hlast f hf)
      · rw [if_neg hfile, hothers _ hfile]
        rcases List.mem_cons.mp (hdue hf) with rfl | hfold
        · exact .inl List.mem_cons_self
        · rcases hold f hfold with hmissed | hin
          · exact .inl (List.mem_cons_of_mem _ hmissed)
          · exact .inr hin
  | closeFile q entries missed => exact CacheOk.miss h hext.files hdue
  | useCache q cache => exact Nat.lt_of_lt_of_le h hext.nextCache
  | hydrateOpen q cache hash location => exact HydrateOk.mono h hext
  | hydrateRead q cache hash location file => exact ⟨h.1.mono hext, h.2⟩
  | returned q entry => exact fun hash hq => (h hash hq).mono hext.recorded
  | failed q => exact h

/-! ## The invariant -/

structure Inv (parse : JsString → Option Json) (maxEntries : Option Nat) (Fs : Nat → List ReplayEntry) (s : State) :
    Prop where
  files : ∀ f, s.files f = fileOf (Fs f)
  readable : ∀ f, ∀ e ∈ Fs f, Readable parse e
  recorded : ∀ f, Fs f ⊆ s.recorded
  unused : ∀ f, s.nextFile ≤ f → Fs f = []
  current : ∀ f, s.current = some f → f < s.nextFile
  last : s.dueEntries maxEntries <:+ (s.current.map Fs).getD []
  distinct : ((s.dueEntries maxEntries).map ReplayEntry.hash).Nodup
  caches : ∀ c < s.nextCache, CacheOk Fs (s.dueEntries maxEntries) (s.caches c).entries (s.caches c).missed
  stores : ∀ i c, (s.stores i).cache = some c → c < s.nextCache
  calls : ∀ c, StageOk maxEntries Fs s (s.calls c).due (s.calls c).stage

theorem Inv.start (parse : JsString → Option Json) (maxEntries : Option Nat) :
    Inv parse maxEntries (fun _ => []) {} where
  files _ := rfl
  readable _ _ he := absurd he List.not_mem_nil
  recorded _ := List.nil_subset _
  unused _ _ := rfl
  current _ h := nomatch h
  last := lastOf_suffix maxEntries []
  distinct := by
    have hnone : ({} : State).dueEntries maxEntries = [] := List.suffix_nil.mp (lastOf_suffix maxEntries [])
    rw [hnone]
    exact List.nodup_nil
  caches _ h := absurd h (Nat.not_lt_zero _)
  stores _ _ h := nomatch h
  calls _ := trivial

theorem Inv.bytes (h : Inv parse maxEntries Fs s) : s.bytes = fileOf ((s.current.map Fs).getD []) := by
  rw [State.bytes]
  cases s.current with
  | none => rfl
  | some f => exact h.files f

theorem Extends.of_caches {t : State} (hrecorded : s.recorded ⊆ t.recorded) (hnext : s.nextCache ≤ t.nextCache)
    (hcaches : ∀ c < s.nextCache, t.caches c = s.caches c) : Extends Fs s Fs t where
  files _ := List.prefix_rfl
  recorded := hrecorded
  nextCache := hnext
  caches c hc hash l e hget hl := ⟨l, by rw [hcaches c hc]; exact hget, hl⟩

theorem Inv.lastIn (h : Inv parse maxEntries Fs s) {file : Nat} (hcurrent : s.current = some file)
    (he : e ∈ s.dueEntries maxEntries) : LastIn (Fs file) e := by
  have hlast := h.last
  rw [hcurrent] at hlast
  exact (LastIn.of_nodup h.distinct he).of_suffix hlast

theorem Inv.dueEntries_eq_nil (h : Inv parse maxEntries Fs s) (hcurrent : s.current = none) :
    s.dueEntries maxEntries = [] := by
  have hlast := h.last
  rw [hcurrent] at hlast
  exact List.suffix_nil.mp hlast

theorem Inv.setCall (h : Inv parse maxEntries Fs s) (c : Nat) (call : Call)
    (hstage : StageOk maxEntries Fs s call.due call.stage) :
    Inv parse maxEntries Fs { s with calls := Function.update s.calls c call } :=
  { h with
    calls := fun d => by
      have hext : Extends Fs s Fs { s with calls := Function.update s.calls c call } :=
        .of_caches (List.Subset.refl _) le_rfl fun _ _ => rfl
      by_cases hd : d = c
      · subst hd
        have hcall : Function.update s.calls d call d = call := Function.update_self ..
        simp only [hcall]
        exact hstage.mono hext (List.Subset.refl _)
      · have hcall : Function.update s.calls c call d = s.calls d := Function.update_of_ne hd ..
        simp only [hcall]
        exact (h.calls d).mono hext (List.Subset.refl _) }

theorem Inv.setStage (h : Inv parse maxEntries Fs s) (c : Nat) {stage : Stage}
    (hstage : StageOk maxEntries Fs s (s.calls c).due stage) : Inv parse maxEntries Fs (s.setStage c stage) :=
  h.setCall c { s.calls c with stage } hstage

theorem Inv.setCache (h : Inv parse maxEntries Fs s) (store : Nat) (cache : Cache) (diskCount : Nat)
    (hcache : CacheOk Fs (s.dueEntries maxEntries) cache.entries cache.missed) :
    Inv parse maxEntries Fs (s.setCache store cache diskCount) :=
  have hold (c : Nat) (hc : c < s.nextCache) : (s.setCache store cache diskCount).caches c = s.caches c :=
    Function.update_of_ne hc.ne ..
  { h with
    caches := fun c hc => by
      rcases Nat.lt_succ_iff_lt_or_eq.mp hc with hlt | rfl
      · rw [hold c hlt]
        exact h.caches c hlt
      · have hnew : (s.setCache store cache diskCount).caches s.nextCache = cache := Function.update_self ..
        rw [hnew]
        exact hcache
    stores := fun i c hstore => by
      by_cases hi : i = store
      · subst hi
        have hnew : (s.setCache i cache diskCount).stores i = { cache := some s.nextCache, diskCount } :=
          Function.update_self ..
        rw [hnew] at hstore
        cases hstore
        exact Nat.lt_succ_self _
      · have hsame : (s.setCache store cache diskCount).stores i = s.stores i := Function.update_of_ne hi ..
        rw [hsame] at hstore
        exact (h.stores i c hstore).trans (Nat.lt_succ_self _)
    calls := fun d => (h.calls d).mono (.of_caches (List.Subset.refl _) (Nat.le_succ _) hold) (List.Subset.refl _) }

/-! ## Reading -/

/-- A cache in which the entry of a location is kept. -/
def Cache.memoize (cache : Cache) (e : ReplayEntry) : Cache :=
  { cache with entries := cache.entries.modify e.hash fun l => { l with entry := some e.toJson } }

theorem placed_memoize (h : Inv parse maxEntries Fs s) {c : Cache}
    (hplaced : ∃ l, c.entries.get? e.hash = some l ∧ Placed (Fs l.file) l e) {l : ReplayEntryLocation}
    {f : ReplayEntry} (hget : c.entries.get? hash = some l) (hl : Placed (Fs l.file) l f) :
    ∃ l', (c.memoize e).entries.get? hash = some l' ∧ Placed (Fs l'.file) l' f := by
  have hmodify : (c.memoize e).entries.get? hash =
      if e.hash = hash then (c.entries.get? hash).map fun l => { l with entry := some e.toJson }
      else c.entries.get? hash := JsMap.get?_modify _ _ _ _
  rw [hmodify, hget]
  split
  next heq =>
    obtain ⟨known, hknown, hplaced⟩ := hplaced
    rw [heq, hget] at hknown
    cases hknown
    have hsame : e.toJson = f.toJson := hplaced.unique hl (h.readable _ e hplaced.mem) (h.readable _ f hl.mem)
    refine ⟨_, rfl, ?_⟩
    dsimp only
    rw [hsame]
    exact hl.memo
  next => exact ⟨l, rfl, hl⟩

theorem CacheOk.memoize (h : Inv parse maxEntries Fs s) {c : Cache} (hok : CacheOk Fs due c.entries c.missed)
    (hplaced : ∃ l, c.entries.get? e.hash = some l ∧ Placed (Fs l.file) l e) :
    CacheOk Fs due (c.memoize e).entries (c.memoize e).missed where
  placed hash l hget := by
    have hmodify : (c.memoize e).entries.get? hash =
        if e.hash = hash then (c.entries.get? hash).map fun l => { l with entry := some e.toJson }
        else c.entries.get? hash := JsMap.get?_modify _ _ _ _
    cases hold : c.entries.get? hash with
    | none =>
        rw [hmodify, hold] at hget
        split at hget <;> cases hget
    | some l₀ =>
        obtain ⟨f, hhash, hf⟩ := hok.placed hash l₀ hold
        obtain ⟨l', hget', hl'⟩ := placed_memoize h hplaced hold hf
        rw [hget'] at hget
        cases hget
        exact ⟨f, hhash, hl'⟩
  due f hf := by
    rcases hok.due f hf with hmissed | ⟨l, hget, hl⟩
    · exact .inl hmissed
    · exact .inr (placed_memoize h hplaced hget hl)

/-- A call has read the entry of a location, and the cache keeps it. -/
theorem Inv.memoize (h : Inv parse maxEntries Fs s) (hvalid : cache < s.nextCache)
    (hplaced : ∃ l, (s.caches cache).entries.get? e.hash = some l ∧ Placed (Fs l.file) l e) :
    Inv parse maxEntries Fs
      { s with caches := Function.update s.caches cache ((s.caches cache).memoize e) } := by
  have hext : Extends Fs s Fs { s with caches := Function.update s.caches cache ((s.caches cache).memoize e) } := by
    refine ⟨fun _ => List.prefix_rfl, List.Subset.refl _, le_rfl, fun c hc hash l f hget hl => ?_⟩
    by_cases heq : c = cache
    · subst heq
      simpa using placed_memoize h hplaced hget hl
    · exact ⟨l, by simpa [Function.update_of_ne heq] using hget, hl⟩
  exact { h with
    caches := fun c hc => by
      show CacheOk Fs (s.dueEntries maxEntries) (Function.update s.caches cache ((s.caches cache).memoize e) c).entries
        (Function.update s.caches cache ((s.caches cache).memoize e) c).missed
      by_cases heq : c = cache
      · subst heq
        simpa using (h.caches c hc).memoize h hplaced
      · simpa [Function.update_of_ne heq] using h.caches c hc
    calls := fun d => (h.calls d).mono hext (List.Subset.refl _) }

end WrongStack.Replay

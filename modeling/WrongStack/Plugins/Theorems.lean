import WrongStack.Plugins.Loader

/-!
# What the loop and the sort make of a list of plugins
-/

namespace WrongStack.Plugins

open Lib Utils

variable {ε : Type} {plugins sorted : List Plugin} {p d : Plugin} {opts : LoadPluginsOptions ε}

/-! ## Dependencies -/

/-- `p` declares a dependency on the plugin `d`. -/
def Declares (deps : List RawDependency) (plugins : List Plugin) (d : Plugin) : Prop :=
  d ∈ plugins ∧ ∃ raw ∈ deps, (normalizeDep raw).name = d.name

def Requires (plugins : List Plugin) (p d : Plugin) : Prop := Declares p.dependsOn plugins d

/-- The dependency relation restricted to the given plugins. -/
def DependsOn (plugins : List Plugin) (p d : Plugin) : Prop :=
  Declares (p.dependsOn ++ p.optionalDeps) plugins d

def MissingDependency (plugins : List Plugin) : Prop :=
  ∃ p ∈ plugins, ∃ raw ∈ p.dependsOn, ∀ d ∈ plugins, d.name ≠ (normalizeDep raw).name

def VersionViolated (plugins : List Plugin) : Prop :=
  ∃ p ∈ plugins, ∃ raw ∈ p.dependsOn ++ p.optionalDeps, ∃ d ∈ plugins, (normalizeDep raw).name = d.name ∧
    ∃ required found, truthy (normalizeDep raw).version = some required ∧ truthy d.version = some found ∧
      satisfies required found = false

def Cyclic (plugins : List Plugin) : Prop :=
  ∃ p ∈ plugins, Relation.TransGen (DependsOn plugins) p p

def ConflictPresent (plugins : List Plugin) : Prop :=
  ∃ p ∈ plugins, ∃ c ∈ p.conflictsWith, ∃ q ∈ plugins, q.name = c

/-! ## The map of names -/

theorem pluginMap_get? (hn : (plugins.map Plugin.name).Nodup) (name : JsString) :
    (pluginMap plugins).get? name = plugins.find? (·.name = name) := by
  have hfold : ∀ (ps : List Plugin) (map : JsMap JsString Plugin), (ps.map Plugin.name).Nodup →
      (∀ q ∈ ps, map.get? q.name = none) →
      (ps.foldl (fun map p => map.set p.name p) map).get? name =
        (map.get? name <|> ps.find? (·.name = name)) := by
    intro ps
    induction ps with
    | nil => simp
    | cons q ps ih =>
        intro map hnodup hnew
        rw [List.map_cons, List.nodup_cons] at hnodup
        have hfresh : ∀ r ∈ ps, (map.set q.name q).get? r.name = none := by
          intro r hr
          have hne : q.name ≠ r.name := fun h => hnodup.1 (h ▸ List.mem_map_of_mem hr)
          rw [JsMap.get?_set, if_neg hne, hnew r (List.mem_cons_of_mem q hr)]
        rw [List.foldl_cons, ih _ hnodup.2 hfresh, JsMap.get?_set, List.find?_cons]
        by_cases hq : q.name = name
        · subst hq
          simp [hnew q List.mem_cons_self]
        · simp [hq]
  rw [pluginMap, hfold plugins .empty hn (fun _ _ => rfl)]
  rfl

theorem pluginMap_some (hn : (plugins.map Plugin.name).Nodup) {name : JsString} :
    (pluginMap plugins).get? name = some d ↔ d ∈ plugins ∧ d.name = name := by
  rw [pluginMap_get? hn]
  constructor
  · intro h
    exact ⟨List.mem_of_find?_eq_some h, by simpa using List.find?_some h⟩
  · rintro ⟨hd, rfl⟩
    cases hfind : plugins.find? (·.name = d.name) with
    | none =>
        have hno := List.find?_eq_none.mp hfind d hd
        simp at hno
    | some q =>
        have hq : q.name = d.name := by simpa using List.find?_some hfind
        rw [List.inj_on_of_nodup_map hn (List.mem_of_find?_eq_some hfind) hd hq]

theorem pluginMap_none (hn : (plugins.map Plugin.name).Nodup) {name : JsString} :
    (pluginMap plugins).get? name = none ↔ ∀ q ∈ plugins, q.name ≠ name := by
  rw [pluginMap_get? hn, List.find?_eq_none]
  simp

/-! ## The graph -/

abbrev graph (plugins : List Plugin) : Sorting Plugin JsString PluginError := dependencies (pluginMap plugins)

theorem violated_eq_none {dep : PluginDependency} : violated dep d = none ↔
    ¬ ∃ required found, truthy dep.version = some required ∧ truthy d.version = some found ∧
      satisfies required found = false := by
  unfold violated
  cases truthy dep.version with
  | none => simp
  | some required =>
      cases truthy d.version with
      | none => simp
      | some found => cases hsat : satisfies required found <;> simp [hsat]

theorem checkVersion_cases (dep : PluginDependency) (d p : Plugin) (message : JsString → JsString → JsString) :
    (violated dep d = none ∧ checkVersion dep d p message = .ok d) ∨
      (violated dep d ≠ none ∧ ∃ e, checkVersion dep d p message = .error e) := by
  unfold checkVersion
  cases hv : violated dep d with
  | none => exact .inl ⟨rfl, rfl⟩
  | some rf => exact .inr ⟨Option.some_ne_none rf, _, rfl⟩

/-- An edge is the plugin of the name, an error about its version, or for a required dependency an error
about its absence. -/
theorem mem_edges (hn : (plugins.map Plugin.name).Nodup) {edge : Except PluginError Plugin} :
    edge ∈ (graph plugins).edges p →
      (∃ raw ∈ p.dependsOn ++ p.optionalDeps, ∃ d ∈ plugins, (normalizeDep raw).name = d.name ∧
        ((violated (normalizeDep raw) d = none ∧ edge = .ok d) ∨
          (violated (normalizeDep raw) d ≠ none ∧ ∃ e, edge = .error e))) ∨
      (∃ e, edge = .error e) ∧ ∃ raw ∈ p.dependsOn, ∀ d ∈ plugins, d.name ≠ (normalizeDep raw).name := by
  intro hedge
  rcases List.mem_append.mp hedge with hedge | hedge
  · obtain ⟨raw, hraw, rfl⟩ := List.mem_map.mp hedge
    unfold requiredEdge
    simp only
    cases hget : (pluginMap plugins).get? (normalizeDep raw).name with
    | none => exact .inr ⟨⟨_, rfl⟩, raw, hraw, (pluginMap_none hn).mp hget⟩
    | some d =>
        obtain ⟨hd, hname⟩ := (pluginMap_some hn).mp hget
        exact .inl ⟨raw, List.mem_append_left _ hraw, d, hd, hname.symm, checkVersion_cases ..⟩
  · obtain ⟨raw, hraw, hopt⟩ := List.mem_filterMap.mp hedge
    obtain ⟨d, hget, rfl⟩ := Option.map_eq_some_iff.mp hopt
    obtain ⟨hd, hname⟩ := (pluginMap_some hn).mp hget
    exact .inl ⟨raw, List.mem_append_right _ hraw, d, hd, hname.symm, checkVersion_cases ..⟩

/-- Every declared dependency that is there has its edge, and so has every required one that is missing. -/
theorem edge_of_declares (hn : (plugins.map Plugin.name).Nodup) {raw : RawDependency}
    (hraw : raw ∈ p.dependsOn ++ p.optionalDeps) (hd : d ∈ plugins) (hname : (normalizeDep raw).name = d.name) :
    (violated (normalizeDep raw) d = none ∧ .ok d ∈ (graph plugins).edges p) ∨
      (violated (normalizeDep raw) d ≠ none ∧ ∃ e, .error e ∈ (graph plugins).edges p) := by
  have hget := (pluginMap_some hn).mpr ⟨hd, hname.symm⟩
  have hedge : ∃ message, checkVersion (normalizeDep raw) d p message ∈ (graph plugins).edges p := by
    rcases List.mem_append.mp hraw with hraw | hraw
    · refine ⟨requiredMessage p (normalizeDep raw),
        List.mem_append_left _ (List.mem_map.mpr ⟨raw, hraw, ?_⟩)⟩
      simp only [requiredEdge, hget]
    · refine ⟨optionalMessage p (normalizeDep raw),
        List.mem_append_right _ (List.mem_filterMap.mpr ⟨raw, hraw, ?_⟩)⟩
      simp only [optionalEdge, hget, Option.map_some]
  obtain ⟨message, hmem⟩ := hedge
  rcases checkVersion_cases (normalizeDep raw) d p message with ⟨hv, hok⟩ | ⟨hv, e, herr⟩
  · exact .inl ⟨hv, hok ▸ hmem⟩
  · exact .inr ⟨hv, e, herr ▸ hmem⟩

theorem missing_edge (hn : (plugins.map Plugin.name).Nodup) {raw : RawDependency} (hraw : raw ∈ p.dependsOn)
    (hno : ∀ d ∈ plugins, d.name ≠ (normalizeDep raw).name) : ∃ e, .error e ∈ (graph plugins).edges p := by
  have hget := (pluginMap_none hn).mpr hno
  have hmem : requiredEdge (pluginMap plugins) p raw ∈ (graph plugins).edges p :=
    List.mem_append_left _ (List.mem_map_of_mem hraw)
  simp only [requiredEdge, hget] at hmem
  exact ⟨_, hmem⟩

theorem dependsOn_of_target (hn : (plugins.map Plugin.name).Nodup) (h : d ∈ (graph plugins).targets p) :
    DependsOn plugins p d := by
  rcases mem_edges hn (Sorting.mem_targets.mp h) with ⟨raw, hraw, q, hq, hname, hedge⟩ | ⟨⟨e, he⟩, -⟩
  · rcases hedge with ⟨-, hok⟩ | ⟨-, e, he⟩
    · cases hok
      exact ⟨hq, raw, hraw, hname⟩
    · cases he
  · cases he

theorem broken_iff (hn : (plugins.map Plugin.name).Nodup) :
    (∃ p ∈ plugins, ∃ e, .error e ∈ (graph plugins).edges p) ↔
      MissingDependency plugins ∨ VersionViolated plugins := by
  constructor
  · rintro ⟨p, hp, e, he⟩
    rcases mem_edges hn he with ⟨raw, hraw, d, hd, hname, hedge⟩ | ⟨-, raw, hraw, hno⟩
    · rcases hedge with ⟨-, hok⟩ | ⟨hv, -⟩
      · cases hok
      · exact .inr ⟨p, hp, raw, hraw, d, hd, hname, not_not.mp (mt violated_eq_none.mpr hv)⟩
    · exact .inl ⟨p, hp, raw, hraw, hno⟩
  · rintro (⟨p, hp, raw, hraw, hno⟩ | ⟨p, hp, raw, hraw, d, hd, hname, hviolated⟩)
    · exact ⟨p, hp, missing_edge hn hraw hno⟩
    · rcases edge_of_declares hn hraw hd hname with ⟨hv, -⟩ | ⟨-, he⟩
      · exact absurd hviolated (violated_eq_none.mp hv)
      · exact ⟨p, hp, he⟩

/-- Unless an edge is broken, the graph is the dependency relation. -/
theorem target_iff (hn : (plugins.map Plugin.name).Nodup)
    (hok : ¬ ∃ p ∈ plugins, ∃ e, .error e ∈ (graph plugins).edges p) (hp : p ∈ plugins) :
    d ∈ (graph plugins).targets p ↔ DependsOn plugins p d := by
  refine ⟨dependsOn_of_target hn, ?_⟩
  rintro ⟨hd, raw, hraw, hname⟩
  rcases edge_of_declares hn hraw hd hname with ⟨-, hedge⟩ | ⟨-, he⟩
  · exact Sorting.mem_targets.mpr hedge
  · exact absurd ⟨p, hp, he⟩ hok

theorem closed_targets (hn : (plugins.map Plugin.name).Nodup) :
    ∀ p ∈ plugins, (graph plugins).targets p ⊆ plugins :=
  fun _ _ _ hd => (dependsOn_of_target hn hd).1

theorem faulty_iff (hn : (plugins.map Plugin.name).Nodup) : (graph plugins).Faulty plugins ↔
    MissingDependency plugins ∨ VersionViolated plugins ∨ Cyclic plugins := by
  by_cases hbroken : ∃ p ∈ plugins, ∃ e, .error e ∈ (graph plugins).edges p
  · refine iff_of_true ?_ ?_
    · obtain ⟨p, hp, he⟩ := hbroken
      exact ⟨p, hp, .inl he⟩
    · rcases (broken_iff hn).mp hbroken with h | h
      · exact .inl h
      · exact .inr (.inl h)
  · have hnone := mt (broken_iff hn).mpr hbroken
    rw [not_or] at hnone
    rw [or_iff_right hnone.1, or_iff_right hnone.2]
    constructor
    · rintro ⟨p, hp, he | ⟨d, hd, hr⟩⟩
      · exact absurd ⟨p, hp, he⟩ hbroken
      · refine ⟨p, hp, Relation.TransGen.head' (dependsOn_of_target hn hd) ?_⟩
        exact Relation.ReflTransGen.mono (fun _ _ h => dependsOn_of_target hn h) _ _ hr
    · rintro ⟨p, hp, hcycle⟩
      obtain ⟨d, hpd, hr⟩ := Relation.TransGen.head'_iff.mp hcycle
      refine ⟨p, hp, .inr ⟨d, (target_iff hn hbroken hp).mpr hpd, ?_⟩⟩
      have hpath : ∀ a, a ∈ plugins → Relation.ReflTransGen (DependsOn plugins) a p →
          Reaches (graph plugins).targets a p := by
        intro a ha hap
        induction hap using Relation.ReflTransGen.head_induction_on with
        | refl => exact Reaches.refl p
        | head hab _ ih => exact Reaches.cons ((target_iff hn hbroken ha).mpr hab) (ih hab.1)
      exact hpath d hpd.1 hr

/-! ## The loop -/

/-- The plugin passes the checks before its setup. -/
def LoadPluginsOptions.starts (opts : LoadPluginsOptions ε) (p : Plugin) : Bool :=
  satisfies p.apiVersion opts.kernelVersion &&
    ((configErrors (mergeDefaults opts.pluginOptions p) p).isEmpty && (opts.apiFactory p).isOk)

def LoadPluginsOptions.works (opts : LoadPluginsOptions ε) (p : Plugin) : Bool :=
  opts.starts p && (opts.setup p).isOk

/-- The options of the plugin of that name. -/
def optionsFor (options : Option (JsMap JsString Json)) (name : JsString) : Option (Option Json) :=
  options.map (·.get? name)

theorem optionsFor_merge (options : Option (JsMap JsString Json)) {name : JsString} (hne : p.name ≠ name) :
    optionsFor (mergeDefaults options p) name = optionsFor options name := by
  unfold mergeDefaults
  cases p.defaultConfig with
  | none => rfl
  | some defaults =>
      cases options with
      | none => rfl
      | some options => simp only [optionsFor, Option.map_some, JsMap.get?_set, if_neg hne]

theorem configErrors_congr {o o' : Option (JsMap JsString Json)}
    (h : optionsFor o p.name = optionsFor o' p.name) :
    configErrors (mergeDefaults o p) p = configErrors (mergeDefaults o' p) p := by
  have hsame : ∀ {o o' : Option (JsMap JsString Json)}, optionsFor o p.name = optionsFor o' p.name →
      configErrors o p = configErrors o' p := by
    intro o o' h
    have hbind : o.bind (·.get? p.name) = o'.bind (·.get? p.name) := by
      cases o <;> cases o' <;> simp_all [optionsFor]
    unfold configErrors
    rw [hbind]
  refine hsame ?_
  unfold mergeDefaults
  cases p.defaultConfig with
  | none => exact h
  | some defaults =>
      cases o <;> cases o' <;> simp_all [optionsFor]

/-- One turn of the loop. -/
structure Turn (opts : LoadPluginsOptions ε) (p : Plugin) (s t : Loading ε) : Prop where
  setups : t.setups = s.setups ++ [p].filter opts.starts
  loaded : t.loaded = s.loaded ++ [p].filter opts.works
  failed : t.failed.map Prod.fst = s.failed.map Prod.fst ++ [p].filter (!opts.works ·)
  apis : ∀ name, name ∈ t.apis ↔ name ∈ s.apis ∨ (opts.works p = true ∧ name = p.name)
  options : ∀ name, p.name ≠ name → optionsFor t.pluginOptions name = optionsFor s.pluginOptions name

theorem turn (s : Loading ε) (h : optionsFor s.pluginOptions p.name = optionsFor opts.pluginOptions p.name) :
    Turn opts p s (opts.loadOne s p) := by
  have herrors := configErrors_congr h
  have hmerge := fun name (hne : p.name ≠ name) => optionsFor_merge s.pluginOptions hne
  unfold LoadPluginsOptions.loadOne
  cases hapi : satisfies p.apiVersion opts.kernelVersion with
  | false =>
      have hstarts : opts.starts p = false := by simp [LoadPluginsOptions.starts, hapi]
      have hworks : opts.works p = false := by simp [LoadPluginsOptions.works, hstarts]
      constructor <;> simp [hstarts, hworks]
  | true =>
      simp only [Bool.not_true, Bool.false_eq_true, ↓reduceIte, herrors]
      cases hconfig : configErrors (mergeDefaults opts.pluginOptions p) p with
      | cons first errors =>
          have hstarts : opts.starts p = false := by simp [LoadPluginsOptions.starts, hconfig]
          have hworks : opts.works p = false := by simp [LoadPluginsOptions.works, hstarts]
          constructor <;> simp [hstarts, hworks]
          exact hmerge
      | nil =>
          cases hfactory : opts.apiFactory p with
          | error err =>
              have hstarts : opts.starts p = false := by
                simp [LoadPluginsOptions.starts, hfactory, Except.isOk, Except.toBool]
              have hworks : opts.works p = false := by simp [LoadPluginsOptions.works, hstarts]
              constructor <;> simp [hstarts, hworks]
              exact hmerge
          | ok u =>
              have hstarts : opts.starts p = true := by
                simp [LoadPluginsOptions.starts, hapi, hconfig, hfactory, Except.isOk, Except.toBool]
              cases hsetup : opts.setup p with
              | error err =>
                  have hworks : opts.works p = false := by
                    simp [LoadPluginsOptions.works, hsetup, Except.isOk, Except.toBool]
                  constructor <;> simp [hstarts, hworks]
                  exact hmerge
              | ok u =>
                  have hworks : opts.works p = true := by
                    simp [LoadPluginsOptions.works, hstarts, hsetup, Except.isOk, Except.toBool]
                  constructor <;> simp [hstarts, hworks]
                  · intro name
                    exact or_comm
                  · exact hmerge

/-- The whole loop. -/
structure Loaded (opts : LoadPluginsOptions ε) (sorted : List Plugin) (s t : Loading ε) : Prop where
  setups : t.setups = s.setups ++ sorted.filter opts.starts
  loaded : t.loaded = s.loaded ++ sorted.filter opts.works
  failed : t.failed.map Prod.fst = s.failed.map Prod.fst ++ sorted.filter (!opts.works ·)
  apis : ∀ name, name ∈ t.apis ↔ name ∈ s.apis ∨ ∃ p ∈ sorted, opts.works p = true ∧ name = p.name

theorem loaded_foldl (hn : (sorted.map Plugin.name).Nodup) (s : Loading ε)
    (h : ∀ p ∈ sorted, optionsFor s.pluginOptions p.name = optionsFor opts.pluginOptions p.name) :
    Loaded opts sorted s (sorted.foldl opts.loadOne s) := by
  induction sorted generalizing s with
  | nil => constructor <;> simp
  | cons p sorted ih =>
      rw [List.map_cons, List.nodup_cons] at hn
      have hturn := turn s (h p List.mem_cons_self)
      have hrest := ih hn.2 (opts.loadOne s p) (fun q hq => by
        have hne : p.name ≠ q.name := fun heq => hn.1 (heq ▸ List.mem_map_of_mem hq)
        rw [hturn.options q.name hne, h q (List.mem_cons_of_mem p hq)])
      have hcons : ∀ f : Plugin → Bool, (p :: sorted).filter f = [p].filter f ++ sorted.filter f :=
        fun f => List.filter_append [p] sorted
      rw [List.foldl_cons]
      constructor
      case setups => rw [hrest.setups, hturn.setups, hcons, List.append_assoc]
      case loaded => rw [hrest.loaded, hturn.loaded, hcons, List.append_assoc]
      case failed => rw [hrest.failed, hturn.failed, hcons, List.append_assoc]
      case apis =>
        intro name
        rw [hrest.apis, hturn.apis, or_assoc]
        simp only [List.mem_cons, exists_eq_or_imp]

/-! ## Unloading -/

theorem unload_foldl (ps : List Plugin) (s : Unloading) (hn : (ps.map Plugin.name).Nodup)
    (h : ∀ p ∈ ps, p.name ∈ s.apis) :
    (ps.foldl (unloadOne opts) s).torn = s.torn ++ ps.filter Plugin.teardown := by
  induction ps generalizing s with
  | nil => simp
  | cons p ps ih =>
      rw [List.map_cons, List.nodup_cons] at hn
      have hp := h p List.mem_cons_self
      have hrest : ∀ q ∈ ps, q.name ∈ s.apis ∧ q.name ≠ p.name := fun q hq =>
        ⟨h q (List.mem_cons_of_mem p hq), fun heq => hn.1 (heq ▸ List.mem_map_of_mem hq)⟩
      rw [List.foldl_cons, unloadOne]
      cases hteardown : p.teardown with
      | false =>
          simp only [Bool.not_false, ↓reduceIte]
          rw [ih s hn.2 fun q hq => (hrest q hq).1]
          simp [hteardown]
      | true =>
          simp only [Bool.not_true, Bool.false_eq_true, ↓reduceIte, hp, not_true_eq_false]
          cases opts.teardown p with
          | error err =>
              simp only
              rw [ih { s with torn := s.torn ++ [p] } hn.2 fun q hq => (hrest q hq).1]
              simp [hteardown]
          | ok u =>
              simp only
              rw [ih _ hn.2 fun q hq => by simpa using hrest q hq]
              simp [hteardown]

end WrongStack.Plugins

/-!
# Plugins and their dependencies

When `loadPlugins` throws, what becomes of the plugins otherwise, and in which order they are set up and torn
down.
-/

namespace WrongStack.Plugins

open Lib Utils

variable {ε : Type} {plugins sorted : List Plugin} {p d : Plugin} {opts : LoadPluginsOptions ε}

/-- There is no reason to throw. -/
def Loadable (plugins : List Plugin) : Prop :=
  ¬ (MissingDependency plugins ∨ VersionViolated plugins ∨ ConflictPresent plugins ∨ Cyclic plugins)

theorem conflict_eq_none : conflict plugins = none ↔ ¬ ConflictPresent plugins := by
  unfold conflict ConflictPresent
  simp only [List.findSome?_eq_none_iff, Option.map_eq_none_iff, List.find?_eq_none, List.contains_iff_mem,
    List.mem_map]
  constructor
  · rintro h ⟨p, hp, c, hc, q, hq, hname⟩
    exact h p hp c hc ⟨q, hq, hname⟩
  · rintro h p hp c hc ⟨q, hq, hname⟩
    exact h ⟨p, hp, c, hc, q, hq, hname⟩

/-! ## The order -/

/-- The sorted list has every dependency of a plugin in front of it. -/
def InOrder (plugins sorted : List Plugin) : Prop :=
  ∀ pre p post, sorted = pre ++ p :: post → ∀ d, DependsOn plugins p d → d ∈ pre

theorem inOrder_of_sorted (hn : (plugins.map Plugin.name).Nodup) (hperm : sorted.Perm plugins)
    (hs : (graph plugins).Sorted sorted) (hok : ¬ (graph plugins).Faulty plugins) : InOrder plugins sorted := by
  intro pre p post heq d hd
  have hp : p ∈ plugins := hperm.subset (heq ▸ List.mem_append_right _ List.mem_cons_self)
  have hbroken : ¬ ∃ p ∈ plugins, ∃ e, .error e ∈ (graph plugins).edges p :=
    fun ⟨q, hq, he⟩ => hok ⟨q, hq, .inl he⟩
  obtain ⟨d', hd', hsame⟩ := hs pre p post heq _ (Sorting.mem_targets.mp ((target_iff hn hbroken hp).mpr hd))
  cases hsame
  exact hd'

theorem InOrder.filter (h : InOrder plugins sorted) (hnodup : sorted.Nodup) {f : Plugin → Bool}
    {pre post : List Plugin} (heq : sorted.filter f = pre ++ p :: post) (hd : DependsOn plugins p d) :
    (d ∈ sorted.filter f → d ∈ pre) ∧ d ∉ post := by
  have hpre : d ∈ sorted.filter f → d ∈ pre := by
    obtain ⟨l₁, l₂, rfl, hl₁, hl₂⟩ := List.filter_eq_append_iff.mp heq
    obtain ⟨a, b, rfl, ha, -, -⟩ := List.filter_eq_cons_iff.mp hl₂
    intro hmem
    have hfront := h (l₁ ++ a) p b (List.append_assoc ..).symm d hd
    have hf := (List.mem_filter.mp hmem).2
    rcases List.mem_append.mp hfront with h₁ | ha'
    · rw [← hl₁]
      exact List.mem_filter.mpr ⟨h₁, hf⟩
    · exact absurd hf (ha d ha')
  refine ⟨hpre, fun hpost => ?_⟩
  have hmem : d ∈ sorted.filter f := by
    rw [heq]
    exact List.mem_append_right _ (List.mem_cons_of_mem p hpost)
  have hapart := (List.nodup_append.mp (heq ▸ hnodup.filter f)).2.2
  exact hapart d (hpre hmem) d (List.mem_cons_of_mem p hpost) rfl

/-! ## Loading -/

/-- Either there is a reason to throw, or the plugins are loaded in order. -/
theorem loadPlugins_cases (opts : LoadPluginsOptions ε) (hn : (plugins.map Plugin.name).Nodup) :
    (Loadable plugins ∧ ∃ sorted r, loadPlugins opts plugins = .ok r ∧ sorted.Perm plugins ∧
        InOrder plugins sorted ∧ Loaded opts sorted { pluginOptions := opts.pluginOptions } r) ∨
      ¬ Loadable plugins ∧ ∃ e, loadPlugins opts plugins = .error (some e) := by
  unfold loadPlugins
  cases hconflict : conflict plugins with
  | some err =>
      refine .inr ⟨fun h => h ?_, err, rfl⟩
      have hsome : ¬ conflict plugins = none := by rw [hconflict]; exact Option.some_ne_none err
      exact .inr (.inr (.inl (not_not.mp (mt conflict_eq_none.mpr hsome))))
  | none =>
      have hno := conflict_eq_none.mp hconflict
      simp only
      unfold topoSort
      rcases Sorting.sort_outcome hn (closed_targets hn) with ⟨sorted, hsort, hperm, hs, hok⟩ | ⟨⟨e, hsort⟩, hfault⟩
      · have hnames : (sorted.map Plugin.name).Nodup := (hperm.map Plugin.name).nodup_iff.mpr hn
        refine .inl ⟨fun hreason => ?_, sorted, _, by rw [hsort], hperm, inOrder_of_sorted hn hperm hs hok,
          loaded_foldl hnames _ fun _ _ => rfl⟩
        rcases hreason with hreason | hreason | hreason | hreason
        · exact hok ((faulty_iff hn).mpr (.inl hreason))
        · exact hok ((faulty_iff hn).mpr (.inr (.inl hreason)))
        · exact hno hreason
        · exact hok ((faulty_iff hn).mpr (.inr (.inr hreason)))
      · refine .inr ⟨fun h => h ?_, sortFailed plugins e, by rw [hsort]; rfl⟩
        rcases (faulty_iff hn).mp hfault with hreason | hreason | hreason
        · exact .inl hreason
        · exact .inr (.inl hreason)
        · exact .inr (.inr (.inr hreason))

/-- The plugins that work are torn down in the reverse of the order in which they were set up. -/
theorem torn_eq {s r : Loading ε} (hn : (plugins.map Plugin.name).Nodup) (hperm : sorted.Perm plugins)
    (h : Loaded opts sorted s r) (hworking : r.loaded = sorted.filter opts.works) :
    (unloadPlugins opts r.loaded r.apis).torn =
      (sorted.filter fun q => q.teardown && opts.works q).reverse := by
  have hnames : (sorted.map Plugin.name).Nodup := (hperm.map Plugin.name).nodup_iff.mpr hn
  unfold unloadPlugins
  rw [unload_foldl, List.nil_append, List.filter_reverse, hworking, List.filter_filter]
  · rw [hworking, List.map_reverse]
    exact List.nodup_reverse.mpr (hnames.sublist (List.filter_sublist.map _))
  · intro q hq
    rw [List.mem_reverse, hworking, List.mem_filter] at hq
    exact (h.apis q.name).mpr (.inr ⟨q, hq.1, hq.2, rfl⟩)

/-- What one may expect of loading and unloading plugins. -/
structure Contract (opts : LoadPluginsOptions ε) (plugins : List Plugin) : Prop where
  throws : (∃ e, loadPlugins opts plugins = .error (some e)) ↔
    MissingDependency plugins ∨ VersionViolated plugins ∨ ConflictPresent plugins ∨ Cyclic plugins
  returns : (∃ e, loadPlugins opts plugins = .error (some e)) ∨ ∃ r, loadPlugins opts plugins = .ok r
  /-- Every plugin is in one of the two lists, and once. -/
  split : ∀ r, loadPlugins opts plugins = .ok r → (r.loaded ++ r.failed.map Prod.fst).Perm plugins
  ordered : ∀ r, loadPlugins opts plugins = .ok r → ∀ pre p post, r.setups = pre ++ p :: post →
    ∀ d, DependsOn plugins p d → d ∈ r.setups → d ∈ pre
  onTop : ∀ r, loadPlugins opts plugins = .ok r → ∀ p ∈ r.setups, ∀ d, Requires plugins p d →
    d ∉ r.failed.map Prod.fst
  unloaded : ∀ r, loadPlugins opts plugins = .ok r → ∀ pre p post,
    (unloadPlugins opts r.loaded r.apis).torn = pre ++ p :: post → ∀ d, DependsOn plugins p d → d ∉ pre

/-- The loop does not look at the dependencies again: plugins are set up on top of working ones only if every
plugin that passes the checks before its setup has required plugins that work. -/
theorem loading_contract_iff (opts : LoadPluginsOptions ε) (plugins : List Plugin)
    (hn : (plugins.map Plugin.name).Nodup) : Contract opts plugins ↔
      (Loadable plugins → ∀ p ∈ plugins, opts.starts p = true → ∀ d, Requires plugins p d →
        opts.works d = true) := by
  rcases loadPlugins_cases opts hn with ⟨hload, sorted, r, hr, hperm, horder, hloaded⟩ | ⟨hload, e, he⟩
  · have hsetups : r.setups = sorted.filter opts.starts := by rw [hloaded.setups, List.nil_append]
    have hworking : r.loaded = sorted.filter opts.works := by rw [hloaded.loaded, List.nil_append]
    have hfailed : r.failed.map Prod.fst = sorted.filter (!opts.works ·) := by
      rw [hloaded.failed, List.map_nil, List.nil_append]
    have hnodup : sorted.Nodup := hperm.nodup_iff.mpr (hn.of_map _)
    have hunique : ∀ r', loadPlugins opts plugins = .ok r' → r' = r := by
      intro r' hr'
      rw [hr] at hr'
      cases hr'
      rfl
    constructor
    · intro h _ p hp hstarts d hd
      have hmem : p ∈ r.setups := by
        rw [hsetups]
        exact List.mem_filter.mpr ⟨hperm.mem_iff.mpr hp, hstarts⟩
      have hno := h.onTop r hr p hmem d hd
      rw [hfailed, List.mem_filter, not_and] at hno
      simpa using hno (hperm.mem_iff.mpr hd.1)
    · intro h
      have hsound := h hload
      refine ⟨⟨?_, fun hreason => absurd hreason hload⟩, .inr ⟨r, hr⟩, ?_, ?_, ?_, ?_⟩
      · rintro ⟨e, he⟩
        rw [hr] at he
        cases he
      · intro r' hr'
        rw [hunique r' hr', hworking, hfailed]
        exact (List.filter_append_perm opts.works sorted).trans hperm
      · intro r' hr' pre p post hpre d hd hmem
        rw [hunique r' hr', hsetups] at hpre hmem
        exact (horder.filter hnodup hpre hd).1 hmem
      · intro r' hr' p hp d hd hmem
        rw [hunique r' hr'] at hp hmem
        rw [hsetups, List.mem_filter] at hp
        rw [hfailed, List.mem_filter] at hmem
        have hworks := hsound p (hperm.mem_iff.mp hp.1) hp.2 d hd
        rw [hworks] at hmem
        cases hmem.2
      · intro r' hr' pre p post hpre d hd
        rw [hunique r' hr'] at hpre
        have htorn := torn_eq hn hperm hloaded hworking
        rw [htorn] at hpre
        have hfront : (sorted.filter fun q => q.teardown && opts.works q) = post.reverse ++ p :: pre.reverse := by
          rw [← List.reverse_reverse (sorted.filter _), hpre]
          simp
        intro hmem
        exact (horder.filter hnodup hfront hd).2 (List.mem_reverse.mpr hmem)
  · refine iff_of_true ?_ (fun h => absurd h hload)
    have hno : ∀ r, loadPlugins opts plugins ≠ .ok r := by
      intro r hr
      rw [he] at hr
      cases hr
    exact ⟨⟨fun _ => not_not.mp hload, fun _ => ⟨e, he⟩⟩, .inl ⟨e, he⟩, fun r hr => absurd hr (hno r),
      fun r hr => absurd hr (hno r), fun r hr => absurd hr (hno r), fun r hr => absurd hr (hno r)⟩

def base : Plugin where
  name := js "base"
  apiVersion := js "^0.1"

/-- Requires `base`. -/
def app : Plugin where
  name := js "app"
  apiVersion := js "^0.1"
  dependsOn := [.name (js "base")]

/-- Every factory, setup and teardown works, but for the setups of `broken`. -/
def optionsWith (broken : List JsString) : LoadPluginsOptions Unit where
  apiFactory := fun _ => .ok ()
  setup := fun p => if p.name ∈ broken then .error () else .ok ()
  teardown := fun _ => .ok ()

theorem loading_contract_iff_app : Contract (optionsWith []) [app, base] :=
  (loading_contract_iff (optionsWith []) [app, base] (by decide)).mpr (by
    rintro - p - - d ⟨hd, -⟩
    rcases List.mem_cons.mp hd with rfl | hd
    · decide +kernel
    · rw [List.mem_singleton.mp hd]
      decide +kernel)

/-- The setup of `base` fails, and `app` is set up all the same. -/
theorem app_without_base : ([app, base].map Plugin.name).Nodup ∧ ¬ Contract (optionsWith [js "base"]) [app, base] := by
  refine ⟨by decide, fun h => ?_⟩
  have hconflict : conflict [app, base] = none := rfl
  have hsort : topoSort [app, base] = .ok [base, app] := rfl
  have hr : loadPlugins (optionsWith [js "base"]) [app, base] =
      .ok ([base, app].foldl (optionsWith [js "base"]).loadOne { pluginOptions := none }) := by
    simp only [loadPlugins, hconflict, hsort]
    rfl
  have hloaded := @loaded_foldl Unit [base, app] (optionsWith [js "base"]) (by decide)
    { pluginOptions := none } fun _ _ => rfl
  refine h.onTop _ hr app ?_ base ⟨by simp, .name (js "base"), by simp [app], rfl⟩ ?_
  · rw [hloaded.setups]
    exact List.mem_append_right _ (List.mem_filter.mpr ⟨by simp, by decide +kernel⟩)
  · rw [hloaded.failed]
    exact List.mem_append_right _ (List.mem_filter.mpr ⟨by simp, by decide +kernel⟩)

end WrongStack.Plugins

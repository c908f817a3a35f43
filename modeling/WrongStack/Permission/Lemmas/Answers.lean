import WrongStack.Permission.Lemmas.Cache
import WrongStack.Lib.ListFacts

/-!
# Deny rules and later grants

`trust` only adds to the allow patterns of an entry, so the deny patterns under every key stay. It
may make an entry, though, and the tool's own entry hides the wildcard entries.
-/

namespace WrongStack.Permission

open Lib Utils State

variable {s : State} {c : Call}

/-! ## Denying -/

/-- What `evaluate` answers when it finds nothing in the cache. -/
def State.freshPermission (s : State) (c : Call) : PermissionKind :=
  if s.sessionDenied.has c.cacheKey then .deny
  else if s.sessionAllowed.has c.cacheKey then .auto
  else (s.verdict c).decision.permission

theorem evaluateLoaded_of_miss (h : s.hit c = none) :
    (s.evaluateLoaded c).1.permission = s.freshPermission c := by
  rw [evaluateLoaded_eq, h]
  simp only [freshPermission]
  split_ifs <;> rfl

theorem verdict_deny_iff : (s.verdict c).decision.permission = .deny ↔
    ruleMatches ((s.entryFor c.tool.name).bind TrustEntry.deny) c.subject = true ∨
      c.tool.permission = .deny := by
  unfold verdict applyRules
  split
  · rename_i h
    simp [h]
  · rename_i h
    split
    · rename_i htool
      simp [htool]
    · rename_i htool
      simp only [h, htool, Bool.false_eq_true, or_self, iff_false]
      split_ifs <;> simp

theorem verdict_reason_iff : (s.verdict c).decision.reason = some "matched deny pattern" ↔
    ruleMatches ((s.entryFor c.tool.name).bind TrustEntry.deny) c.subject = true := by
  unfold verdict applyRules
  split
  · rename_i h
    simp [h]
  · rename_i h
    simp only [h, Bool.false_eq_true, iff_false]
    split_ifs <;> simp

/-! ## The fresh policy -/

/-- The entry that `evaluate` looks at under the trust file `p`. -/
def effectiveEntry (p : TrustPolicy) (toolName : JsString) : Option TrustEntry :=
  p.get? toolName <|>
    ((p.keys.filter (·.contains (unit '*'))).find? fun key => matchGlob key toolName).bind p.get?

def EffectiveDenies (p : TrustPolicy) (c : Call) : Prop :=
  ruleMatches ((effectiveEntry p c.tool.name).bind TrustEntry.deny) c.subject = true

theorem fresh_entryFor (opts : Options) (p : TrustPolicy) (name : JsString) :
    (init opts (.parsed p)).ensureLoaded.entryFor name = effectiveEntry p name := rfl

theorem fresh_hit (opts : Options) (p : TrustPolicy) (c : Call) :
    (init opts (.parsed p)).ensureLoaded.hit c = none := by
  unfold hit
  split <;> rfl

/-! ## Grants -/

inductive Grant
  | trust (rule : Rule) (written : Bool)
  | allowOnce (rule : Rule)

def Grant.toOp : Grant → Op
  | .trust rule written => .trust rule written
  | .allowOnce rule => .allowOnce rule

/-- The grant is a one-shot allow under the key of the call. -/
def Grant.Allows (c : Call) : Grant → Prop
  | .trust _ _ => False
  | .allowOnce rule => rule.key = c.cacheKey

/-- The grant makes an entry under the tool's own name, if there is none. -/
def Grant.Enters (c : Call) : Grant → Prop
  | .trust rule _ => rule.tool = c.tool.name
  | .allowOnce _ => False

/-- What the grants `gs` do to a policy that was loaded from the trust file `p`. -/
structure Granted (p : TrustPolicy) (gs : List Grant) (s : State) : Prop where
  loaded : s.loaded = true
  wildcards : s.wildcardEntries = p.keys.filter (·.contains (unit '*'))
  noDenials : ∀ k, s.sessionDenied.has k = false
  deny : ∀ k, (s.policy.get? k).bind TrustEntry.deny = (p.get? k).bind TrustEntry.deny
  own : ∀ c : Call, s.policy.has c.tool.name = true ↔
    p.has c.tool.name = true ∨ ∃ g ∈ gs, g.Enters c
  allowed : ∀ c : Call, s.sessionAllowed.has c.cacheKey = true ↔ ∃ g ∈ gs, g.Allows c

theorem changeEntry_loaded (hl : s.loaded = true) (tool : JsString)
    (change revert : TrustEntry → TrustEntry) (written : Bool) :
    (s.changeEntry tool change revert written).loaded = true ∧
      (s.changeEntry tool change revert written).wildcardEntries = s.wildcardEntries ∧
      (s.changeEntry tool change revert written).sessionDenied = s.sessionDenied ∧
      (s.changeEntry tool change revert written).sessionAllowed = s.sessionAllowed ∧
      (s.changeEntry tool change revert written).evalCache = s.evalCache.clear ∧
      ∃ settle : TrustEntry → TrustEntry, (settle = id ∨ settle = revert) ∧
        ∀ k, (s.changeEntry tool change revert written).policy.get? k =
          if tool = k then some (settle (change ((s.policy.get? k).getD {}))) else s.policy.get? k := by
  unfold changeEntry ensureLoaded
  simp only [hl, ↓reduceIte]
  cases written with
  | true =>
      refine ⟨rfl, rfl, rfl, rfl, rfl, id, .inl rfl, fun k => ?_⟩
      simp only [↓reduceIte, JsMap.get?_set]
      split
      · rename_i hk
        rw [hk]
        rfl
      · rfl
  | false =>
      refine ⟨rfl, rfl, rfl, rfl, rfl, revert, .inr rfl, fun k => ?_⟩
      simp only [Bool.false_eq_true, ↓reduceIte, JsMap.get?_modify, JsMap.get?_set]
      split
      · rename_i hk
        rw [hk]
        rfl
      · rfl

theorem exists_mem_concat {α : Type*} {P : α → Prop} {as : List α} {a : α} :
    (∃ x ∈ as ++ [a], P x) ↔ (∃ x ∈ as, P x) ∨ P a := by
  simp [or_and_right, exists_or]

theorem Granted.step {p : TrustPolicy} {gs : List Grant} (h : Granted p gs s) (g : Grant) :
    Granted p (gs ++ [g]) (Permission.step s g.toOp) := by
  cases g with
  | allowOnce rule =>
      refine ⟨h.loaded, h.wildcards, h.noDenials, h.deny, fun c => ?_, fun c => ?_⟩
      · change s.policy.has c.tool.name = true ↔ _
        rw [h.own c, exists_mem_concat]
        simp only [Grant.Enters, or_false]
      · change (s.sessionAllowed.set rule.key true).has c.cacheKey = true ↔ _
        rw [exists_mem_concat, ← h.allowed c]
        simp only [JsMap.has_iff, JsMap.get?_set, Grant.Allows]
        by_cases hk : rule.key = c.cacheKey <;> simp [hk]
  | trust rule written =>
      have he := changeEntry_loaded h.loaded rule.tool
        (fun e => { e with allow := some (withPattern rule.pattern e.allow) })
        (fun e => { e with allow := withoutPattern rule.pattern e.allow }) written
      obtain ⟨hl, hw, hd, ha, -, settle, hsettle, hget⟩ := he
      have hdeny : ∀ e, (settle e).deny = e.deny := by
        rcases hsettle with rfl | rfl <;> exact fun _ => rfl
      refine ⟨hl, hw.trans h.wildcards, fun k => ?_, fun k => ?_, fun c => ?_, fun c => ?_⟩
      · exact (congrArg (·.has k) hd).trans (h.noDenials k)
      · change ((s.changeEntry _ _ _ written).policy.get? k).bind _ = _
        rw [hget, ← h.deny k]
        split
        · simp only [Option.bind_some, hdeny]
          cases s.policy.get? k <;> rfl
        · rfl
      · change (s.changeEntry _ _ _ written).policy.has c.tool.name = true ↔ _
        rw [exists_mem_concat, ← or_assoc, ← h.own c]
        simp only [JsMap.has_iff, hget, Grant.Enters]
        by_cases hk : rule.tool = c.tool.name <;> simp [hk]
      · change (s.changeEntry _ _ _ written).sessionAllowed.has c.cacheKey = true ↔ _
        rw [ha, h.allowed c, exists_mem_concat]
        simp only [Grant.Allows, or_false]

theorem Granted.run {p : TrustPolicy} {gs gs' : List Grant} (h : Granted p gs s) :
    Granted p (gs ++ gs') (Lib.run Permission.step s (gs'.map Grant.toOp)) := by
  induction gs' generalizing gs s with
  | nil => simpa using h
  | cons g gs' ih => simpa [List.append_assoc] using ih (h.step g)

theorem grant_hit (hl : s.loaded = true) (g : Grant) (c : Call) : (step s g.toOp).hit c = none := by
  have hclear : (step s g.toOp).evalCache = s.evalCache.clear := by
    cases g with
    | allowOnce rule => rfl
    | trust rule written => exact (changeEntry_loaded hl rule.tool _ _ written).2.2.2.2.1
  unfold hit
  rw [hclear]
  split <;> rfl

theorem grants_hit {p : TrustPolicy} {gs gs' : List Grant} (h : Granted p gs s) (hne : gs' ≠ [])
    (c : Call) : (run step s (gs'.map Grant.toOp)).hit c = none := by
  obtain ⟨front, last, rfl⟩ := (List.eq_nil_or_concat gs').resolve_left hne
  have hfront : Granted p (gs ++ front) (run step s (front.map Grant.toOp)) := h.run
  rw [List.concat_eq_append, List.map_append, List.map_singleton, run_concat]
  exact grant_hit hfront.loaded last c

/-- Whether the rules deny the call after the grants: the entry that denied it is still the one
looked at, unless the grants have made an own one. -/
theorem Granted.denies_iff {p : TrustPolicy} {gs : List Grant} (h : Granted p gs s)
    (hdenies : EffectiveDenies p c) :
    ruleMatches ((s.entryFor c.tool.name).bind TrustEntry.deny) c.subject = true ↔
      p.has c.tool.name = true ∨ ∀ g ∈ gs, ¬ g.Enters c := by
  unfold EffectiveDenies effectiveEntry at hdenies
  unfold entryFor findNamespaceEntry
  rw [h.wildcards]
  have hown := h.own c
  have hd := h.deny c.tool.name
  cases hp : p.get? c.tool.name with
  | some e =>
      have hhas : p.has c.tool.name = true := JsMap.has_iff.mpr ⟨e, hp⟩
      obtain ⟨e', he'⟩ := JsMap.has_iff.mp (hown.mpr (.inl hhas))
      rw [hp] at hdenies
      simp only [hp, he', Option.bind_some] at hd
      simp only [he', hhas, true_or, iff_true]
      simpa [hd] using hdenies
  | none =>
      have hhas : p.has c.tool.name = false := JsMap.has_eq_false.mpr hp
      rw [hp] at hdenies
      simp only [hhas, Bool.false_eq_true, false_or] at hown ⊢
      cases hs : s.policy.get? c.tool.name with
      | some e' =>
          have henters := hown.mp (JsMap.has_iff.mpr ⟨e', hs⟩)
          simp only [hs, hp, Option.bind_some, Option.bind_none] at hd
          have hno : ¬ ∀ g ∈ gs, ¬ g.Enters c := fun hall =>
            henters.elim fun g hg => hall g hg.1 hg.2
          simp [hno, hd, ruleMatches]
      | none =>
          have hnot : ∀ g ∈ gs, ¬ g.Enters c := fun g hg hen =>
            absurd (hown.mpr ⟨g, hg, hen⟩) (by simp [JsMap.has, hs])
          have hsame : ∀ key : Option JsString, (key.bind s.policy.get?).bind TrustEntry.deny =
              (key.bind p.get?).bind TrustEntry.deny := by
            intro key
            cases key with
            | none => rfl
            | some key => exact h.deny key
          refine ⟨fun _ => hnot, fun _ => ?_⟩
          rw [← hdenies]
          exact congrArg (ruleMatches · c.subject) (hsame _)

end WrongStack.Permission

/-!
# Rules that stay

A recorded rule stays in the policy and in the trust file through all that the policy itself does, unless
the same rule is recorded again and that fails.
-/

namespace WrongStack.Permission

open Lib Utils State

variable {s : State} {c c' : Call} {kind : RuleKind} {rule : Rule}

/-! ## What an evaluation leaves -/

theorem evaluateLoaded_frame (s : State) (c : Call) : (s.evaluateLoaded c).2.policy = s.policy ∧
    (s.evaluateLoaded c).2.trustFile = s.trustFile ∧ (s.evaluateLoaded c).2.loaded = s.loaded ∧
    (s.evaluateLoaded c).2.rules = s.rules := by
  have he := evaluation s c
  generalize (s.evaluateLoaded c).1 = d at he
  generalize (s.evaluateLoaded c).2 = s' at he ⊢
  cases he <;> exact ⟨rfl, rfl, rfl, rfl⟩

theorem evaluate_of_loaded (hl : s.loaded = true) (c : Call) : s.evaluate c = s.evaluateLoaded c := by
  rw [evaluate, State.ensureLoaded, if_pos hl]

theorem prompted_state (s : State) (c : Call) (answer : Answer) (written : Bool) :
    (s.evaluatePrompted c answer written).state = (s.evaluate c).2 ∨
      (answer = .always ∧ (s.evaluatePrompted c answer written).state = (s.evaluate c).2.trust c.rule written) ∨
      (answer = .deny ∧ (s.evaluatePrompted c answer written).state = (s.evaluate c).2.deny c.rule written) := by
  unfold evaluatePrompted
  simp only
  split
  · exact .inl rfl
  · split
    · split
      · exact .inr (.inr ⟨‹_›, rfl⟩)
      · exact .inl rfl
    · split
      · exact .inr (.inl ⟨‹_›, rfl⟩)
      · split
        · exact .inr (.inr ⟨‹_›, rfl⟩)
        · exact .inl rfl

theorem prompted_of_decided {answer : Answer} {written : Bool} (h : (s.evaluate c).1.permission ≠ .confirm) :
    (s.evaluatePrompted c answer written).prompted = false ∧
      (s.evaluatePrompted c answer written).decision = some (s.evaluate c).1 := by
  unfold evaluatePrompted
  simp only [if_pos h, and_self]

/-! ## Rules in the policy -/

/-- The rule stands in the entry of its tool. -/
def Stands (kind : RuleKind) (rule : Rule) (p : TrustPolicy) : Prop :=
  ∃ e, p.get? rule.tool = some e ∧ rule.pattern ∈ (kind.patterns e).getD []

structure Kept (kind : RuleKind) (rule : Rule) (s : State) : Prop where
  loaded : s.loaded = true
  policy : Stands kind rule s.policy
  file : s.trustFile ≠ .unreadable
  parsed : ∀ p, s.trustFile = .parsed p → Stands kind rule p

/-- A change of the trust file from outside that leaves the rule in it, or no change of it that takes the
rule away again. -/
def KeepsRule (kind : RuleKind) (rule : Rule) : Op → Prop
  | .trust r written => ¬ (kind = .trust ∧ r = rule ∧ written = false)
  | .deny r written => ¬ (kind = .deny ∧ r = rule ∧ written = false)
  | .edit file => file ≠ .unreadable ∧ ∀ p, file = .parsed p → Stands kind rule p
  | _ => True

theorem mem_withPattern {x pattern : JsString} {ps : Option (List JsString)} :
    x ∈ withPattern pattern ps ↔ x ∈ ps.getD [] ∨ x = pattern := by
  simp [withPattern, List.mem_eraseDups]

theorem withPattern_nodup (pattern : JsString) (ps : Option (List JsString)) :
    (withPattern pattern ps).Nodup := nodup_eraseDups _

/-- The patterns of a tool once a write is over. -/
def settled (written : Bool) (pattern : JsString) (ps : Option (List JsString)) : List JsString :=
  if written then withPattern pattern ps else (withPattern pattern ps).erase pattern

theorem mem_settled {written : Bool} {pattern x : JsString} {ps : Option (List JsString)} :
    x ∈ settled written pattern ps ↔
      if x = pattern then written = true else x ∈ ps.getD [] := by
  unfold settled
  cases written with
  | true =>
      rw [if_pos rfl, mem_withPattern]
      by_cases hx : x = pattern <;> simp [hx]
  | false =>
      rw [if_neg Bool.false_ne_true, (withPattern_nodup pattern ps).mem_erase_iff, mem_withPattern]
      by_cases hx : x = pattern <;> simp [hx]

/-- What `trust` and `deny` make of a loaded policy. -/
structure Changed (kind : RuleKind) (rule : Rule) (written : Bool) (s t : State) : Prop where
  loaded : t.loaded = true
  wildcards : t.wildcardEntries = s.wildcardEntries
  denied : t.sessionDenied = s.sessionDenied
  allowed : t.sessionAllowed = s.sessionAllowed
  cache : t.evalCache = s.evalCache.clear
  yolo : t.yolo = s.yolo
  file : t.trustFile = if written then .parsed t.policy else s.trustFile
  destructive : t.yoloDestructive = s.yoloDestructive
  keys : ∀ e, t.policy.keys = (s.policy.set rule.tool e).keys
  policy : ∀ k, t.policy.get? k = if rule.tool = k then
      some (kind.put (some (settled written rule.pattern (kind.patterns ((s.policy.get? k).getD {}))))
        ((s.policy.get? k).getD {}))
    else s.policy.get? k

theorem changed_change (hl : s.loaded = true) (kind : RuleKind) (rule : Rule) (written : Bool) :
    Changed kind rule written s (s.change kind rule written) := by
  have hs : s.ensureLoaded = s := by rw [State.ensureLoaded, if_pos hl]
  cases written with
  | true =>
      have hpolicy : (s.change kind rule true).policy = s.policy.set rule.tool
          (kind.put (some (withPattern rule.pattern (kind.patterns ((s.policy.get? rule.tool).getD {}))))
            ((s.policy.get? rule.tool).getD {})) := by
        cases kind <;> simp only [change, State.trust, State.deny, changeEntry, hs] <;> rfl
      refine ⟨?_, ?_, ?_, ?_, ?_, ?_, ?_, ?_, fun e => ?_, fun k => ?_⟩
      case refine_9 => rw [hpolicy, JsMap.keys_set, JsMap.keys_set]
      case refine_10 =>
        rw [hpolicy, JsMap.get?_set]
        split
        · rename_i hk
          rw [hk]
          rfl
        · rfl
      all_goals cases kind <;> simp only [change, State.trust, State.deny, changeEntry, hs] <;> first | rfl | exact hl
  | false =>
      rw [change_false]
      have hbegin : (s.beginChange kind rule).policy = s.policy.set rule.tool
          (kind.put (some (withPattern rule.pattern (kind.patterns ((s.policy.get? rule.tool).getD {}))))
            ((s.policy.get? rule.tool).getD {})) := by
        simp only [beginChange, hs]
      refine ⟨?_, ?_, ?_, ?_, ?_, ?_, ?_, ?_, fun e => ?_, fun k => ?_⟩
      case refine_9 => rw [failChange, JsMap.keys_modify, hbegin, JsMap.keys_set, JsMap.keys_set]
      case refine_10 =>
        simp only [failChange, JsMap.get?_modify, hbegin, JsMap.get?_set]
        split
        · rename_i hk
          rw [← hk]
          simp [withoutPattern, settled]
        · rfl
      all_goals simp only [failChange, beginChange, hs] <;> first | rfl | exact hl

theorem Stands.changed {k : RuleKind} {r : Rule} {written : Bool} {t : State} (h : Stands kind rule s.policy)
    (hc : Changed k r written s t) (hkeeps : ¬ (kind = k ∧ r = rule ∧ written = false)) :
    Stands kind rule t.policy := by
  obtain ⟨e, he, hmem⟩ := h
  by_cases htool : r.tool = rule.tool
  · have hget := hc.policy rule.tool
    rw [if_pos htool, he, Option.getD_some] at hget
    refine ⟨_, hget, ?_⟩
    by_cases hkind : k = kind
    · subst hkind
      rw [RuleKind.patterns_put, Option.getD_some, mem_settled]
      split
      · rename_i hpattern
        by_contra hfails
        have hrule : r = rule := by
          cases r
          cases rule
          cases htool
          cases hpattern
          rfl
        exact hkeeps ⟨rfl, hrule, by simpa using hfails⟩
      · exact hmem
    · rwa [RuleKind.patterns_put_ne hkind]
  · exact ⟨e, by rw [hc.policy, if_neg htool, he], hmem⟩

theorem Kept.changed {k : RuleKind} {r : Rule} {written : Bool} {t : State} (h : Kept kind rule s)
    (hc : Changed k r written s t) (hkeeps : ¬ (kind = k ∧ r = rule ∧ written = false)) : Kept kind rule t := by
  have hpolicy := h.policy.changed hc hkeeps
  refine ⟨hc.loaded, hpolicy, ?_, fun p hp => ?_⟩
  · rw [hc.file]
    split
    · exact TrustFile.noConfusion
    · exact h.file
  · rw [hc.file] at hp
    split at hp
    · cases hp
      exact hpolicy
    · exact h.parsed p hp

theorem Kept.evaluate (h : Kept kind rule s) (c : Call) : Kept kind rule (s.evaluate c).2 := by
  rw [evaluate_of_loaded h.loaded]
  obtain ⟨hpolicy, hfile, hloaded, -⟩ := evaluateLoaded_frame s c
  exact ⟨hloaded.trans h.loaded, hpolicy ▸ h.policy, hfile ▸ h.file, hfile ▸ h.parsed⟩

theorem Kept.step (h : Kept kind rule s) {o : Op} (ho : KeepsRule kind rule o) : Kept kind rule (step s o) := by
  cases o with
  | evaluate call => exact h.evaluate call
  | trust r written => exact h.changed (changed_change h.loaded .trust r written) ho
  | deny r written => exact h.changed (changed_change h.loaded .deny r written) ho
  | allowOnce r => exact ⟨h.loaded, h.policy, h.file, h.parsed⟩
  | denyOnce r => exact ⟨h.loaded, h.policy, h.file, h.parsed⟩
  | setYolo enabled => exact ⟨h.loaded, h.policy, h.file, h.parsed⟩
  | setYoloDestructive enabled => exact ⟨h.loaded, h.policy, h.file, h.parsed⟩
  | reload =>
      refine ⟨rfl, ?_, h.file, h.parsed⟩
      change Stands kind rule s.reload.policy
      unfold State.reload
      cases hfile : s.trustFile with
      | unreadable => exact absurd hfile h.file
      | unusable => exact h.policy
      | parsed p => exact h.parsed p hfile
  | edit file => exact ⟨h.loaded, h.policy, ho.1, ho.2⟩

theorem kept_change (hl : s.loaded = true) (kind : RuleKind) (rule : Rule) :
    Kept kind rule (s.change kind rule true) := by
  have hc := changed_change hl kind rule true
  have hpolicy : Stands kind rule (s.change kind rule true).policy := by
    refine ⟨_, by rw [hc.policy, if_pos rfl], ?_⟩
    rw [RuleKind.patterns_put, Option.getD_some, mem_settled, if_pos rfl]
  refine ⟨hc.loaded, hpolicy, ?_, fun p hp => ?_⟩
  · rw [hc.file, if_pos rfl]
    exact TrustFile.noConfusion
  · rw [hc.file, if_pos rfl] at hp
    cases hp
    exact hpolicy

/-! ## The subject of a call -/

theorem matches_of_stands {e : TrustEntry} {p : TrustPolicy} (hp : p.get? c.tool.name = some e)
    (hstands : Stands kind c.rule p) (hsubject : truthyString c.subject ≠ none) :
    ruleMatches (kind.patterns e) c.subject = true := by
  obtain ⟨e', he', hmem⟩ := hstands
  have hsame : e' = e := Option.some.inj (he'.symm.trans hp)
  subst hsame
  cases hs : c.subject with
  | none => simp [hs, truthyString] at hsubject
  | some subject =>
      have htruthy : truthyString (some subject) = some subject := by
        cases subject with
        | nil => simp [hs, truthyString] at hsubject
        | cons x xs => rfl
      have hpattern : c.rule.pattern = subject := by simp [Call.rule, hs]
      rw [hpattern] at hmem
      unfold ruleMatches
      rw [htruthy]
      cases hps : kind.patterns e' with
      | none =>
          rw [hps] at hmem
          cases hmem
      | some ps =>
          rw [hps] at hmem
          simp only [matchesTrust, Bool.or_eq_true]
          exact .inl (List.contains_iff_mem.mpr hmem)

theorem entryFor_own {e : TrustEntry} (h : s.policy.get? c.tool.name = some e) :
    s.entryFor c.tool.name = some e := by
  rw [entryFor, h]
  rfl

/-! ## Denied calls -/

/-- Calls with the key of `c` are for its tool and subject. -/
def SameTarget (c c' : Call) : Prop := c'.cacheKey = c.cacheKey → c'.tool.name = c.tool.name ∧ c'.subject = c.subject

/-- The step keeps the denial of `c`: it neither takes the rule away nor lets the call pass once, and it
does not evaluate another call under the same key. -/
def KeepsDenial (c : Call) : PromptOp → Prop
  | .call (.allowOnce r) => r.key ≠ c.cacheKey
  | .call (.evaluate c') => SameTarget c c'
  | .call op => KeepsRule .deny c.rule op
  | .prompted c' answer written => SameTarget c c' ∧ ¬ (answer = .deny ∧ c'.rule = c.rule ∧ written = false)

structure Denied (c : Call) (s : State) : Prop extends Kept .deny c.rule s where
  notAllowed : s.sessionAllowed.has c.cacheKey = false
  cached : ∀ d, s.evalCache.store.get? c.cacheKey = some d → d.permission = .deny

theorem Denied.verdict (h : Denied c s) (hsubject : truthyString c.subject ≠ none)
    (hc' : c'.tool.name = c.tool.name ∧ c'.subject = c.subject) : (s.verdict c').decision.permission = .deny := by
  obtain ⟨e, he, hmem⟩ := h.policy
  have hmatch := matches_of_stands he h.policy hsubject
  refine verdict_deny_iff.mpr (.inl ?_)
  rw [hc'.1, hc'.2, entryFor_own he]
  exact hmatch

/-- A denied call stays denied when it or another call is evaluated. -/
theorem Denied.evaluate (h : Denied c s) (hsubject : truthyString c.subject ≠ none) (hc' : SameTarget c c') :
    Denied c (s.evaluate c').2 := by
  have hkept := h.toKept.evaluate c'
  rw [evaluate_of_loaded h.loaded] at hkept ⊢
  have hverdict := @Denied.verdict s c c' h hsubject
  have he := evaluation s c'
  generalize (s.evaluateLoaded c').1 = d at he
  generalize (s.evaluateLoaded c').2 = t at he hkept ⊢
  cases he with
  | hit _ hcache =>
      refine ⟨hkept, h.notAllowed, fun d hd => h.cached d ?_⟩
      rwa [hcache] at hd
  | denied _ _ hdeny hcache =>
      refine ⟨hkept, h.notAllowed, fun d hd => ?_⟩
      rcases hcache _ d hd with ⟨-, rfl⟩ | hold
      · exact hdeny
      · exact h.cached d hold
  | allowed _ _ hallowed _ hcache =>
      refine ⟨hkept, ?_, fun d hd => h.cached d ?_⟩
      · rw [JsMap.has_eq_false, JsMap.get?_delete, JsMap.has_eq_false.mp h.notAllowed, ite_self]
      · rwa [hcache] at hd
  | ruled _ _ _ hcache =>
      refine ⟨hkept, h.notAllowed, fun d hd => ?_⟩
      rcases hcache _ d hd with ⟨hkey, hv⟩ | hold
      · have hdeny := hverdict (hc' hkey)
        rwa [hv] at hdeny
      · exact h.cached d hold

theorem Denied.decision (h : Denied c s) (hsubject : truthyString c.subject ≠ none)
    (htool : c'.tool = c.tool) (hinput : c'.input = c.input) : (s.evaluate c').1.permission = .deny := by
  have hsame : c'.tool.name = c.tool.name ∧ c'.subject = c.subject := by
    simp only [Call.subject, htool, hinput, and_self]
  have hkey : c'.cacheKey = c.cacheKey := by simp only [Call.cacheKey, hsame]
  have hverdict := h.verdict hsubject hsame
  rw [evaluate_of_loaded h.loaded]
  have he := evaluation s c'
  generalize (s.evaluateLoaded c').1 = d at he ⊢
  generalize (s.evaluateLoaded c').2 = t at he
  cases he with
  | hit hhit _ =>
      unfold hit at hhit
      split at hhit
      · cases hhit
      · exact h.cached _ (hkey ▸ hhit)
  | denied _ _ hdeny _ => exact hdeny
  | allowed _ _ hallowed _ _ =>
      rw [hkey, h.notAllowed] at hallowed
      cases hallowed
  | ruled _ _ _ _ => exact hverdict

theorem Denied.changed {k : RuleKind} {r : Rule} {written : Bool} {t : State} (h : Denied c s)
    (hc : Changed k r written s t) (hkeeps : ¬ (.deny = k ∧ r = c.rule ∧ written = false)) : Denied c t := by
  refine ⟨h.toKept.changed hc hkeeps, by rw [hc.allowed]; exact h.notAllowed, fun d hd => ?_⟩
  rw [hc.cache] at hd
  cases hd

theorem Denied.step (h : Denied c s) (hsubject : truthyString c.subject ≠ none) {o : PromptOp}
    (ho : KeepsDenial c o) : Denied c (promptStep s o) := by
  cases o with
  | call op =>
      cases op with
      | evaluate c' => exact h.evaluate hsubject ho
      | trust r written => exact h.changed (changed_change h.loaded .trust r written) ho
      | deny r written => exact h.changed (changed_change h.loaded .deny r written) ho
      | allowOnce r =>
          refine ⟨⟨h.loaded, h.policy, h.file, h.parsed⟩, ?_, fun d hd => by cases hd⟩
          change (s.sessionAllowed.set r.key true).has c.cacheKey = false
          rw [JsMap.has_eq_false, JsMap.get?_set, if_neg ho, JsMap.has_eq_false.mp h.notAllowed]
      | denyOnce r => exact ⟨⟨h.loaded, h.policy, h.file, h.parsed⟩, h.notAllowed, fun d hd => by cases hd⟩
      | setYolo enabled =>
          refine ⟨⟨h.loaded, h.policy, h.file, h.parsed⟩, h.notAllowed, fun d hd => ?_⟩
          change (if s.yolo ≠ enabled then s.evalCache.clear else s.evalCache).store.get? _ = _ at hd
          split at hd
          · cases hd
          · exact h.cached d hd
      | setYoloDestructive enabled =>
          refine ⟨⟨h.loaded, h.policy, h.file, h.parsed⟩, h.notAllowed, fun d hd => ?_⟩
          change (if s.yoloDestructive ≠ enabled then s.evalCache.clear else s.evalCache).store.get? _ = _ at hd
          split at hd
          · cases hd
          · exact h.cached d hd
      | reload => exact ⟨h.toKept.step (o := .reload) ho, rfl, fun d hd => by cases hd⟩
      | edit file => exact ⟨h.toKept.step (o := .edit file) ho, h.notAllowed, h.cached⟩
  | prompted c' answer written =>
      have hnext := h.evaluate hsubject ho.1
      rcases prompted_state s c' answer written with hstate | ⟨-, hstate⟩ | ⟨hanswer, hstate⟩
      · rw [promptStep, hstate]
        exact hnext
      · rw [promptStep, hstate]
        exact hnext.changed (changed_change hnext.loaded .trust c'.rule written) (fun hno => by cases hno.1)
      · rw [promptStep, hstate]
        exact hnext.changed (changed_change hnext.loaded .deny c'.rule written)
          fun hno => ho.2 ⟨hanswer, hno.2⟩

/-! ## Trusted calls -/

def SameCall (c c' : Call) : Prop := c'.cacheKey = c.cacheKey → c'.tool = c.tool ∧ c'.subject = c.subject

/-- The step keeps the approval of `c`. -/
def KeepsTrust (c : Call) : PromptOp → Prop
  | .call (.denyOnce r) => r.key ≠ c.cacheKey
  | .call (.evaluate c') => SameCall c c'
  | .call op => KeepsRule .trust c.rule op
  | .prompted c' answer written => SameCall c c' ∧ ¬ (answer = .always ∧ c'.rule = c.rule ∧ written = false)

structure Trusted (c : Call) (s : State) : Prop extends Kept .trust c.rule s where
  notDenied : s.sessionDenied.has c.cacheKey = false
  cached : ∀ d, s.evalCache.store.get? c.cacheKey = some d →
    ∃ c', c'.tool = c.tool ∧ c'.subject = c.subject ∧ s.verdict c' = ⟨d, true⟩

theorem Trusted.evaluate (h : Trusted c s) (hc' : SameCall c c') : Trusted c (s.evaluate c').2 := by
  have hkept := h.toKept.evaluate c'
  rw [evaluate_of_loaded h.loaded] at hkept ⊢
  have hrules := (evaluateLoaded_frame s c').2.2.2
  have he := evaluation s c'
  generalize (s.evaluateLoaded c').1 = d at he
  generalize (s.evaluateLoaded c').2 = t at he hkept hrules ⊢
  have hold : ∀ d, s.evalCache.store.get? c.cacheKey = some d →
      ∃ c', c'.tool = c.tool ∧ c'.subject = c.subject ∧ t.verdict c' = ⟨d, true⟩ := by
    intro d hd
    obtain ⟨c', htool, hsubject, hv⟩ := h.cached d hd
    exact ⟨c', htool, hsubject, by rw [verdict_congr hrules, hv]⟩
  cases he with
  | hit _ hcache => exact ⟨hkept, h.notDenied, fun d hd => hold d (by rwa [hcache] at hd)⟩
  | denied _ hdenied _ hcache =>
      refine ⟨hkept, h.notDenied, fun d hd => ?_⟩
      rcases hcache _ d hd with ⟨hkey, -⟩ | hd
      · rw [hkey, h.notDenied] at hdenied
        cases hdenied
      · exact hold d hd
  | allowed _ _ _ _ hcache => exact ⟨hkept, h.notDenied, fun d hd => hold d (by rwa [hcache] at hd)⟩
  | ruled _ _ _ hcache =>
      refine ⟨hkept, h.notDenied, fun d hd => ?_⟩
      rcases hcache _ d hd with ⟨hkey, hv⟩ | hd
      · obtain ⟨htool, hsubject⟩ := hc' hkey
        exact ⟨c', htool, hsubject, by rw [verdict_congr hrules, hv]⟩
      · exact hold d hd

theorem Trusted.changed {k : RuleKind} {r : Rule} {written : Bool} {t : State} (h : Trusted c s)
    (hc : Changed k r written s t) (hkeeps : ¬ (.trust = k ∧ r = c.rule ∧ written = false)) : Trusted c t := by
  refine ⟨h.toKept.changed hc hkeeps, by rw [hc.denied]; exact h.notDenied, fun d hd => ?_⟩
  rw [hc.cache] at hd
  cases hd

theorem Trusted.step (h : Trusted c s) {o : PromptOp} (ho : KeepsTrust c o) : Trusted c (promptStep s o) := by
  have hkeep : ∀ t : State, t.rules = s.rules → ∀ d, s.evalCache.store.get? c.cacheKey = some d →
      ∃ c', c'.tool = c.tool ∧ c'.subject = c.subject ∧ t.verdict c' = ⟨d, true⟩ := by
    intro t ht d hd
    obtain ⟨c', htool, hsubject, hv⟩ := h.cached d hd
    exact ⟨c', htool, hsubject, by rw [verdict_congr ht, hv]⟩
  cases o with
  | call op =>
      cases op with
      | evaluate c' => exact h.evaluate ho
      | trust r written => exact h.changed (changed_change h.loaded .trust r written) ho
      | deny r written => exact h.changed (changed_change h.loaded .deny r written) ho
      | allowOnce r => exact ⟨⟨h.loaded, h.policy, h.file, h.parsed⟩, h.notDenied, fun d hd => by cases hd⟩
      | denyOnce r =>
          refine ⟨⟨h.loaded, h.policy, h.file, h.parsed⟩, ?_, fun d hd => by cases hd⟩
          change (s.sessionDenied.set r.key true).has c.cacheKey = false
          rw [JsMap.has_eq_false, JsMap.get?_set, if_neg ho, JsMap.has_eq_false.mp h.notDenied]
      | setYolo enabled =>
          refine ⟨⟨h.loaded, h.policy, h.file, h.parsed⟩, h.notDenied, fun d hd => ?_⟩
          by_cases hsame : s.yolo = enabled
          · refine hkeep _ (by simp [promptStep, Permission.step, setYolo, rules, hsame]) d ?_
            simpa [promptStep, Permission.step, setYolo, hsame] using hd
          · simp [promptStep, Permission.step, setYolo, hsame, LruCache.clear] at hd
      | setYoloDestructive enabled =>
          refine ⟨⟨h.loaded, h.policy, h.file, h.parsed⟩, h.notDenied, fun d hd => ?_⟩
          refine hkeep _ rfl d ?_
          change (if s.yoloDestructive ≠ enabled then s.evalCache.clear else s.evalCache).store.get? _ = _ at hd
          split at hd
          · cases hd
          · exact hd
      | reload => exact ⟨h.toKept.step (o := .reload) ho, rfl, fun d hd => by cases hd⟩
      | edit file => exact ⟨h.toKept.step (o := .edit file) ho, h.notDenied, hkeep _ rfl⟩
  | prompted c' answer written =>
      have hnext := h.evaluate ho.1
      rcases prompted_state s c' answer written with hstate | ⟨hanswer, hstate⟩ | ⟨-, hstate⟩
      · rw [promptStep, hstate]
        exact hnext
      · rw [promptStep, hstate]
        exact hnext.changed (changed_change hnext.loaded .trust c'.rule written)
          fun hno => ho.2 ⟨hanswer, hno.2⟩
      · rw [promptStep, hstate]
        exact hnext.changed (changed_change hnext.loaded .deny c'.rule written) (fun hno => by cases hno.1)

/-- A deny rule matches the call, in the entry that `evaluate` looks at. -/
def DenyMatches (s : State) (c : Call) : Prop :=
  ruleMatches ((s.entryFor c.tool.name).bind TrustEntry.deny) c.subject = true

theorem Trusted.verdict (h : Trusted c s) (hsubject : truthyString c.subject ≠ none) (hyolo : s.yolo = false)
    (hdefault : c.tool.permission ≠ .deny) (hno : ¬ DenyMatches s c) (htool : c'.tool = c.tool)
    (hsame : c'.subject = c.subject) : (s.verdict c').decision.permission = .auto := by
  obtain ⟨e, he, hmem⟩ := h.policy
  have hmatch := matches_of_stands he h.policy hsubject
  have hentry : s.entryFor c'.tool.name = some e := by
    rw [htool]
    exact entryFor_own he
  have hallow : ruleMatches ((some e).bind TrustEntry.allow) c.subject = true := hmatch
  have hdeny : ¬ ruleMatches ((some e).bind TrustEntry.deny) c.subject = true := by
    rwa [DenyMatches, entryFor_own he] at hno
  rw [State.verdict, applyRules, hentry, hsame, htool, hyolo, if_neg hdeny, if_neg hdefault, Bool.false_and,
    if_neg Bool.false_ne_true, if_pos hallow]

theorem Trusted.decision (h : Trusted c s) (hsubject : truthyString c.subject ≠ none) (hyolo : s.yolo = false)
    (hdefault : c.tool.permission ≠ .deny) (hno : ¬ DenyMatches s c) (htool : c'.tool = c.tool)
    (hinput : c'.input = c.input) : (s.evaluate c').1.permission = .auto := by
  have hsame : c'.subject = c.subject := by simp only [Call.subject, htool, hinput]
  have hkey : c'.cacheKey = c.cacheKey := by simp only [Call.cacheKey, hsame, htool]
  have hverdict : ∀ c'' : Call, c''.tool = c.tool → c''.subject = c.subject →
      (s.verdict c'').decision.permission = .auto := fun _ => h.verdict hsubject hyolo hdefault hno
  rw [evaluate_of_loaded h.loaded]
  have he := evaluation s c'
  generalize (s.evaluateLoaded c').1 = d at he ⊢
  generalize (s.evaluateLoaded c').2 = t at he
  cases he with
  | hit hhit _ =>
      unfold hit at hhit
      split at hhit
      · cases hhit
      · obtain ⟨c'', htool', hsame', hv⟩ := h.cached _ (hkey ▸ hhit)
        have hauto := hverdict c'' htool' hsame'
        rwa [hv] at hauto
  | denied _ hdenied _ _ =>
      rw [hkey, h.notDenied] at hdenied
      cases hdenied
  | allowed _ _ _ hauto _ => exact hauto
  | ruled _ _ _ _ => exact hverdict c' htool hsame

/-! ## From the recorded answer on -/

theorem change_ensureLoaded (s : State) (kind : RuleKind) (rule : Rule) (written : Bool) :
    s.change kind rule written = s.ensureLoaded.change kind rule written := by
  have hidem : s.ensureLoaded.ensureLoaded = s.ensureLoaded := by
    conv_lhs => rw [State.ensureLoaded, if_pos (ensureLoaded_loaded s)]
  cases kind <;> simp only [change, State.trust, State.deny, changeEntry, hidem]

theorem denied_deny (hallowed : s.ensureLoaded.sessionAllowed.has c.cacheKey = false) :
    Denied c (s.deny c.rule true) := by
  have hc := changed_change (ensureLoaded_loaded s) .deny c.rule true
  have hkept := kept_change (ensureLoaded_loaded s) .deny c.rule
  rw [← change_ensureLoaded] at hc hkept
  refine ⟨hkept, ?_, fun d hd => ?_⟩
  · exact (congrArg (·.has c.cacheKey) hc.allowed).trans hallowed
  · rw [show (s.deny c.rule true).evalCache = _ from hc.cache] at hd
    cases hd

theorem trusted_trust (hdenied : s.ensureLoaded.sessionDenied.has c.cacheKey = false) :
    Trusted c (s.trust c.rule true) := by
  have hc := changed_change (ensureLoaded_loaded s) .trust c.rule true
  have hkept := kept_change (ensureLoaded_loaded s) .trust c.rule
  rw [← change_ensureLoaded] at hc hkept
  refine ⟨hkept, ?_, fun d hd => ?_⟩
  · exact (congrArg (·.has c.cacheKey) hc.denied).trans hdenied
  · rw [show (s.trust c.rule true).evalCache = _ from hc.cache] at hd
    cases hd

end WrongStack.Permission

import WrongStack.Consensus.Protocol

/-!
# Ballots

A ballot lists who voted what. The outcome of `resolve` is a function of the ballot that does not
depend on its order: a veto, a quorum, and enough approvals by number and by weight.
-/

namespace WrongStack.Consensus

open Lib

abbrev Ballot := List (String × VoteValue)

def ballotOf (votes : List VoteRecord) : Ballot := votes.map fun v => (v.agentId, v.value)

theorem ballotOf_putVote (vote : VoteRecord) (votes : List VoteRecord) :
    ballotOf (putVote vote votes) = JsMap.setList vote.agentId vote.value (ballotOf votes) := by
  induction votes with
  | nil => rfl
  | cons v votes ih =>
      by_cases h : v.agentId = vote.agentId
      · simp [putVote, ballotOf, JsMap.setList, h]
      · simp only [putVote, h, ↓reduceIte, ballotOf, List.map_cons, JsMap.setList]
        exact congrArg _ ih

/-! ## The rules -/

namespace Protocol

variable (p : Protocol)

def hasVeto (voterId : String) : Bool :=
  (p.voters.get? voterId).any fun config => config.veto && p.rules.vetoRoles.contains config.role

def weightOfVoter (voterId : String) : ℚ := ((p.voters.get? voterId).map VoterConfig.weight).getD 1

def approving (b : Ballot) : List String := (b.filter fun q => q.2 == .approve).map Prod.fst

def Vetoed (b : Ballot) : Prop := ∃ q ∈ b, q.2 = .reject ∧ p.hasVeto q.1 = true

def Quorate (eligible : List String) (b : Ballot) : Prop :=
  ⌈eligible.length * p.rules.quorumFraction⌉ ≤ b.length

def Approves (b : Ballot) : Prop :=
  ⌈b.length * p.rules.approvalFraction⌉ ≤ (approving b).length ∧
    ∀ fraction ∈ p.rules.approvalWeightFraction,
      p.totalWeight * fraction ≤ ((approving b).map p.weightOfVoter).sum

/-- The ballot gives the change this status. -/
def Gives (eligible : List String) (b : Ballot) : ChangeStatus → Prop
  | .approved => ¬ p.Vetoed b ∧ p.Quorate eligible b ∧ p.Approves b
  | .rejected => p.Vetoed b ∨ (p.Quorate eligible b ∧ ¬ p.Approves b)
  | _ => False

instance (b : Ballot) : Decidable (p.Vetoed b) :=
  inferInstanceAs (Decidable (∃ q ∈ b, q.2 = .reject ∧ p.hasVeto q.1 = true))

instance (eligible : List String) (b : Ballot) : Decidable (p.Quorate eligible b) :=
  inferInstanceAs (Decidable (⌈eligible.length * p.rules.quorumFraction⌉ ≤ (b.length : Int)))

instance (b : Ballot) : Decidable (p.Approves b) :=
  inferInstanceAs (Decidable (⌈b.length * p.rules.approvalFraction⌉ ≤ ((approving b).length : Int) ∧
    ∀ fraction ∈ p.rules.approvalWeightFraction,
      p.totalWeight * fraction ≤ ((approving b).map p.weightOfVoter).sum))

def outcomeOf (eligible : List String) (b : Ballot) : Outcome :=
  if p.Vetoed b then .vetoed
  else if ¬ p.Quorate eligible b then .quorumNotMet
  else if p.Approves b then .approved
  else .rejected

end Protocol

open Protocol

variable {p : Protocol} {changeId : String} {eligible : List String} {votes : List VoteRecord}

theorem approving_ballotOf (votes : List VoteRecord) :
    approving (ballotOf votes) = (withValue .approve votes).map VoteRecord.agentId := by
  simp only [approving, ballotOf, withValue, List.filter_map, List.map_map]
  rfl

theorem vetoed_iff : p.Vetoed (ballotOf votes) ↔
    ((withValue .reject votes).findSome? p.vetoing).isSome = true := by
  rw [List.findSome?_isSome_iff]
  have hveto : ∀ v, (p.vetoing v).isSome = p.hasVeto v.agentId := by
    intro v
    unfold vetoing hasVeto
    cases p.voters.get? v.agentId with
    | none => rfl
    | some config =>
        simp only [Option.any_some]
        cases config.veto && p.rules.vetoRoles.contains config.role <;> rfl
  simp only [Vetoed, ballotOf, List.mem_map, withValue, List.mem_filter, beq_iff_eq, hveto]
  constructor
  · rintro ⟨_, ⟨v, hv, rfl⟩, hr, ht⟩
    exact ⟨v, ⟨hv, hr⟩, ht⟩
  · rintro ⟨v, ⟨hv, hr⟩, ht⟩
    exact ⟨_, ⟨v, hv, rfl⟩, hr, ht⟩

theorem resolve_outcome :
    (p.resolve changeId votes eligible).outcome = p.outcomeOf eligible (ballotOf votes) := by
  have happrove : p.Approves (ballotOf votes) ↔
      p.approvalRequired votes ≤ (withValue .approve votes).length ∧
        ∀ fraction ∈ p.rules.approvalWeightFraction,
          p.totalWeight * fraction ≤ p.weightOfAll (withValue .approve votes) := by
    simp only [Approves, approving_ballotOf, List.length_map, List.map_map]
    simp only [ballotOf, List.length_map]
    rfl
  have hquorate : p.Quorate eligible (ballotOf votes) ↔ p.quorumRequired eligible ≤ votes.length := by
    simp only [Quorate, ballotOf, List.length_map]
    rfl
  unfold outcomeOf resolve
  cases hveto : (withValue .reject votes).findSome? p.vetoing with
  | some config =>
      have hv : p.Vetoed (ballotOf votes) := vetoed_iff.mpr (by rw [hveto]; rfl)
      simp only [hveto, hv, ↓reduceIte]
  | none =>
      have hv : ¬ p.Vetoed (ballotOf votes) := fun h => by
        rw [vetoed_iff, hveto] at h
        cases h
      simp only [hveto, hv, ↓reduceIte, hquorate, happrove]
      by_cases hq : p.quorumRequired eligible ≤ votes.length
      · by_cases ha : p.approvalRequired votes ≤ (withValue .approve votes).length
        · cases hf : p.rules.approvalWeightFraction with
          | none => simp [hq, ha]
          | some fraction =>
              by_cases hw : p.weightOfAll (withValue .approve votes) < p.totalWeight * fraction
              · simp [hq, ha, hw]
              · simp [hq, ha, hw, not_lt.mp hw]
        · cases hf : p.rules.approvalWeightFraction with
          | none => simp [hq, ha]
          | some fraction => simp [hq, ha]
      · simp [hq]

theorem outcomeOf_ne_pending (b : Ballot) : p.outcomeOf eligible b ≠ .pending := by
  unfold outcomeOf
  split
  · simp
  · split
    · simp
    · split <;> simp

theorem outcomeOf_perm {b b' : Ballot} (h : b.Perm b') : p.outcomeOf eligible b = p.outcomeOf eligible b' := by
  have hveto : p.Vetoed b ↔ p.Vetoed b' := by simp only [Vetoed, h.mem_iff]
  have happroving : (approving b).Perm (approving b') := (h.filter _).map _
  have hquorate : p.Quorate eligible b ↔ p.Quorate eligible b' := by simp only [Quorate, h.length_eq]
  have happroves : p.Approves b ↔ p.Approves b' := by
    simp only [Approves, h.length_eq, happroving.length_eq, (happroving.map _).sum_eq]
  simp only [outcomeOf, hveto, hquorate, happroves]

theorem gives_iff {b : Ballot} {status : ChangeStatus} (h : status = .approved ∨ status = .rejected) :
    toChangeStatus (p.outcomeOf eligible b) = status ↔ p.Gives eligible b status := by
  unfold outcomeOf
  rcases h with rfl | rfl
  · by_cases hv : p.Vetoed b <;> by_cases hq : p.Quorate eligible b <;> by_cases ha : p.Approves b <;>
      simp [hv, hq, ha, Gives, toChangeStatus]
  · by_cases hv : p.Vetoed b <;> by_cases hq : p.Quorate eligible b <;> by_cases ha : p.Approves b <;>
      simp [hv, hq, ha, Gives, toChangeStatus]

/-- Ballots in which everybody has the same vote are the same up to order. -/
theorem perm_of_lookup_eq {b b' : Ballot} (hn : (b.map Prod.fst).Nodup) (hn' : (b'.map Prod.fst).Nodup)
    (h : ∀ voterId, JsMap.lookupList voterId b = JsMap.lookupList voterId b') : b.Perm b' := by
  refine (List.perm_ext_iff_of_nodup (List.Nodup.of_map _ hn) (List.Nodup.of_map _ hn')).mpr ?_
  rintro ⟨voterId, value⟩
  rw [← JsMap.lookupList_eq_some hn, ← JsMap.lookupList_eq_some hn', h]

theorem nodup_setList {b : Ballot} (hn : (b.map Prod.fst).Nodup) (voterId : String) (value : VoteValue) :
    ((JsMap.setList voterId value b).map Prod.fst).Nodup :=
  ((⟨b, hn⟩ : JsMap String VoteValue).set voterId value).nodup

end WrongStack.Consensus

/-!
# One change over whole runs

Runs are sequences of calls on one change in any order, from the graph in which it was proposed.
-/

namespace WrongStack.Consensus

open Lib Protocol

variable {p : Protocol} {changeId proposedBy : String} {graph : Graph}

/-! ## History -/

/-- Who has voted what since the vote was last initiated. -/
def noteVote (p : Protocol) (proposedBy : String) (latest : String → Option VoteValue) :
    Op → String → Option VoteValue
  | .initiateVote => fun _ => none
  | .castVote voterId value _ =>
      if p.voters.has voterId && voterId != proposedBy then
        fun id => if voterId = id then some value else latest id
      else latest
  | .resolveNow => latest

def latestVotes (p : Protocol) (proposedBy : String) (ops : List Op) : String → Option VoteValue :=
  run (noteVote p proposedBy) (fun _ => none) ops

def statusAt (changeId : String) (graph : Graph) : Option ChangeStatus :=
  match graph.get? changeId with
  | some (.change change) => some change.status
  | _ => none

def decided : Option ChangeStatus → Option ChangeStatus
  | some .approved => some .approved
  | some .rejected => some .rejected
  | _ => none

/-- The first `approved` or `rejected` that a call has written since the vote was last initiated. -/
def noteDecision (p : Protocol) (changeId : String) (decision : Option ChangeStatus) (graph : Graph)
    (op : Op) : Option ChangeStatus :=
  match op with
  | .initiateVote => none
  | op => decision.or (decided (statusAt changeId (step p changeId graph op)))

/-! ## The three properties -/

/-- The outcome that `castVote` returns, if it does not throw. -/
def castOutcome (p : Protocol) (changeId voterId : String) (value : VoteValue) (graph : Graph) :
    Option Outcome :=
  (p.castVote changeId voterId value none graph).toOption.map fun r => r.2.outcome

def CountsLatestVotes (p : Protocol) (graph : Graph) (changeId proposedBy : String) (ops : List Op) :
    Prop :=
  ∀ ops', latestVotes p proposedBy ops' = latestVotes p proposedBy ops → ∀ voterId value,
    castOutcome p changeId voterId value (run (step p changeId) (propose changeId proposedBy graph) ops') =
      castOutcome p changeId voterId value (run (step p changeId) (propose changeId proposedBy graph) ops)

def OneVoteEach (changeId proposedBy : String) (graph : Graph) : Prop :=
  ∀ change, graph.get? changeId = some (.change change) →
    (change.votes.map VoteRecord.agentId).Nodup ∧ ∀ v ∈ change.votes, v.agentId ≠ proposedBy

def StaysDecided (changeId : String) (s : Graph × Option ChangeStatus) : Prop :=
  ∀ status ∈ s.2, statusAt changeId s.1 = some status

instance (changeId : String) (s : Graph × Option ChangeStatus) : Decidable (StaysDecided changeId s) :=
  inferInstanceAs (Decidable (∀ status ∈ s.2, statusAt changeId s.1 = some status))

def SoundVote (p : Protocol) (graph : Graph) (changeId proposedBy : String) (ops : List Op) : Prop :=
  let s := run (withHistory (step p changeId) (noteDecision p changeId))
    (propose changeId proposedBy graph, none) ops
  CountsLatestVotes p graph changeId proposedBy ops ∧ OneVoteEach changeId proposedBy s.1 ∧
    StaysDecided changeId s

/-! ## Votes -/

/-- What the votes of the change are, given who has voted what. -/
structure Votes (p : Protocol) (changeId proposedBy : String) (graph : Graph)
    (latest : String → Option VoteValue) (change : ChangeNode) : Prop where
  get : graph.get? changeId = some (.change change)
  proposedBy : change.proposedBy = proposedBy
  nodup : ((ballotOf change.votes).map Prod.fst).Nodup
  eligible : ∀ v ∈ change.votes, v.agentId ∈ p.eligibleVoters change
  latest : ∀ voterId, JsMap.lookupList voterId (ballotOf change.votes) = latest voterId

theorem mem_eligibleVoters {change : ChangeNode} {voterId : String} :
    voterId ∈ p.eligibleVoters change ↔ p.voters.has voterId = true ∧ voterId ≠ change.proposedBy := by
  simp only [eligibleVoters, List.mem_filter, JsMap.mem_keys_iff, JsMap.has_iff, bne_iff_ne]

theorem mem_putVote {vote v : VoteRecord} {votes : List VoteRecord} (h : v ∈ putVote vote votes) :
    v = vote ∨ v ∈ votes := by
  induction votes with
  | nil => exact Or.inl (List.mem_singleton.mp h)
  | cons w votes ih =>
      rw [putVote] at h
      split at h
      · rcases List.mem_cons.mp h with h | h
        · exact Or.inl h
        · exact Or.inr (List.mem_cons_of_mem w h)
      · rcases List.mem_cons.mp h with h | h
        · exact Or.inr (h ▸ List.mem_cons_self)
        · exact (ih h).imp_right (List.mem_cons_of_mem w)

/-- What an accepted vote does, and what a refused one does not. -/
theorem castVote_cases (p : Protocol) {change : ChangeNode} (h : graph.get? changeId = some (.change change))
    (voterId : String) (value : VoteValue) (rationale : Option String) :
    (voterId ∉ p.eligibleVoters change ∧ (p.castVote changeId voterId value rationale graph).toOption = none) ∨
    (voterId ∈ p.eligibleVoters change ∧ ∃ vote : VoteRecord, vote.agentId = voterId ∧ vote.value = value ∧
      let result := p.resolve changeId (putVote vote change.votes) (p.eligibleVoters change)
      (p.castVote changeId voterId value rationale graph).toOption = some
        (graph.set changeId (.change { change with
          votes := putVote vote change.votes, status := newStatus change result }), result)) := by
  unfold castVote
  simp only [h]
  cases hvoter : p.voters.get? voterId with
  | none =>
      refine Or.inl ⟨fun he => ?_, rfl⟩
      obtain ⟨config, hc⟩ := JsMap.has_iff.mp (mem_eligibleVoters.mp he).1
      rw [hvoter] at hc
      cases hc
  | some voter =>
      by_cases he : voterId ∈ p.eligibleVoters change
      · simp only [he, ↓reduceIte]
        exact Or.inr ⟨trivial, { agentId := voterId, agentName := voter.agentName, value, rationale },
          rfl, rfl, rfl⟩
      · simp only [he, ↓reduceIte]
        exact Or.inl ⟨not_false, rfl⟩

theorem step_castVote (p : Protocol) {change : ChangeNode}
    (h : graph.get? changeId = some (.change change)) (voterId : String) (value : VoteValue)
    (rationale : Option String) :
    (voterId ∉ p.eligibleVoters change ∧ step p changeId graph (.castVote voterId value rationale) = graph) ∨
    (voterId ∈ p.eligibleVoters change ∧ ∃ vote : VoteRecord, vote.agentId = voterId ∧ vote.value = value ∧
      step p changeId graph (.castVote voterId value rationale) =
        graph.set changeId (.change { change with
          votes := putVote vote change.votes
          status := newStatus change
            (p.resolve changeId (putVote vote change.votes) (p.eligibleVoters change)) })) := by
  unfold step
  rcases castVote_cases p h voterId value rationale with ⟨hnot, hnone⟩ | ⟨hin, vote, hid, hval, hsome⟩
  · simp only [hnone, Option.map_none, Option.getD_none]
    exact Or.inl ⟨hnot, trivial⟩
  · simp only [hsome, Option.map_some, Option.getD_some]
    exact Or.inr ⟨hin, vote, hid, hval, rfl⟩

theorem step_resolveNow (p : Protocol) {change : ChangeNode}
    (h : graph.get? changeId = some (.change change)) :
    step p changeId graph .resolveNow = graph.set changeId (.change { change with
      status := newStatus change (p.resolve changeId change.votes (p.eligibleVoters change)) }) := by
  simp only [step, resolveNow, h]
  rfl

theorem Votes.step {latest : String → Option VoteValue} {change : ChangeNode}
    (h : Votes p changeId proposedBy graph latest change) (op : Op) :
    ∃ change', Votes p changeId proposedBy (step p changeId graph op) (noteVote p proposedBy latest op)
      change' := by
  cases op with
  | initiateVote =>
      refine ⟨{ change with status := .proposed, votes := [] }, ?_, h.proposedBy, List.nodup_nil,
        fun _ hv => absurd hv List.not_mem_nil, fun _ => rfl⟩
      simp [Consensus.step, Protocol.initiateVote, h.get, Except.toOption]
  | castVote voterId value rationale =>
      have hel : (p.voters.has voterId && voterId != proposedBy) = true ↔
          voterId ∈ p.eligibleVoters change := by
        rw [mem_eligibleVoters, h.proposedBy, Bool.and_eq_true, bne_iff_ne]
      rcases step_castVote p h.get voterId value rationale with ⟨hnot, hstep⟩ | ⟨hin, vote, hid, hval, hstep⟩
      · refine ⟨change, ?_⟩
        simp only [hstep, noteVote, hel, hnot, ↓reduceIte]
        exact h
      · rw [hstep]
        refine ⟨_, JsMap.get?_set_self _ _ _, h.proposedBy, ?_, ?_, ?_⟩
        · simp only [ballotOf_putVote]
          exact nodup_setList h.nodup _ _
        · intro v hv
          rcases mem_putVote hv with rfl | hv
          · exact hid ▸ hin
          · exact h.eligible v hv
        · intro id
          simp only [ballotOf_putVote, JsMap.lookupList_setList, noteVote, hel, hin, ↓reduceIte, h.latest,
            hid, hval]
  | resolveNow =>
      rw [step_resolveNow p h.get]
      exact ⟨_, JsMap.get?_set_self _ _ _, h.proposedBy, h.nodup, h.eligible, h.latest⟩

theorem votes_run {latest : String → Option VoteValue} {change : ChangeNode}
    (h : Votes p changeId proposedBy graph latest change) (ops : List Op) :
    ∃ change', Votes p changeId proposedBy (run (step p changeId) graph ops)
      (run (noteVote p proposedBy) latest ops) change' := by
  induction ops generalizing graph latest change with
  | nil => exact ⟨change, h⟩
  | cons op ops ih =>
      obtain ⟨_, h'⟩ := h.step op
      exact ih h'

theorem votes_propose (p : Protocol) (changeId proposedBy : String) (graph : Graph) :
    Votes p changeId proposedBy (propose changeId proposedBy graph) (fun _ => none) { proposedBy } where
  get := JsMap.get?_set_self _ _ _
  proposedBy := rfl
  nodup := List.nodup_nil
  eligible := fun _ hv => absurd hv List.not_mem_nil
  latest := fun _ => rfl

theorem castOutcome_eq {latest : String → Option VoteValue} {change : ChangeNode}
    (h : Votes p changeId proposedBy graph latest change) (voterId : String) (value : VoteValue) :
    castOutcome p changeId voterId value graph = if voterId ∈ p.eligibleVoters change
      then some (p.outcomeOf (p.eligibleVoters change)
        (JsMap.setList voterId value (ballotOf change.votes)))
      else none := by
  unfold castOutcome
  rcases castVote_cases p h.get voterId value none with ⟨hnot, hnone⟩ | ⟨hin, vote, rfl, rfl, hsome⟩
  · simp [hnone, hnot]
  · simp [hsome, hin, resolve_outcome, ballotOf_putVote]

/-- The outcome is a function of the latest vote of each voter. -/
theorem countsLatestVotes (p : Protocol) (graph : Graph) (changeId proposedBy : String) (ops : List Op) :
    CountsLatestVotes p graph changeId proposedBy ops := by
  intro ops' hlatest voterId value
  obtain ⟨change, h⟩ := votes_run (votes_propose p changeId proposedBy graph) ops
  obtain ⟨change', h'⟩ := votes_run (votes_propose p changeId proposedBy graph) ops'
  have heligible : p.eligibleVoters change' = p.eligibleVoters change := by
    unfold eligibleVoters
    rw [h.proposedBy, h'.proposedBy]
  have hperm := perm_of_lookup_eq (nodup_setList h'.nodup voterId value)
    (nodup_setList h.nodup voterId value) fun id => by
      rw [JsMap.lookupList_setList, JsMap.lookupList_setList, h.latest, h'.latest]
      exact congrArg (fun l : String → Option VoteValue => if voterId = id then some value else l id) hlatest
  rw [castOutcome_eq h', castOutcome_eq h, heligible, outcomeOf_perm hperm]

theorem Votes.oneVoteEach {latest : String → Option VoteValue} {change : ChangeNode}
    (h : Votes p changeId proposedBy graph latest change) : OneVoteEach changeId proposedBy graph := by
  intro change' hget
  rw [h.get] at hget
  cases hget
  have hnodup := h.nodup
  rw [ballotOf, List.map_map] at hnodup
  refine ⟨hnodup, fun v hv => ?_⟩
  exact h.proposedBy ▸ (mem_eligibleVoters.mp (h.eligible v hv)).2

/-! ## The decision -/

/-- The vote leaves a decision as it is: after it the ballot still gives the change that status. -/
def KeepsDecision (p : Protocol) (changeId : String) (s : Graph × Option ChangeStatus) : Op → Prop
  | .castVote voterId value _ => ∀ status ∈ s.2, ∀ change, s.1.get? changeId = some (.change change) →
      voterId ∈ p.eligibleVoters change → p.Gives (p.eligibleVoters change)
        (JsMap.setList voterId value (ballotOf change.votes)) status
  | _ => True

/-- The status is what the votes give, unless nobody has decided yet. -/
structure Decision (p : Protocol) (changeId : String) (s : Graph × Option ChangeStatus)
    (change : ChangeNode) : Prop where
  get : s.1.get? changeId = some (.change change)
  status : change.status = .proposed ∨
    change.status = toChangeStatus (p.outcomeOf (p.eligibleVoters change) (ballotOf change.votes))
  decision : ∀ status ∈ s.2, status = .approved ∨ status = .rejected

theorem newStatus_eq (change : ChangeNode) (votes : List VoteRecord) (eligible : List String) :
    newStatus change (p.resolve changeId votes eligible) =
      toChangeStatus (p.outcomeOf eligible (ballotOf votes)) := by
  rw [newStatus, resolve_outcome, if_neg (outcomeOf_ne_pending _)]

theorem decided_eq_some {status : Option ChangeStatus} {d : ChangeStatus} (h : decided status = some d) :
    status = some d ∧ (d = .approved ∨ d = .rejected) := by
  cases status with
  | none => cases h
  | some status => cases status <;> simp_all [decided]

theorem mem_noteDecision {s : Graph × Option ChangeStatus} {op : Op} {d : ChangeStatus}
    (h : d ∈ noteDecision p changeId s.2 s.1 op) : d ∈ s.2 ∨
      (s.2 = none ∧ statusAt changeId (step p changeId s.1 op) = some d ∧ (d = .approved ∨ d = .rejected)) := by
  unfold noteDecision at h
  split at h
  · cases h
  · cases hs : s.2 with
    | none =>
        rw [hs] at h
        exact Or.inr ⟨rfl, decided_eq_some h⟩
    | some d' =>
        rw [hs] at h
        exact Or.inl h

theorem Decision.step {s : Graph × Option ChangeStatus} {change : ChangeNode}
    (h : Decision p changeId s change) (op : Op) :
    ∃ change', Decision p changeId (withHistory (step p changeId) (noteDecision p changeId) s op) change' := by
  have hdecision : ∀ d ∈ noteDecision p changeId s.2 s.1 op, d = .approved ∨ d = .rejected := by
    intro d hd
    rcases mem_noteDecision hd with hd | ⟨-, -, hd⟩
    · exact h.decision d hd
    · exact hd
  cases op with
  | initiateVote =>
      refine ⟨{ change with status := .proposed, votes := [] }, ?_, Or.inl rfl, hdecision⟩
      simp [withHistory, Consensus.step, Protocol.initiateVote, h.get, Except.toOption]
  | castVote voterId value rationale =>
      rcases step_castVote p h.get voterId value rationale with ⟨-, hstep⟩ | ⟨-, vote, -, -, hstep⟩
      · exact ⟨change, (congrArg (JsMap.get? · changeId) hstep).trans h.get, h.status, hdecision⟩
      · exact ⟨_, (congrArg (JsMap.get? · changeId) hstep).trans (JsMap.get?_set_self _ _ _),
          Or.inr (newStatus_eq change _ _), hdecision⟩
  | resolveNow =>
      have hstep := step_resolveNow p h.get
      exact ⟨_, (congrArg (JsMap.get? · changeId) hstep).trans (JsMap.get?_set_self _ _ _),
        Or.inr (newStatus_eq change _ _), hdecision⟩

theorem statusAt_eq {change : ChangeNode} (h : graph.get? changeId = some (.change change)) :
    statusAt changeId graph = some change.status := by
  simp only [statusAt, h]

/-- A decision is kept by a step that leaves the status as it is or takes no decision before. -/
theorem staysDecided_step {s : Graph × Option ChangeStatus} {op : Op} :
    StaysDecided changeId (withHistory (step p changeId) (noteDecision p changeId) s op) ↔
      op = .initiateVote ∨ ∀ d ∈ s.2, statusAt changeId (step p changeId s.1 op) = some d := by
  constructor
  · intro h
    by_cases hop : op = .initiateVote
    · exact Or.inl hop
    · refine Or.inr fun d hd => h d ?_
      cases op with
      | initiateVote => exact absurd rfl hop
      | _ => simp [withHistory, noteDecision, Option.mem_def.mp hd]
  · rintro (rfl | h) d hd
    · cases hd
    · rcases mem_noteDecision hd with hd | ⟨-, hs, -⟩
      · exact h d hd
      · exact hs

theorem step_keepsDecision {s : Graph × Option ChangeStatus} {change : ChangeNode}
    (h : Decision p changeId s change) (hs : StaysDecided changeId s) (op : Op) :
    StaysDecided changeId (withHistory (step p changeId) (noteDecision p changeId) s op) ↔
      KeepsDecision p changeId s op := by
  rw [staysDecided_step]
  cases op with
  | initiateVote => exact iff_of_true (Or.inl rfl) trivial
  | castVote voterId value rationale =>
      simp only [reduceCtorEq, false_or, KeepsDecision, h.get, Option.some.injEq, GraphNode.change.injEq,
        forall_eq']
      refine forall₂_congr fun d hd => ?_
      rcases step_castVote p h.get voterId value rationale with ⟨hnot, hstep⟩ | ⟨hin, vote, rfl, rfl, hstep⟩
      · simp only [hnot, IsEmpty.forall_iff, iff_true, hstep]
        exact hs d hd
      · simp only [hin, forall_const, hstep]
        rw [statusAt_eq (JsMap.get?_set_self _ _ _), Option.some.injEq, newStatus_eq, ballotOf_putVote]
        exact gives_iff (h.decision d hd)
  | resolveNow =>
      refine iff_of_true (Or.inr fun d hd => ?_) trivial
      have hstatus : change.status = d := by
        have hd' := hs d hd
        rw [statusAt_eq h.get] at hd'
        exact Option.some.inj hd'
      rw [step_resolveNow p h.get, statusAt_eq (JsMap.get?_set_self _ _ _), newStatus_eq]
      rcases h.status with hp | hr
      · rcases h.decision d hd with rfl | rfl
        · cases hp.symm.trans hstatus
        · cases hp.symm.trans hstatus
      · rw [← hr, hstatus]

end WrongStack.Consensus

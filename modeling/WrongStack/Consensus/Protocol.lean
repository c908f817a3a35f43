import Mathlib.Algebra.BigOperators.Group.List.Basic
import Mathlib.Algebra.Order.Floor.Ring
import Mathlib.Data.Rat.Floor
import WrongStack.Lib.JsMap
import WrongStack.Lib.Run

/-!
# Voting on changes

`ConsensusProtocol` (`core/src/coordination/consensus-protocol.ts`). Every method reads the graph and
has written it before it first awaits, so a call is one step. Weights and fractions are exact numbers.
Of a change the fields that the protocol reads or writes are kept; the notifications of the fleet bus
and the times of the votes are left out.
-/

namespace WrongStack.Consensus

open Lib

/-! ## Data -/

structure VoterConfig where
  agentId : String
  agentName : String
  role : String
  weight : ℚ
  veto : Bool := false
  deriving DecidableEq

structure QuorumRule where
  quorumFraction : ℚ := 1 / 2
  approvalFraction : ℚ := 3 / 5
  vetoRoles : List String := []
  approvalWeightFraction : Option ℚ := none
  deriving DecidableEq

inductive VoteValue
  | approve | reject | abstain
  deriving DecidableEq

structure VoteRecord where
  agentId : String
  agentName : String
  value : VoteValue
  rationale : Option String := none
  deriving DecidableEq

inductive ChangeStatus
  | proposed | approved | rejected | applied | rolledBack
  deriving DecidableEq

structure ChangeNode where
  proposedBy : String
  status : ChangeStatus := .proposed
  votes : List VoteRecord := []
  deriving DecidableEq

/-- The nodes of the knowledge graph; those of another type have no votes. -/
inductive GraphNode
  | change (change : ChangeNode)
  | other
  deriving DecidableEq

abbrev Graph := JsMap String GraphNode

inductive Outcome
  | approved | rejected | pending | vetoed | quorumNotMet
  deriving DecidableEq

structure ConsensusResult where
  changeId : String
  outcome : Outcome
  votes : List VoteRecord
  approveCount : Nat
  rejectCount : Nat
  abstainCount : Nat
  totalWeightApprove : ℚ
  totalWeightReject : ℚ
  eligibleVoters : List String
  quorumMet : Bool
  approvalMet : Bool
  vetoedBy : Option String := none
  rationale : String
  deriving DecidableEq

structure Protocol where
  rules : QuorumRule := {}
  voters : JsMap String VoterConfig := .empty

/-- `toFixed(2)`. -/
def toFixed2 (x : ℚ) : String :=
  let n := ⌊|x| * 100 + 1 / 2⌋.toNat
  let sign := if x < 0 then "-" else ""
  let cents := if n % 100 < 10 then s!"0{n % 100}" else s!"{n % 100}"
  s!"{sign}{n / 100}.{cents}"

def withValue (value : VoteValue) (votes : List VoteRecord) : List VoteRecord :=
  votes.filter fun v => v.value == value

/-- The vote replaces the voter's earlier one in place, or is appended. -/
def putVote (vote : VoteRecord) : List VoteRecord → List VoteRecord
  | [] => [vote]
  | v :: votes => if v.agentId = vote.agentId then vote :: votes else v :: putVote vote votes

def toChangeStatus : Outcome → ChangeStatus
  | .approved => .approved
  | .rejected => .rejected
  | .vetoed => .rejected
  | .quorumNotMet => .proposed
  | .pending => .proposed

namespace Protocol

variable (p : Protocol)

/-! ## Resolution -/

/-- The proposer cannot vote on its own proposal. -/
def eligibleVoters (change : ChangeNode) : List String :=
  p.voters.keys.filter fun agentId => agentId != change.proposedBy

def weightOf (v : VoteRecord) : ℚ := ((p.voters.get? v.agentId).map VoterConfig.weight).getD 1

def weightOfAll (votes : List VoteRecord) : ℚ := (votes.map p.weightOf).sum

def totalWeight : ℚ := (p.voters.entries.map fun q => q.2.weight).sum

def quorumRequired (eligible : List String) : Int := ⌈eligible.length * p.rules.quorumFraction⌉

def approvalRequired (votes : List VoteRecord) : Int := ⌈votes.length * p.rules.approvalFraction⌉

/-- The voter's configuration, when its `reject` is a hard veto. -/
def vetoing (v : VoteRecord) : Option VoterConfig :=
  match p.voters.get? v.agentId with
  | some config => if config.veto && p.rules.vetoRoles.contains config.role then some config else none
  | none => none

def resolve (changeId : String) (votes : List VoteRecord) (eligible : List String) : ConsensusResult :=
  let approve := withValue .approve votes
  let reject := withValue .reject votes
  let quorumMet := decide (p.quorumRequired eligible ≤ votes.length)
  let result (outcome : Outcome) (quorumMet approvalMet : Bool) (vetoedBy : Option String)
      (rationale : String) : ConsensusResult :=
    { changeId, outcome, votes, quorumMet, approvalMet, vetoedBy, rationale, eligibleVoters := eligible
      approveCount := approve.length
      rejectCount := reject.length
      abstainCount := (withValue .abstain votes).length
      totalWeightApprove := p.weightOfAll approve
      totalWeightReject := p.weightOfAll reject }
  match reject.findSome? p.vetoing with
  | some config =>
      result .vetoed quorumMet false (some config.agentId)
        s!"Hard veto from role \"{config.role}\" ({config.agentName})."
  | none =>
      if !quorumMet then
        let required := p.quorumRequired eligible
        result .quorumNotMet false false none s!"Quorum not met: {votes.length}/{required} required."
      else
        let required := p.approvalRequired votes
        let approvalMet := decide (required ≤ approve.length)
        let tooLight := match p.rules.approvalWeightFraction with
          | some fraction => approvalMet && decide (p.weightOfAll approve < p.totalWeight * fraction)
          | none => false
        if tooLight then
          let weight := toFixed2 (p.weightOfAll approve)
          let weightRequired := toFixed2 (p.totalWeight * p.rules.approvalWeightFraction.getD 0)
          result .rejected true false none
            s!"Weight threshold not met: {weight}/{weightRequired} required."
        else if approvalMet then
          result .approved true true none
            s!"Approved: {approve.length}/{votes.length} votes (threshold: {required})."
        else
          result .rejected true false none
            s!"Rejected: {approve.length}/{votes.length} approve votes (threshold: {required})."

/-! ## The vote -/

def initiateVote (changeId : String) (graph : Graph) : Except String Graph :=
  match graph.get? changeId with
  | some (.change change) =>
      .ok (graph.set changeId (.change { change with status := .proposed, votes := [] }))
  | _ => .error s!"ConsensusProtocol: no change found with id \"{changeId}\""

/-- The status that a result is written as. -/
def newStatus (change : ChangeNode) (result : ConsensusResult) : ChangeStatus :=
  if result.outcome = .pending then change.status else toChangeStatus result.outcome

def castVote (changeId voterId : String) (value : VoteValue) (rationale : Option String)
    (graph : Graph) : Except String (Graph × ConsensusResult) :=
  match graph.get? changeId with
  | some (.change change) =>
      match p.voters.get? voterId with
      | none => .error s!"ConsensusProtocol: unknown voter \"{voterId}\""
      | some voter =>
          let eligible := p.eligibleVoters change
          if voterId ∈ eligible then
            let vote : VoteRecord := { agentId := voterId, agentName := voter.agentName, value, rationale }
            let votes := putVote vote change.votes
            let result := p.resolve changeId votes eligible
            .ok (graph.set changeId (.change { change with votes, status := newStatus change result }),
              result)
          else .error s!"ConsensusProtocol: voter \"{voterId}\" is not eligible for this vote"
  | _ => .error s!"ConsensusProtocol: no change found for \"{changeId}\""

def resolveNow (changeId : String) (graph : Graph) : Except String (Graph × ConsensusResult) :=
  match graph.get? changeId with
  | some (.change change) =>
      let result := p.resolve changeId change.votes (p.eligibleVoters change)
      .ok (graph.set changeId (.change { change with status := newStatus change result }), result)
  | some .other => .error "Cannot read properties of undefined (reading 'filter')"
  | none => .error s!"ConsensusProtocol: unknown change \"{changeId}\""

end Protocol

/-! ## Runs -/

/-- The graph after `ChangeManager.propose` has added the change. -/
def propose (changeId proposedBy : String) (graph : Graph) : Graph :=
  graph.set changeId (.change { proposedBy })

inductive Op
  | initiateVote
  | castVote (voterId : String) (value : VoteValue) (rationale : Option String)
  | resolveNow
  deriving DecidableEq

def step (p : Protocol) (changeId : String) (graph : Graph) : Op → Graph
  | .initiateVote => (Protocol.initiateVote changeId graph).toOption.getD graph
  | .castVote voterId value rationale =>
      ((p.castVote changeId voterId value rationale graph).toOption.map Prod.fst).getD graph
  | .resolveNow => ((p.resolveNow changeId graph).toOption.map Prod.fst).getD graph

end WrongStack.Consensus

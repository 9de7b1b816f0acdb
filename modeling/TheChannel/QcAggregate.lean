import TheChannel.QcVerify
/-!
# QcAggregate — collecting votes into a quorum certificate

`aggregating_qc_sig_t` and `aggregating_qc_t` of `qc.cpp`: the votes received for one block under one policy, the state
they have reached, the best certificate received inside a block, and `get_best_qc`, which chooses per policy between the
votes and the received certificate. Operations are modelled one at a time, each as its mutex makes it.

`add_strong_vote` asserts that a strong quorum is not reached in the restricted state; the model goes on as a build
without asserts does, so its runs include those of a build with them.
-/
namespace TheChannel

inductive VoteResultT
  | success
  | duplicate
  | unknownPublicKey
  | invalidSignature
  | unknownBlock
  | maxExceeded
  deriving DecidableEq

inductive AggregatingState
  | unrestricted
  | restricted
  | weakAchieved
  | weakFinal
  | strong
  deriving DecidableEq

/-- `finalizer_policy::max_weak_sum_before_weak_final`: `std::accumulate` is given the `int` 0, so the sum is kept in
32 bits between the 64-bit additions. -/
def FinalizerPolicy.maxWeakSumBeforeWeakFinal (p : FinalizerPolicy) : UInt64 :=
  let sum : BitVec 32 := p.finalizers.foldl (fun acc f => (acc.signExtend 64 + f.weight.toBitVec).truncate 32) 0
  UInt64.ofBitVec (sum.signExtend 64) - p.threshold

structure VotesT where
  bitset : VoteBitset
  sig : AggregateSignature
  processed : List Bool
  deriving DecidableEq

namespace VotesT

def new (numFinalizers : Nat) : VotesT :=
  ⟨List.replicate numFinalizers false, [], List.replicate numFinalizers false⟩

def hasVoted (v : VotesT) (index : Nat) : Bool := v.processed.getD index false

def addVote (v : VotesT) (index : Nat) (sig : BlsSignature) : VotesT :=
  ⟨v.bitset.set index true, v.sig ++ [sig], v.processed.set index true⟩

end VotesT

structure AggregatingQcSig where
  receivedQcSig : Option QcSig
  quorum : UInt64
  maxWeakSumBeforeWeakFinal : UInt64
  aggregatingState : AggregatingState
  strongSum : UInt64
  weakSum : UInt64
  weakVotes : VotesT
  strongVotes : VotesT
  deriving DecidableEq

def AggregatingState.isQuorumMet (s : AggregatingState) : Bool :=
  s == .strong || s == .weakAchieved || s == .weakFinal

namespace AggregatingQcSig

def new (p : FinalizerPolicy) : AggregatingQcSig :=
  { receivedQcSig := none, quorum := p.threshold, maxWeakSumBeforeWeakFinal := p.maxWeakSumBeforeWeakFinal,
    aggregatingState := .unrestricted, strongSum := 0, weakSum := 0, weakVotes := .new p.finalizers.length,
    strongVotes := .new p.finalizers.length }

def isQuorumMet (a : AggregatingQcSig) : Bool := a.aggregatingState.isQuorumMet

def hasVoted (a : AggregatingQcSig) (index : Nat) : Bool := a.strongVotes.hasVoted index || a.weakVotes.hasVoted index

def checkDuplicate (a : AggregatingQcSig) (index : Nat) : VoteResultT :=
  if a.strongVotes.bitset.getD index false || a.weakVotes.bitset.getD index false then .duplicate else .success

def strongTransition (a : AggregatingQcSig) : AggregatingState :=
  match a.aggregatingState with
  | .unrestricted | .restricted =>
    if a.strongSum ≥ a.quorum then .strong
    else if a.weakSum + a.strongSum ≥ a.quorum then
      if a.aggregatingState = .restricted then .weakFinal else .weakAchieved
    else a.aggregatingState
  | .weakAchieved => if a.strongSum ≥ a.quorum then .strong else .weakAchieved
  | .weakFinal => .weakFinal
  | .strong => .strong

def weakTransition (a : AggregatingQcSig) : AggregatingState :=
  match a.aggregatingState with
  | .unrestricted | .restricted =>
    let state := if a.weakSum + a.strongSum ≥ a.quorum then .weakAchieved else a.aggregatingState
    if a.weakSum > a.maxWeakSumBeforeWeakFinal then
      if state = .weakAchieved then .weakFinal
      else if state = .unrestricted then .restricted
      else state
    else state
  | .weakAchieved => if a.weakSum ≥ a.maxWeakSumBeforeWeakFinal then .weakFinal else .weakAchieved
  | .weakFinal => .weakFinal
  | .strong => .strong

def addStrongVote (a : AggregatingQcSig) (index : Nat) (sig : BlsSignature) (weight : UInt64) : AggregatingQcSig :=
  let a := { a with strongVotes := a.strongVotes.addVote index sig, strongSum := a.strongSum + weight }
  { a with aggregatingState := a.strongTransition }

def addWeakVote (a : AggregatingQcSig) (index : Nat) (sig : BlsSignature) (weight : UInt64) : AggregatingQcSig :=
  let a := { a with weakVotes := a.weakVotes.addVote index sig, weakSum := a.weakSum + weight }
  { a with aggregatingState := a.weakTransition }

def addVote (a : AggregatingQcSig) (strong : Bool) (index : Nat) (sig : BlsSignature) (weight : UInt64) :
    VoteResultT × AggregatingQcSig :=
  match a.checkDuplicate index with
  | .success => (.success, if strong then a.addStrongVote index sig weight else a.addWeakVote index sig weight)
  | s => (s, a)

def extractQcSigFromAggregating (a : AggregatingQcSig) : QcSig :=
  if a.aggregatingState = .strong then
    { strongVotes := some a.strongVotes.bitset, weakVotes := none, sig := a.strongVotes.sig }
  else if a.isQuorumMet then
    { strongVotes := some a.strongVotes.bitset, weakVotes := some a.weakVotes.bitset,
      sig := a.strongVotes.sig ++ a.weakVotes.sig }
  else { strongVotes := none, weakVotes := none, sig := [] }

def getBestQc (a : AggregatingQcSig) : Option QcSig :=
  if !a.isQuorumMet then a.receivedQcSig
  else
    let qcSigFromAgg := a.extractQcSigFromAggregating
    match a.receivedQcSig with
    | none => some qcSigFromAgg
    | some received => if received.isStrong || qcSigFromAgg.isWeak then some received else some qcSigFromAgg

def setReceivedQcSig (a : AggregatingQcSig) (qc : QcSig) : Bool × AggregatingQcSig :=
  if a.receivedQcSig.all (fun r => r.isWeak && qc.isStrong) then (true, { a with receivedQcSig := some qc }) else (false, a)

end AggregatingQcSig

structure AggregatingQc where
  activeFinalizerPolicy : FinalizerPolicy
  pendingFinalizerPolicy : Option FinalizerPolicy
  activePolicySig : AggregatingQcSig
  pendingPolicySig : Option AggregatingQcSig
  deriving DecidableEq

structure AggregateVoteResult where
  result : VoteResultT
  activeAuthority : Option FinalizerAuthority
  pendingAuthority : Option FinalizerAuthority
  deriving DecidableEq

/-- The lambda `add_vote` of `aggregate_vote`; `verified` is the outcome of verifying the vote's signature. -/
def addVoteTo (vote : VoteMessage) (verified : Bool) (policy : FinalizerPolicy) (a : AggregatingQcSig) :
    VoteResultT × Option FinalizerAuthority × AggregatingQcSig :=
  match policy.indexOf vote.finalizerKey with
  | none => (.unknownPublicKey, none, a)
  | some index =>
    let auth := policy.finalizers[index]?
    if a.hasVoted index then (.duplicate, auth, a)
    else if !verified then (.invalidSignature, auth, a)
    else
      let (s, a) := a.addVote vote.strong index vote.sig ((auth.map FinalizerAuthority.weight).getD 0)
      (s, auth, a)

namespace AggregatingQc

def new (active : FinalizerPolicy) (pending : Option FinalizerPolicy) : AggregatingQc :=
  { activeFinalizerPolicy := active, pendingFinalizerPolicy := pending, activePolicySig := .new active,
    pendingPolicySig := pending.map .new }

def getBestQc (q : AggregatingQc) (blockNum : Nat) : Option Qc :=
  match q.activePolicySig.getBestQc with
  | none => none -- active is always required
  | some activeBestQc =>
    match q.pendingPolicySig with
    | some pendingSig =>
      match pendingSig.getBestQc with
      | some pendingBestQc => some ⟨blockNum, activeBestQc, some pendingBestQc⟩
      | none => none
    | none => some ⟨blockNum, activeBestQc, none⟩

def setReceivedQc (q : AggregatingQc) (qc : Qc) : Result (Bool × AggregatingQc) := do
  eosAssert (!q.pendingPolicySig.isSome || qc.pendingPolicySig.isSome) .invalidQc
    "qc ${bn} expected to have a pending policy signature"
  let (activeBetter, activeSig) := q.activePolicySig.setReceivedQcSig qc.activePolicySig
  let q := { q with activePolicySig := activeSig }
  match q.pendingPolicySig, qc.pendingPolicySig with
  | some pendingSig, some qcPendingSig =>
    let (pendingBetter, pendingSig) := pendingSig.setReceivedQcSig qcPendingSig
    return (activeBetter || pendingBetter, { q with pendingPolicySig := some pendingSig })
  | _, _ => return (activeBetter, q)

def aggregateVote (q : AggregatingQc) (vote : VoteMessage) (verified : Bool) : AggregateVoteResult × AggregatingQc :=
  let (s, activeAuth, activeSig) := addVoteTo vote verified q.activeFinalizerPolicy q.activePolicySig
  let q := { q with activePolicySig := activeSig }
  if s ≠ .success ∧ s ≠ .unknownPublicKey then (⟨s, activeAuth, none⟩, q)
  else
    match q.pendingFinalizerPolicy, q.pendingPolicySig with
    | some pending, some pendingSig =>
      let (ps, pendingAuth, pendingSig) := addVoteTo vote verified pending pendingSig
      (⟨if ps ≠ .unknownPublicKey then ps else s, activeAuth, pendingAuth⟩,
        { q with pendingPolicySig := some pendingSig })
    | _, _ => (⟨s, activeAuth, none⟩, q)

def policies (q : AggregatingQc) : FinalizerPolicies := ⟨0, q.activeFinalizerPolicy, q.pendingFinalizerPolicy⟩

end AggregatingQc

/-- A call of `aggregate_vote`, with the outcome of verifying the signature, or of `set_received_qc` with a verified certificate. -/
inductive AggEvent
  | vote (vote : VoteMessage) (verified : Bool)
  | received (qc : Qc)

/-- **Every sequence of votes and of verified received certificates**, the last first, from empty aggregations. -/
inductive AggregatingQc.Reachable (active : FinalizerPolicy) (pending : Option FinalizerPolicy) :
    List AggEvent → AggregatingQc → Prop
  | new : Reachable active pending [] (.new active pending)
  | vote {events : List AggEvent} {q : AggregatingQc} (h : Reachable active pending events q) (vote : VoteMessage)
      (verified : Bool) : Reachable active pending (.vote vote verified :: events) (q.aggregateVote vote verified).2
  | received {events : List AggEvent} {q q' : AggregatingQc} {better : Bool} (h : Reachable active pending events q) (qc : Qc)
      (verified : qc.verifyBasic q.policies = .ok ()) (set : q.setReceivedQc qc = .ok (better, q')) :
      Reachable active pending (.received qc :: events) q'

end TheChannel

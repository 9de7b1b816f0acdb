import TheChannel.FinalityCore
/-!
# Qc — finalizer policies, quorum certificates and their checks

`finalizer_policy.hpp`, `finalizer_authority.hpp` and the `qc_sig_t` and `qc_t` part of `qc.cpp`: the vote bitsets of a
certificate and `verify_basic`, which checks a certificate against the policies of the block it is about, signatures
aside. Weights are `uint64_t`: their sums wrap. Reading a bitset past its size is a false assert, as in `fc::bitset`.
-/
namespace TheChannel

abbrev PublicKey := Nat
abbrev BlsSignature := Nat

abbrev AggregateSignature := List BlsSignature

structure FinalizerAuthority where
  description : String
  weight : UInt64
  publicKey : PublicKey
  deriving DecidableEq

structure FinalizerPolicy where
  generation : Nat
  threshold : UInt64
  finalizers : List FinalizerAuthority
  deriving DecidableEq

structure FinalizerPolicies where
  finalityDigest : Digest
  activeFinalizerPolicy : FinalizerPolicy
  pendingFinalizerPolicy : Option FinalizerPolicy
  deriving DecidableEq

abbrev VoteBitset := List Bool

def VoteBitset.get (b : VoteBitset) (pos : Nat) : Result Bool :=
  match b[pos]? with
  | some x => .ok x
  | none => .error (.assertion "pos < m_num_bits")

structure QcSig where
  strongVotes : Option VoteBitset
  weakVotes : Option VoteBitset
  sig : AggregateSignature
  deriving DecidableEq

structure Qc where
  blockNum : Nat
  activePolicySig : QcSig
  pendingPolicySig : Option QcSig
  deriving DecidableEq

structure VoteMessage where
  blockId : BlockId
  strong : Bool
  finalizerKey : PublicKey
  sig : BlsSignature
  deriving DecidableEq

def votedAt (votes : Option VoteBitset) (i : Nat) : Result Bool :=
  match votes with
  | none => .ok false
  | some b => VoteBitset.get b i

namespace QcSig

def isWeak (s : QcSig) : Bool := s.weakVotes.isSome

def isStrong (s : QcSig) : Bool := !s.weakVotes.isSome

def voteSameAt (s other : QcSig) (myVoteIndex otherVoteIndex : Nat) : Result Bool := do
  assertThat "!strong_votes || my_vote_index < strong_votes->size()"
    (s.strongVotes.all (fun b => decide (myVoteIndex < b.length)))
  assertThat "!weak_votes || my_vote_index < weak_votes->size()"
    (s.weakVotes.all (fun b => decide (myVoteIndex < b.length)))
  let myStrong ← votedAt s.strongVotes myVoteIndex
  let otherStrong ← votedAt other.strongVotes otherVoteIndex
  let myWeak ← votedAt s.weakVotes myVoteIndex
  let otherWeak ← votedAt other.weakVotes otherVoteIndex
  return myStrong == otherStrong && myWeak == otherWeak

def verifyExclusive (strong weak : VoteBitset) : Nat → Result Unit
  | 0 => .ok ()
  | n + 1 => do
    verifyExclusive strong weak n
    let s ← VoteBitset.get strong n
    -- `&&` reads the weak bit only when the strong one is set
    let w ← if s then VoteBitset.get weak n else .ok false
    eosAssert (!(s && w)) .invalidQc "finalizer (bit index ${i}) voted both strong and weak"

def verifyBitsetSize (finPolicy : FinalizerPolicy) (votes : Option VoteBitset) : Result Unit :=
  eosAssert (votes.all (fun b => finPolicy.finalizers.length == b.length)) .invalidQc
    "vote bitset size is not the same as the number of finalizers for the policy it refers to, vote bitset size: ${s}, num of finalizers for the policy: ${n}"

def verifyVoteFormat (s : QcSig) (finPolicy : FinalizerPolicy) : Result Unit := do
  eosAssert (s.strongVotes.isSome || s.weakVotes.isSome) .invalidQc
    "Neither strong_votes nor weak_votes present for finalizer policy, generation ${n}"
  verifyBitsetSize finPolicy s.strongVotes
  verifyBitsetSize finPolicy s.weakVotes
  match s.strongVotes, s.weakVotes with
  | some strong, some weak => verifyExclusive strong weak strong.length
  | _, _ => .ok ()

/-- The loop that accumulates the weights of the finalizers that voted, from bit `i` on. -/
def weightsFrom (votes : VoteBitset) : Nat → UInt64 → List FinalizerAuthority → Result UInt64
  | _, sum, [] => .ok sum
  | i, sum, f :: fs => do
    let voted ← VoteBitset.get votes i
    weightsFrom votes (i + 1) (if voted then sum + f.weight else sum) fs

def weights (finPolicy : FinalizerPolicy) (votes : Option VoteBitset) : Result UInt64 :=
  match votes with
  | none => .ok 0
  | some b => weightsFrom b 0 0 finPolicy.finalizers

def verifyWeights (s : QcSig) (finPolicy : FinalizerPolicy) : Result Unit := do
  let strongWeights ← weights finPolicy s.strongVotes
  let weakWeights ← weights finPolicy s.weakVotes
  if s.isStrong then
    eosAssert (decide (finPolicy.threshold ≤ strongWeights)) .invalidQc
      "strong quorum is not met, strong_weights: ${s}, threshold: ${t}"
  else
    eosAssert (decide (finPolicy.threshold ≤ strongWeights + weakWeights)) .invalidQc
      "weak quorum is not met, strong_weights: ${s}, weak_weights: ${w}, threshold: ${t}"

end QcSig

/-- The index of the first finalizer with this key, as `std::find_if` and `std::distance` give it. -/
def FinalizerPolicy.indexOf (p : FinalizerPolicy) (key : PublicKey) : Option Nat :=
  p.finalizers.findIdx? (fun f => f.publicKey == key)

/-- A dual finalizer votes on both policies; each must vote in the same way. The loop over the active finalizers, from
index `i` on; the inner loop stops at the first pending finalizer with the same key. -/
def verifyDualFinalizersVotes (pending : FinalizerPolicy) (activeSig pendingSig : QcSig) :
    Nat → List FinalizerAuthority → Result Unit
  | _, [] => .ok ()
  | i, f :: fs => do
    match pending.indexOf f.publicKey with
    | some j =>
      let same ← activeSig.voteSameAt pendingSig i j
      eosAssert same .invalidQc
        "qc ${bn} contains a dual finalizer ${k} which does not vote the same on active and pending policies"
    | none => .ok ()
    verifyDualFinalizersVotes pending activeSig pendingSig (i + 1) fs

namespace Qc

def isStrong (qc : Qc) : Bool := qc.activePolicySig.isStrong && qc.pendingPolicySig.all QcSig.isStrong

def toQcClaim (qc : Qc) : QcClaim := ⟨qc.blockNum, qc.isStrong⟩

def verifyBasic (qc : Qc) (policies : FinalizerPolicies) : Result Unit := do
  qc.activePolicySig.verifyVoteFormat policies.activeFinalizerPolicy
  qc.activePolicySig.verifyWeights policies.activeFinalizerPolicy
  match qc.pendingPolicySig, policies.pendingFinalizerPolicy with
  | some pendingSig, some pending =>
    verifyDualFinalizersVotes pending qc.activePolicySig pendingSig 0 policies.activeFinalizerPolicy.finalizers
    pendingSig.verifyVoteFormat pending
    pendingSig.verifyWeights pending
  | some _, none => .error (.thrown .invalidQc
      "qc ${bn} contains pending policy signature for nonexistent pending finalizer policy")
  | none, some _ => .error (.thrown .invalidQc
      "qc ${bn} does not contain pending policy signature for pending finalizer policy")
  | none, none => .ok ()

end Qc
end TheChannel

import TheChannel.Finalizer
import TheChannel.QcVerify
/-!
# SavannaNet — blocks, votes and certificates of a whole network

The blocks any node has accepted, the safety information of every honest finalizer key and the votes the honest keys
have released, under one fixed finalizer policy. A step accepts a block whose claim and certificate were verified, lets
an honest key decide on a block, or updates the information of a key (`maybe_update_fsi`, the defaults set at startup).
Keys that are not honest sign anything: a certificate needs the recorded votes of honest keys only (`Backed`), which is
what unforgeable signatures leave of signature verification. Ids and finality digests are hashes: a new block has new
ones.
-/
namespace TheChannel

/-- A released signature of an honest key, on a block's finality digest, strong or weak. -/
structure Ballot where
  key : PublicKey
  digest : Digest
  strong : Bool
  deriving DecidableEq

structure Net where
  tree : List (List Block) -- every block with its branch
  fsi : PublicKey → FinalizerSafetyInformation
  ballots : List Ballot

/-- The fixed policy, as `get_finalizer_policies` returns it for a block. -/
def fixedPolicies (pol : FinalizerPolicy) (digest : Digest) : FinalizerPolicies := ⟨digest, pol, none⟩

def ballotOf (key : PublicKey) (b : Block) : VoteDecision → List Ballot
  | .noVote => []
  | .strongVote => [⟨key, b.ref.finalityDigest, true⟩]
  | .weakVote => [⟨key, b.ref.finalityDigest, false⟩]

section Net

variable (pol : FinalizerPolicy) (honest : PublicKey → Bool)

/-- **Unforgeable signatures**: every honest key counted in the certificate has signed what it is counted for. -/
def Backed (ballots : List Ballot) (qc : Qc) (digest : Digest) : Prop :=
  ∀ i f, pol.finalizers[i]? = some f → honest f.publicKey = true →
    (qc.activePolicySig.strongAt i = true → ⟨f.publicKey, digest, true⟩ ∈ ballots) ∧
    (qc.activePolicySig.weakAt i = true → ⟨f.publicKey, digest, false⟩ ∈ ballots)

/-- A certificate that passed `verify_basic` and signature verification for the block with this digest. -/
def Verified (ballots : List Ballot) (qc : Qc) (digest : Digest) : Prop :=
  qc.verifyBasic (fixedPolicies pol digest) = .ok () ∧ Backed pol honest ballots qc digest

inductive Net.Step : Net → Net → Prop
  /-- a block on an accepted parent, with its claim checked and its certificate, if it brings one, verified -/
  | addBlock {net : Net} {b p : Block} {bs : List Block} {valid : Option Valid} {isValid : Bool} {q : Option Qc}
      (mem : p :: bs ∈ net.tree)
      (checked : verifyBasicProperBlockInvariants b.properBlock (p.prevBlock valid isValid) = .ok q)
      (num : b.num = p.num + 1) (time : p.time < b.time) (core : p.core.next p.ref b.headerClaim = .ok b.core)
      (verified : ∀ qc a as, q = some qc → ancestorAt (p :: bs) qc.blockNum = a :: as →
        Verified pol honest net.ballots qc a.ref.finalityDigest)
      (fresh : ∀ x xs, x :: xs ∈ net.tree →
        x.ref.blockId ≠ b.ref.blockId ∧ x.ref.finalityDigest ≠ b.ref.finalityDigest) :
      Net.Step net { net with tree := (b :: p :: bs) :: net.tree }
  /-- an honest key decides on a proper block; its signature may fail to be released -/
  | vote {net : Net} {key : PublicKey} {b : Block} {bs : List Block} {res : VoteResult}
      {fsi : FinalizerSafetyInformation} (released : Bool) (hkey : honest key = true) (mem : b :: bs ∈ net.tree)
      (proper : bs ≠ []) (decided : (net.fsi key).decideVote b = .ok (res, fsi)) :
      Net.Step net { net with
        fsi := Function.update net.fsi key fsi
        ballots := (if released then ballotOf key b res.decision else []) ++ net.ballots }
  /-- an honest key learns from a verified strong certificate that it voted strong -/
  | updateFsi {net : Net} {key : PublicKey} {b : Block} {bs : List Block} {qc : Qc} {updated : Bool}
      {fsi : FinalizerSafetyInformation} (hkey : honest key = true) (mem : b :: bs ∈ net.tree) (proper : bs ≠ [])
      (verified : Verified pol honest net.ballots qc b.ref.finalityDigest)
      (voted : hasVotedStrong pol qc.activePolicySig key = .ok true)
      (done : (net.fsi key).maybeUpdateFsi b = .ok (updated, fsi)) :
      Net.Step net { net with fsi := Function.update net.fsi key fsi }
  /-- a node sets the default information of its keys, locked on a block it has, at startup or at the transition -/
  | setDefault {net : Net} {key : PublicKey} {b : Block} {bs : List Block} {lastVote : BlockRef}
      (mem : b :: bs ∈ net.tree) (hlast : lastVote = BlockRef.unset ∨ lastVote = b.ref) :
      Net.Step net { net with
        fsi := Function.update net.fsi key (setDefaultSafetyInformation (net.fsi key) ⟨lastVote, b.ref, 0⟩) }

def Net.init (r : BlockRef) : Net :=
  { tree := [[genesisBlock r]], fsi := fun _ => FinalizerSafetyInformation.unsetFsi, ballots := [] }

inductive Net.Reachable (r : BlockRef) : Net → Prop
  | init (hpos : 0 < r.blockNum) : Net.Reachable r (Net.init r)
  | step {net net' : Net} (h : Net.Reachable r net) (s : Net.Step pol honest net net') : Net.Reachable r net'

end Net

/-! ## Certificates -/

section Certificates

variable {pol : FinalizerPolicy} {honest : PublicKey → Bool} {ballots ballots' : List Ballot} {qc : Qc} {d : Digest}

theorem Backed.mono (h : Backed pol honest ballots qc d) (hsub : ballots ⊆ ballots') : Backed pol honest ballots' qc d :=
  fun i f hf hh => ⟨fun hs => hsub ((h i f hf hh).1 hs), fun hw => hsub ((h i f hf hh).2 hw)⟩

theorem Verified.mono (h : Verified pol honest ballots qc d) (hsub : ballots ⊆ ballots') :
    Verified pol honest ballots' qc d :=
  ⟨h.1, h.2.mono hsub⟩

theorem strongWeight_le (s : QcSig) (p : FinalizerPolicy) :
    (s.strongWeight p).toNat ≤ weightWhere s.strongAt p.weights := votedWeight_toNat_le _ _

theorem weakWeight_le (s : QcSig) (p : FinalizerPolicy) :
    (s.weakWeight p).toNat ≤ weightWhere s.weakAt p.weights := votedWeight_toNat_le _ _

theorem Verified.quorum (h : Verified pol honest ballots qc d) :
    pol.threshold.toNat ≤ weightWhere (fun i => qc.activePolicySig.strongAt i || qc.activePolicySig.weakAt i)
      pol.weights ∧
    (qc.isStrong = true → pol.threshold.toNat ≤ weightWhere qc.activePolicySig.strongAt pol.weights) := by
  obtain ⟨hf, hq, -⟩ := Qc.verifyBasic_ok_iff.1 h.1
  simp only [fixedPolicies] at hf hq
  have hs := strongWeight_le qc.activePolicySig pol
  have hw := weakWeight_le qc.activePolicySig pol
  have hor := weightWhere_or_disjoint pol.weights hf.exclusive
  unfold QcSig.QuorumOk at hq
  refine ⟨?_, fun hsr => ?_⟩
  · split at hq
    · have := UInt64.le_iff_toNat_le.1 hq
      have := weightWhere_mono pol.weights (P := qc.activePolicySig.strongAt)
        (Q := fun i => qc.activePolicySig.strongAt i || qc.activePolicySig.weakAt i) (fun i _ hi => by simp [hi])
      omega
    · have := UInt64.le_iff_toNat_le.1 hq
      have h1 := UInt64.toNat_add (qc.activePolicySig.strongWeight pol) (qc.activePolicySig.weakWeight pol)
      have h2 := Nat.mod_le ((qc.activePolicySig.strongWeight pol).toNat + (qc.activePolicySig.weakWeight pol).toNat)
        (2 ^ 64)
      omega
  · have hst : qc.activePolicySig.isStrong = true := by
      rw [Qc.isStrong, Bool.and_eq_true] at hsr
      exact hsr.1
    rw [hst, if_pos rfl] at hq
    have := UInt64.le_iff_toNat_le.1 hq
    omega

end Certificates
end TheChannel

import TheChannel.Name
import TheChannel.OrderedDiff
import TheChannel.Qc
/-!
# BlockHeader — proposer policies, header extensions and the block header

`proposer_policy.hpp`, the diffs of `finalizer_policy.hpp`, `finality_extension.hpp`, `protocol_feature_activation.cpp`
and `block_header.cpp`. A header carries its extensions packed; `validate_and_extract_header_extensions` unpacks them
and checks their order. What `fc::raw` does to an extension's bytes is a `HeaderCodec`: any way of packing that unpacks
again. Every digest is `sha256` of a `Preimage`, the data the source hashes.
-/
namespace TheChannel

/-! ## Policies and their diffs -/

structure BlockSigningAuthority where
  threshold : Nat
  keys : List (PublicKey × Nat)
  deriving DecidableEq

structure ProducerAuthority where
  producerName : AccountName
  authority : BlockSigningAuthority
  deriving DecidableEq

structure ProducerAuthoritySchedule where
  version : Nat
  producers : List ProducerAuthority
  deriving DecidableEq

structure ProposerPolicyDiff where
  version : Nat
  proposalTime : Nat
  producerAuthDiff : DiffResult ProducerAuthority
  deriving DecidableEq

structure ProposerPolicy where
  proposalTime : Nat
  proposerSchedule : ProducerAuthoritySchedule
  deriving DecidableEq

structure FinalizerPolicyDiff where
  generation : Nat
  threshold : UInt64
  finalizersDiff : DiffResult FinalizerAuthority
  deriving DecidableEq

def maxDiffIndex : Nat := 65535

namespace ProposerPolicy

def createDiff (p target : ProposerPolicy) : Result ProposerPolicyDiff := do
  let d ← OrderedDiff.diff maxDiffIndex p.proposerSchedule.producers target.proposerSchedule.producers
  return ⟨target.proposerSchedule.version, target.proposalTime, d⟩

def applyDiff (p : ProposerPolicy) (diff : ProposerPolicyDiff) : Result ProposerPolicy := do
  let producers ← OrderedDiff.applyDiff p.proposerSchedule.producers diff.producerAuthDiff
  return ⟨diff.proposalTime, ⟨diff.version, producers⟩⟩

theorem createDiff_ok {p target : ProposerPolicy} (hp : p.proposerSchedule.producers.length ≤ maxDiffIndex + 1)
    (ht : target.proposerSchedule.producers.length ≤ maxDiffIndex + 1) :
    ∃ d, p.createDiff target = .ok d ∧ p.applyDiff d = .ok target := by
  refine ⟨_, by rw [createDiff, OrderedDiff.diff_eq hp ht]; rfl, ?_⟩
  rw [applyDiff, OrderedDiff.applyDiff_diffLoop]
  rfl

theorem applyDiff_ok {p q : ProposerPolicy} {d : ProposerPolicyDiff} (h : p.applyDiff d = .ok q) :
    q.proposalTime = d.proposalTime ∧ q.proposerSchedule.version = d.version := by
  obtain ⟨producers, -, hq⟩ := bind_ok h
  cases hq
  exact ⟨rfl, rfl⟩

end ProposerPolicy

namespace FinalizerPolicy

def unset : FinalizerPolicy := ⟨0, 0, []⟩

def createDiff (p target : FinalizerPolicy) : Result FinalizerPolicyDiff := do
  let d ← OrderedDiff.diff maxDiffIndex p.finalizers target.finalizers
  return ⟨target.generation, target.threshold, d⟩

def applyDiff (p : FinalizerPolicy) (diff : FinalizerPolicyDiff) : Result FinalizerPolicy := do
  let finalizers ← OrderedDiff.applyDiff p.finalizers diff.finalizersDiff
  return ⟨diff.generation, diff.threshold, finalizers⟩

theorem createDiff_ok {p target : FinalizerPolicy} (hp : p.finalizers.length ≤ maxDiffIndex + 1)
    (ht : target.finalizers.length ≤ maxDiffIndex + 1) :
    ∃ d, p.createDiff target = .ok d ∧ p.applyDiff d = .ok target := by
  refine ⟨_, by rw [createDiff, OrderedDiff.diff_eq hp ht]; rfl, ?_⟩
  rw [applyDiff, OrderedDiff.applyDiff_diffLoop]
  rfl

end FinalizerPolicy

/-! ## Extensions -/

structure FinalityExtension where
  qcClaim : QcClaim
  newFinalizerPolicyDiff : Option FinalizerPolicyDiff
  newProposerPolicyDiff : Option ProposerPolicyDiff
  deriving DecidableEq

inductive BlockHeaderExtension
  | protocolFeatureActivation (protocolFeatures : List Digest)
  | producerScheduleChange (schedule : ProducerAuthoritySchedule)
  | finality (ext : FinalityExtension)
  deriving DecidableEq

def protocolFeatureActivationId : Nat := 0

def producerScheduleChangeId : Nat := 1

def finalityExtensionId : Nat := 2

/-- `fc::raw::pack` and `fc::raw::unpack` of the header extensions. -/
structure HeaderCodec (Blob : Type) where
  packFinality : FinalityExtension → Blob
  unpackFinality : Blob → Option FinalityExtension
  packActivation : List Digest → Blob
  unpackActivation : Blob → Option (List Digest)
  unpackScheduleChange : Blob → Option ProducerAuthoritySchedule
  unpack_packFinality : ∀ x, unpackFinality (packFinality x) = some x
  unpack_packActivation : ∀ x, unpackActivation (packActivation x) = some x

/-- `emplace_extension`, and `emplace` of a `flat_multimap`: behind the entries whose id is not above. -/
def emplaceExtension {α : Type} (exts : List (Nat × α)) (id : Nat) (x : α) : List (Nat × α) :=
  exts.takeWhile (fun e => decide (e.1 ≤ id)) ++ (id, x) :: exts.dropWhile (fun e => decide (e.1 ≤ id))

section Extensions

variable {Blob : Type} (codec : HeaderCodec Blob)

/-- The result of `fc::raw::unpack`, which throws on bytes it cannot read. -/
def unpacked {α : Type} : Option α → Result α
  | some x => .ok x
  | none => .error (.thrown .rawUnpack "fc::raw::unpack")

/-- `protocol_feature_activation::reflector_init`, which unpacking ends with. -/
def activationInit (protocolFeatures : List Digest) : Result Unit := do
  eosAssert (!protocolFeatures.isEmpty) .illFormedProtocolFeatureActivation
    "Protocol feature activation extension must have at least one protocol feature digest"
  eosAssert (decide protocolFeatures.Nodup) .illFormedProtocolFeatureActivation
    "Protocol feature digest ${d} was repeated in the protocol feature activation extension"

/-- `decompose_t::extract` and the check that it matched. -/
def extractExtension (id : Nat) (data : Blob) : Result BlockHeaderExtension :=
  if id = protocolFeatureActivationId then do
    let features ← unpacked (codec.unpackActivation data)
    activationInit features
    return .protocolFeatureActivation features
  else if id = producerScheduleChangeId then do
    let schedule ← unpacked (codec.unpackScheduleChange data)
    return .producerScheduleChange schedule
  else if id = finalityExtensionId then do
    let ext ← unpacked (codec.unpackFinality data)
    return .finality ext
  else .error (.thrown .invalidBlockHeaderExtension "Block header extension with id type ${id} is not supported")

/-- The loop of `validate_and_extract_header_extensions`. All three extensions enforce uniqueness, so the ids that pass
are ascending and the multimap is the list itself. -/
def extractLoop : (isFirst : Bool) → (idTypeLowerBound : Nat) → List (Nat × Blob) →
    Result (List (Nat × BlockHeaderExtension))
  | _, _, [] => .ok []
  | isFirst, idTypeLowerBound, (id, data) :: rest => do
    eosAssert (decide (idTypeLowerBound ≤ id)) .invalidBlockHeaderExtension
      "Block header extensions are not in the correct order (ascending id types required)"
    let ext ← extractExtension codec id data
    eosAssert (isFirst || decide (idTypeLowerBound < id)) .invalidBlockHeaderExtension
      "Block header extension with id type ${id} is not allowed to repeat"
    let exts ← extractLoop false id rest
    return (id, ext) :: exts

end Extensions

def findFinality (exts : List (Nat × BlockHeaderExtension)) : Option FinalityExtension :=
  match exts.lookup finalityExtensionId with
  | some (.finality ext) => some ext
  | _ => none

def findActivation (exts : List (Nat × BlockHeaderExtension)) : Option (List Digest) :=
  match exts.lookup protocolFeatureActivationId with
  | some (.protocolFeatureActivation features) => some features
  | _ => none

/-- `protocol_feature_activation_set{orig, additional}`, which enforces that the two are disjoint. -/
def activateProtocolFeatures (orig : Finset Digest) (additional : List Digest) : Result (Finset Digest) := do
  let protocolFeatures := orig ∪ additional.toFinset
  eosAssert (protocolFeatures.card == orig.card + additional.length) .invalidBlockHeaderExtension
    "duplication of protocol feature digests"
  return protocolFeatures

/-! ## The header -/

structure LegacyProducerSchedule where
  version : Nat
  producers : List (AccountName × PublicKey)
  deriving DecidableEq

structure BlockHeader (Blob : Type) where
  timestamp : Nat
  producer : AccountName
  confirmed : Nat
  previous : BlockId
  transactionMroot : Digest
  actionMroot : Digest
  scheduleVersion : Nat
  newProducers : Option LegacyProducerSchedule
  headerExtensions : List (Nat × Blob)
  deriving DecidableEq

/-- `finality_core::pack_for_digest`: the references without the policy generations. -/
structure CoreDigestData where
  links : List QcLink
  refs : List (BlockId × Nat × Digest)
  genesisTimestamp : Nat
  deriving DecidableEq

structure Level3Commitments where
  reversibleBlocksMroot : Digest
  latestQcClaimBlockNum : Nat
  latestQcClaimFinalityDigest : Digest
  latestQcClaimTimestamp : Nat
  timestamp : Nat
  baseDigest : Digest
  deriving DecidableEq

structure Level2Commitments where
  lastPendingFinPolDigest : Digest
  lastPendingFinPolStartTimestamp : Nat
  l3CommitmentsDigest : Digest
  deriving DecidableEq

structure FinalityDigestData where
  activeFinalizerPolicyGeneration : Nat
  lastPendingFinalizerPolicyGeneration : Nat
  finalityTreeDigest : Digest
  l2CommitmentsDigest : Digest
  deriving DecidableEq

inductive Preimage (Blob : Type)
  | header (h : BlockHeader Blob)
  | finalizerPolicy (p : FinalizerPolicy)
  | blockRefDigestData (blockNum timestamp : Nat) (finalityDigest : Digest) (parentTimestamp : Nat)
  | base (header : BlockHeader Blob) (core : CoreDigestData) (proposedFinalizerPolicies : List (Nat × FinalizerPolicy))
      (pendingFinalizerPolicy : Option (Nat × FinalizerPolicy)) (activeProposerPolicy : ProposerPolicy)
      (latestProposedProposerPolicy latestPendingProposerPolicy : Option ProposerPolicy)
      (activatedProtocolFeatures : Finset Digest)
  | level3 (c : Level3Commitments)
  | level2 (c : Level2Commitments)
  | finalityDigest (d : FinalityDigestData)

structure Externals (Blob : Type) where
  codec : HeaderCodec Blob
  sha256 : Preimage Blob → Digest
  calculateMerkle : List Digest → Digest

namespace BlockHeader
variable {Blob : Type}

def properSvnnScheduleVersion : Nat := 2 ^ 31

def isProperSvnnBlock (h : BlockHeader Blob) : Bool := h.scheduleVersion == properSvnnScheduleVersion

def blockNum (h : BlockHeader Blob) : Nat := numFromId h.previous + 1

def calculateId (x : Externals Blob) (h : BlockHeader Blob) : BlockId := ⟨h.blockNum, x.sha256 (.header h)⟩

def validateAndExtractHeaderExtensions (x : Externals Blob) (h : BlockHeader Blob) :
    Result (List (Nat × BlockHeaderExtension)) :=
  extractLoop x.codec true 0 h.headerExtensions

def containsHeaderExtension (h : BlockHeader Blob) (id : Nat) : Bool := h.headerExtensions.any (fun e => e.1 == id)

/-- `extract_header_extension<finality_extension>`. The extensions are sorted, so the first with the id is the one. -/
def extractFinality (x : Externals Blob) (h : BlockHeader Blob) : Result FinalityExtension := do
  assertThat "contains_header_extension(Ext::extension_id())" (h.containsHeaderExtension finalityExtensionId)
  assertThat "std::is_sorted(header_extensions.begin(), header_extensions.end())"
    (decide (h.headerExtensions.Pairwise (fun a b => a.1 ≤ b.1)))
  match h.headerExtensions.lookup finalityExtensionId with
  | some data => unpacked (x.codec.unpackFinality data)
  | none => .error (.undefined "*extract_header_extension(Ext::extension_id())")

end BlockHeader
end TheChannel

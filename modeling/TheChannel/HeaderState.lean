import TheChannel.BlockHeader
/-!
# HeaderState — the header state of a Savanna block and its two `next`

`block_header_state.hpp`, `block_header_state.cpp`, `block_header_state_utils.hpp` and the genesis state that
`block_state::create_if_genesis_block` makes at the transition. `next` on an input is the producer's path, `nextHeader`
on a header the validator's; both end in `finishNext`, which promotes proposer and finalizer policies and advances the
finality core.

A shared pointer to a policy is the policy. Where the source compares proposer policy pointers, it asks which of the
three slots a pointer is: no two slots ever hold one object, since a proposed policy is made new, moves from slot to slot
and is dropped from the slot it leaves.
-/
namespace TheChannel

/-! ## Rounds -/

def producerRepetitions : Nat := 12

def getCurrentRoundStartSlot (t : Nat) : Nat := t - t % producerRepetitions

/-- Slots are `uint32_t`: the end of the round that holds the last slots wraps. -/
def inSameRound (next curr : Nat) : Bool :=
  decide (next < (getCurrentRoundStartSlot curr + producerRepetitions) % 2 ^ 32)

def getPriorRoundStartSlot (t : Nat) : Option Nat :=
  if t < producerRepetitions then none else some (getCurrentRoundStartSlot t - producerRepetitions)

def firstBlockOfRound (currBlockTime parentBlockTime : Nat) : Result Bool := do
  assertThat "parent_block_time.slot < curr_block_time.slot" (decide (parentBlockTime < currBlockTime))
  return decide (parentBlockTime < getCurrentRoundStartSlot currBlockTime)

def getScheduledProducer (producers : List ProducerAuthority) (t : Nat) : Result ProducerAuthority :=
  match producers[t % (producers.length * producerRepetitions) / producerRepetitions]? with
  | some p => .ok p
  | none => .error (.undefined "producers[index]")

/-! ## Finalizer policies in flight -/

/-- The finalizer policies of a header state: the active one, the pending one with the block in which it became pending,
the proposed ones with the blocks that proposed them. -/
structure FinalizerPipeline where
  activeFinalizerPolicy : FinalizerPolicy
  proposedFinalizerPolicies : List (Nat × FinalizerPolicy)
  pendingFinalizerPolicy : Option (Nat × FinalizerPolicy)
  deriving DecidableEq

namespace FinalizerPipeline

def getLastProposedFinalizerPolicy (s : FinalizerPipeline) : FinalizerPolicy :=
  match s.proposedFinalizerPolicies.getLast?, s.pendingFinalizerPolicy with
  | some p, _ => p.2
  | none, some p => p.2
  | none, none => s.activeFinalizerPolicy

def getLastPendingFinalizerPolicy (s : FinalizerPipeline) : FinalizerPolicy :=
  match s.pendingFinalizerPolicy with
  | some p => p.2
  | none => s.activeFinalizerPolicy

def promotePending (prev : FinalizerPipeline) (lib : Nat) : FinalizerPolicy × Option (Nat × FinalizerPolicy) × Bool :=
  match prev.pendingFinalizerPolicy with
  | some p => if p.1 ≤ lib then (p.2, none, true) else (prev.activeFinalizerPolicy, some p, false)
  | none => (prev.activeFinalizerPolicy, none, true)

/-- `evaluate_finalizer_policies_for_promotion` at the new last final block number `lib`, in block `blockNum`. The flag
tells whether a policy became pending, which sets `last_pending_finalizer_policy_start_timestamp`. -/
def evaluateForPromotion (prev : FinalizerPipeline) (lib blockNum : Nat) : FinalizerPipeline × Bool :=
  let (active, pending, pendingSlotOpen) := prev.promotePending lib
  -- the target is the last proposed policy before the first one whose block is not final
  let reversible := prev.proposedFinalizerPolicies.dropWhile (fun p => decide (p.1 ≤ lib))
  match (prev.proposedFinalizerPolicies.takeWhile (fun p => decide (p.1 ≤ lib))).getLast? with
  | some target =>
    if pendingSlotOpen then (⟨active, reversible, some (blockNum, target.2)⟩, true)
    else (⟨active, target :: reversible, pending⟩, false)
  | none => (⟨active, prev.proposedFinalizerPolicies, pending⟩, false)

end FinalizerPipeline

/-! ## Proposer policies in flight -/

structure ProposerPipeline where
  activeProposerPolicy : ProposerPolicy
  latestProposedProposerPolicy : Option ProposerPolicy
  latestPendingProposerPolicy : Option ProposerPolicy
  deriving DecidableEq

/-- The slots of a header state that point to a proposer policy. -/
inductive ProposerSlot
  | active
  | pending
  | proposed
  deriving DecidableEq

namespace ProposerPipeline

def getLastProposedProposerPolicy (s : ProposerPipeline) : ProposerPolicy :=
  match s.latestProposedProposerPolicy, s.latestPendingProposerPolicy with
  | some p, _ => p
  | none, some p => p
  | none, none => s.activeProposerPolicy

def policyAt (s : ProposerPipeline) : ProposerSlot → ProposerPolicy
  | .active => s.activeProposerPolicy
  | .pending => s.latestPendingProposerPolicy.getD s.activeProposerPolicy
  | .proposed => s.latestProposedProposerPolicy.getD s.activeProposerPolicy

def activate (s : ProposerPipeline) : ProposerSlot → ProposerPipeline
  | .active => s
  | .pending => { s with activeProposerPolicy := s.policyAt .pending, latestPendingProposerPolicy := none }
  | .proposed => ⟨s.policyAt .proposed, none, none⟩

def advanceProposed (s : ProposerPipeline) (isFirstBlockOfRound : Bool) : ProposerPipeline :=
  if isFirstBlockOfRound && s.latestProposedProposerPolicy.isSome && s.latestPendingProposerPolicy.isNone then
    { s with latestPendingProposerPolicy := s.latestProposedProposerPolicy, latestProposedProposerPolicy := none }
  else s

end ProposerPipeline

/-! ## The header state -/

structure BlockHeaderState (Blob : Type) extends FinalizerPipeline, ProposerPipeline where
  blockId : BlockId
  header : BlockHeader Blob
  activatedProtocolFeatures : Finset Digest
  core : FinalityCore
  latestQcClaimBlockActiveFinalizerPolicy : Option FinalizerPolicy
  finalizerPolicyGeneration : Nat
  lastPendingFinalizerPolicyDigest : Digest
  lastPendingFinalizerPolicyStartTimestamp : Nat
  headerExts : List (Nat × BlockHeaderExtension)
  deriving DecidableEq

/-- `building_block_input` and `block_header_state_input`, without the parent timestamp that `next` does not read. -/
structure BlockHeaderStateInput where
  parentId : BlockId
  timestamp : Nat
  producer : AccountName
  newProtocolFeatureActivations : List Digest
  transactionMroot : Digest
  newProposerPolicy : Option ProposerPolicy
  newFinalizerPolicy : Option FinalizerPolicy
  mostRecentAncestorWithQc : QcClaim
  finalityMrootClaim : Digest
  deriving DecidableEq

abbrev Validator := Nat → Finset Digest → List Digest → Result Unit

namespace FinalityCore

def packForDigest (c : FinalityCore) : CoreDigestData :=
  ⟨c.links, c.refs.map (fun r => (r.blockId, r.timestamp, r.finalityDigest)), c.genesisTimestamp⟩

def getReversibleBlocksMroot {Blob : Type} (x : Externals Blob) (c : FinalityCore) : Digest :=
  if c.refs.length ≤ 1 then 0
  else x.calculateMerkle (List.zipWith (fun r prev =>
    x.sha256 (.blockRefDigestData r.blockNum r.timestamp r.finalityDigest prev.timestamp)) c.refs.tail c.refs)

end FinalityCore

namespace BlockHeaderState
variable {Blob : Type} (x : Externals Blob)

def timestamp (s : BlockHeaderState Blob) : Nat := s.header.timestamp

def blockNum (s : BlockHeaderState Blob) : Nat := s.header.blockNum

def finalityMroot (s : BlockHeaderState Blob) : Digest := if s.header.isProperSvnnBlock then s.header.actionMroot else 0

def finalityExtension (s : BlockHeaderState Blob) : Option FinalityExtension := findFinality s.headerExts

def computeBaseDigest (s : BlockHeaderState Blob) : Digest :=
  x.sha256 (.base s.header s.core.packForDigest s.proposedFinalizerPolicies s.pendingFinalizerPolicy
    s.activeProposerPolicy s.latestProposedProposerPolicy s.latestPendingProposerPolicy s.activatedProtocolFeatures)

def claimedBlockRef (s : BlockHeaderState Blob) : Result BlockRef :=
  if s.core.isGenesisCore then .ok BlockRef.unset else s.core.getBlockReference s.core.latestQcClaim.blockNum

def computeFinalityDigest (s : BlockHeaderState Blob) : Result Digest := do
  let blkRef ← s.claimedBlockRef
  let l3 := x.sha256 (.level3
    { reversibleBlocksMroot := s.core.getReversibleBlocksMroot x
      latestQcClaimBlockNum := s.core.latestQcClaim.blockNum
      latestQcClaimFinalityDigest := blkRef.finalityDigest
      latestQcClaimTimestamp := blkRef.timestamp
      timestamp := s.timestamp
      baseDigest := s.computeBaseDigest x })
  let l2 := x.sha256 (.level2
    { lastPendingFinPolDigest := s.lastPendingFinalizerPolicyDigest
      lastPendingFinPolStartTimestamp := s.lastPendingFinalizerPolicyStartTimestamp
      l3CommitmentsDigest := l3 })
  return x.sha256 (.finalityDigest
    { activeFinalizerPolicyGeneration := s.activeFinalizerPolicy.generation
      lastPendingFinalizerPolicyGeneration := s.getLastPendingFinalizerPolicy.generation
      finalityTreeDigest := s.finalityMroot
      l2CommitmentsDigest := l2 })

def makeBlockRef (s : BlockHeaderState Blob) : Result BlockRef := do
  let finalityDigest ← s.computeFinalityDigest x
  return ⟨s.blockId, s.timestamp, finalityDigest, s.activeFinalizerPolicy.generation,
    (s.pendingFinalizerPolicy.map (fun p => p.2.generation)).getD 0⟩

/-! proposer policies -/

/-- `policy->proposal_time <= core.last_final_block_timestamp()`. -/
def isProposalFinal (s : BlockHeaderState Blob) (p : ProposerPolicy) : Result Bool := do
  let lastFinalBlockTimestamp ← s.core.lastFinalBlockTimestamp
  return decide (p.proposalTime ≤ lastFinalBlockTimestamp)

def proposedIsDue (s : BlockHeaderState Blob) : Result Bool :=
  match s.latestProposedProposerPolicy with
  | some p =>
    if (getPriorRoundStartSlot s.timestamp).any (fun start => decide (p.proposalTime < start)) then s.isProposalFinal p
    else .ok false
  | none => .ok false

def pendingIsDue (s : BlockHeaderState Blob) : Result Bool :=
  match s.latestPendingProposerPolicy with
  | some p => s.isProposalFinal p
  | none => .ok false

/-- `get_active_proposer_policy_for_block_at`, by the slot whose pointer it returns. -/
def activeProposerSlotForBlockAt (s : BlockHeaderState Blob) (nextBlockTimestamp : Nat) : Result ProposerSlot := do
  eosAssert (decide (s.timestamp < nextBlockTimestamp)) .blockTooOld
    "next block timestamp ${n} must be greater than current timestamp ${c}"
  if inSameRound nextBlockTimestamp s.timestamp then return .active
  else if s.latestProposedProposerPolicy.isNone && s.latestPendingProposerPolicy.isNone then return .active
  else
    let proposedDue ← s.proposedIsDue
    if proposedDue then return .proposed
    else
      let pendingDue ← s.pendingIsDue
      return if pendingDue then .pending else .active

def getActiveProposerPolicyForBlockAt (s : BlockHeaderState Blob) (nextBlockTimestamp : Nat) : Result ProposerPolicy := do
  let slot ← s.activeProposerSlotForBlockAt nextBlockTimestamp
  return s.policyAt slot

def getProducerForBlockAt (s : BlockHeaderState Blob) (nextBlockTimestamp : Nat) : Result ProducerAuthority := do
  let policy ← s.getActiveProposerPolicyForBlockAt nextBlockTimestamp
  getScheduledProducer policy.proposerSchedule.producers nextBlockTimestamp

/-- `evaluate_proposer_policies_for_promotion` for a child at `timestamp`. -/
def evaluateProposerPoliciesForPromotion (prev : BlockHeaderState Blob) (timestamp : Nat) : Result ProposerPipeline := do
  assertThat "next.timestamp() > prev.timestamp()" (decide (prev.timestamp < timestamp))
  let slot ← prev.activeProposerSlotForBlockAt timestamp
  let isFirst ← firstBlockOfRound timestamp prev.timestamp
  return (prev.toProposerPipeline.activate slot).advanceProposed isFirst

/-! finalizer policies of a block -/

/-- The policy of generation `activeGen`: the active one, or the one that was active at the claimed block. -/
def activePolicyOf (s : BlockHeaderState Blob) (activeGen : Nat) : Result FinalizerPolicy :=
  if s.activeFinalizerPolicy.generation = activeGen then .ok s.activeFinalizerPolicy
  else do
    assertThat "!pending_finalizer_policy || pending_finalizer_policy->second->generation > active_gen"
      (s.pendingFinalizerPolicy.all (fun p => decide (activeGen < p.2.generation)))
    match s.latestQcClaimBlockActiveFinalizerPolicy with
    | none => .error (.assertion "latest_qc_claim_block_active_finalizer_policy != nullptr")
    | some p => do
      assertThat "latest_qc_claim_block_active_finalizer_policy->generation == active_gen" (p.generation == activeGen)
      eosAssert (p.generation == activeGen) .chain "Logic error in finalizer policy retrieval"
      return p

/-- The policy of generation `pendingGen`, 0 for none: by now active, or still pending. -/
def pendingPolicyOf (s : BlockHeaderState Blob) (pendingGen : Nat) : Result (Option FinalizerPolicy) :=
  if pendingGen = 0 then .ok none
  else if pendingGen = s.activeFinalizerPolicy.generation then .ok (some s.activeFinalizerPolicy)
  else do
    assertThat "pending_finalizer_policy && pending_finalizer_policy->second->generation == pending_gen"
      (s.pendingFinalizerPolicy.any (fun p => p.2.generation == pendingGen))
    eosAssert (s.pendingFinalizerPolicy.any (fun p => p.2.generation == pendingGen)) .chain
      "Logic error in finalizer policy retrieval"
    return s.pendingFinalizerPolicy.map Prod.snd

def getFinalizerPolicies (s : BlockHeaderState Blob) (ref : BlockRef) : Result FinalizerPolicies := do
  assertThat
    ("core.links.empty() || " ++
     "(core.latest_qc_claim().block_num <= ref.block_num() && ref.block_num() <= core.current_block_num())")
    (s.core.links.isEmpty ||
      decide (s.core.latestQcClaim.blockNum ≤ ref.blockNum ∧ ref.blockNum ≤ s.core.currentBlockNum))
  assertThat "active_gen != 0" (ref.activePolicyGeneration != 0)
  let active ← s.activePolicyOf ref.activePolicyGeneration
  let pending ← s.pendingPolicyOf ref.pendingPolicyGeneration
  return ⟨ref.finalityDigest, active, pending⟩

def getFinalizerPoliciesAt (s : BlockHeaderState Blob) (num : Nat) : Result FinalizerPolicies :=
  if num = s.blockNum then s.makeBlockRef x >>= s.getFinalizerPolicies
  else s.core.getBlockReference num >>= s.getFinalizerPolicies

def getActiveFinalizerPolicyGeneration (s : BlockHeaderState Blob) (num : Nat) : Result Nat := do
  assertThat "core.links.empty() || (core.last_final_block_num() <= num && num <= core.current_block_num())"
    (s.core.links.isEmpty || decide (s.core.lastFinalBlockNum ≤ num ∧ num ≤ s.core.currentBlockNum))
  if num = s.blockNum then return s.activeFinalizerPolicy.generation
  else (s.core.getBlockReference num).map BlockRef.activePolicyGeneration

/-! ## The child's header state -/

def addNewFinalizerPolicy (prev : BlockHeaderState Blob) (proposed : List (Nat × FinalizerPolicy)) (blockNum : Nat) :
    Option FinalizerPolicyDiff → Result (Nat × List (Nat × FinalizerPolicy))
  | none => .ok (prev.finalizerPolicyGeneration, proposed)
  | some diff => do
    let newFinalizerPolicy ← prev.getLastProposedFinalizerPolicy.applyDiff diff
    eosAssert (decide (prev.finalizerPolicyGeneration < newFinalizerPolicy.generation)) .invalidBlockHeaderExtension
      "new finalizer policy generation ${n} not greater than previous ${p}"
    return (newFinalizerPolicy.generation, proposed ++ [(blockNum, newFinalizerPolicy)])

def claimedActivePolicy (prev : BlockHeaderState Blob) (nextCore : FinalityCore) (activeGenerationNum : Nat) :
    Result (Option FinalizerPolicy) := do
  let latestQcClaimBlockNum := nextCore.latestQcClaim.blockNum
  let generation ← prev.getActiveFinalizerPolicyGeneration latestQcClaimBlockNum
  if generation = activeGenerationNum then return none
  else
    let ref ← nextCore.getBlockReference latestQcClaimBlockNum
    let policies ← prev.getFinalizerPolicies ref
    return some policies.activeFinalizerPolicy

def nextActivatedProtocolFeatures (prev : BlockHeaderState Blob) (newActivations : List Digest) : Result (Finset Digest) :=
  if newActivations.isEmpty then .ok prev.activatedProtocolFeatures
  else activateProtocolFeatures prev.activatedProtocolFeatures newActivations

def nextLatestProposed (prev : BlockHeaderState Blob) (promoted : Option ProposerPolicy) :
    Option ProposerPolicyDiff → Result (Option ProposerPolicy)
  | some diff => (prev.getLastProposedProposerPolicy.applyDiff diff).map some
  | none => .ok promoted

def finishNext (prev : BlockHeaderState Blob) (header : BlockHeader Blob) (headerExts : List (Nat × BlockHeaderExtension))
    (newProtocolFeatureActivations : List Digest) (fExt : FinalityExtension) : Result (BlockHeaderState Blob) := do
  let activatedProtocolFeatures ← prev.nextActivatedProtocolFeatures newProtocolFeatureActivations
  let proposers ← prev.evaluateProposerPoliciesForPromotion header.timestamp
  let latestProposed ← prev.nextLatestProposed proposers.latestProposedProposerPolicy fExt.newProposerPolicyDiff
  let parentBlock ← prev.makeBlockRef x
  let core ← prev.core.next parentBlock fExt.qcClaim
  let (finalizers, becamePending) := prev.toFinalizerPipeline.evaluateForPromotion core.lastFinalBlockNum header.blockNum
  let (generation, proposed) ←
    prev.addNewFinalizerPolicy finalizers.proposedFinalizerPolicies header.blockNum fExt.newFinalizerPolicyDiff
  let claimedActive ← prev.claimedActivePolicy core finalizers.activeFinalizerPolicy.generation
  return {
    toFinalizerPipeline := { finalizers with proposedFinalizerPolicies := proposed }
    toProposerPipeline := { proposers with latestProposedProposerPolicy := latestProposed }
    blockId := header.calculateId x
    header, activatedProtocolFeatures, core, headerExts
    latestQcClaimBlockActiveFinalizerPolicy := claimedActive
    finalizerPolicyGeneration := generation
    lastPendingFinalizerPolicyDigest := x.sha256 (.finalizerPolicy finalizers.getLastPendingFinalizerPolicy)
    lastPendingFinalizerPolicyStartTimestamp :=
      if becamePending then header.timestamp else prev.lastPendingFinalizerPolicyStartTimestamp }

def diffOf {α β : Type} (createDiff : α → Result β) : Option α → Result (Option β)
  | some p => (createDiff p).map some
  | none => .ok none

/-- `next(block_header_state_input&)`, the producer's path. -/
def next (s : BlockHeaderState Blob) (input : BlockHeaderStateInput) : Result (BlockHeaderState Blob) := do
  let newFinalizerPolicyDiff ← diffOf s.getLastProposedFinalizerPolicy.createDiff input.newFinalizerPolicy
  let newProposerPolicyDiff ← diffOf s.getLastProposedProposerPolicy.createDiff input.newProposerPolicy
  let newFExt : FinalityExtension := ⟨input.mostRecentAncestorWithQc, newFinalizerPolicyDiff, newProposerPolicyDiff⟩
  let headerExtensions := emplaceExtension [] finalityExtensionId (x.codec.packFinality newFExt)
  let headerExts := emplaceExtension [] finalityExtensionId (.finality newFExt)
  let activations := input.newProtocolFeatureActivations
  let header : BlockHeader Blob :=
    { timestamp := input.timestamp
      producer := input.producer
      confirmed := 0
      previous := input.parentId
      transactionMroot := input.transactionMroot
      actionMroot := input.finalityMrootClaim
      scheduleVersion := BlockHeader.properSvnnScheduleVersion
      newProducers := none
      headerExtensions :=
        if activations.isEmpty then headerExtensions
        else emplaceExtension headerExtensions protocolFeatureActivationId (x.codec.packActivation activations) }
  let headerExts :=
    if activations.isEmpty then headerExts
    else emplaceExtension headerExts protocolFeatureActivationId (.protocolFeatureActivation activations)
  s.finishNext x header headerExts activations newFExt

def checkActionMroot (s : BlockHeaderState Blob) (h : BlockHeader Blob) (fExt : FinalityExtension) : Result Unit :=
  if h.isProperSvnnBlock then do
    let nextCoreMetadata ← s.core.nextMetadata fExt.qcClaim
    let noFinalityTreeAssociated ← s.core.isGenesisBlockNum nextCoreMetadata.latestQcClaimBlockNum
    eosAssert (noFinalityTreeAssociated == (h.actionMroot == 0)) .blockValidate
      ("No Finality Tree Root associated with the block, does not match with empty action_mroot: " ++
       "(${n}), action_mroot empty (${e}), latest_qc_claim_block_num (${f})")
  else .ok ()

def validateActivations (s : BlockHeaderState Blob) (validator : Validator) : Option (List Digest) → Result (List Digest)
  | some features => do
    validator s.timestamp s.activatedProtocolFeatures features
    return features
  | none => .ok []

def requireFinality : Option FinalityExtension → Result FinalityExtension
  | some ext => .ok ext
  | none => .error (.thrown .invalidBlockHeaderExtension
      "Instant Finality Extension is expected to be present in all block headers after switch to IF")

/-- `next(const signed_block_header&, validator_t&)`, the validator's path. -/
def nextHeader (s : BlockHeaderState Blob) (h : BlockHeader Blob) (validator : Validator) :
    Result (BlockHeaderState Blob) := do
  let producer ← s.getProducerForBlockAt h.timestamp
  eosAssert (h.previous == s.blockId) .unlinkableBlock "previous mismatch ${p} != ${id}"
  eosAssert (h.producer == producer.producerName) .wrongProducer "wrong producer specified"
  eosAssert h.newProducers.isNone .producerSchedule
    "Block header contains legacy producer schedule outdated by activation of WTMsig Block Signatures"
  let exts ← h.validateAndExtractHeaderExtensions x
  let activations ← s.validateActivations validator (findActivation exts)
  let fExt ← requireFinality (findFinality exts)
  s.checkActionMroot h fExt
  s.finishNext x h exts activations fExt

/-! ## The genesis state -/

/-- The legacy block state at the Savanna genesis block, as far as the genesis state is made from it. -/
structure Legacy (Blob : Type) where
  header : BlockHeader Blob
  activatedProtocolFeatures : Finset Digest
  activeSchedule : ProducerAuthoritySchedule
  headerExts : List (Nat × BlockHeaderExtension)
  actionMrootSavanna : Option Digest
  deriving DecidableEq

/-- The header state that `block_state::create_if_genesis_block` makes. The id of a block is `calculate_id` of its
header. -/
def createIfGenesisBlock (bsp : Legacy Blob) : Result (BlockHeaderState Blob) := do
  assertThat "bsp.action_mroot_savanna" bsp.actionMrootSavanna.isSome
  assertThat "bsp.header.contains_header_extension(finality_extension::extension_id())"
    (bsp.header.containsHeaderExtension finalityExtensionId)
  let fExt ← bsp.header.extractFinality x
  match fExt.newFinalizerPolicyDiff with
  | none => .error (.assertion "f_ext.new_finalizer_policy_diff")
  | some diff => do
    let policy ← FinalizerPolicy.unset.applyDiff diff
    return {
      activeFinalizerPolicy := policy
      proposedFinalizerPolicies := []
      pendingFinalizerPolicy := none
      activeProposerPolicy := ⟨0, bsp.activeSchedule⟩
      latestProposedProposerPolicy := none
      latestPendingProposerPolicy := none
      blockId := bsp.header.calculateId x
      header := bsp.header
      activatedProtocolFeatures := bsp.activatedProtocolFeatures
      core := .createCoreForGenesisBlock (bsp.header.calculateId x) bsp.header.timestamp
      latestQcClaimBlockActiveFinalizerPolicy := none
      finalizerPolicyGeneration := 1
      lastPendingFinalizerPolicyDigest := x.sha256 (.finalizerPolicy policy)
      lastPendingFinalizerPolicyStartTimestamp := bsp.header.timestamp
      headerExts := bsp.headerExts }

end BlockHeaderState
end TheChannel

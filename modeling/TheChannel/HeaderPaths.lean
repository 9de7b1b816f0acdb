import TheChannel.FinalizerLookup
/-!
# HeaderPaths — the producer's and the validator's path make the same header state

A producer makes a header state from an input and sends the header; a validator makes its own from the header. For an
input the controller builds (`Admissible`) the producer's path returns and the validator's path returns the same state
(`next_eq_nextHeader`). The header's extensions unpack to what was packed (`extract_headerExtensions`), the policy diffs
lead to the new policies, and no check of either path fails on a chain.
-/
namespace TheChannel
namespace BlockHeaderState
open FinalityCore

variable {Blob : Type} {x : Externals Blob} {s : BlockHeaderState Blob} {ss : List (BlockHeaderState Blob)}
  {activations : List Digest} {slot : ProposerSlot} {fExt : FinalityExtension} {h : BlockHeader Blob}

/-- **The inputs the controller builds on a parent**: they name it, are scheduled for their producer, claim a certificate
the parent's core allows with the finality root that goes with it, activate features the controller accepts, and carry
policies the host functions accepted (at most 65536 entries, a new generation). -/
structure Admissible (validator : Validator) (s : BlockHeaderState Blob) (input : BlockHeaderStateInput) : Prop where
  parent : input.parentId = s.blockId
  scheduled : ∃ p, s.getProducerForBlockAt input.timestamp = .ok p ∧ p.producerName = input.producer
  claim : s.core.Claimable input.mostRecentAncestorWithQc
  mroot : s.core.isGenesisBlockNum input.mostRecentAncestorWithQc.blockNum = .ok (input.finalityMrootClaim == 0)
  accepted : input.newProtocolFeatureActivations ≠ [] →
    validator s.timestamp s.activatedProtocolFeatures input.newProtocolFeatureActivations = .ok ()
  fresh : input.newProtocolFeatureActivations.Nodup ∧
    ∀ d ∈ input.newProtocolFeatureActivations, d ∉ s.activatedProtocolFeatures
  finalizers : ∀ p, input.newFinalizerPolicy = some p → s.finalizerPolicyGeneration < p.generation ∧
    s.getLastProposedFinalizerPolicy.finalizers.length ≤ maxDiffIndex + 1 ∧ p.finalizers.length ≤ maxDiffIndex + 1
  proposers : ∀ p, input.newProposerPolicy = some p →
    s.getLastProposedProposerPolicy.proposerSchedule.producers.length ≤ maxDiffIndex + 1 ∧
    p.proposerSchedule.producers.length ≤ maxDiffIndex + 1

/-! ## The header's extensions -/

def packedExtensions (x : Externals Blob) (activations : List Digest) (fExt : FinalityExtension) : List (Nat × Blob) :=
  if activations.isEmpty then [(finalityExtensionId, x.codec.packFinality fExt)]
  else [(protocolFeatureActivationId, x.codec.packActivation activations),
    (finalityExtensionId, x.codec.packFinality fExt)]

def plainExtensions (activations : List Digest) (fExt : FinalityExtension) : List (Nat × BlockHeaderExtension) :=
  if activations.isEmpty then [(finalityExtensionId, .finality fExt)]
  else [(protocolFeatureActivationId, .protocolFeatureActivation activations), (finalityExtensionId, .finality fExt)]

theorem extractExtension_finality (x : Externals Blob) (fExt : FinalityExtension) :
    extractExtension x.codec finalityExtensionId (x.codec.packFinality fExt) = .ok (.finality fExt) := by
  simp [extractExtension, finalityExtensionId, protocolFeatureActivationId, producerScheduleChangeId, unpacked,
    x.codec.unpack_packFinality, pure, Except.pure]

theorem extractExtension_activation (x : Externals Blob) (hne : activations ≠ []) (hn : activations.Nodup) :
    extractExtension x.codec protocolFeatureActivationId (x.codec.packActivation activations) =
      .ok (.protocolFeatureActivation activations) := by
  simp [extractExtension, unpacked, x.codec.unpack_packActivation, activationInit, eosAssert, hne, hn, pure, Except.pure]

theorem extract_headerExtensions (x : Externals Blob) (hn : activations.Nodup) (fExt : FinalityExtension) :
    extractLoop x.codec true 0 (packedExtensions x activations fExt) = .ok (plainExtensions activations fExt) := by
  unfold packedExtensions plainExtensions
  cases activations with
  | nil => simp [extractLoop, extractExtension_finality, eosAssert, pure, Except.pure]
  | cons d ds =>
    have hact := extractExtension_activation x (List.cons_ne_nil d ds) hn
    simp only [List.isEmpty_cons, Bool.false_eq_true, if_false, extractLoop]
    rw [eosAssert_bind (by decide), hact, ok_bind, eosAssert_bind (by decide), eosAssert_bind (by decide),
      extractExtension_finality, ok_bind, eosAssert_bind (by decide)]
    rfl

theorem findFinality_plainExtensions (activations : List Digest) (fExt : FinalityExtension) :
    findFinality (plainExtensions activations fExt) = some fExt := by
  cases activations <;> rfl

/-! ## `finishNext` returns -/

theorem nextActivatedProtocolFeatures_ok (hn : activations.Nodup)
    (hd : ∀ d ∈ activations, d ∉ s.activatedProtocolFeatures) :
    ∃ features, s.nextActivatedProtocolFeatures activations = .ok features := by
  have hca : (s.activatedProtocolFeatures ∪ activations.toFinset).card =
      s.activatedProtocolFeatures.card + activations.length := by
    rw [Finset.card_union_of_disjoint, List.toFinset_card_of_nodup hn]
    rw [Finset.disjoint_right]
    exact fun d hd' => hd d (List.mem_toFinset.1 hd')
  unfold nextActivatedProtocolFeatures activateProtocolFeatures
  split
  · exact ⟨_, rfl⟩
  · exact ⟨_, by rw [eosAssert_bind (by simpa using hca)]; rfl⟩

/-- **On a chain `finishNext` returns** for a claim the core allows, a time the schedule knows, and policies and features
that pass their checks. -/
theorem finishNext_returns (hc : HeaderChain x (s :: ss)) {header : BlockHeader Blob}
    {exts : List (Nat × BlockHeaderExtension)}
    (hs : s.activeProposerSlotForBlockAt header.timestamp = .ok slot) (hcl : s.core.Claimable fExt.qcClaim)
    (hf : ∃ features, s.nextActivatedProtocolFeatures activations = .ok features)
    (hprr : ∀ d, fExt.newProposerPolicyDiff = some d → ∃ p, s.getLastProposedProposerPolicy.applyDiff d = .ok p)
    (hfin : ∀ d, fExt.newFinalizerPolicyDiff = some d →
      ∃ p, s.getLastProposedFinalizerPolicy.applyDiff d = .ok p ∧ s.finalizerPolicyGeneration < p.generation) :
    ∃ s', s.finishNext x header exts activations fExt = .ok s' ∧ s'.header = header := by
  have hl := hc.linked
  obtain ⟨features, hf⟩ := hf
  obtain ⟨proposers, hpr⟩ : ∃ p, s.evaluateProposerPoliciesForPromotion header.timestamp = .ok p := by
    have ht : s.timestamp < header.timestamp := by
      obtain ⟨ht, -⟩ := unit_ok hs
      simpa using ht
    unfold evaluateProposerPoliciesForPromotion firstBlockOfRound
    rw [assertThat_bind (by simpa using ht), hs, ok_bind, assertThat_bind (by simpa using ht)]
    exact ⟨_, rfl⟩
  obtain ⟨latest, hla⟩ : ∃ latest, s.nextLatestProposed proposers.latestProposedProposerPolicy
      fExt.newProposerPolicyDiff = .ok latest := by
    cases hd : fExt.newProposerPolicyDiff with
    | none => exact ⟨_, rfl⟩
    | some d =>
      obtain ⟨p, hp⟩ := hprr d hd
      exact ⟨some p, by rw [nextLatestProposed, hp]; rfl⟩
  have hne : s.core.next (s.ref x) fExt.qcClaim = .ok (s.core.advance (s.ref x) fExt.qcClaim) := hl.view.next_eq hcl
  obtain ⟨a, ha, hn⟩ := hc.exists_at (n := fExt.qcClaim.blockNum)
    (hl.wf.lastFinal_le_claim.trans hcl.claim_le) (by rw [← hl.current]; exact hcl.le_current)
  obtain ⟨added, hadd⟩ : ∃ added, s.addNewFinalizerPolicy (s.toFinalizerPipeline.evaluateForPromotion
      (s.core.advance (s.ref x) fExt.qcClaim).lastFinalBlockNum header.blockNum).1.proposedFinalizerPolicies
      header.blockNum fExt.newFinalizerPolicyDiff = .ok added := by
    cases hd : fExt.newFinalizerPolicyDiff with
    | none => exact ⟨_, rfl⟩
    | some d =>
      obtain ⟨p, hp, hg⟩ := hfin d hd
      exact ⟨_, by rw [addNewFinalizerPolicy, hp, ok_bind, eosAssert_bind (by simpa using hg)]; rfl⟩
  unfold finishNext
  rw [hf, ok_bind, hpr, ok_bind, hla, ok_bind, hl.made, ok_bind, hne, ok_bind]
  simp only
  rw [hadd, ok_bind, claimedActivePolicy_eq hc hc.policyView hcl ha hn, ok_bind]
  exact ⟨_, rfl, rfl⟩

/-! ## The two paths -/

def producedHeader (x : Externals Blob) (input : BlockHeaderStateInput) (fExt : FinalityExtension) : BlockHeader Blob :=
  { timestamp := input.timestamp
    producer := input.producer
    confirmed := 0
    previous := input.parentId
    transactionMroot := input.transactionMroot
    actionMroot := input.finalityMrootClaim
    scheduleVersion := BlockHeader.properSvnnScheduleVersion
    newProducers := none
    headerExtensions := packedExtensions x input.newProtocolFeatureActivations fExt }

theorem next_eq {input : BlockHeaderStateInput} {fd : Option FinalizerPolicyDiff} {pd : Option ProposerPolicyDiff}
    (hfd : diffOf s.getLastProposedFinalizerPolicy.createDiff input.newFinalizerPolicy = .ok fd)
    (hpd : diffOf s.getLastProposedProposerPolicy.createDiff input.newProposerPolicy = .ok pd) :
    s.next x input = s.finishNext x (producedHeader x input ⟨input.mostRecentAncestorWithQc, fd, pd⟩)
      (plainExtensions input.newProtocolFeatureActivations ⟨input.mostRecentAncestorWithQc, fd, pd⟩)
      input.newProtocolFeatureActivations ⟨input.mostRecentAncestorWithQc, fd, pd⟩ := by
  unfold BlockHeaderState.next
  rw [hfd, ok_bind, hpd, ok_bind]
  unfold producedHeader packedExtensions plainExtensions
  cases input.newProtocolFeatureActivations <;> rfl

theorem nextHeader_eq {validator : Validator} {p : ProducerAuthority}
    (hpr : s.getProducerForBlockAt h.timestamp = .ok p) (hna : h.producer = p.producerName)
    (hp : h.previous = s.blockId) (hnew : h.newProducers = none)
    (hext : h.headerExtensions = packedExtensions x activations fExt) (hn : activations.Nodup)
    (hval : activations ≠ [] → validator s.timestamp s.activatedProtocolFeatures activations = .ok ())
    (hroot : s.checkActionMroot h fExt = .ok ()) :
    s.nextHeader x h validator = s.finishNext x h (plainExtensions activations fExt) activations fExt := by
  have hact : s.validateActivations validator (findActivation (plainExtensions activations fExt)) = .ok activations := by
    cases activations with
    | nil => rfl
    | cons d ds =>
      rw [show findActivation (plainExtensions (d :: ds) fExt) = some (d :: ds) from rfl, validateActivations, hval (by simp)]
      rfl
  unfold nextHeader
  rw [hpr, ok_bind, eosAssert_bind (by simpa using hp), eosAssert_bind (by simpa using hna),
    eosAssert_bind (by rw [hnew]; rfl), BlockHeader.validateAndExtractHeaderExtensions, hext,
    extract_headerExtensions x hn, ok_bind, hact, ok_bind, findFinality_plainExtensions, requireFinality, ok_bind, hroot,
    ok_bind]

theorem diffOf_ok {α β : Type} (createDiff : α → Result β) (applyDiff : β → Result α) {new : Option α}
    (h : ∀ p, new = some p → ∃ d, createDiff p = .ok d ∧ applyDiff d = .ok p) :
    ∃ od, diffOf createDiff new = .ok od ∧ ∀ d, od = some d → ∃ p, new = some p ∧ applyDiff d = .ok p := by
  cases new with
  | none => exact ⟨none, rfl, fun d hd => by cases hd⟩
  | some p =>
    obtain ⟨d, hd, ha⟩ := h p rfl
    refine ⟨some d, by rw [diffOf, hd]; rfl, fun d' hd' => ?_⟩
    cases hd'
    exact ⟨p, rfl, ha⟩

/-- **The producer's path and the validator's path agree**: on every chain and for every admissible input, `next` returns
a state, and `next` on the header in that state returns the same state. -/
theorem next_eq_nextHeader (hc : HeaderChain x (s :: ss)) {validator : Validator} {input : BlockHeaderStateInput}
    (h : Admissible validator s input) :
    ∃ s', s.next x input = .ok s' ∧ s.nextHeader x s'.header validator = .ok s' := by
  obtain ⟨fd, hfd, hfa⟩ := diffOf_ok s.getLastProposedFinalizerPolicy.createDiff
    s.getLastProposedFinalizerPolicy.applyDiff
    (fun p hp => FinalizerPolicy.createDiff_ok (h.finalizers p hp).2.1 (h.finalizers p hp).2.2)
  obtain ⟨pd, hpd, hpa⟩ := diffOf_ok s.getLastProposedProposerPolicy.createDiff
    s.getLastProposedProposerPolicy.applyDiff
    (fun p hp => ProposerPolicy.createDiff_ok (h.proposers p hp).1 (h.proposers p hp).2)
  obtain ⟨producer, hpr, hn⟩ := h.scheduled
  obtain ⟨policy, hpo, -⟩ := bind_ok hpr
  obtain ⟨slot, hs, -⟩ := bind_ok hpo
  let fExt : FinalityExtension := ⟨input.mostRecentAncestorWithQc, fd, pd⟩
  obtain ⟨s', hs', hh⟩ : ∃ s', s.finishNext x (producedHeader x input fExt)
      (plainExtensions input.newProtocolFeatureActivations fExt) input.newProtocolFeatureActivations fExt = .ok s' ∧
      s'.header = producedHeader x input fExt := by
    refine finishNext_returns hc hs h.claim (nextActivatedProtocolFeatures_ok h.fresh.1 h.fresh.2)
      (fun d hd => ?_) (fun d hd => ?_)
    · obtain ⟨p, -, ha⟩ := hpa d hd
      exact ⟨p, ha⟩
    · obtain ⟨p, hp, ha⟩ := hfa d hd
      exact ⟨p, ha, (h.finalizers p hp).1⟩
  refine ⟨s', (next_eq hfd hpd).trans hs', ?_⟩
  rw [hh, ← hs']
  refine nextHeader_eq hpr hn.symm h.parent rfl rfl h.fresh.1 h.accepted ?_
  have hm : s.core.nextMetadata fExt.qcClaim = _ := hc.linked.view.nextMetadata_eq h.claim
  unfold checkActionMroot
  split
  · rw [hm, ok_bind, h.mroot, ok_bind]
    exact (eosAssert_ok_iff _ _ _ _).2 (beq_self_eq_true _)
  · rfl

theorem next_eq_nextHeader_sampleProposal : ∃ s', sampleGenesis.next sampleExternals sampleProposal = .ok s' ∧
      sampleGenesis.nextHeader sampleExternals s'.header (fun _ _ _ => .ok ()) = .ok s' := by
  refine next_eq_nextHeader (.genesis genesis_sampleGenesis)
    ⟨rfl, ⟨_, rfl, rfl⟩, ?_, rfl, fun _ => rfl, ⟨by decide, by decide⟩, ?_, ?_⟩
  · exact ⟨by decide, by decide⟩
  · rintro p hp; cases hp; decide
  · rintro p hp; cases hp; decide

end BlockHeaderState
end TheChannel

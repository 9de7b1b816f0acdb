import TheChannel.Branch
import TheChannel.HeaderState
/-!
# HeaderChain — chains of header states from the Savanna genesis block

A header state is known with its chain, newest first, as a block with its branch. `HeaderStep` is one `next`, on either
path; `HeaderStep.finished` says once what a step does, and every later fact about chains is read off it. A header chain
is a branch (`HeaderChain.view`): the finality core of each state views its ancestors' references and claims.
-/
namespace TheChannel
open FinalityCore List

namespace BlockHeaderState
variable {Blob : Type} (x : Externals Blob) {fExt : FinalityExtension} {s s' : BlockHeaderState Blob}
  {ss : List (BlockHeaderState Blob)}

/-- **One block**: the producer's path for an input that names the parent, as the controller's does, or the validator's
path for a header. -/
inductive HeaderStep (s s' : BlockHeaderState Blob) : Prop
  | produced (input : BlockHeaderStateInput) (parent : input.parentId = s.blockId) (done : s.next x input = .ok s')
  | validated (h : BlockHeader Blob) (validator : Validator) (done : s.nextHeader x h validator = .ok s')

/-- **The transition's genesis block**: the first finalizer policy has generation 1. -/
structure Genesis (s : BlockHeaderState Blob) : Prop where
  made : ∃ bsp, createIfGenesisBlock x bsp = .ok s
  generation : s.activeFinalizerPolicy.generation = 1

inductive HeaderChain : List (BlockHeaderState Blob) → Prop
  | genesis {s : BlockHeaderState Blob} (h : Genesis x s) : HeaderChain [s]
  | next {s s' : BlockHeaderState Blob} {ss : List (BlockHeaderState Blob)} (parent : HeaderChain (s :: ss))
      (step : HeaderStep x s s') : HeaderChain (s' :: s :: ss)

structure Finished (s s' : BlockHeaderState Blob) (fExt : FinalityExtension) : Prop where
  previous : s'.header.previous = s.blockId
  extension : s'.finalityExtension = some fExt
  blockId : s'.blockId = s'.header.calculateId x
  core : ∃ ref, s.makeBlockRef x = .ok ref ∧ s.core.next ref fExt.qcClaim = .ok s'.core
  promoted : s'.activeFinalizerPolicy =
      (s.toFinalizerPipeline.evaluateForPromotion s'.core.lastFinalBlockNum s'.blockNum).1.activeFinalizerPolicy ∧
    s'.pendingFinalizerPolicy =
      (s.toFinalizerPipeline.evaluateForPromotion s'.core.lastFinalBlockNum s'.blockNum).1.pendingFinalizerPolicy
  proposed : s.addNewFinalizerPolicy
      (s.toFinalizerPipeline.evaluateForPromotion s'.core.lastFinalBlockNum s'.blockNum).1.proposedFinalizerPolicies
      s'.blockNum fExt.newFinalizerPolicyDiff = .ok (s'.finalizerPolicyGeneration, s'.proposedFinalizerPolicies)
  claimed : s.claimedActivePolicy s'.core s'.activeFinalizerPolicy.generation =
    .ok s'.latestQcClaimBlockActiveFinalizerPolicy
  proposers : ∃ p, s.evaluateProposerPoliciesForPromotion s'.timestamp = .ok p ∧
    s'.activeProposerPolicy = p.activeProposerPolicy ∧
    s'.latestPendingProposerPolicy = p.latestPendingProposerPolicy ∧
    ((fExt.newProposerPolicyDiff = none ∧ s'.latestProposedProposerPolicy = p.latestProposedProposerPolicy) ∨
     ∃ d q, fExt.newProposerPolicyDiff = some d ∧ s.getLastProposedProposerPolicy.applyDiff d = .ok q ∧
       s'.latestProposedProposerPolicy = some q)

variable {x}

theorem finishNext_ok {header : BlockHeader Blob} {exts : List (Nat × BlockHeaderExtension)} {activations : List Digest}
    (h : s.finishNext x header exts activations fExt = .ok s') (hp : header.previous = s.blockId)
    (hf : findFinality exts = some fExt) : Finished x s s' fExt := by
  obtain ⟨features, -, h⟩ := bind_ok h
  obtain ⟨proposers, hpr, h⟩ := bind_ok h
  obtain ⟨latest, hl, h⟩ := bind_ok h
  obtain ⟨ref, href, h⟩ := bind_ok h
  obtain ⟨core, hco, h⟩ := bind_ok h
  obtain ⟨⟨generation, proposed⟩, hnew, h⟩ := bind_ok h
  obtain ⟨claimed, hcl, h⟩ := bind_ok h
  cases h
  refine ⟨hp, hf, rfl, ⟨ref, href, hco⟩, ⟨rfl, rfl⟩, hnew, hcl, proposers, hpr, rfl, rfl, ?_⟩
  cases hd : fExt.newProposerPolicyDiff with
  | none =>
    rw [hd] at hl
    cases hl
    exact .inl ⟨rfl, rfl⟩
  | some d =>
    rw [hd, nextLatestProposed] at hl
    cases ha : s.getLastProposedProposerPolicy.applyDiff d with
    | error e => rw [ha] at hl; cases hl
    | ok q =>
      rw [ha] at hl
      cases hl
      exact .inr ⟨d, q, rfl, ha, rfl⟩

theorem HeaderStep.finished (h : HeaderStep x s s') : ∃ fExt, Finished x s s' fExt := by
  cases h with
  | produced input parent done =>
    obtain ⟨fd, -, done⟩ := bind_ok done
    obtain ⟨pd, -, done⟩ := bind_ok done
    refine ⟨_, finishNext_ok done parent ?_⟩
    cases input.newProtocolFeatureActivations <;> rfl
  | validated h validator done =>
    obtain ⟨producer, -, done⟩ := bind_ok done
    obtain ⟨hp, done⟩ := unit_ok done
    iterate 2 replace done := rest_ok done
    obtain ⟨exts, -, done⟩ := bind_ok done
    obtain ⟨activations, -, done⟩ := bind_ok done
    obtain ⟨fExt, hf, done⟩ := bind_ok done
    replace done := rest_ok done
    refine ⟨fExt, finishNext_ok done (by simpa using hp) ?_⟩
    cases hfi : findFinality exts with
    | none => rw [hfi] at hf; cases hf
    | some f => rw [hfi] at hf; cases hf; rfl

/-! ## The branch of a chain -/

def ref (x : Externals Blob) (s : BlockHeaderState Blob) : BlockRef :=
  match s.makeBlockRef x with
  | .ok r => r
  | .error _ => BlockRef.unset

def block (x : Externals Blob) (s : BlockHeaderState Blob) : Block :=
  { ref := s.ref x, core := s.core, headerClaim := s.core.latestQcClaim, qc := none, actionMroot := s.header.actionMroot }

variable {s s' : BlockHeaderState Blob}

theorem makeBlockRef_ok (h : s.core.Wf) : s.makeBlockRef x = .ok (s.ref x) ∧ (s.ref x).blockId = s.blockId ∧
    (s.ref x).timestamp = s.timestamp ∧ (s.ref x).activePolicyGeneration = s.activeFinalizerPolicy.generation ∧
    (s.ref x).pendingPolicyGeneration = (s.pendingFinalizerPolicy.map (·.2.generation)).getD 0 := by
  obtain ⟨r, hr⟩ : ∃ r, s.claimedBlockRef = .ok r := by
    unfold claimedBlockRef
    split
    · exact ⟨_, rfl⟩
    · rename_i hg
      obtain ⟨r, hr, -⟩ := h.getBlockReference_ok h.lastFinal_le_claim (h.proper (by simpa [isGenesisCore] using hg) _ h.back_mem)
      exact ⟨r, hr⟩
  obtain ⟨d, hd⟩ : ∃ d, s.computeFinalityDigest x = .ok d := ⟨_, by rw [computeFinalityDigest, hr, ok_bind]; rfl⟩
  have hm : s.makeBlockRef x = .ok ⟨s.blockId, s.timestamp, d, s.activeFinalizerPolicy.generation,
      (s.pendingFinalizerPolicy.map (·.2.generation)).getD 0⟩ := by rw [makeBlockRef, hd, ok_bind]; rfl
  unfold ref
  rw [hm]
  exact ⟨rfl, rfl, rfl, rfl, rfl⟩

/-- **A header chain is a branch**, and each state's number is the one in its id. -/
structure Linked (x : Externals Blob) (s : BlockHeaderState Blob) (ss : List (BlockHeaderState Blob)) : Prop where
  view : View (s.block x) (ss.map (block x))
  idNum : s.blockId.num = s.blockNum
  made : s.makeBlockRef x = .ok (s.ref x)

theorem Linked.of_wf (hw : s.core.Wf) (hid : s.blockId = s.header.calculateId x)
    (hv : (s.ref x).blockId = s.blockId → (s.ref x).timestamp = s.timestamp → View (s.block x) (ss.map (block x))) :
    Linked x s ss := by
  obtain ⟨hm, hr, ht, -, -⟩ := makeBlockRef_ok (x := x) hw
  exact ⟨hv hr ht, by rw [hid]; rfl, hm⟩

structure Started (x : Externals Blob) (s : BlockHeaderState Blob) : Prop where
  blockId : s.blockId = s.header.calculateId x
  core : s.core = createCoreForGenesisBlock s.blockId s.timestamp
  pending : s.pendingFinalizerPolicy = none
  proposed : s.proposedFinalizerPolicies = []
  proposer : s.latestPendingProposerPolicy = none ∧ s.latestProposedProposerPolicy = none ∧
    s.activeProposerPolicy.proposalTime = 0
  last : s.finalizerPolicyGeneration = 1

theorem Genesis.started (h : Genesis x s) : Started x s := by
  obtain ⟨bsp, h⟩ := h.made
  iterate 2 replace h := rest_ok h
  obtain ⟨f, -, h⟩ := bind_ok h
  split at h
  · cases h
  rename_i d hd
  obtain ⟨policy, -, h⟩ := bind_ok h
  cases h
  exact ⟨rfl, rfl, rfl, rfl, ⟨rfl, rfl, rfl⟩, rfl⟩

theorem linked_genesis (h : Genesis x s) : Linked x s [] := by
  have hs := h.started
  have hw : s.core.Wf := hs.core ▸ wf_genesis _ _
  refine .of_wf hw hs.blockId fun hr ht => ?_
  have hv := view_genesis (s.ref x)
  have hco : (genesisBlock (s.ref x)).core = s.core := by rw [hs.core, genesisBlock, hr, ht]
  refine ⟨hw, ?_, rfl, ?_, ?_, ?_, ?_, ?_⟩
  all_goals simp only [block, ← hco]
  · exact hv.current
  · exact hv.refs_le
  · exact hv.refs_eq
  · exact hv.links_le
  · exact hv.links_eq
  · exact hv.times

theorem Linked.wf (h : Linked x s ss) : s.core.Wf := h.view.wf

theorem Finished.core_eq (h : Linked x s ss) (hf : Finished x s s' fExt) :
    s.core.Claimable fExt.qcClaim ∧ s'.core = s.core.advance (s.ref x) fExt.qcClaim := by
  obtain ⟨r, hr, hc⟩ := hf.core
  have hq : s.core.Claimable fExt.qcClaim := claimable_of_next_ok hc
  obtain rfl : s.ref x = r := by rw [h.made] at hr; cases hr; rfl
  exact ⟨hq, Except.ok.inj (hc.symm.trans (h.view.next_eq hq))⟩

theorem Finished.time_lt (hf : Finished x s s' fExt) : s.timestamp < s'.timestamp := by
  obtain ⟨p, hp, -⟩ := hf.proposers
  obtain ⟨ht, -⟩ := unit_ok hp
  simpa using ht

theorem linked_next (h : Linked x s ss) (hf : Finished x s s' fExt) : Linked x s' (s :: ss) := by
  have ht := hf.time_lt
  obtain ⟨hq, hco⟩ := hf.core_eq h
  have hcl : s'.core.latestQcClaim = fExt.qcClaim := by rw [hco, advance_latestQcClaim]
  have hw : s'.core.Wf := hco ▸ wf_advance h.wf hq h.view.current.symm h.view.times
  obtain ⟨-, hr, hrt, -, -⟩ := makeBlockRef_ok (x := x) h.wf
  refine .of_wf hw hf.blockId fun hid hti => ?_
  refine view_next h.view (by rw [show (s'.block x).headerClaim = fExt.qcClaim from hcl]; exact hq) ?_ ?_ ?_
  · -- the number of a block is one above the number in its parent's id
    show (s'.ref x).blockNum = (s.ref x).blockNum + 1
    rw [BlockRef.blockNum, BlockRef.blockNum, hid, hr, hf.blockId]
    show numFromId s'.header.previous + 1 = _
    rw [hf.previous]
  · show (s.ref x).timestamp < (s'.ref x).timestamp
    rw [hti, hrt]
    exact ht
  · exact hco.trans (by rw [show (s'.block x).headerClaim = fExt.qcClaim from hcl]; rfl)

theorem HeaderChain.linked : ∀ {s} {ss},
    HeaderChain x (s :: ss) → Linked x s ss
  | _, _, .genesis h => linked_genesis h
  | _, _, .next parent step => by
    obtain ⟨fExt, hf⟩ := step.finished
    exact linked_next parent.linked hf

/-! ## Numbers and references along a chain -/

theorem Linked.current (h : Linked x s ss) : s.core.currentBlockNum = s.blockNum := by
  obtain ⟨-, hid, -⟩ := makeBlockRef_ok (x := x) h.view.wf
  rw [← h.idNum, ← hid]
  exact h.view.current

theorem Finished.blockNum_eq (hl : Linked x s ss) (hf : Finished x s s' fExt) : s'.blockNum = s.blockNum + 1 := by
  rw [← hl.idNum, blockNum, BlockHeader.blockNum, hf.previous]
  rfl

theorem Finished.core_le (hl : Linked x s ss) (hf : Finished x s s' fExt) :
    s.core.latestQcClaim.blockNum ≤ s'.core.latestQcClaim.blockNum ∧ s'.core.latestQcClaim.blockNum ≤ s.blockNum ∧
      s.core.lastFinalBlockNum ≤ s'.core.lastFinalBlockNum := by
  obtain ⟨hq, hco⟩ := hf.core_eq hl
  rw [hco, advance_latestQcClaim, advance_lastFinalBlockNum hl.wf hq, ← hl.current]
  exact ⟨hq.claim_le, hq.le_current, hl.wf.front_target_le (hl.wf.frontAfter_mem hq)⟩

namespace HeaderChain
variable {L : List (BlockHeaderState Blob)} {a : BlockHeaderState Blob}

theorem descending : ∀ {L}, HeaderChain x L → L.IsChain (fun a b => a.blockNum = b.blockNum + 1)
  | _, .genesis _ => isChain_singleton _
  | _, .next parent step => by
    obtain ⟨fExt, hf⟩ := step.finished
    exact isChain_cons_cons.2 ⟨hf.blockNum_eq parent.linked, parent.descending⟩

theorem suffix (h : HeaderChain x L) : ∀ {L'}, L' <:+ L → L' ≠ [] → HeaderChain x L' := by
  induction h with
  | genesis hg =>
    intro L' hs hne
    obtain rfl | hs := suffix_cons_iff.1 hs
    · exact .genesis hg
    · exact absurd (suffix_nil.1 hs) hne
  | next parent step ih =>
    intro L' hs hne
    obtain rfl | hs := suffix_cons_iff.1 hs
    · exact .next parent step
    · exact ih hs hne

theorem of_mem (h : HeaderChain x L) (ha : a ∈ L) : ∃ as, HeaderChain x (a :: as) := by
  obtain ⟨pre, as, rfl⟩ := append_of_mem ha
  exact ⟨as, h.suffix (suffix_append _ _) (by simp)⟩

theorem blockNum_lt (h : HeaderChain x (s :: ss)) (ha : a ∈ ss) : a.blockNum < s.blockNum := by
  obtain ⟨k, hk⟩ := mem_iff_getElem?.1 ha
  have := descending_getElem? (k := k + 1) h.descending (by rw [getElem?_cons_succ]; exact hk)
  omega

theorem blockNum_le (h : HeaderChain x (s :: ss)) (ha : a ∈ s :: ss) : a.blockNum ≤ s.blockNum := by
  rcases mem_cons.1 ha with rfl | ha
  · exact le_rfl
  · exact Nat.le_of_lt (h.blockNum_lt ha)

theorem parent (h : HeaderChain x (s' :: s :: ss)) : HeaderChain x (s :: ss) := by
  cases h with
  | next parent _ => exact parent

section

variable (h : HeaderChain x (s :: ss))

include h

theorem exists_at {n : Nat} (h1 : s.core.lastFinalBlockNum ≤ n) (h2 : n ≤ s.blockNum) :
    ∃ a ∈ s :: ss, a.blockNum = n := by
  have hl := h.linked
  have hlen : s.core.refs.length ≤ ss.length := by simpa [block] using hl.view.refs_le
  have hnum : s.core.lastFinalBlockNum + s.core.refs.length = s.core.currentBlockNum := hl.view.wf.ref_length
  rw [hl.current] at hnum
  have hlt : s.blockNum - n < (s :: ss).length := by simp only [length_cons]; omega
  refine ⟨(s :: ss)[s.blockNum - n], getElem_mem _, ?_⟩
  have := descending_getElem? h.descending (getElem?_eq_getElem hlt)
  omega

theorem getBlockReference_of_view {b : Block} (hv : View b ((s :: ss).map (block x)))
    (hb : b.num = s.blockNum + 1) (ha : a ∈ s :: ss)
    (h1 : b.core.lastFinalBlockNum ≤ a.blockNum) : b.core.getBlockReference a.blockNum = .ok (a.ref x) := by
  obtain ⟨k, hk⟩ := mem_iff_getElem?.1 ha
  have hnum := descending_getElem? h.descending hk
  have han : ancestorAt (b :: (s :: ss).map (block x)) a.blockNum =
      a.block x :: ((s :: ss).map (block x)).drop (k + 1) := by
    rw [ancestorAt, show b.num - a.blockNum = k + 1 by omega, drop_succ_cons, drop_eq_getElem?_toList_append,
      getElem?_map, hk]
    rfl
  exact hv.getBlockReference_eq h1 (by omega) han

theorem getBlockReference_eq (ha : a ∈ ss)
    (h1 : s.core.lastFinalBlockNum ≤ a.blockNum) : s.core.getBlockReference a.blockNum = .ok (a.ref x) := by
  have hl := h.linked
  have hbn : (s.block x).num = s.blockNum := by rw [← hl.current]; exact hl.view.current.symm
  cases h with
  | genesis _ => cases ha
  | next parent step =>
    obtain ⟨fExt, hf⟩ := step.finished
    exact parent.getBlockReference_of_view hl.view (hbn.trans (hf.blockNum_eq parent.linked)) ha h1

theorem advance_getBlockReference {q : QcClaim} (hq : s.core.Claimable q)
    (ha : a ∈ s :: ss) (h1 : (s.core.advance (s.ref x) q).lastFinalBlockNum ≤ a.blockNum) :
    (s.core.advance (s.ref x) q).getBlockReference a.blockNum = .ok (a.ref x) := by
  have hl := h.linked
  -- any child with this claim; only its core matters
  let child : Block :=
    { ref := ⟨⟨s.blockNum + 1, 0⟩, (s.ref x).timestamp + 1, 0, 0, 0⟩, core := s.core.advance (s.ref x) q, headerClaim := q,
      qc := none, actionMroot := 0 }
  have hnum : (s.block x).num = s.blockNum := by rw [← hl.current]; exact hl.view.current.symm
  have hv : View child ((s :: ss).map (block x)) :=
    view_next hl.view hq (show s.blockNum + 1 = _ by rw [hnum]) (Nat.lt_succ_self _) rfl
  exact h.getBlockReference_of_view hv rfl ha h1

end

end HeaderChain

/-! ## A sample chain

Four blocks that end one round before the last round of the slot type. -/

section Sample

def sampleCodec : HeaderCodec BlockHeaderExtension where
  packFinality := .finality
  unpackFinality
    | .finality e => some e
    | _ => none
  packActivation := .protocolFeatureActivation
  unpackActivation
    | .protocolFeatureActivation fs => some fs
    | _ => none
  unpackScheduleChange
    | .producerScheduleChange p => some p
    | _ => none
  unpack_packFinality _ := rfl
  unpack_packActivation _ := rfl

def sampleExternals : Externals BlockHeaderExtension := ⟨sampleCodec, fun _ => 1, fun _ => 1⟩

def sampleLastRound : Nat := 2 ^ 32 - 4

def sampleSchedule (version : Nat) : ProducerAuthoritySchedule := ⟨version, [⟨1, ⟨1, [(1, 1)]⟩⟩]⟩

def sampleFinalizerPolicy (generation : Nat) : FinalizerPolicy := ⟨generation, 1, [⟨"finalizer", 1, 7⟩]⟩

def sampleGenesisExtension : BlockHeaderExtension := .finality ⟨⟨0, false⟩, some ⟨1, 1, ⟨[], [(0, ⟨"finalizer", 1, 7⟩)]⟩⟩, none⟩

def sampleLegacy : Legacy BlockHeaderExtension :=
  { header := ⟨sampleLastRound - 40, 1, 0, ⟨4, 4⟩, 0, 1, 0, none, [(finalityExtensionId, sampleGenesisExtension)]⟩
    activatedProtocolFeatures := ∅
    activeSchedule := sampleSchedule 1
    headerExts := [(finalityExtensionId, sampleGenesisExtension)]
    actionMrootSavanna := some 1 }

def sampleGenesis : BlockHeaderState BlockHeaderExtension :=
  { activeFinalizerPolicy := sampleFinalizerPolicy 1
    proposedFinalizerPolicies := []
    pendingFinalizerPolicy := none
    activeProposerPolicy := ⟨0, sampleSchedule 1⟩
    latestProposedProposerPolicy := none
    latestPendingProposerPolicy := none
    blockId := ⟨5, 1⟩
    header := sampleLegacy.header
    activatedProtocolFeatures := ∅
    core := createCoreForGenesisBlock ⟨5, 1⟩ (sampleLastRound - 40)
    latestQcClaimBlockActiveFinalizerPolicy := none
    finalizerPolicyGeneration := 1
    lastPendingFinalizerPolicyDigest := 1
    lastPendingFinalizerPolicyStartTimestamp := sampleLastRound - 40
    headerExts := sampleLegacy.headerExts }

theorem genesis_sampleGenesis : Genesis sampleExternals sampleGenesis := ⟨⟨sampleLegacy, rfl⟩, rfl⟩

def sampleInput (s : BlockHeaderState BlockHeaderExtension) (timestamp : Nat) (claim : QcClaim) : BlockHeaderStateInput :=
  ⟨s.blockId, timestamp, 1, [], 0, none, none, claim, if claim.blockNum = 5 then 0 else 1⟩

def sampleChild (s : BlockHeaderState BlockHeaderExtension) (input : BlockHeaderStateInput) :
    BlockHeaderState BlockHeaderExtension :=
  (s.next sampleExternals input).toOption.getD s

theorem headerStep_sampleChild {s : BlockHeaderState BlockHeaderExtension} {input : BlockHeaderStateInput}
    (hp : input.parentId = s.blockId) (h : (s.next sampleExternals input).toOption.isSome = true) :
    HeaderStep sampleExternals s (sampleChild s input) := by
  refine .produced input hp ?_
  unfold sampleChild
  cases hn : s.next sampleExternals input with
  | ok s' => rfl
  | error e => rw [hn] at h; cases h

def sampleProposal : BlockHeaderStateInput :=
  { sampleInput sampleGenesis (sampleLastRound - 30) ⟨5, false⟩ with
    newProposerPolicy := some ⟨sampleLastRound - 30, sampleSchedule 2⟩
    newFinalizerPolicy := some (sampleFinalizerPolicy 2) }

def sampleBlock6 : BlockHeaderState BlockHeaderExtension := sampleChild sampleGenesis sampleProposal

def sampleBlock7 : BlockHeaderState BlockHeaderExtension :=
  sampleChild sampleBlock6 (sampleInput sampleBlock6 (sampleLastRound - 20) ⟨6, true⟩)

def sampleBlock8 : BlockHeaderState BlockHeaderExtension :=
  sampleChild sampleBlock7 (sampleInput sampleBlock7 (sampleLastRound - 12) ⟨7, true⟩)

theorem headerChain_sampleBlock7 : HeaderChain sampleExternals [sampleBlock7, sampleBlock6, sampleGenesis] :=
  .next (.next (.genesis genesis_sampleGenesis) (headerStep_sampleChild rfl rfl)) (headerStep_sampleChild rfl rfl)

theorem headerChain_sampleBlock8 : HeaderChain sampleExternals [sampleBlock8, sampleBlock7, sampleBlock6, sampleGenesis] :=
  .next headerChain_sampleBlock7 (headerStep_sampleChild rfl rfl)

end Sample
end BlockHeaderState
end TheChannel

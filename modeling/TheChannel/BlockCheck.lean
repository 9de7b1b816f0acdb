import TheChannel.Qc
/-!
# BlockCheck — the controller's checks of a proper block's QC claim

`verify_basic_proper_block_invariants` of `controller.cpp`: the claim in a block's finality header extension against the
parent's claim and number, and the certificate in its block extension against the claim. `ProperBlock` and `PrevBlock`
hold what the function reads of the block and of the parent's state.
-/
namespace TheChannel

/-- The sequence of roots kept by `valid_t`, from the last final block on. -/
structure Valid where
  validationMroots : List Digest
  deriving DecidableEq

structure ProperBlock where
  blockNum : Nat
  isProperSvnnBlock : Bool
  actionMroot : Digest
  finalityExt : Option QcClaim -- the claim of the finality header extension
  quorumCertificateExt : Option Qc

structure PrevBlock where
  blockNum : Nat
  isLegacyBlock : Bool
  finalityExt : Option QcClaim
  core : FinalityCore
  valid : Option Valid
  isValid : Bool

namespace PrevBlock

def getValidationMroot (prev : PrevBlock) (targetBlockNum : Nat) : Result Digest :=
  match prev.valid with
  | none => .ok 0
  | some v => do
    assertThat "valid->validation_mroots.size() > 0" (decide (v.validationMroots.length > 0))
    let low := prev.core.lastFinalBlockNum
    let high := low + v.validationMroots.length
    eosAssert (decide (low ≤ targetBlockNum ∧ targetBlockNum < high)) .blockValidate
      "target_block_num ${b} is outside of range of ${low} and ${high}"
    return (v.validationMroots[targetBlockNum - low]?).getD 0

def getFinalityMrootClaim (prev : PrevBlock) (qcClaim : QcClaim) : Result Digest := do
  let nextCoreMetadata ← prev.core.nextMetadata qcClaim
  if ← prev.core.isGenesisBlockNum nextCoreMetadata.latestQcClaimBlockNum then return 0
  else prev.getValidationMroot nextCoreMetadata.latestQcClaimBlockNum

end PrevBlock

def verifyNewClaim (b : ProperBlock) (prev : PrevBlock) (newQcClaim : QcClaim) : Result (Option Qc) := do
  eosAssert b.quorumCertificateExt.isSome .blockValidate
    "Block #${b} is making a new finality claim, but doesn't include a qc to justify this claim"
  match b.quorumCertificateExt with
  | none => .error (.assertion "qc_ext_itr != block_exts.end()")
  | some qcProof =>
    eosAssert (qcProof.blockNum == newQcClaim.blockNum) .blockValidate
      "Block #${b}: Mismatch between qc.block_num (${n1}) in block extension and block_num (${n2}) in header extension"
    eosAssert (qcProof.isStrong == newQcClaim.isStrongQc) .blockValidate
      "QC is_strong (${s1}) in block extension does not match is_strong_qc (${s2}) in header extension. Block number: ${b}"
    if prev.isValid then
      assertThat "prev.valid" prev.valid.isSome
      let computedFinalityMroot ← prev.getFinalityMrootClaim newQcClaim
      eosAssert (computedFinalityMroot == b.actionMroot) .blockValidate
        "computed finality mroot (${computed}) does not match supplied finality mroot ${supplied} by header extension. Block number: ${b}, block id: ${id}"
    return some qcProof

def verifyBasicProperBlockInvariants (b : ProperBlock) (prev : PrevBlock) : Result (Option Qc) := do
  assertThat "b->is_proper_svnn_block()" b.isProperSvnnBlock
  match b.finalityExt with
  | none => .error (.thrown .blockValidate "Proper Savanna block #${b} does not have a finality header extension")
  | some newQcClaim =>
    eosAssert (!prev.isLegacyBlock) .blockValidate
      "Proper Savanna block #${b} may not have previous block that is a Legacy block"
    match prev.finalityExt with
    | none => .error (.assertion "prev_finality_ext")
    | some prevQcClaim =>
      eosAssert (decide (newQcClaim.blockNum ≥ prevQcClaim.blockNum)) .invalidQcClaim
        "Block #${b} claims a block_num (${n1}) less than the previous block's (${n2})"
      eosAssert (decide (newQcClaim.blockNum ≤ prev.blockNum)) .invalidQcClaim
        "Block #${b} claims a block_num (${n1}) that is greater than the previous block number (${n2})"
      if newQcClaim.blockNum == prevQcClaim.blockNum then
        if newQcClaim.isStrongQc == prevQcClaim.isStrongQc then
          eosAssert (!b.quorumCertificateExt.isSome) .invalidQcClaim
            "Block #${b} should not provide a QC block extension since its QC claim is the same as the previous block's"
          return none
        else
          eosAssert newQcClaim.isStrongQc .invalidQcClaim
            "claimed QC (${s1}) must be stricter than previous block's (${s2}) if block number is the same. Block number: ${b}"
          verifyNewClaim b prev newQcClaim
      else verifyNewClaim b prev newQcClaim

variable {prev : PrevBlock} {b : ProperBlock} {q : Option Qc}

theorem verifyNewClaim_ok {c : QcClaim}
    (h : verifyNewClaim b prev c = .ok q) : ∃ qc, q = some qc ∧ b.quorumCertificateExt = some qc ∧ qc.toQcClaim = c := by
  unfold verifyNewClaim at h
  rw [unit_bind_ok_iff] at h
  obtain ⟨-, h⟩ := h
  split at h
  · cases h
  rename_i qc hq
  simp only [unit_bind_ok_iff, eosAssert_ok_iff, beq_iff_eq] at h
  obtain ⟨hn, hs, h⟩ := h
  refine ⟨qc, ?_, hq, ?_⟩
  · cases hv : prev.isValid with
    | false => simp only [hv, Bool.false_eq_true, if_false] at h; cases h; rfl
    | true =>
      simp only [hv, if_true, bind_ok_iff] at h
      obtain ⟨_, -, _, -, _, -, h⟩ := h
      cases h; rfl
  · cases c; simp only [Qc.toQcClaim] at *; rw [hn, hs]

/-- **What a block that passed the check claims**: a claim its parent's core allows, which is the parent's own or comes
with its certificate. -/
theorem verifyBasicProperBlockInvariants_ok (h : verifyBasicProperBlockInvariants b prev = .ok q) :
    ∃ c p, b.finalityExt = some c ∧ prev.finalityExt = some p ∧ c.blockNum ≤ prev.blockNum ∧ p.le c = true ∧
      ((q = none ∧ c = p) ∨ ∃ qc, q = some qc ∧ b.quorumCertificateExt = some qc ∧ qc.toQcClaim = c) := by
  unfold verifyBasicProperBlockInvariants at h
  rw [unit_bind_ok_iff] at h
  obtain ⟨-, h⟩ := h
  split at h
  · cases h
  rename_i c hc
  simp only [unit_bind_ok_iff] at h
  obtain ⟨-, h⟩ := h
  split at h
  · cases h
  rename_i p hp
  simp only [unit_bind_ok_iff, eosAssert_ok_iff, decide_eq_true_eq] at h
  obtain ⟨h1, h2, h⟩ := h
  refine ⟨c, p, hc, hp, h2, ?_⟩
  by_cases hn : c.blockNum = p.blockNum
  · rw [if_pos (by simpa using hn)] at h
    by_cases hs : c.isStrongQc = p.isStrongQc
    · rw [if_pos (by simpa using hs)] at h
      have hcp : c = p := by cases c; cases p; simp_all
      rw [unit_bind_ok_iff] at h
      cases h.2
      refine ⟨by simp [QcClaim.le, hcp], .inl ⟨rfl, hcp⟩⟩
    · rw [if_neg (by simpa using hs), unit_bind_ok_iff, eosAssert_ok_iff] at h
      exact ⟨by simp [QcClaim.le, hn, h.1], .inr (verifyNewClaim_ok h.2)⟩
  · rw [if_neg (by simpa using hn)] at h
    exact ⟨by simp [QcClaim.le]; omega, .inr (verifyNewClaim_ok h)⟩

end TheChannel

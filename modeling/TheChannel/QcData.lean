import TheChannel.Branch
import TheChannel.ForkDbRun
import TheChannel.QcAggregate
/-!
# QcData — the claim and the certificate of a new block

`building_block::get_qc_data` of `controller.cpp`: the nearest block of the parent's branch that has a certificate decides.
What a producer puts into a block this way passes the claim checks of the nodes that receive it.
-/
namespace TheChannel

/-- `is_needed`: the claim is above the parent's. -/
def FinalityCore.isNeeded (c : FinalityCore) (qcClaim : QcClaim) : Bool := !qcClaim.le c.latestQcClaim

structure QcDataT where
  qc : Option Qc
  qcClaim : QcClaim
  deriving DecidableEq

namespace ForkDb
variable {β : Type} (T : BlockStateType β) (aggregatingQc : β → AggregatingQc) (db : ForkDb β)

def nearestQc (id : BlockId) : Option Qc :=
  (T.forest.path db.index id).findSome? (fun b => (aggregatingQc b).getBestQc (T.blockNum b))

def getQcData (parentId : BlockId) (parentCore : FinalityCore) : Result QcDataT :=
  match db.nearestQc T aggregatingQc parentId with
  | some qc => do
    eosAssert (decide (qc.blockNum ≤ numFromId parentId)) .blockValidate
      "most recent ancestor QC block number (${a}) cannot be greater than parent's block number (${p})"
    if parentCore.isNeeded qc.toQcClaim then return ⟨some qc, qc.toQcClaim⟩
    -- no new qc info, repeat existing
    else return ⟨none, parentCore.latestQcClaim⟩
  | none => .ok ⟨none, parentCore.latestQcClaim⟩

variable {T aggregatingQc db}

theorem getBestQc_blockNum {q : AggregatingQc} {n : Nat} {qc : Qc} (h : q.getBestQc n = some qc) : qc.blockNum = n := by
  unfold AggregatingQc.getBestQc at h
  split at h
  · cases h
  · split at h
    · split at h
      · cases h
        rfl
      · cases h
    · cases h
      rfl

theorem getQcData_cases (T : BlockStateType β) (aggregatingQc : β → AggregatingQc) (db : ForkDb β) (id : BlockId)
    (core : FinalityCore) : ∃ d, db.getQcData T aggregatingQc id core = .ok d ∧
      ((d = ⟨none, core.latestQcClaim⟩) ∨ ∃ qc, d = ⟨some qc, qc.toQcClaim⟩ ∧ qc.blockNum ≤ numFromId id ∧
        core.isNeeded qc.toQcClaim = true) := by
  unfold getQcData
  cases h : db.nearestQc T aggregatingQc id with
  | none => exact ⟨_, rfl, .inl rfl⟩
  | some qc =>
    have hle : qc.blockNum ≤ numFromId id := by
      obtain ⟨b, hb, hqc⟩ := List.exists_of_findSome?_eq_some h
      rw [getBestQc_blockNum hqc]
      exact (Forest.mem_path id b hb).2
    simp only [eosAssert_bind (decide_eq_true hle)]
    split
    · rename_i hn
      exact ⟨_, rfl, .inr ⟨qc, rfl, hle, hn⟩⟩
    · exact ⟨_, rfl, .inl rfl⟩

end ForkDb

theorem QcClaim.above_of_not_le {a b : QcClaim} (h : a.le b = false) : b.le a = true ∧ a ≠ b ∧ b.blockNum ≤ a.blockNum ∧
    (a.blockNum = b.blockNum → a.isStrongQc = true ∧ b.isStrongQc = false) := by
  have hne : a ≠ b := fun heq => by simp [heq, QcClaim.le] at h
  simp only [QcClaim.le, Bool.or_eq_false_iff, decide_eq_false_iff_not, Bool.and_eq_false_iff, beq_eq_false_iff_ne,
    Bool.not_eq_false'] at h
  have hs : a.blockNum = b.blockNum → a.isStrongQc = true ∧ b.isStrongQc = false := fun heq => by
    simpa using h.2.resolve_left (· heq)
  refine ⟨?_, hne, by omega, hs⟩
  simp only [QcClaim.le, Bool.or_eq_true, decide_eq_true_eq, Bool.and_eq_true, beq_iff_eq, Bool.not_eq_true']
  by_cases heq : a.blockNum = b.blockNum
  · exact .inr ⟨heq.symm, .inl (hs heq).2⟩
  · exact .inl (by omega)

variable {p b : Block} {valid : Option Valid} {isValid : Bool}

theorem verifyBasicProperBlockInvariants_new {qc : Qc}
    (hb : b.qc = some qc) (hcl : b.headerClaim = qc.toQcClaim) (hle : qc.blockNum ≤ p.num)
    (hab : qc.toQcClaim.le p.headerClaim = false) (hm : isValid = true → valid.isSome = true ∧
      (p.prevBlock valid isValid).getFinalityMrootClaim b.headerClaim = .ok b.actionMroot) :
    verifyBasicProperBlockInvariants b.properBlock (p.prevBlock valid isValid) = .ok (some qc) := by
  obtain ⟨-, hne, hnum, hs⟩ := QcClaim.above_of_not_le hab
  have hnew : verifyNewClaim b.properBlock (p.prevBlock valid isValid) qc.toQcClaim = .ok (some qc) := by
    unfold verifyNewClaim
    simp only [Block.properBlock, hb]
    rw [eosAssert_bind (by rfl), eosAssert_bind (by simp [Qc.toQcClaim]), eosAssert_bind (by simp [Qc.toQcClaim])]
    cases isValid with
    | false => rfl
    | true =>
      obtain ⟨hso, hroot⟩ := hm rfl
      rw [hcl] at hroot
      simp only [Block.prevBlock] at hroot ⊢
      rw [if_pos trivial, assertThat_bind hso, hroot, ok_bind, eosAssert_bind (by simp)]
      rfl
  unfold verifyBasicProperBlockInvariants
  rw [assertThat_bind (by rfl)]
  simp only [Block.properBlock, Block.prevBlock, hcl] at hnew ⊢
  rw [eosAssert_bind (by rfl), eosAssert_bind (by exact decide_eq_true hnum), eosAssert_bind (by exact decide_eq_true hle)]
  by_cases heq : qc.toQcClaim.blockNum = p.headerClaim.blockNum
  · obtain ⟨hst, hw⟩ := hs heq
    rw [if_pos (by simpa using heq), if_neg (by simp [hst, hw]), eosAssert_bind hst, hnew]
  · rw [if_neg (by simpa using heq), hnew]

/-- **A child with the claim and the certificate of `get_qc_data` passes the check against its parent.** The finality root
of the child is the one the parent gives for the claim, as in `assemble_block`. -/
theorem getQcData_checked {β : Type} (T : BlockStateType β) (aggregatingQc : β → AggregatingQc) (db : ForkDb β)
    {p : Block} {bs : List Block} (parent : ValidBranch (p :: bs)) :
    ∃ d, db.getQcData T aggregatingQc p.ref.blockId p.core = .ok d ∧
      p.headerClaim.le d.qcClaim = true ∧ d.qcClaim.blockNum ≤ p.num ∧
      (d.qc.isSome = true ↔ d.qcClaim ≠ p.headerClaim) ∧
      (∀ qc, d.qc = some qc → qc.blockNum = d.qcClaim.blockNum ∧ qc.isStrong = d.qcClaim.isStrongQc) ∧
      ∀ (b : Block) (valid : Option Valid) (isValid : Bool), b.headerClaim = d.qcClaim → b.qc = d.qc →
        (isValid = true → valid.isSome = true ∧
          (p.prevBlock valid isValid).getFinalityMrootClaim b.headerClaim = .ok b.actionMroot) →
        verifyBasicProperBlockInvariants b.properBlock (p.prevBlock valid isValid) = .ok d.qc := by
  have hv := parent.view
  have hcl := hv.claim
  have hle : p.headerClaim.blockNum ≤ p.num := by
    rw [← hcl, ← hv.current]
    exact hv.wf.claim_le_current
  obtain ⟨d, hd, rfl | ⟨qc, rfl, hnum, hn⟩⟩ := ForkDb.getQcData_cases T aggregatingQc db p.ref.blockId p.core
  · rw [hcl] at hd
    refine ⟨_, hd, by simp [QcClaim.le], hle, by simp, by simp, fun b valid isValid hb hqc _ => ?_⟩
    unfold verifyBasicProperBlockInvariants
    rw [assertThat_bind (by rfl)]
    simp only [Block.properBlock, Block.prevBlock, hb, hqc]
    rw [eosAssert_bind (by rfl), eosAssert_bind (by simp), eosAssert_bind (by exact decide_eq_true hle), if_pos (by simp),
      if_pos (by simp), eosAssert_bind (by rfl)]
    rfl
  · have hab : qc.toQcClaim.le p.headerClaim = false := by
      unfold FinalityCore.isNeeded at hn
      rwa [hcl, Bool.not_eq_true'] at hn
    obtain ⟨hup, hne, -, -⟩ := QcClaim.above_of_not_le hab
    refine ⟨_, hd, hup, hnum, by simp [hne], ?_, fun b valid isValid hb hqc hm => ?_⟩
    · intro qc' hqc'
      cases hqc'
      exact ⟨rfl, rfl⟩
    · exact verifyBasicProperBlockInvariants_new hqc hb hnum hab hm

def sampleReceived : AggregatingQc :=
  let q := AggregatingQc.new ⟨1, 1, [⟨"a", 1, 7⟩]⟩ none
  { q with activePolicySig := { q.activePolicySig with receivedQcSig := some ⟨some [true], none, []⟩ } }

theorem getQcData_checked_sampleFirst :
    ∃ d, (⟨none, BlockId.zero, [(5, 6, 5)]⟩ : ForkDb _).getQcData ForkDb.sampleNumbered (fun _ => sampleReceived)
      sampleFirst.ref.blockId sampleFirst.core = .ok d ∧ d.qcClaim = ⟨6, true⟩ ∧ d.qc.isSome = true := by
  obtain ⟨d, hd, -, -, hiff, -⟩ := getQcData_checked ForkDb.sampleNumbered (fun _ => sampleReceived)
    ⟨none, BlockId.zero, [(5, 6, 5)]⟩ sampleFirst_valid
  have hcl : d.qcClaim = ⟨6, true⟩ := by
    cases hd
    rfl
  exact ⟨d, hd, hcl, hiff.2 (by rw [hcl]; decide)⟩

end TheChannel

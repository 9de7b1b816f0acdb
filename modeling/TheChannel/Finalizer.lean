import TheChannel.Branch
/-!
# Finalizer — the voting rules of one finalizer key

`finalizer::decide_vote` and `finalizer::maybe_update_fsi` of `finalizer.cpp` over a finalizer's safety information: its
last vote, the block it is locked on, and the latest time of a vote on another branch. `decideVote_ok` says once what a
decision did; the invariants over runs are derived from it.
-/
namespace TheChannel

structure FinalizerSafetyInformation where
  lastVote : BlockRef
  lock : BlockRef
  otherBranchLatestTime : Nat
  deriving DecidableEq

def FinalizerSafetyInformation.unsetFsi : FinalizerSafetyInformation := ⟨BlockRef.unset, BlockRef.unset, 0⟩

inductive VoteDecision
  | noVote
  | strongVote
  | weakVote
  deriving DecidableEq

structure VoteResult where
  decision : VoteDecision := .noVote
  safetyCheck : Bool := false
  livenessCheck : Bool := false
  monotonyCheck : Bool := false
  deriving DecidableEq

def hasVotedStrong (finPolicy : FinalizerPolicy) (qc : QcSig) (key : PublicKey) : Result Bool := do
  assertThat "qc.is_strong()" qc.isStrong
  match finPolicy.indexOf key with
  | none => return false
  | some index =>
    assertThat "qc.strong_votes" qc.strongVotes.isSome
    VoteBitset.get (qc.strongVotes.getD []) index

def setDefaultSafetyInformation (cur fsi : FinalizerSafetyInformation) : FinalizerSafetyInformation :=
  if !cur.lastVote.empty || !cur.lock.empty then cur else fsi

namespace FinalizerSafetyInformation

/-- The liveness and the safety check of `decide_vote`; both fail when there is no lock. -/
def lockChecks (fsi : FinalizerSafetyInformation) (b : Block) : Result (Bool × Bool) :=
  if !fsi.lock.empty then do
    let qcTime ← b.core.latestQcBlockTimestamp
    if decide (qcTime > fsi.lock.timestamp) then return (true, false)
    else
      let safetyCheck ← b.core.extends' fsi.lock.blockId
      return (false, safetyCheck)
  else return (false, false)

/-- The strength of a vote on `b`, and the new `other_branch_latest_time`. -/
def strength (fsi : FinalizerSafetyInformation) (b : Block) (latestQcBlockTimestamp : Nat) :
    Result (VoteDecision × Nat) :=
  if fsi.lastVote.timestamp ≤ latestQcBlockTimestamp then return (.strongVote, 0)
  else do
    if ← b.core.extends' fsi.lastVote.blockId then
      if fsi.otherBranchLatestTime ≤ latestQcBlockTimestamp then return (.strongVote, 0)
      else return (.weakVote, fsi.otherBranchLatestTime)
    else return (.weakVote, fsi.lastVote.timestamp)

def lockAfter (fsi : FinalizerSafetyInformation) (b : Block) (decision : VoteDecision)
    (latestQcBlockTimestamp : Nat) : Result BlockRef :=
  if decision = .strongVote ∧ latestQcBlockTimestamp > fsi.lock.timestamp then
    b.core.getBlockReference b.core.latestQcClaim.blockNum
  else return fsi.lock

def decideVote (fsi : FinalizerSafetyInformation) (b : Block) : Result (VoteResult × FinalizerSafetyInformation) := do
  let monotonyCheck := fsi.lastVote.empty || decide (b.time > fsi.lastVote.timestamp)
  if !monotonyCheck then return ({}, fsi)
  else
    let (livenessCheck, safetyCheck) ← fsi.lockChecks b
    if livenessCheck || safetyCheck then
      let latestQcBlockTimestamp ← b.core.latestQcBlockTimestamp
      let (decision, otherBranchLatestTime) ← fsi.strength b latestQcBlockTimestamp
      let lock ← fsi.lockAfter b decision latestQcBlockTimestamp
      return ({ decision, safetyCheck, livenessCheck, monotonyCheck }, { lastVote := b.ref, lock, otherBranchLatestTime })
    else return ({ safetyCheck, livenessCheck, monotonyCheck }, fsi)

/-- The finalizer has voted strong on `b`: update its information if that is more recent. Whether it was updated. -/
def maybeUpdateFsi (fsi : FinalizerSafetyInformation) (b : Block) : Result (Bool × FinalizerSafetyInformation) := do
  let claimedRef ← b.core.getBlockReference b.core.latestQcClaim.blockNum
  if claimedRef.timestamp > fsi.lock.timestamp ∧ b.time > fsi.lastVote.timestamp then
    return (true, { lastVote := b.ref, lock := claimedRef, otherBranchLatestTime := 0 })
  else return (false, fsi)

/-- **What a vote did**: the checks it passed and the information it left, with `t` the time of the block claimed by `b`. -/
structure Voted (fsi : FinalizerSafetyInformation) (b : Block) (strong : Bool) (fsi' : FinalizerSafetyInformation)
    (t : Nat) : Prop where
  qcTime : b.core.latestQcBlockTimestamp = .ok t
  monotony : fsi.lastVote.empty = true ∨ fsi.lastVote.timestamp < b.time
  locked : fsi.lock.empty = false
  unlock : fsi.lock.timestamp < t ∨ t ≤ fsi.lock.timestamp ∧ b.core.extends' fsi.lock.blockId = .ok true
  lastVote : fsi'.lastVote = b.ref
  branch : (strong = true ∧ fsi.lastVote.timestamp ≤ t ∧ fsi'.otherBranchLatestTime = 0) ∨
    (strong = true ∧ b.core.extends' fsi.lastVote.blockId = .ok true ∧ fsi.otherBranchLatestTime ≤ t ∧
      fsi'.otherBranchLatestTime = 0) ∨
    (strong = false ∧ b.core.extends' fsi.lastVote.blockId = .ok true ∧
      fsi'.otherBranchLatestTime = fsi.otherBranchLatestTime) ∨
    (strong = false ∧ fsi'.otherBranchLatestTime = fsi.lastVote.timestamp)
  lock : (strong = true ∧ fsi.lock.timestamp < t ∧
      b.core.getBlockReference b.core.latestQcClaim.blockNum = .ok fsi'.lock) ∨
    ((strong = true → t ≤ fsi.lock.timestamp) ∧ fsi'.lock = fsi.lock)

section Decide

variable {fsi fsi' : FinalizerSafetyInformation} {b : Block} {d : VoteDecision}

theorem lockChecks_ok {live safe : Bool} (h : fsi.lockChecks b = .ok (live, safe)) (hv : (live || safe) = true) :
    fsi.lock.empty = false ∧ ∃ t, b.core.latestQcBlockTimestamp = .ok t ∧
      (fsi.lock.timestamp < t ∨ t ≤ fsi.lock.timestamp ∧ b.core.extends' fsi.lock.blockId = .ok true) := by
  unfold lockChecks at h
  cases he : fsi.lock.empty with
  | true => rw [he] at h; cases h; cases hv
  | false =>
    simp only [he, Bool.not_false, if_true, bind_ok_iff] at h
    obtain ⟨t, ht, h⟩ := h
    refine ⟨rfl, t, ht, ?_⟩
    by_cases hl : fsi.lock.timestamp < t
    · exact .inl hl
    · simp only [gt_iff_lt, hl, decide_false, Bool.false_eq_true, if_false, bind_ok_iff] at h
      obtain ⟨s, hs, h⟩ := h
      cases h
      rw [Bool.false_or] at hv
      subst hv
      exact .inr ⟨Nat.le_of_not_lt hl, hs⟩

theorem strength_ok {t obt : Nat} (h : fsi.strength b t = .ok (d, obt)) :
    (d = .strongVote ∧ fsi.lastVote.timestamp ≤ t ∧ obt = 0) ∨
    (d = .strongVote ∧ b.core.extends' fsi.lastVote.blockId = .ok true ∧ fsi.otherBranchLatestTime ≤ t ∧ obt = 0) ∨
    (d = .weakVote ∧ b.core.extends' fsi.lastVote.blockId = .ok true ∧ obt = fsi.otherBranchLatestTime) ∨
    (d = .weakVote ∧ obt = fsi.lastVote.timestamp) := by
  unfold strength at h
  split at h
  · rename_i hle
    cases h
    exact .inl ⟨rfl, hle, rfl⟩
  · obtain ⟨e, he, h⟩ := bind_ok h
    cases e with
    | true =>
      simp only [if_true] at h
      split at h
      · rename_i hle
        cases h
        exact .inr (.inl ⟨rfl, he, hle, rfl⟩)
      · cases h
        exact .inr (.inr (.inl ⟨rfl, he, rfl⟩))
    | false =>
      cases h
      exact .inr (.inr (.inr ⟨rfl, rfl⟩))

theorem lockAfter_ok {t : Nat} {l : BlockRef} (h : fsi.lockAfter b d t = .ok l) :
    (d = .strongVote ∧ fsi.lock.timestamp < t ∧ b.core.getBlockReference b.core.latestQcClaim.blockNum = .ok l) ∨
    ((d = .strongVote → t ≤ fsi.lock.timestamp) ∧ l = fsi.lock) := by
  unfold lockAfter at h
  split at h
  · rename_i hc
    exact .inl ⟨hc.1, hc.2, h⟩
  · rename_i hc
    cases h
    exact .inr ⟨fun hd => Nat.le_of_not_lt fun ht => hc ⟨hd, ht⟩, rfl⟩

theorem decideVote_ok {res : VoteResult} (h : fsi.decideVote b = .ok (res, fsi')) :
    (res.decision = .noVote ∧ fsi' = fsi) ∨
    ∃ strong t, res.decision = (if strong then .strongVote else .weakVote) ∧ Voted fsi b strong fsi' t := by
  unfold decideVote at h
  cases hm : (fsi.lastVote.empty || decide (b.time > fsi.lastVote.timestamp)) with
  | false =>
    simp only [hm, Bool.not_false, if_true] at h
    cases h
    exact .inl ⟨rfl, rfl⟩
  | true =>
    simp only [hm, Bool.not_true, Bool.false_eq_true, if_false] at h
    obtain ⟨⟨live, safe⟩, hl, h⟩ := bind_ok h
    cases hv : (live || safe) with
    | false =>
      simp only [hv, Bool.false_eq_true, if_false] at h
      cases h
      exact .inl ⟨rfl, rfl⟩
    | true =>
      simp only [hv, if_true, bind_ok_iff] at h
      obtain ⟨t, ht, ⟨d, obt⟩, hs, l, hlk, h⟩ := h
      cases h
      obtain ⟨hne, t', ht', hu⟩ := lockChecks_ok hl hv
      obtain rfl : t' = t := by rw [ht] at ht'; cases ht'; rfl
      have hmo : fsi.lastVote.empty = true ∨ fsi.lastVote.timestamp < b.time := by simpa using hm
      have hst := strength_ok hs
      have hlk := lockAfter_ok hlk
      cases d with
      | noVote => simp at hst
      | strongVote =>
        refine .inr ⟨true, t', rfl, ht, hmo, hne, hu, rfl, ?_, ?_⟩
        · simpa using hst
        · simpa using hlk
      | weakVote =>
        refine .inr ⟨false, t', rfl, ht, hmo, hne, hu, rfl, ?_, ?_⟩
        · simpa using hst
        · simpa using hlk

end Decide
end FinalizerSafetyInformation
end TheChannel

import TheChannel.BandwidthSpec
/-!
# StakeRefunds — what becomes of the money of a stake change

A stake change of `from_` is set against a refund `from_` still waits for, and the rest is paid to the stake account: the refund
and the payment together move by exactly the change (`changebw_amounts`).
-/
namespace TheChannel
open RowMap

def RefundRequest.amount (r : RefundRequest) : Int := r.netAmount.amount + r.cpuAmount.amount

structure RefundRequest.Fit (core : Symbol) (r : RefundRequest) : Prop where
  netSymbol : r.netAmount.symbol = core
  cpuSymbol : r.cpuAmount.symbol = core
  net : 0 ≤ r.netAmount.amount
  cpu : 0 ≤ r.cpuAmount.amount

namespace Staking
variable {core : Symbol} {env : StakeEnv} {s s' : Staking} {from_ receiver source : AccountName} {netDelta cpuDelta : Asset}
  {r : RefundRequest}

def refunding (s : Staking) (owner : AccountName) : Int := weigh (fun _ r => r.amount) owner (s.refunds.lookup owner)

def RefundsFit (core : Symbol) (s : Staking) : Prop := ∀ owner r, s.refunds.lookup owner = some r → r.Fit core

theorem offsetRefund_ok {amount balance : Asset} {r : Asset × Asset} (h : offsetRefund amount balance = .ok r) :
    balance.symbol = amount.symbol ∧ r.1.symbol = amount.symbol ∧ r.2.symbol = amount.symbol ∧
      0 ≤ r.1.amount ∧ 0 ≤ r.2.amount ∧ r.1.amount - r.2.amount = amount.amount - balance.amount ∧
      (balance.amount ≤ 0 → 0 ≤ amount.amount → r.2.amount = 0) := by
  unfold offsetRefund at h
  obtain ⟨left, hl, h⟩ := bind_ok h
  obtain ⟨hsym, -, rfl⟩ := Asset.sub_ok_iff.1 hl
  cases h
  dsimp only
  split
  · rename_i hneg
    dsimp only
    exact ⟨hsym, rfl, rfl, le_rfl, by omega, by omega, by omega⟩
  · rename_i hpos
    dsimp only
    exact ⟨hsym, rfl, hsym, by omega, le_rfl, by omega, fun _ _ => rfl⟩

theorem newRefund_amounts {balance : Asset} (hsym : balance.symbol = core) :
    (newRefund core balance).1.symbol = core ∧ (newRefund core balance).2.symbol = core ∧
      0 ≤ (newRefund core balance).1.amount ∧ 0 ≤ (newRefund core balance).2.amount ∧
      (newRefund core balance).1.amount - (newRefund core balance).2.amount = -balance.amount ∧
      (balance.amount ≤ 0 → (newRefund core balance).2.amount = 0) := by
  unfold newRefund
  split
  · dsimp only
    exact ⟨hsym, hsym, by omega, le_rfl, by omega, fun _ => rfl⟩
  · dsimp only
    exact ⟨rfl, hsym, le_rfl, by omega, by omega, by omega⟩

theorem refunding_store {empty : Bool} (href : s'.refunds = s.refunds.store empty from_ r)
    (he : empty = true → r.amount = 0) (a : AccountName) :
    s'.refunding a = if a = from_ then r.amount else s.refunding a := by
  unfold refunding
  rw [href]
  exact weigh_store (w := fun _ r => r.amount) (v := r) s.refunds he a

theorem amount_of_isEmpty (h : r.isEmpty = true) : r.amount = 0 := by
  unfold RefundRequest.isEmpty at h
  simp only [Bool.and_eq_true, beq_iff_eq] at h
  unfold RefundRequest.amount
  omega

/-- **The money of a stake change**: `left` is paid to the stake account, and the refund moves by the rest. -/
structure Settles (core : Symbol) (s s' : Staking) (source who : AccountName) (change left : Int) : Prop where
  pos : 0 ≤ left
  fit : RefundsFit core s'
  refunds : ∀ a, s'.refunding a = s.refunding a + if a = who then left - change else 0
  balances : ∀ owner, s'.token.balance owner core.code = s.token.balance owner core.code +
    (if owner = stakeAccount then left else 0) - if owner = source then left else 0
  issued : s.token.Issued core → s'.token.Issued core

section

variable (F : RefundsFit core s)

include F

theorem updateRefund_amounts (hnet : netDelta.symbol = core) (hcpu : cpuDelta.symbol = core)
    {r : Staking × Asset × Asset} (h : s.updateRefund core env from_ netDelta cpuDelta = .ok r) :
    RefundsFit core r.1 ∧ r.2.1.symbol = core ∧ r.2.2.symbol = core ∧ 0 ≤ r.2.1.amount ∧ 0 ≤ r.2.2.amount ∧
      (∀ a, r.1.refunding a = s.refunding a +
        if a = from_ then r.2.1.amount + r.2.2.amount - (netDelta.amount + cpuDelta.amount) else 0) ∧
      (netDelta.amount ≤ 0 → cpuDelta.amount ≤ 0 → r.2.1.amount + r.2.2.amount = 0) := by
  unfold updateRefund at h
  cases hre : s.refunds.lookup from_ with
  | some req =>
    rw [hre] at h
    dsimp only at h
    have hfit := F from_ req hre
    obtain ⟨net, hne, h⟩ := bind_ok h
    obtain ⟨cpu, hcf, h⟩ := bind_ok h
    iterate 2 replace h := rest_ok h
    cases h
    obtain ⟨-, hn1, hn2, hnp, hnl, hns, hnz⟩ := offsetRefund_ok hne
    obtain ⟨-, hc1, hc2, hcp, hcl, hcs, hcz⟩ := offsetRefund_ok hcf
    refine ⟨?_, hn2.trans hfit.netSymbol, hc2.trans hfit.cpuSymbol, hnl, hcl, ?_, ?_⟩
    · intro owner r hr
      rcases lookup_store hr with rfl | hr
      · exact ⟨hn1.trans hfit.netSymbol, hc1.trans hfit.cpuSymbol, hnp, hcp⟩
      · exact F owner r hr
    · intro a
      rw [refunding_store (s := s) rfl amount_of_isEmpty]
      by_cases ha : a = from_
      · rw [if_pos ha, if_pos ha, ha, refunding, hre, weigh_some]
        simp only [RefundRequest.amount]
        omega
      · rw [if_neg ha, if_neg ha, Int.add_zero]
    · intro hn hc
      dsimp only
      rw [hnz hn hfit.net, hcz hc hfit.cpu]
      rfl
  | none =>
    rw [hre] at h
    dsimp only at h
    split at h
    · cases h
      obtain ⟨hn1, hn2, hnp, hnl, hns, hnz⟩ := newRefund_amounts hnet
      obtain ⟨hc1, hc2, hcp, hcl, hcs, hcz⟩ := newRefund_amounts hcpu
      refine ⟨?_, hn2, hc2, hnl, hcl, ?_, ?_⟩
      · intro owner r hr
        rcases lookup_insert_some hr with ⟨-, rfl⟩ | ⟨-, hr⟩
        · exact ⟨hn1, hc1, hnp, hcp⟩
        · exact F owner r hr
      · intro a
        simp only [refunding, lookup_insert_ite]
        by_cases ha : a = from_
        · rw [if_pos ha, if_pos ha, ha, hre, weigh_some, weigh_none]
          simp only [RefundRequest.amount]
          omega
        · rw [if_neg ha, if_neg ha, Int.add_zero]
      · intro hn hc
        rw [hnz hn, hcz hc]
        rfl
    · rename_i hneg
      cases h
      refine ⟨F, hnet, hcpu, by dsimp only; omega, by dsimp only; omega, ?_, ?_⟩
      · intro a
        rw [Int.sub_self]
        simp
      · intro hn hc
        dsimp only
        omega

theorem settleStake_amounts {self_ : Bool} (hso : source ≠ stakeAccount)
    (hnet : netDelta.symbol = core) (hcpu : cpuDelta.symbol = core)
    (h : s.settleStake core env source from_ self_ netDelta cpuDelta = .ok s') :
    ∃ left, Settles core s s' source from_ (netDelta.amount + cpuDelta.amount) left ∧
      (netDelta.amount ≤ 0 → cpuDelta.amount ≤ 0 → netDelta.amount + cpuDelta.amount < 0 → left = 0) ∧
      (self_ = false → 0 ≤ netDelta.amount + cpuDelta.amount → left = netDelta.amount + cpuDelta.amount) := by
  unfold settleStake at h
  rw [if_neg hso] at h
  obtain ⟨r, href, h⟩ := bind_ok h
  obtain ⟨amount, ham, h⟩ := bind_ok h
  obtain ⟨-, -, rfl⟩ := Asset.add_ok_iff.1 ham
  -- what is left of the change after the refund
  have hl : RefundsFit core r.1 ∧ r.1.token = s.token ∧ r.2.1.symbol = core ∧ 0 ≤ r.2.1.amount + r.2.2.amount ∧
      (∀ a, r.1.refunding a = s.refunding a +
        if a = from_ then r.2.1.amount + r.2.2.amount - (netDelta.amount + cpuDelta.amount) else 0) ∧
      (netDelta.amount ≤ 0 → cpuDelta.amount ≤ 0 → netDelta.amount + cpuDelta.amount < 0 → r.2.1.amount + r.2.2.amount = 0) ∧
      (self_ = false → 0 ≤ netDelta.amount + cpuDelta.amount →
        r.2.1.amount + r.2.2.amount = netDelta.amount + cpuDelta.amount) := by
    split at href
    · rename_i hco
      obtain ⟨F', hn, hc, hnl, hcl, hsum, hz⟩ := updateRefund_amounts F hnet hcpu href
      refine ⟨F', ?_, hn, by omega, hsum, fun h1 h2 _ => hz h1 h2, ?_⟩
      · rw [updateRefund_ok href]
      · intro hs hpos
        rw [hs, Bool.false_or, decide_eq_true_eq] at hco
        omega
    · rename_i hco
      cases href
      simp only [Bool.or_eq_true, decide_eq_true_eq, not_or] at hco
      refine ⟨F, rfl, hnet, by dsimp only; omega, ?_, ?_, fun _ _ => rfl⟩
      · intro a
        rw [Int.sub_self]
        simp
      · intro _ _ hneg
        exact absurd hneg hco.2
  obtain ⟨F', htok, hsym, hpos, hsum, hz, hall⟩ := hl
  refine ⟨r.2.1.amount + r.2.2.amount, ?_, hz, hall⟩
  split at h
  · obtain ⟨hf, hpay⟩ := pay_ok h
    have hres : s'.refunds = r.1.refunds := by rw [hf]
    refine ⟨hpos, ?_, ?_, ?_, ?_⟩
    · unfold RefundsFit
      rw [hres]
      exact F'
    · intro a
      rw [← hsum a]
      unfold refunding
      rw [hres]
    · intro owner
      have := Token.transfer_balance hpay owner
      rw [htok] at this
      simpa only [hsym] using this
    · intro I
      rw [← htok] at I
      exact I.transfer hpay
  · rename_i hno
    cases h
    dsimp only at hno
    have hz' : r.2.1.amount + r.2.2.amount = 0 := by omega
    refine ⟨hpos, F', hsum, ?_, ?_⟩
    · intro owner
      rw [htok, hz']
      simp
    · rw [htok]
      exact id

theorem changebw_amounts {transfer : Bool} (hs : from_ ≠ stakeAccount)
    (hnet : netDelta.symbol = core) (hcpu : cpuDelta.symbol = core)
    (h : s.changebw core env from_ receiver netDelta cpuDelta transfer = .ok s') :
    ∃ left, Settles core s s' from_ (if transfer then receiver else from_) (netDelta.amount + cpuDelta.amount) left ∧
      (netDelta.amount ≤ 0 → cpuDelta.amount ≤ 0 → netDelta.amount + cpuDelta.amount < 0 → left = 0) ∧
      ((transfer = true ∨ from_ ≠ receiver) → 0 ≤ netDelta.amount + cpuDelta.amount →
        left = netDelta.amount + cpuDelta.amount) := by
  obtain ⟨-, -, -, who, s1, s2, s3, r, hw, hdel, huse, hset, hv, rfl⟩ := changebw_ok h
  have h1 : s1 = { s with delband := s1.delband } := (updateStakeDelegated_ok hdel).1
  have h2 : s2 = { s1 with userres := s2.userres } := by
    obtain ⟨row, -, huse⟩ := bind_ok huse
    exact (storeUserres_ok huse).1
  obtain ⟨row, hr, -, -⟩ := updateVotingPower_ok hv
  have F2 : RefundsFit core s2 := by
    rw [h2, h1]
    exact F
  obtain ⟨left, S, hz, hall⟩ := settleStake_amounts F2 hs hnet hcpu hset
  rw [h2, h1] at S
  rw [hr, ← hw]
  refine ⟨left, ⟨S.pos, S.fit, S.refunds, S.balances, S.issued⟩, hz, fun hot => hall ?_⟩
  rcases hot with ht | hne
  · simp [ht]
  · cases transfer with
    | true => rfl
    | false =>
      rw [hw]
      simp [hne]

theorem refund_amounts {owner : AccountName} (h : s.refund env owner = .ok s') :
    RefundsFit core s' ∧ 0 < s.refunding owner ∧ s'.refunding owner = 0 ∧ (∀ a, a ≠ owner → s'.refunding a = s.refunding a) ∧
      (∀ a, s'.token.balance a core.code = s.token.balance a core.code +
        (if a = owner then s.refunding owner else 0) - if a = stakeAccount then s.refunding owner else 0) ∧
      (s.token.Issued core → s'.token.Issued core) ∧
      s' = { s with refunds := s'.refunds, token := s'.token } := by
  replace h := rest_ok h
  split at h
  · cases h
  rename_i req hre
  have hfit := F owner req hre
  replace h := rest_ok h
  obtain ⟨amount, ham, h⟩ := bind_ok h
  obtain ⟨-, -, rfl⟩ := Asset.add_ok_iff.1 ham
  obtain ⟨hf, hpay⟩ := pay_ok h
  have href : s'.refunds = s.refunds.erase owner := by rw [hf]
  have hrow : s.refunding owner = req.netAmount.amount + req.cpuAmount.amount := by
    rw [refunding, hre]
    rfl
  refine ⟨?_, ?_, ?_, ?_, ?_, fun I => I.transfer hpay, by rw [hf]⟩
  · intro a r hr
    rw [href] at hr
    exact F a r (lookup_erase_some hr).2
  · rw [hrow]
    exact (Token.transfer_ok hpay).2.1
  · rw [refunding, href, AList.lookup_erase]
    rfl
  · intro a ha
    rw [refunding, refunding, href, AList.lookup_erase_ne ha]
  · intro a
    have := Token.transfer_balance hpay a
    rw [hfit.netSymbol] at this
    rw [hrow]
    exact this

end

end Staking
end TheChannel

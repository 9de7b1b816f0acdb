import TheChannel.BlockPay
/-!
# BlockPaySolvency — whether `ra.bpay` has what it owes

The balance covers the rows of `rewards` and the bucket, and every pay is the floor of a share (`run_covered`), as long as
`perblock_bucket * unpaid_blocks` fits into an `int64_t`; beyond it the pay is negative and the bucket grows
(`bucket_uncovered`). `slack` is what the account has besides the rewards; each action that is sent changes it by its `flow`, and
the bucket by no more.
-/
namespace TheChannel
namespace BlockPay
open RowMap Asset List

/-! ## What an action leaves of the balance -/

variable {core : Symbol} {env : PayEnv} {s s' : BlockPay} {owner from_ to_ : AccountName} {quantity reward balance : Asset}
  {memo : String} {rewards : RowMap AccountName Asset} {auth : ActionEnv} {sent : List PayInline} {newTokens : Int}
  {st : CurrencyStats} {prod : ProducerInfo} {r : BlockPay × List Payout}

def rewardTotal (s : BlockPay) : Int := total (fun _ q => q.amount) s.rewards

def slack (core : Symbol) (s : BlockPay) : Int := s.token.balance bpayAccount core.code - s.rewardTotal

def unpaidTotal (s : BlockPay) : Int := total (fun _ p => (p.unpaidBlocks : Int)) s.producers

def RewardsFit (core : Symbol) (rewards : RowMap AccountName Asset) : Prop :=
  ∀ owner q, rewards.lookup owner = some q → q.symbol = core ∧ 0 ≤ q.amount

structure Backed (core : Symbol) (s : BlockPay) : Prop where
  issued : s.token.Issued core
  rewards : RewardsFit core s.rewards

theorem RewardsFit.insert (F : RewardsFit core rewards) {producer : AccountName} {q : Asset}
    (hsym : q.symbol = core) (hpos : 0 ≤ q.amount) : RewardsFit core (rewards.insert producer q) := by
  intro owner q' hq'
  rcases lookup_insert_some hq' with ⟨-, rfl⟩ | ⟨-, hq'⟩
  · exact ⟨hsym, hpos⟩
  · exact F owner q' hq'

theorem addReward_ok {rewards' : RowMap AccountName Asset} {producer : AccountName}
    (F : RewardsFit core rewards) (hsym : reward.symbol = core) (hpos : 0 ≤ reward.amount)
    (h : addReward reward rewards producer = .ok rewards') :
    RewardsFit core rewards' ∧
      total (fun _ q => q.amount) rewards' = total (fun _ q => q.amount) rewards + reward.amount := by
  unfold addReward at h
  cases hrow : rewards.lookup producer with
  | none =>
    rw [hrow] at h
    cases h
    refine ⟨F.insert hsym hpos, ?_⟩
    rw [total_insert, hrow, weigh_none, Int.sub_zero]
  | some q =>
    rw [hrow] at h
    obtain ⟨q', hadd, rfl⟩ := map_ok_iff.1 h
    obtain ⟨-, -, rfl⟩ := add_ok_iff.1 hadd
    obtain ⟨hq, hqp⟩ := F producer q hrow
    refine ⟨F.insert hq (Int.add_nonneg hqp hpos), ?_⟩
    rw [total_insert, hrow, weigh_some]
    dsimp only
    omega

theorem distribute_ok (hsym : reward.symbol = core) (hpos : 0 ≤ reward.amount) :
    ∀ {top} {rewards rewards'}, RewardsFit core rewards →
      distribute reward top rewards = .ok rewards' → RewardsFit core rewards' ∧
        total (fun _ q => q.amount) rewards' =
          total (fun _ q => q.amount) rewards + top.length * reward.amount
  | [], rewards, rewards', F, h => by
    cases h
    exact ⟨F, by simp⟩
  | producer :: top, rewards, rewards', F, h => by
    obtain ⟨rewards1, hadd, hr⟩ := bind_ok h
    obtain ⟨F1, hsum1⟩ := addReward_ok F hsym hpos hadd
    obtain ⟨F', hsum⟩ := distribute_ok hsym hpos F1 hr
    refine ⟨F', ?_⟩
    rw [hsum, hsum1, length_cons]
    push_cast
    ring

theorem onTransfer_ok (F : RewardsFit core s.rewards) (hpos : 0 < quantity.amount)
    (h : s.onTransfer core env from_ to_ quantity = .ok s') :
    s' = s ∨ (from_ ≠ bpayAccount ∧ from_ ≠ systemAccountName ∧ to_ = bpayAccount ∧ quantity.symbol = core ∧
      s' = { s with rewards := s'.rewards } ∧ RewardsFit core s'.rewards ∧
      s'.rewardTotal ≤ s.rewardTotal + quantity.amount) := by
  unfold onTransfer at h
  by_cases hfo : from_ = bpayAccount ∨ to_ ≠ bpayAccount
  · rw [if_pos hfo] at h
    cases h
    exact .inl rfl
  rw [if_neg hfo] at h
  by_cases hsy : from_ = systemAccountName
  · rw [if_pos hsy] at h
    cases h
    exact .inl rfl
  rw [if_neg hsy] at h
  obtain ⟨hf, hto⟩ := not_or.1 hfo
  obtain ⟨hsym, h⟩ := check_ok h
  split at h
  · cases h
  rename_i top htop
  obtain ⟨hs, h⟩ := check_ok h
  obtain ⟨rewards, hd, h⟩ := bind_ok h
  cases h
  have hn : 0 ≤ quantity.amount.tdiv top.length := Int.tdiv_nonneg hpos.le (Int.natCast_nonneg _)
  have hco : (⟨quantity.amount.tdiv top.length, quantity.symbol⟩ : Asset).symbol = core := beq_iff_eq.1 hsym
  obtain ⟨F', hsum⟩ := distribute_ok hco hn F hd
  refine .inr ⟨hf, hsy, not_not.1 hto, beq_iff_eq.1 hsym, rfl, F', ?_⟩
  have hlen : (top.length : Int) ≠ 0 := by
    simpa using hs
  have hp : (top.length : Int) * quantity.amount.tdiv top.length ≤ quantity.amount := by
    rw [Int.tdiv_eq_ediv_of_nonneg hpos.le]
    exact Int.mul_ediv_self_le hlen
  show total _ rewards ≤ total _ s.rewards + quantity.amount
  rw [hsum]
  exact Int.add_le_add_left hp _

def flowOf (from_ to_ : AccountName) (amount : Int) : Int :=
  (if from_ = systemAccountName ∧ to_ = bpayAccount then amount else 0) - if from_ = bpayAccount then amount else 0

theorem send_ok (K : Backed core s) (hsym : quantity.symbol = core)
    (h : s.send core env auth from_ to_ quantity memo = .ok s') :
    Backed core s' ∧ s' = { s with token := s'.token, rewards := s'.rewards } ∧
      s.slack core + flowOf from_ to_ quantity.amount ≤ s'.slack core := by
  obtain ⟨token, ht, hnot⟩ := bind_ok h
  obtain ⟨hne, hpos, -⟩ := Token.transfer_ok ht
  have hbal := Token.transfer_balance ht bpayAccount
  rw [hsym] at hbal
  have I := K.issued.transfer ht
  unfold slack flowOf
  rcases onTransfer_ok (s := { s with token := token }) K.rewards hpos hnot with rfl | ⟨hf, hs, hto, -, hfr, F, hsum⟩
  · refine ⟨⟨I, K.rewards⟩, rfl, ?_⟩
    show s.token.balance bpayAccount core.code - s.rewardTotal + _ ≤ token.balance bpayAccount core.code - s.rewardTotal
    rw [hbal]
    by_cases hto : to_ = bpayAccount
    · have hf : from_ ≠ bpayAccount := fun hf => hne (hf.trans hto.symm)
      rw [if_pos hto.symm, if_neg hf, if_neg hf.symm]
      split <;> omega
    · rw [if_neg fun hb => hto hb.2, if_neg (Ne.symm hto)]
      by_cases hf : from_ = bpayAccount
      · rw [if_pos hf, if_pos hf.symm]
        omega
      · rw [if_neg hf, if_neg (Ne.symm hf)]
        omega
  · have htok : s'.token = token := by rw [hfr]
    have hold : BlockPay.rewardTotal { s with token := token } = s.rewardTotal := rfl
    refine ⟨⟨htok ▸ I, F⟩, ?_, ?_⟩
    · rw [hfr]
    · rw [htok, hbal, if_pos hto.symm, if_neg hf.symm, if_neg fun hb => hs hb.1, if_neg hf]
      rw [hold] at hsum
      omega

theorem send_foreign (K : Backed core s) (hf : from_ ≠ bpayAccount)
    (h : s.send core env auth from_ to_ quantity memo = .ok s') :
    Backed core s' ∧ s' = { s with token := s'.token, rewards := s'.rewards } ∧ s.slack core ≤ s'.slack core := by
  obtain ⟨token, ht, hnot⟩ := bind_ok h
  obtain ⟨-, hpos, st, hst, hsym, -⟩ := Token.transfer_ok ht
  by_cases hco : core.code = quantity.symbol.code
  · obtain ⟨st', hst', hce, -⟩ := K.issued.stat
    rw [hco, hst, Option.some.injEq] at hst'
    subst hst'
    obtain ⟨K', hfr, hsl⟩ := send_ok K (hsym.trans hce.symm) h
    refine ⟨K', hfr, le_trans ?_ hsl⟩
    unfold flowOf
    rw [if_neg hf]
    split <;> omega
  · rcases onTransfer_ok (s := { s with token := token }) K.rewards hpos hnot with rfl | ⟨-, -, -, hs, -⟩
    · refine ⟨⟨K.issued.transfer ht, K.rewards⟩, rfl, le_of_eq ?_⟩
      show s.token.balance bpayAccount core.code - s.rewardTotal = token.balance bpayAccount core.code - s.rewardTotal
      rw [Token.transfer_balance_ne ht bpayAccount hco]
    · exact absurd (by rw [hs]) hco

def PayInline.flow : PayInline → Int
  | .issue _ _ => 0
  | .transfer from_ to_ quantity _ => flowOf from_ to_ quantity.amount

def PayInline.IsCore (core : Symbol) : PayInline → Prop
  | .issue _ _ => True
  | .transfer _ _ quantity _ => quantity.symbol = core

theorem runInline_ok : ∀ {sent} {s}, Backed core s → (∀ a ∈ sent, PayInline.IsCore core a) →
    runInline core env sent s = .ok s' →
    Backed core s' ∧ s' = { s with token := s'.token, rewards := s'.rewards } ∧
      s.slack core + (sent.map PayInline.flow).sum ≤ s'.slack core
  | [], s, K, _, h => by
    cases h
    exact ⟨K, rfl, by simp⟩
  | .issue quantity memo :: sent, s, K, hco, h => by
    obtain ⟨token, hi, hr⟩ := bind_ok h
    have hot : bpayAccount ≠ systemAccountName := by decide +kernel
    have K1 : Backed core { s with token := token } := ⟨K.issued.issue hi, K.rewards⟩
    obtain ⟨K', hf, hsl⟩ := runInline_ok K1 (fun a ha => hco a (mem_cons_of_mem _ ha)) hr
    refine ⟨K', by rw [hf], ?_⟩
    have hs : slack core { s with token := token } = s.slack core := by
      unfold slack
      rw [Token.issue_balance_ne hi hot]
      rfl
    rw [hs] at hsl
    rw [map_cons, sum_cons, PayInline.flow, Int.zero_add]
    exact hsl
  | .transfer from_ to_ quantity memo :: sent, s, K, hco, h => by
    obtain ⟨s1, hse, hr⟩ := bind_ok h
    obtain ⟨K1, hf1, hs1⟩ := send_ok K (hco _ mem_cons_self) hse
    obtain ⟨K', hf, hsl⟩ := runInline_ok K1 (fun a ha => hco a (mem_cons_of_mem _ ha)) hr
    refine ⟨K', by rw [hf, hf1], ?_⟩
    rw [map_cons, sum_cons, PayInline.flow]
    omega

theorem sendIf_ok {amount : Int} (h : sendIf core from_ to_ amount memo = .ok sent) :
    (∀ a ∈ sent, PayInline.IsCore core a) ∧ (sent.map PayInline.flow).sum = flowOf from_ to_ (max 0 amount) ∧
      amount ≤ maxAmount := by
  unfold sendIf at h
  by_cases hpos : 0 < amount
  · rw [if_pos hpos] at h
    obtain ⟨q, hm, rfl⟩ := map_ok_iff.1 h
    obtain ⟨hr, -, rfl⟩ := make_ok_iff.1 hm
    rw [max_eq_right hpos.le]
    refine ⟨fun a ha => ?_, by simp [PayInline.flow], (of_decide_eq_true hr).2⟩
    rw [mem_singleton.1 ha]
    rfl
  · rw [if_neg hpos] at h
    cases h
    rw [max_eq_left (not_lt.1 hpos)]
    exact ⟨fun a ha => (by cases ha), by simp [flowOf], (not_lt.1 hpos).trans (by decide)⟩

/-! ## New tokens -/

theorem part_range {x factor : Int} (hx : 0 ≤ x) (hf : payFactorPrecision ≤ factor) :
    0 ≤ x * payFactorPrecision / factor ∧ x * payFactorPrecision / factor ≤ x := by
  have hpos : 0 < factor := lt_of_lt_of_le (by decide) hf
  refine ⟨Int.ediv_nonneg (Int.mul_nonneg hx (by decide)) hpos.le, ?_⟩
  exact Int.ediv_le_of_le_mul hpos (Int.mul_le_mul_of_nonneg_left hf hx)

theorem toPerBlockPay_nonneg (env : PayEnv) (hx : 0 ≤ newTokens) (hmax : newTokens < 2 ^ 63) :
    0 ≤ toPerBlockPay env newTokens := by
  have hpr : 0 ≤ toProducers env newTokens ∧ toProducers env newTokens ≤ newTokens := by
    have hp := part_range hx env.factors.inflation_le
    unfold toProducers
    rw [toInt64_eq (by omega) (by omega)]
    exact hp
  have hp := part_range hpr.1 env.factors.votepay_le
  unfold toPerBlockPay
  rw [toInt64_eq (by omega) (by omega)]
  exact hp.1

theorem fundInline_ok (hx : 0 ≤ newTokens)
    (hmax : newTokens < 2 ^ 63) (h : fundInline core env st balance newTokens = .ok sent) :
    (∀ a ∈ sent, PayInline.IsCore core a) ∧ (sent.map PayInline.flow).sum = toPerBlockPay env newTokens ∧
      toPerBlockPay env newTokens ≤ maxAmount := by
  have hp := toPerBlockPay_nonneg env hx hmax
  unfold fundInline at h
  by_cases hpos : 0 < newTokens
  · rw [if_pos hpos] at h
    obtain ⟨issued, hi, h⟩ := bind_ok h
    obtain ⟨savings, hs, h⟩ := bind_ok h
    obtain ⟨perBlock, hb, h⟩ := bind_ok h
    obtain ⟨perVote, hvote, h⟩ := bind_ok h
    cases h
    obtain ⟨hc1, hf1, -⟩ := sendIf_ok hs
    obtain ⟨hc2, hf2, hl⟩ := sendIf_ok hb
    obtain ⟨hc3, hf3, -⟩ := sendIf_ok hvote
    have hnew : (∀ a ∈ issued, PayInline.IsCore core a) ∧ (issued.map PayInline.flow).sum = 0 := by
      unfold fundNew at hi
      split at hi
      · obtain ⟨q, -, rfl⟩ := map_ok_iff.1 hi
        exact ⟨fun a ha => (by rw [mem_singleton.1 ha]; trivial), rfl⟩
      · obtain ⟨u, -, rfl⟩ := map_ok_iff.1 hi
        exact ⟨fun a ha => (by cases ha), rfl⟩
    refine ⟨fun a ha => ?_, ?_, hl⟩
    · simp only [mem_append] at ha
      rcases ha with ((ha | ha) | ha) | ha
      · exact hnew.1 a ha
      · exact hc1 a ha
      · exact hc2 a ha
      · exact hc3 a ha
    · have hsy : systemAccountName ≠ bpayAccount := by decide +kernel
      have hsa : savingAccount ≠ bpayAccount := by decide +kernel
      have hv : vpayAccount ≠ bpayAccount := by decide +kernel
      simp only [map_append, sum_append, hnew.2, hf1, hf2, hf3, flowOf, hsy, hsa, hv, and_false,
        and_self, if_true, if_false, max_eq_right hp]
      omega
  · rw [if_neg hpos] at h
    cases h
    have hz : toPerBlockPay env newTokens = 0 := by
      have hnew : newTokens = 0 := by omega
      have hint : toInt64 0 = 0 := by decide
      unfold toPerBlockPay toProducers
      rw [hnew, Int.zero_mul, Int.zero_ediv, hint, Int.zero_mul, Int.zero_ediv, hint]
    rw [hz]
    exact ⟨fun a ha => (by cases ha), rfl, by decide⟩

theorem fillBuckets_ok {r : BlockPay × List PayInline}
    (hbu : 0 ≤ s.perblockBucket ∧ s.perblockBucket ≤ maxAmount) (h : s.fillBuckets core env st balance = .ok r) :
    ∃ perBlock, (0 ≤ perBlock ∧ perBlock ≤ maxAmount) ∧ r.1.perblockBucket = s.perblockBucket + perBlock ∧
      s.filledBucket env st.supply.amount = s.perblockBucket + perBlock ∧
      (∀ a ∈ r.2, PayInline.IsCore core a) ∧ (r.2.map PayInline.flow).sum = perBlock ∧
      r.1 = { s with
        pervoteBucket := r.1.pervoteBucket, perblockBucket := r.1.perblockBucket,
        lastPervoteBucketFill := r.1.lastPervoteBucketFill } := by
  unfold fillBuckets at h
  dsimp only at h
  unfold filledBucket
  split at h
  · rename_i hfill
    obtain ⟨hi, h⟩ := check_ok h
    obtain ⟨sent, hs, h⟩ := bind_ok h
    cases h
    have hi := of_decide_eq_true hi
    have hx := le_max_left 0 (env.additionalInflation st.supply.amount (env.now - s.lastPervoteBucketFill))
    have hmax : max 0 (env.additionalInflation st.supply.amount (env.now - s.lastPervoteBucketFill)) < 2 ^ 63 :=
      max_lt (by norm_num) (by omega)
    obtain ⟨hco, hf, hl⟩ := fundInline_ok hx hmax hs
    have hn := toPerBlockPay_nonneg env hx hmax
    refine ⟨_, ⟨hn, hl⟩, ?_, if_pos hfill, hco, hf, rfl⟩
    have hb : maxAmount + maxAmount < 2 ^ 63 := by decide
    exact toInt64_eq (by omega) (by omega)
  · rename_i hfill
    cases h
    exact ⟨0, ⟨le_rfl, by decide⟩, (Int.add_zero _).symm, (if_neg hfill).trans (Int.add_zero _).symm,
      fun a ha => (by cases ha), rfl, rfl⟩

/-! ## The invariant -/

/-- **The account covers what is owed**, and the unpaid blocks are counted. -/
structure Solvent (core : Symbol) (s : BlockPay) : Prop extends Backed core s where
  bucket : 0 ≤ s.perblockBucket
  covered : s.perblockBucket ≤ s.slack core
  counted : (s.totalUnpaidBlocks : Int) = s.unpaidTotal
  bounded : s.totalUnpaidBlocks < 2 ^ 32

theorem Solvent.bucket_le (S : Solvent core s) : s.perblockBucket ≤ maxAmount := by
  have hbal := S.issued.balance_le bpayAccount
  have hr : 0 ≤ s.rewardTotal := total_nonneg fun owner q hq => (S.rewards owner q hq).2
  have hco := S.covered
  unfold slack at hco
  omega

theorem Solvent.unpaid_le (S : Solvent core s) (hp : s.producers.lookup owner = some prod) :
    prod.unpaidBlocks ≤ s.totalUnpaidBlocks := by
  have hle := weigh_le_total (w := fun _ p => (p.unpaidBlocks : Int)) (t := s.producers)
    (fun _ _ _ => Int.natCast_nonneg _) owner
  rw [hp, weigh_some] at hle
  have hco := S.counted
  unfold unpaidTotal at hco
  omega

theorem producerPerBlockPay_eq (hb : 0 ≤ s.perblockBucket)
    (hu : prod.unpaidBlocks ≤ s.totalUnpaidBlocks) (hf : s.perblockBucket * prod.unpaidBlocks < 2 ^ 63) :
    s.producerPerBlockPay prod = s.perblockBucket * prod.unpaidBlocks / s.totalUnpaidBlocks ∧
      0 ≤ s.producerPerBlockPay prod ∧ s.producerPerBlockPay prod ≤ s.perblockBucket := by
  have hp : 0 ≤ s.perblockBucket * prod.unpaidBlocks := Int.mul_nonneg hb (Int.natCast_nonneg _)
  unfold producerPerBlockPay
  by_cases htot : 0 < s.totalUnpaidBlocks
  · rw [if_pos htot, toInt64_eq (by omega) hf, Int.tdiv_eq_ediv_of_nonneg hp]
    have hpos : (0 : Int) < s.totalUnpaidBlocks := by exact_mod_cast htot
    refine ⟨rfl, Int.ediv_nonneg hp hpos.le, Int.ediv_le_of_le_mul hpos ?_⟩
    exact Int.mul_le_mul_of_nonneg_left (by exact_mod_cast hu) hb
  · have hz : s.totalUnpaidBlocks = 0 := by omega
    rw [if_neg htot, hz, Nat.cast_zero, Int.ediv_zero]
    exact ⟨rfl, le_rfl, hb⟩

section

variable (S : Solvent core s)

include S

/-- A paid producer has no unpaid blocks, and those of the others are counted. -/
theorem Solvent.unpaid_settled {prod : ProducerInfo} {t : BlockPay} (hpr : s.producers.lookup owner = some prod)
    (hp : t.producers = s.producers.insert owner { prod with lastClaimTime := env.now, unpaidBlocks := 0 })
    (hu : t.totalUnpaidBlocks = (s.totalUnpaidBlocks + 2 ^ 32 - prod.unpaidBlocks) % 2 ^ 32) :
    (t.totalUnpaidBlocks : Int) = t.unpaidTotal ∧ t.totalUnpaidBlocks ≤ s.totalUnpaidBlocks := by
  have hle := S.unpaid_le hpr
  have hbo := S.bounded
  have hl : t.totalUnpaidBlocks = s.totalUnpaidBlocks - prod.unpaidBlocks := by
    rw [hu]
    omega
  refine ⟨?_, by omega⟩
  have hcd := S.counted
  unfold unpaidTotal at hcd ⊢
  rw [hp, total_insert, hpr, weigh_some, ← hcd, hl, Nat.cast_sub hle]
  simp

theorem Solvent.payProducer {prod : ProducerInfo} (hpr : s.producers.lookup owner = some prod)
    (h : s.payProducer core env owner prod st balance = .ok r)
    (hfi : s.filledBucket env st.supply.amount * prod.unpaidBlocks < 2 ^ 63) :
    Solvent core r.1 ∧ r.1.totalUnpaidBlocks ≤ s.totalUnpaidBlocks ∧
      ∀ p ∈ r.2, p.paid = p.bucket * p.unpaid / p.total := by
  obtain ⟨filled, hf, h⟩ := bind_ok h
  obtain ⟨blockSent, hb, h⟩ := bind_ok h
  obtain ⟨voteSent, hvote, h⟩ := bind_ok h
  obtain ⟨s1, hi, h⟩ := bind_ok h
  cases h
  obtain ⟨perBlock, hn, hbu, hfill, hco, hfl, hfr⟩ := fillBuckets_ok ⟨S.bucket, S.bucket_le⟩ hf
  rw [hfill, ← hbu] at hfi
  have htot : filled.1.totalUnpaidBlocks = s.totalUnpaidBlocks := by rw [hfr]
  have hu := S.unpaid_le hpr
  have hfil : 0 ≤ filled.1.perblockBucket := by
    have := S.bucket
    omega
  obtain ⟨hpay, hpay0, hpay1⟩ := producerPerBlockPay_eq hfil (htot ▸ hu) hfi
  obtain ⟨hcb, hfb, -⟩ := sendIf_ok hb
  obtain ⟨hcv, hfv, -⟩ := sendIf_ok hvote
  have hall : ∀ a ∈ filled.2 ++ blockSent ++ voteSent, PayInline.IsCore core a := by
    intro a ha
    simp only [mem_append] at ha
    rcases ha with (ha | ha) | ha
    · exact hco a ha
    · exact hcb a ha
    · exact hcv a ha
  have K : Backed core (filled.1.settled env owner prod (env.producerPerVotePay filled.1.pervoteBucket)) := by
    rw [hfr]
    exact ⟨S.issued, S.rewards⟩
  obtain ⟨K', hf', hs⟩ := runInline_ok K hall hi
  have hsum : ((filled.2 ++ blockSent ++ voteSent).map PayInline.flow).sum =
      perBlock - filled.1.producerPerBlockPay prod := by
    have hsy : bpayAccount ≠ systemAccountName := by decide +kernel
    have hv : vpayAccount ≠ systemAccountName := by decide +kernel
    have hv' : vpayAccount ≠ bpayAccount := by decide +kernel
    simp only [map_append, sum_append, hfl, hfb, hfv, flowOf, hsy, hv, hv', false_and,
      if_true, if_false, max_eq_right hpay0]
    omega
  have hold : (filled.1.settled env owner prod (env.producerPerVotePay filled.1.pervoteBucket)).slack core = s.slack core := by
    rw [hfr]
    rfl
  rw [hsum, hold] at hs
  have hli : maxAmount + maxAmount < 2 ^ 63 := by decide
  have hnew : s1.perblockBucket = filled.1.perblockBucket - filled.1.producerPerBlockPay prod := by
    have hm := S.bucket_le
    rw [hf']
    exact toInt64_eq (by omega) (by omega)
  obtain ⟨hcd, hl⟩ := S.unpaid_settled (t := s1) hpr (by rw [hf', hfr]; rfl) (by rw [hf', hfr]; rfl)
  have hce := S.covered
  refine ⟨⟨K', ?_, ?_, hcd, hl.trans_lt S.bounded⟩, hl, fun p hp => ?_⟩
  · dsimp only
    omega
  · dsimp only
    omega
  · rw [mem_singleton.1 hp]
    exact hpay

theorem Solvent.claimrewards (h : s.claimrewards core env owner = .ok r)
    (hf : s.payFits core env (.claimrewards owner) = true) :
    Solvent core r.1 ∧ r.1.totalUnpaidBlocks ≤ s.totalUnpaidBlocks ∧ ∀ p ∈ r.2, p.paid = p.bucket * p.unpaid / p.total := by
  replace h := rest_ok h
  split at h
  · cases h
  rename_i prod hp
  iterate 3 replace h := rest_ok h
  obtain ⟨st, hst, h⟩ := bind_ok h
  split at h
  · cases h
  rename_i balance hrow
  unfold payFits at hf
  dsimp only at hf
  rw [hp, Token.getStat_ok_iff.1 hst] at hf
  exact S.payProducer hp h (of_decide_eq_true hf)

theorem Solvent.of_slack (K : Backed core s')
    (hf : s' = { s with token := s'.token, rewards := s'.rewards }) (hs : s.slack core ≤ s'.slack core) :
    Solvent core s' := by
  have hb : s'.perblockBucket = s.perblockBucket := by rw [hf]
  have htot : s'.totalUnpaidBlocks = s.totalUnpaidBlocks := by rw [hf]
  have hu : s'.unpaidTotal = s.unpaidTotal := by rw [hf]; rfl
  refine ⟨K, ?_, ?_, ?_, ?_⟩
  · rw [hb]
    exact S.bucket
  · rw [hb]
    exact S.covered.trans hs
  · rw [htot, hu]
    exact S.counted
  · rw [htot]
    exact S.bounded

theorem Solvent.collect (h : s.collect core env owner = .ok s') :
    Solvent core s' ∧ s'.totalUnpaidBlocks = s.totalUnpaidBlocks := by
  replace h := rest_ok h
  split at h
  · cases h
  rename_i q hrow
  have hsym := (S.rewards owner q hrow).1
  have K : Backed core { s with rewards := s.rewards.erase owner } := by
    refine ⟨S.issued, fun a q' hq' => ?_⟩
    exact S.rewards a q' (lookup_erase_some hq').2
  obtain ⟨K', hfr, hs⟩ := runInline_ok K (fun a ha => (by rw [mem_singleton.1 ha]; exact hsym)) h
  -- what the row was is what the account pays
  have hr : slack core { s with rewards := s.rewards.erase owner } = s.slack core + q.amount := by
    unfold slack rewardTotal
    dsimp only
    rw [total_erase, hrow, weigh_some]
    omega
  have hf : ([PayInline.transfer bpayAccount owner q "producer block pay"].map PayInline.flow).sum = -q.amount := by
    have hsy : bpayAccount ≠ systemAccountName := by decide +kernel
    simp [PayInline.flow, flowOf, hsy]
  rw [hr, hf] at hs
  refine ⟨S.of_slack K' (by rw [hfr]) (by omega), by rw [hfr]⟩

theorem Solvent.of_producers (htok : s'.token = s.token) (hr : s'.rewards = s.rewards)
    (hbu : s'.perblockBucket = s.perblockBucket) (hco : (s'.totalUnpaidBlocks : Int) = s'.unpaidTotal)
    (hb : s'.totalUnpaidBlocks < 2 ^ 32) : Solvent core s' := by
  obtain ⟨⟨I, F⟩, bucket, covered, -, -⟩ := S
  refine ⟨⟨htok ▸ I, hr ▸ F⟩, hbu ▸ bucket, ?_, hco, hb⟩
  unfold slack rewardTotal
  rw [htok, hr, hbu]
  exact covered

theorem Solvent.onblock (hr : s.totalUnpaidBlocks + 1 < 2 ^ 32) (h : s.onblock env owner = .ok s') :
    Solvent core s' ∧ s'.totalUnpaidBlocks ≤ s.totalUnpaidBlocks + 1 := by
  unfold BlockPay.onblock at h
  replace h := rest_ok h
  by_cases hact : env.activated = true
  · rw [if_pos hact] at h
    dsimp only at h
    generalize hs1 : (if s.lastPervoteBucketFill = 0 then { s with lastPervoteBucketFill := env.now } else s) = s1 at h
    have hf : s1 = { s with lastPervoteBucketFill := s1.lastPervoteBucketFill } := by
      rw [← hs1]
      split <;> rfl
    have htot : s1.totalUnpaidBlocks = s.totalUnpaidBlocks := by rw [hf]
    have S1 : Solvent core s1 := by
      refine S.of_producers (by rw [hf]) (by rw [hf]) (by rw [hf]) ?_ (htot ▸ S.bounded)
      rw [hf]
      exact S.counted
    cases hp : s1.producers.lookup owner with
    | none =>
      rw [hp] at h
      cases h
      exact ⟨S1, by omega⟩
    | some prod =>
      rw [hp] at h
      cases h
      have hu := S1.unpaid_le hp
      rw [htot] at hu
      have hnew : (s1.totalUnpaidBlocks + 1) % 2 ^ 32 = s.totalUnpaidBlocks + 1 := by
        rw [htot]
        exact Nat.mod_eq_of_lt hr
      have hrow : (prod.unpaidBlocks + 1) % 2 ^ 32 = prod.unpaidBlocks + 1 := Nat.mod_eq_of_lt (by omega)
      refine ⟨S1.of_producers rfl rfl rfl ?_ (Nat.mod_lt _ (by norm_num)), le_of_eq hnew⟩
      have hco := S1.counted
      unfold unpaidTotal at hco ⊢
      dsimp only
      rw [total_insert, hp, weigh_some, ← hco, hnew, hrow, htot]
      push_cast
      ring
  · rw [if_neg hact] at h
    cases h
    exact ⟨S, by omega⟩

theorem Solvent.producer
    (hu : weigh (fun _ p => (p.unpaidBlocks : Int)) owner (s.producers.lookup owner) = prod.unpaidBlocks) :
    Solvent core { s with producers := s.producers.insert owner prod } := by
  refine S.of_producers rfl rfl rfl ?_ S.bounded
  have hco := S.counted
  unfold unpaidTotal at hco ⊢
  rw [total_insert, hu, hco]
  ring

theorem Solvent.regproducer (h : s.regproducer env owner = .ok s') :
    Solvent core s' ∧ s'.totalUnpaidBlocks = s.totalUnpaidBlocks := by
  replace h := rest_ok h
  cases hp : s.producers.lookup owner with
  | none =>
    rw [hp] at h
    cases h
    exact ⟨S.producer (by rw [hp]; rfl), rfl⟩
  | some prod =>
    rw [hp] at h
    cases h
    exact ⟨S.producer (by rw [hp]; rfl), rfl⟩

theorem Solvent.unregprod (h : s.unregprod env owner = .ok s') :
    Solvent core s' ∧ s'.totalUnpaidBlocks = s.totalUnpaidBlocks := by
  replace h := rest_ok h
  split at h
  · cases h
  rename_i prod hp
  cases h
  exact ⟨S.producer (by rw [hp]; rfl), rfl⟩

theorem Solvent.apply {action : PayAction} (hfo : action.foreign = true)
    (hr : s.totalUnpaidBlocks + action.blocks < 2 ^ 32) (h : s.apply core env action = .ok r)
    (hf : s.payFits core env action = true) :
    Solvent core r.1 ∧ r.1.totalUnpaidBlocks ≤ s.totalUnpaidBlocks + action.blocks ∧
      ∀ p ∈ r.2, p.paid = p.bucket * p.unpaid / p.total := by
  have hn : ∀ p ∈ ([] : List Payout), p.paid = p.bucket * p.unpaid / p.total := fun p hp => (by cases hp)
  cases action with
  | transfer from_ to_ quantity memo =>
    obtain ⟨s1, hok, rfl⟩ := map_ok_iff.1 h
    obtain ⟨K, hfr, hs⟩ := send_foreign S.toBacked (bne_iff_ne.1 hfo) hok
    refine ⟨S.of_slack K hfr hs, le_of_eq ?_, hn⟩
    rw [hfr]
    rfl
  | collect owner =>
    obtain ⟨s1, hok, rfl⟩ := map_ok_iff.1 h
    obtain ⟨S', htot⟩ := S.collect hok
    exact ⟨S', le_of_eq htot, hn⟩
  | onblock producer =>
    obtain ⟨s1, hok, rfl⟩ := map_ok_iff.1 h
    obtain ⟨S', htot⟩ := S.onblock hr hok
    exact ⟨S', htot, hn⟩
  | regproducer producer =>
    obtain ⟨s1, hok, rfl⟩ := map_ok_iff.1 h
    obtain ⟨S', htot⟩ := S.regproducer hok
    exact ⟨S', le_of_eq htot, hn⟩
  | unregprod producer =>
    obtain ⟨s1, hok, rfl⟩ := map_ok_iff.1 h
    obtain ⟨S', htot⟩ := S.unregprod hok
    exact ⟨S', le_of_eq htot, hn⟩
  | claimrewards owner => exact S.claimrewards h hf

end

theorem Solvent.run : ∀ {actions} {s}, Solvent core s →
    (∀ a ∈ actions, a.2.foreign = true) → s.totalUnpaidBlocks + (actions.map (·.2.blocks)).sum < 2 ^ 32 →
    paysFit core actions s = true →
    Solvent core (run core actions s).1 ∧ ∀ p ∈ (run core actions s).2, p.paid = p.bucket * p.unpaid / p.total
  | [], s, S, _, _, _ => ⟨S, fun p hp => (by cases hp)⟩
  | a :: actions, s, S, hfo, hro, hf => by
    rw [map_cons, sum_cons] at hro
    have hr : ∀ b ∈ actions, b.2.foreign = true := fun b hb => hfo b (mem_cons_of_mem _ hb)
    unfold paysFit at hf
    unfold BlockPay.run
    cases happ : s.apply core a.1 a.2 with
    | error e =>
      rw [happ] at hf
      exact Solvent.run S hr (by omega) hf
    | ok r =>
      rw [happ] at hf
      obtain ⟨hfa, hf⟩ := Bool.and_eq_true_iff.1 hf
      obtain ⟨S1, htot, hp1⟩ := S.apply (hfo a mem_cons_self) (by omega) happ hfa
      obtain ⟨S', hpa⟩ := Solvent.run S1 hr (by omega) hf
      exact ⟨S', fun p hp => (mem_append.1 hp).elim (hp1 p) (hpa p)⟩

/-- **The account covers the rewards and the bucket.** Over every sequence of actions in which `ra.bpay` itself transfers nothing
and fewer than 2^32 blocks are unpaid, if the product of bucket and blocks before every pay fits into an `int64_t`: the balance is at least the sum of the
rewards and the bucket, the unpaid blocks are counted, and every pay is the floor of the producer's share. -/
theorem run_covered (core : Symbol) (s : BlockPay) (S : Solvent core s) (actions : List (PayEnv × PayAction))
    (hforeign : ∀ a ∈ actions, a.2.foreign = true)
    (hroom : s.totalUnpaidBlocks + (actions.map (·.2.blocks)).sum < 2 ^ 32)
    (hfits : paysFit core actions s = true) : let r := run core actions s
    r.1.rewardTotal + r.1.perblockBucket ≤ r.1.token.balance bpayAccount core.code ∧
      (r.1.totalUnpaidBlocks : Int) = r.1.unpaidTotal ∧ ∀ p ∈ r.2, p.paid = p.bucket * p.unpaid / p.total := by
  obtain ⟨S', hp⟩ := S.run hforeign hroom hfits
  have hco := S'.covered
  unfold slack at hco
  exact ⟨by omega, S'.counted, hp⟩

def sampleCoin : Symbol := ⟨16722, 4⟩

def sampleProducer : AccountName := stringToName ['a', 'l', 'i', 'c', 'e']

def sampleRetired : AccountName := stringToName ['b', 'o', 'b']

def sampleUnvoted : AccountName := stringToName ['c', 'a', 'r', 'o', 'l']

def samplePayer : AccountName := stringToName ['d', 'a', 'v', 'e']

def sampleEnv (now : Int) : PayEnv where
  hasAuth _ := true
  isAccount _ := true
  now := now
  activated := true
  totalVotes owner := if owner = sampleProducer then 5 else if owner = sampleRetired then 3 else 0
  lastProducerScheduleSize := 2
  factors := ⟨50000, 40000, by decide, by decide⟩
  additionalInflation _ _ := 10 ^ 18
  producerPerVotePay _ := 0

def sampleStart : BlockPay where
  token := Token.run (stringToName ['r', 'a', '.', 't', 'o', 'k', 'e', 'n'])
    ([.create systemAccountName ⟨4 * 10 ^ 18, sampleCoin⟩, .issue systemAccountName ⟨3 * 10 ^ 18, sampleCoin⟩ ""].map
      (fun a => ((sampleEnv 0).toActionEnv, a)))
  rewards := ∅
  producers := ∅
  pervoteBucket := 0
  perblockBucket := 0
  totalUnpaidBlocks := 0
  lastPervoteBucketFill := 0

theorem sampleStart_solvent : Solvent sampleCoin sampleStart where
  issued := {
    ledger := Token.Ledger.run _ _
    valid := by decide
    stat := ⟨⟨⟨3 * 10 ^ 18, sampleCoin⟩, ⟨4 * 10 ^ 18, sampleCoin⟩, systemAccountName⟩, by decide +kernel, rfl, by decide⟩ }
  rewards := fun _ _ h => by cases h
  bucket := le_rfl
  covered := by decide +kernel
  counted := rfl
  bounded := by decide

def sampleBlocks (blocks : Nat) : List (PayEnv × PayAction) :=
  (sampleEnv 1, .regproducer sampleProducer) :: List.replicate blocks (sampleEnv 1, .onblock sampleProducer) ++
    [(sampleEnv (168 * usecondsPerDay), .claimrewards sampleProducer)]

def sampleElection : List (PayEnv × PayAction) :=
  [.regproducer sampleProducer, .regproducer sampleRetired, .regproducer sampleUnvoted, .unregprod sampleRetired,
    .transfer systemAccountName samplePayer ⟨1000, sampleCoin⟩ ""].map (sampleEnv 1, ·)

def sampleReward : PayEnv × PayAction := (sampleEnv 1, .transfer samplePayer bpayAccount ⟨101, sampleCoin⟩ "")

theorem run_covered_sampleReward : let r := run sampleCoin (sampleElection ++ sampleReward :: sampleBlocks 3) sampleStart
    r.2 = [⟨sampleProducer, 5 * 10 ^ 16, 3, 3, 5 * 10 ^ 16⟩] ∧ r.1.rewardTotal = 100 ∧
      r.1.rewardTotal + r.1.perblockBucket ≤ r.1.token.balance bpayAccount sampleCoin.code :=
  ⟨by decide +kernel, by decide +kernel, (run_covered sampleCoin sampleStart sampleStart_solvent
    (sampleElection ++ sampleReward :: sampleBlocks 3) (by decide +kernel) (by decide +kernel) (by decide +kernel)).1⟩

/-- **With 200 unpaid blocks the product does not fit**: the pay is negative, and the bucket becomes more than the balance. -/
theorem bucket_uncovered :
    (run sampleCoin (sampleBlocks 200) sampleStart).2 = [⟨sampleProducer, 5 * 10 ^ 16, 200, 200, -42233720368547758⟩] ∧
    (run sampleCoin (sampleBlocks 200) sampleStart).1.perblockBucket = 92233720368547758 ∧
    (run sampleCoin (sampleBlocks 200) sampleStart).1.token.balance bpayAccount sampleCoin.code = 5 * 10 ^ 16 ∧
    ((run sampleCoin (sampleBlocks 200) sampleStart).1.token.stat.lookup sampleCoin.code).map (·.supply.amount) =
      some (4 * 10 ^ 18) := by
  decide +kernel

end BlockPay
end TheChannel

import TheChannel.Bandwidth
import TheChannel.RaTokenLedger
/-!
# BandwidthSpec — what the helpers of staking and powerup do to the weights

For each kind of bandwidth: the weight of an account (`weight`), what is delegated (`delegated`) and what is ordered
(`ordered`). Each helper of the actions has one lemma that says what it does to them.
-/
namespace TheChannel
open RowMap

def Bandwidth.pick {α : Type} (kind : Bandwidth) (net cpu : α) : α :=
  match kind with
  | .net => net
  | .cpu => cpu

def UserResources.weight (kind : Bandwidth) (r : UserResources) : Int := kind.pick r.netWeight.amount r.cpuWeight.amount

def DelegatedBandwidth.weight (kind : Bandwidth) (r : DelegatedBandwidth) : Int :=
  kind.pick r.netWeight.amount r.cpuWeight.amount

def PowerupOrder.weight (kind : Bandwidth) (o : PowerupOrder) : Int := kind.pick o.netWeight o.cpuWeight

def PowerupState.resource (kind : Bandwidth) (p : PowerupState) : PowerupStateResource := kind.pick p.net p.cpu

theorem UserResources.weight_eq_zero {r : UserResources} (h : r.isEmpty = true) (kind : Bandwidth) : r.weight kind = 0 := by
  unfold UserResources.isEmpty at h
  simp only [Bool.and_eq_true, beq_iff_eq] at h
  cases kind with
  | net => exact h.1.1
  | cpu => exact h.1.2

theorem DelegatedBandwidth.weight_eq_zero {r : DelegatedBandwidth} (h : r.isEmpty = true) (kind : Bandwidth) :
    r.weight kind = 0 := by
  unfold DelegatedBandwidth.isEmpty at h
  simp only [Bool.and_eq_true, beq_iff_eq] at h
  cases kind with
  | net => exact h.1
  | cpu => exact h.2

def IsInt64 (x : Int) : Prop := -2 ^ 63 ≤ x ∧ x < 2 ^ 63

namespace Staking
variable {pricing : Pricing} {core : Symbol} {env : StakeEnv} {s s' : Staking} {account from_ receiver : AccountName}
  {net cpu : Int} {netDelta cpuDelta netQuantity cpuQuantity : Asset} {managed transfer : Bool} {row : UserResources}
  {e : Sigma fun _ : Nat => PowerupOrder}

def weight (s : Staking) (kind : Bandwidth) (account : AccountName) : Int :=
  weigh (fun _ r => r.weight kind) account (s.userres.lookup account)

def delegated (s : Staking) (kind : Bandwidth) (p : AccountName × AccountName → Bool) : Int :=
  total (fun key r => if p key then r.weight kind else 0) s.delband

def ordered (s : Staking) (kind : Bandwidth) (p : AccountName → Bool) : Int :=
  total (fun _ o => if p o.owner then o.weight kind else 0) s.orders

def Checked (s : Staking) : Prop :=
  ∀ kind account r, s.userres.lookup account = some r → 0 ≤ r.weight kind ∧ r.weight kind < 2 ^ 63

def OrdersFit (s : Staking) : Prop := ∀ kind id o, s.orders.lookup id = some o → IsInt64 (o.weight kind)

theorem Checked.weight (C : Checked s) (kind : Bandwidth) (account : AccountName) :
    0 ≤ s.weight kind account ∧ s.weight kind account < 2 ^ 63 := by
  unfold Staking.weight
  cases h : s.userres.lookup account with
  | none => exact ⟨le_rfl, by norm_num⟩
  | some r => exact C kind account r h

/-! ## Rows of `userres` -/

theorem storeUserres_ok (h : s.storeUserres env account row managed = .ok s') :
    s' = { s with userres := s'.userres } ∧ (∀ kind, 0 ≤ row.weight kind) ∧
      (∀ kind a, s'.weight kind a = if a = account then row.weight kind else s.weight kind a) ∧
      (∀ a r, s'.userres.lookup a = some r → r = row ∨ s.userres.lookup a = some r) := by
  obtain ⟨hnet, h⟩ := check_ok h
  obtain ⟨hcpu, h⟩ := check_ok h
  replace h := rest_ok h
  obtain ⟨-, -, h⟩ := bind_ok h
  cases h
  refine ⟨rfl, fun kind => ?_, fun kind a => ?_, fun a r hr => lookup_store hr⟩
  · cases kind with
    | net => exact of_decide_eq_true hnet
    | cpu => exact of_decide_eq_true hcpu
  · exact weigh_store (w := fun _ r => UserResources.weight kind r) _ (fun he => UserResources.weight_eq_zero he kind) a

theorem Checked.store (C : Checked s) (h : s.storeUserres env account row managed = .ok s')
    (hrow : ∀ kind, row.weight kind < 2 ^ 63) : Checked s' := by
  obtain ⟨-, hn, -, hro⟩ := storeUserres_ok h
  intro kind a r hr
  rcases hro a r hr with rfl | hr
  · exact ⟨hn kind, hrow kind⟩
  · exact C kind a r hr

theorem adjustResources_ok (C : Checked s) (hdel : ∀ kind : Bandwidth, IsInt64 (kind.pick net cpu))
    (h : s.adjustResources core env account net cpu managed = .ok s') :
    s' = { s with userres := s'.userres } ∧ Checked s' ∧
      ∀ kind a, s'.weight kind a = s.weight kind a + if a = account then kind.pick net cpu else 0 := by
  unfold adjustResources at h
  by_cases hz : net = 0 ∧ cpu = 0
  · rw [if_pos hz] at h
    cases h
    refine ⟨rfl, C, fun kind a => ?_⟩
    cases kind <;> simp [Bandwidth.pick, hz.1, hz.2]
  · rw [if_neg hz] at h
    obtain ⟨row, hnew, h⟩ := bind_ok h
    cases hrow : s.userres.lookup account with
    | none =>
      rw [hrow] at hnew
      obtain ⟨netWeight, hnet, hnew⟩ := bind_ok hnew
      obtain ⟨cpuWeight, hcpu, hnew⟩ := bind_ok hnew
      cases hnew
      cases (rest_ok (rest_ok hnet) : _ = Except.ok netWeight)
      cases (rest_ok (rest_ok hcpu) : _ = Except.ok cpuWeight)
      obtain ⟨hf, -, hw, -⟩ := storeUserres_ok h
      refine ⟨hf, C.store h (fun kind => ?_), fun kind a => ?_⟩
      · cases kind <;> exact (hdel _).2
      · rw [hw]
        by_cases ha : a = account
        · rw [if_pos ha, if_pos ha, ha, Staking.weight, hrow, weigh_none]
          cases kind <;> simp [Bandwidth.pick, UserResources.weight]
        · rw [if_neg ha, if_neg ha, Int.add_zero]
    | some tot =>
      rw [hrow] at hnew
      cases hnew
      obtain ⟨hf, hn, hw, -⟩ := storeUserres_ok h
      refine ⟨hf, C.store h (fun kind => ?_), fun kind a => ?_⟩
      · cases kind <;> exact (toInt64_range _).2
      · rw [hw]
        by_cases ha : a = account
        · rw [if_pos ha, if_pos ha, ha, Staking.weight, hrow, weigh_some]
          have hold := C kind account tot hrow
          have hnew := hn kind
          cases kind with
          | net => exact toInt64_add hold (hdel .net) hnew
          | cpu => exact toInt64_add hold (hdel .cpu) hnew
        · rw [if_neg ha, if_neg ha, Int.add_zero]

theorem updateUserResources_ok (C : Checked s) (hdel : netDelta.amount < 2 ^ 63 ∧ cpuDelta.amount < 2 ^ 63)
    (h : s.updateUserResources env receiver netDelta cpuDelta = .ok s') :
    s' = { s with userres := s'.userres } ∧ Checked s' ∧
      ∀ kind a, s'.weight kind a = s.weight kind a + if a = receiver then kind.pick netDelta.amount cpuDelta.amount else 0 := by
  obtain ⟨row, hnew, h⟩ := bind_ok h
  obtain ⟨hf, -, hw, -⟩ := storeUserres_ok h
  have hrow : ∀ kind, row.weight kind < 2 ^ 63 ∧
      row.weight kind = s.weight kind receiver + kind.pick netDelta.amount cpuDelta.amount := by
    intro kind
    unfold Staking.weight
    cases hl : s.userres.lookup receiver with
    | none =>
      rw [hl] at hnew
      cases hnew
      cases kind with
      | net => exact ⟨hdel.1, (Int.zero_add _).symm⟩
      | cpu => exact ⟨hdel.2, (Int.zero_add _).symm⟩
    | some tot =>
      rw [hl] at hnew
      obtain ⟨netWeight, hnet, hnew⟩ := bind_ok hnew
      obtain ⟨cpuWeight, hcpu, hnew⟩ := bind_ok hnew
      cases hnew
      obtain ⟨-, ⟨-, hn⟩, rfl⟩ := Asset.add_ok_iff.1 hnet
      obtain ⟨-, ⟨-, hcp⟩, rfl⟩ := Asset.add_ok_iff.1 hcpu
      have hmax : Asset.maxAmount < 2 ^ 63 := by decide
      cases kind with
      | net => exact ⟨lt_of_le_of_lt hn hmax, rfl⟩
      | cpu => exact ⟨lt_of_le_of_lt hcp hmax, rfl⟩
  refine ⟨hf, C.store h (fun kind => (hrow kind).1), fun kind a => ?_⟩
  rw [hw, (hrow kind).2]
  by_cases ha : a = receiver
  · rw [if_pos ha, if_pos ha, ha]
  · rw [if_neg ha, if_neg ha, Int.add_zero]

/-! ## Rows of `delband` -/

theorem updateStakeDelegated_ok (h : s.updateStakeDelegated from_ receiver netDelta cpuDelta = .ok s') :
    s' = { s with delband := s'.delband } ∧
      (∀ key r, s'.delband.lookup key = some r → (∀ kind, 0 ≤ r.weight kind) ∨ s.delband.lookup key = some r) ∧
      ∀ kind p, s'.delegated kind p =
        s.delegated kind p + if p (from_, receiver) then kind.pick netDelta.amount cpuDelta.amount else 0 := by
  obtain ⟨row, hnew, h⟩ := bind_ok h
  obtain ⟨hn, h⟩ := check_ok h
  obtain ⟨hcp, h⟩ := check_ok h
  cases h
  have hrow : ∀ kind, row.weight kind = weigh (fun _ r => r.weight kind) (from_, receiver)
      (s.delband.lookup (from_, receiver)) + kind.pick netDelta.amount cpuDelta.amount := by
    intro kind
    cases hl : s.delband.lookup (from_, receiver) with
    | none =>
      rw [hl] at hnew
      cases hnew
      cases kind <;> exact (Int.zero_add _).symm
    | some dbo =>
      rw [hl] at hnew
      obtain ⟨netWeight, hnet, hnew⟩ := bind_ok hnew
      obtain ⟨cpuWeight, hcpu, hnew⟩ := bind_ok hnew
      cases hnew
      obtain ⟨-, -, rfl⟩ := Asset.add_ok_iff.1 hnet
      obtain ⟨-, -, rfl⟩ := Asset.add_ok_iff.1 hcpu
      cases kind <;> rfl
  refine ⟨rfl, fun key r hr => ?_, fun kind p => ?_⟩
  · rcases lookup_store hr with rfl | hr
    · refine .inl (fun kind => ?_)
      cases kind with
      | net => exact of_decide_eq_true hn
      | cpu => exact of_decide_eq_true hcp
    · exact .inr hr
  · unfold delegated
    rw [total_store]
    · rw [hrow kind]
      by_cases hp : p (from_, receiver) = true
      · rw [if_pos hp, if_pos hp]
        cases s.delband.lookup (from_, receiver) with
        | none => simp
        | some dbo =>
          simp only [weigh_some, if_pos hp]
          ring
      · rw [if_neg hp, if_neg hp]
        cases s.delband.lookup (from_, receiver) with
        | none => simp
        | some dbo => simp [hp]
    · intro he
      rw [DelegatedBandwidth.weight_eq_zero he kind, ite_self]

/-! ## Expiring orders -/

theorem earliest_lookup (h : s.earliest = some e) : s.orders.lookup e.1 = some e.2 :=
  mem_entries_iff.1 (List.argmin_mem (Option.mem_def.2 h))

theorem expireOrders_succ {n : Nat} {r : Staking × Int × Int} (h : expireOrders core env (n + 1) s net cpu = .ok r) :
    r = (s, net, cpu) ∨ ∃ (e : Sigma fun _ : Nat => PowerupOrder) (s1 : Staking), s.orders.lookup e.1 = some e.2 ∧
      s.adjustResources core env e.2.owner (toInt64 (-e.2.netWeight)) (toInt64 (-e.2.cpuWeight)) false = .ok s1 ∧
      expireOrders core env n { s1 with orders := s1.orders.erase e.1 } (toInt64 (net + e.2.netWeight))
        (toInt64 (cpu + e.2.cpuWeight)) = .ok r := by
  unfold expireOrders at h
  cases he : s.earliest with
  | none =>
    rw [he] at h
    cases h
    exact .inl rfl
  | some e =>
    rw [he] at h
    dsimp only at h
    by_cases hexp : env.now < e.2.expires
    · rw [if_pos hexp] at h
      cases h
      exact .inl rfl
    · rw [if_neg hexp] at h
      obtain ⟨s1, had, h⟩ := bind_ok h
      exact .inr ⟨e, s1, earliest_lookup he, had, h⟩

theorem adjustResources_expired (C : Checked s) (O : OrdersFit s) (hl : s.orders.lookup e.1 = some e.2)
    (h : s.adjustResources core env e.2.owner (toInt64 (-e.2.netWeight)) (toInt64 (-e.2.cpuWeight)) managed = .ok s') :
    s' = { s with userres := s'.userres } ∧ Checked s' ∧
      ∀ kind a, s'.weight kind a = s.weight kind a - if a = e.2.owner then e.2.weight kind else 0 := by
  obtain ⟨hf, C', hw⟩ := adjustResources_ok C (by
    intro kind
    cases kind <;> exact toInt64_range _) h
  refine ⟨hf, C', fun kind a => ?_⟩
  by_cases ha : a = e.2.owner
  · -- the negation of the least value is itself, and no weight is so large
    have hold := C.weight kind a
    have hnew := C'.weight kind a
    have hfit := O kind e.1 e.2 hl
    rw [hw, if_pos ha] at hnew ⊢
    rw [if_pos ha]
    unfold IsInt64 at hfit
    cases kind <;>
    · simp only [Bandwidth.pick, PowerupOrder.weight, toInt64] at hfit hnew ⊢
      omega
  · rw [hw, if_neg ha, if_neg ha, Int.add_zero, Int.sub_zero]

theorem ordered_erase {r : Staking} {id : Nat} {o : PowerupOrder} (hl : s.orders.lookup id = some o) (kind : Bandwidth)
    (p : AccountName → Bool) (hord : r.orders = s.orders.erase id) :
    r.ordered kind p = s.ordered kind p - if p o.owner then o.weight kind else 0 := by
  unfold ordered
  rw [hord, total_erase, hl, weigh_some]

theorem lookup_erase_sub {i : Nat} (hord : s'.orders = s.orders) (id : Nat) (o : PowerupOrder)
    (h : (s'.orders.erase i).lookup id = some o) : s.orders.lookup id = some o := by
  rw [hord] at h
  exact (lookup_erase_some h).2

theorem expireOrders_ok : ∀ {n : Nat} {s} {net cpu : Int} {r}, Checked s → OrdersFit s →
    expireOrders core env n s net cpu = .ok r →
    r.1 = { s with userres := r.1.userres, orders := r.1.orders } ∧ Checked r.1 ∧
      (∀ id o, r.1.orders.lookup id = some o → s.orders.lookup id = some o) ∧
      ∀ kind a, r.1.weight kind a - r.1.ordered kind (· == a) = s.weight kind a - s.ordered kind (· == a)
  | 0, s, net, cpu, r, C, O, h => by
    cases h
    exact ⟨rfl, C, fun _ _ => id, fun _ _ => rfl⟩
  | n + 1, s, net, cpu, r, C, O, h => by
    rcases expireOrders_succ h with rfl | ⟨e, s1, hl, had, h⟩
    · exact ⟨rfl, C, fun _ _ => id, fun _ _ => rfl⟩
    · obtain ⟨hf, C1, hwe⟩ := adjustResources_expired C O hl had
      have hord : s1.orders = s.orders := by rw [hf]
      have hsub := lookup_erase_sub (i := e.1) hord
      obtain ⟨hf', C', hsub', hb⟩ := expireOrders_ok (s := { s1 with orders := s1.orders.erase e.1 }) C1
        (fun kind id o ho => O kind id o (hsub id o ho)) h
      refine ⟨?_, C', fun id o ho => hsub id o (hsub' id o ho), fun kind a => ?_⟩
      · rw [hf', hf]
      · have hera := ordered_erase (r := { s1 with orders := s1.orders.erase e.1 }) hl kind (· == a) (by rw [← hord])
        have hw : Staking.weight { s1 with orders := s1.orders.erase e.1 } kind a = s1.weight kind a := rfl
        rw [hb kind a, hera, hw, hwe]
        by_cases ha : a = e.2.owner
        · simp [ha]
        · simp [ha, Ne.symm ha]

/-! ## The rest of a stake change -/

theorem pay_ok {to_ : AccountName} {quantity : Asset} {memo : String} (h : s.pay env from_ to_ quantity memo = .ok s') :
    s' = { s with token := s'.token } ∧
      s.token.inlineTransfer env.isAccount from_ to_ quantity memo = .ok s'.token := by
  obtain ⟨token, htok, h⟩ := bind_ok h
  cases h
  exact ⟨rfl, htok⟩

theorem updateRefund_ok {r : Staking × Asset × Asset} (h : s.updateRefund core env from_ netDelta cpuDelta = .ok r) :
    r.1 = { s with refunds := r.1.refunds } := by
  unfold updateRefund at h
  cases hr : s.refunds.lookup from_ with
  | some req =>
    rw [hr] at h
    dsimp only at h
    obtain ⟨net, -, h⟩ := bind_ok h
    obtain ⟨cpu, -, h⟩ := bind_ok h
    iterate 2 replace h := rest_ok h
    cases h
    rfl
  | none =>
    rw [hr] at h
    dsimp only at h
    split at h <;> cases h <;> rfl

theorem settleStake_frame {source : AccountName} {self_ : Bool}
    (h : s.settleStake core env source from_ self_ netDelta cpuDelta = .ok s') :
    s' = { s with refunds := s'.refunds, token := s'.token } := by
  unfold settleStake at h
  by_cases hs : source = stakeAccount
  · rw [if_pos hs] at h
    cases h
    rfl
  · rw [if_neg hs] at h
    obtain ⟨r, href, h⟩ := bind_ok h
    have hr : r.1 = { s with refunds := r.1.refunds } := by
      split at href
      · exact updateRefund_ok href
      · cases href
        rfl
    obtain ⟨amount, -, h⟩ := bind_ok h
    split at h
    · rw [(pay_ok h).1, hr]
    · cases h
      rw [hr]

theorem updateVotingPower_ok {total : Int} {r : Staking × Int} (h : s.updateVotingPower env account total = .ok r) :
    ∃ row : VoterInfo, r.1 = { s with voters := s.voters.insert account row } ∧ 0 ≤ row.staked ∧
      (row.staked = total ∧ s.voters.lookup account = none ∨
        ∃ v, s.voters.lookup account = some v ∧ row.staked = toInt64 (v.staked + total)) := by
  obtain ⟨hpos, h⟩ := check_ok h
  obtain ⟨-, -, h⟩ := bind_ok h
  cases h
  refine ⟨_, rfl, of_decide_eq_true hpos, ?_⟩
  cases hv : s.voters.lookup account with
  | none => exact .inl ⟨rfl, rfl⟩
  | some v => exact .inr ⟨v, rfl, rfl⟩

theorem changebw_ok (h : s.changebw core env from_ receiver netDelta cpuDelta transfer = .ok s') :
    cpuDelta.symbol = netDelta.symbol ∧ |netDelta.amount + cpuDelta.amount| ≤ Asset.maxAmount ∧
      max |netDelta.amount| |cpuDelta.amount| ≤ |netDelta.amount + cpuDelta.amount| ∧
      ∃ (who : AccountName) (s1 s2 s3 : Staking) (r : Staking × Int), who = (if transfer then receiver else from_) ∧
        s.updateStakeDelegated who receiver netDelta cpuDelta = .ok s1 ∧
        s1.updateUserResources env receiver netDelta cpuDelta = .ok s2 ∧
        s2.settleStake core env from_ who (!transfer && who == receiver) netDelta cpuDelta = .ok s3 ∧
        s3.updateVotingPower env who (netDelta.amount + cpuDelta.amount) = .ok r ∧ s' = r.1 := by
  iterate 2 replace h := rest_ok h
  obtain ⟨total, htot, h⟩ := bind_ok h
  obtain ⟨hs, h⟩ := check_ok h
  obtain ⟨s1, hdel, h⟩ := bind_ok h
  obtain ⟨s2, huse, h⟩ := bind_ok h
  obtain ⟨s3, hset, h⟩ := bind_ok h
  obtain ⟨r, hv, h⟩ := bind_ok h
  obtain ⟨-, -, h⟩ := bind_ok h
  cases h
  obtain ⟨hsym, hr, rfl⟩ := Asset.add_ok_iff.1 htot
  exact ⟨hsym, abs_le.2 hr, of_decide_eq_true hs, _, s1, s2, s3, r, rfl, hdel, huse, hset, hv, rfl⟩

theorem delegatebw_ok (h : s.delegatebw core env from_ receiver netQuantity cpuQuantity transfer = .ok s') :
    netQuantity.symbol = core ∧ cpuQuantity.symbol = core ∧ 0 ≤ netQuantity.amount ∧ 0 ≤ cpuQuantity.amount ∧
      s.changebw core env from_ receiver netQuantity cpuQuantity transfer = .ok s' := by
  unfold delegatebw checkNotNegative at h
  simp only [bind_assoc, unit_bind_ok_iff, check_ok_iff, beq_iff_eq, decide_eq_true_eq] at h
  obtain ⟨hcpu, hcp, hnet, hn, -, -, h⟩ := h
  exact ⟨hnet, hcpu, hn, hcp, h⟩

theorem undelegatebw_ok (h : s.undelegatebw core env from_ receiver netQuantity cpuQuantity = .ok s') :
    netQuantity.symbol = core ∧ cpuQuantity.symbol = core ∧ 0 ≤ netQuantity.amount ∧ 0 ≤ cpuQuantity.amount ∧
      0 < netQuantity.amount + cpuQuantity.amount ∧
      s.changebw core env from_ receiver ⟨-netQuantity.amount, netQuantity.symbol⟩ ⟨-cpuQuantity.amount, cpuQuantity.symbol⟩
        false = .ok s' := by
  unfold undelegatebw checkNotNegative at h
  simp only [bind_assoc, unit_bind_ok_iff, check_ok_iff, beq_iff_eq, decide_eq_true_eq] at h
  obtain ⟨hcpu, hcp, hnet, hn, hpos, -, h⟩ := h
  refine ⟨hnet, hcpu, hn, hcp, ?_, h⟩
  by_contra hnot
  have hz : cpuQuantity.amount + netQuantity.amount = 0 := by omega
  rw [hz] at hpos
  exact absurd hpos (by decide)

def stakedBy (s : Staking) (voter : AccountName) : Int := weigh (fun _ v => v.staked) voter (s.voters.lookup voter)

theorem changebw_tables (C : Checked s) (h : s.changebw core env from_ receiver netDelta cpuDelta transfer = .ok s') :
    ∃ who, who = (if transfer then receiver else from_) ∧
      (∀ key r, s'.delband.lookup key = some r → (∀ kind, 0 ≤ r.weight kind) ∨ s.delband.lookup key = some r) ∧
      (∀ kind p, s'.delegated kind p =
        s.delegated kind p + if p (who, receiver) then kind.pick netDelta.amount cpuDelta.amount else 0) ∧
      Checked s' ∧ s'.orders = s.orders ∧ s'.powerupState = s.powerupState ∧
      (∀ kind a, s'.weight kind a = s.weight kind a + if a = receiver then kind.pick netDelta.amount cpuDelta.amount else 0) ∧
      (∀ a, a ≠ who → s'.stakedBy a = s.stakedBy a) ∧
      (s'.stakedBy who = s.stakedBy who + (netDelta.amount + cpuDelta.amount) ∨
        s'.stakedBy who = toInt64 (s.stakedBy who + (netDelta.amount + cpuDelta.amount))) := by
  obtain ⟨-, hmax, hs, who, s1, s2, s3, r, hwh, hdl, huse, hset, hvo, rfl⟩ := changebw_ok h
  obtain ⟨hf1, hro, htot⟩ := updateStakeDelegated_ok hdl
  have C1 : Checked s1 := by
    rw [hf1]
    exact C
  have hl : Asset.maxAmount < 2 ^ 63 := by decide
  have hnet := (le_abs_self netDelta.amount).trans ((le_max_left _ _).trans (hs.trans hmax))
  have hcpu := (le_abs_self cpuDelta.amount).trans ((le_max_right _ _).trans (hs.trans hmax))
  obtain ⟨hf2, C2, hw⟩ := updateUserResources_ok C1 ⟨by omega, by omega⟩ huse
  have hf3 := settleStake_frame hset
  obtain ⟨row, hr, -, hst⟩ := updateVotingPower_ok hvo
  have hvt : s3.voters = s.voters := by rw [hf3, hf2, hf1]
  have hd : r.1.delband = s1.delband := by rw [hr, hf3, hf2]
  have hu : r.1.userres = s2.userres := by rw [hr, hf3]
  have hdel : ∀ kind p, r.1.delegated kind p = s1.delegated kind p := fun kind p => by
    unfold delegated
    rw [hd]
  have hwt : ∀ kind a, r.1.weight kind a = s2.weight kind a := fun kind a => by
    unfold weight
    rw [hu]
  have hwt1 : ∀ kind a, s1.weight kind a = s.weight kind a := fun kind a => by
    unfold weight
    rw [hf1]
  have hby : ∀ a, r.1.stakedBy a = if a = who then row.staked else s.stakedBy a := fun a => by
    unfold stakedBy
    rw [hr]
    rw [lookup_insert_ite, hvt]
    split <;> rfl
  refine ⟨who, hwh, ?_, ?_, ?_, ?_, ?_, ?_, ?_, ?_⟩
  · rw [hd]
    exact hro
  · intro kind p
    rw [hdel, htot]
  · unfold Checked
    rw [hu]
    exact C2
  · rw [hr, hf3, hf2, hf1]
  · rw [hr, hf3, hf2, hf1]
  · intro kind a
    rw [hwt, hw, hwt1]
  · intro a ha
    rw [hby, if_neg ha]
  · rw [hby, if_pos rfl]
    unfold stakedBy
    rcases hst with ⟨hst, hn⟩ | ⟨v, hv, hst⟩
    · rw [hvt] at hn
      rw [hn, weigh_none, Int.zero_add]
      exact .inl hst
    · rw [hvt] at hv
      rw [hv, weigh_some]
      exact .inr hst

end Staking
end TheChannel

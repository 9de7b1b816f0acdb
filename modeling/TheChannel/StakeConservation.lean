import TheChannel.PowerupMarket
import TheChannel.StakeRefunds
/-!
# StakeConservation — the books of staking

Over every run of staking, refunds and powerups by accounts other than `ra.stake`: the stake account has what is delegated and
what waits as refunds, the stake of a voter is what it delegated, and the weights of a receiver are the delegations to it and its
orders (`run_conserved`). The weights of `ra.reserv` also hold what the powerup market has not sold (`reserve_holds_market`).
-/
namespace TheChannel
namespace Staking
open RowMap

variable {pricing : Pricing} {core : Symbol} {env : StakeEnv} {s s' : Staking} {account from_ receiver owner : AccountName}
  {net cpu : Int} {netDelta cpuDelta : Asset} {events : List MarketEvent} {transfer managed : Bool}

def refundTotal (s : Staking) : Int := total (fun _ r => r.amount) s.refunds

def everyone (_ : AccountName × AccountName) : Bool := true

theorem everyone_eq (key : AccountName × AccountName) : everyone key = true := rfl

structure Staked (core : Symbol) (s : Staking) : Prop where
  issued : s.token.Issued core
  rows : ∀ key r, s.delband.lookup key = some r → ∀ kind, 0 ≤ r.weight kind
  refunds : RefundsFit core s
  balance : s.token.balance stakeAccount core.code =
    s.delegated .net everyone + s.delegated .cpu everyone + s.refundTotal
  voters : ∀ a, s.stakedBy a = s.delegated .net (·.1 == a) + s.delegated .cpu (·.1 == a)

structure Weighed (s : Staking) : Prop where
  checked : Checked s
  orders : OrdersFit s
  weights : ∀ kind a, a ≠ reserveAccount → s.weight kind a = s.delegated kind (·.2 == a) + s.ordered kind (· == a)

section

variable (hro : ∀ key r, s.delband.lookup key = some r → ∀ kind, 0 ≤ r.weight kind)

include hro

theorem delegated_nonneg (kind : Bandwidth)
    (p : AccountName × AccountName → Bool) : 0 ≤ s.delegated kind p := by
  refine total_nonneg fun key r hr => ?_
  split
  · exact hro key r hr kind
  · exact le_rfl

theorem delegated_le (kind : Bandwidth)
    (p : AccountName × AccountName → Bool) : s.delegated kind p ≤ s.delegated kind everyone := by
  refine total_mono fun key r hr => ?_
  rw [if_pos (everyone_eq key)]
  split
  · exact le_rfl
  · exact hro key r hr kind

end

theorem refundTotal_nonneg (F : RefundsFit core s) : 0 ≤ s.refundTotal :=
  total_nonneg fun owner r hr => Int.add_nonneg (F owner r hr).net (F owner r hr).cpu

theorem refundTotal_change (h : ∀ a, a ≠ account → s'.refunding a = s.refunding a) :
    s'.refundTotal - s'.refunding account = s.refundTotal - s.refunding account :=
  total_change h

/-! ## Staking -/

theorem Weighed.changebw (W : Weighed s)
    (h : s.changebw core env from_ receiver netDelta cpuDelta transfer = .ok s') : Weighed s' := by
  obtain ⟨who, -, -, hdel, C, hor, -, hw, -, -⟩ := changebw_tables W.checked h
  have hord : ∀ kind p, s'.ordered kind p = s.ordered kind p := fun kind p => by
    unfold ordered
    rw [hor]
  refine ⟨C, ?_, fun kind a ha => ?_⟩
  · unfold OrdersFit
    rw [hor]
    exact W.orders
  · rw [hw, hdel, hord, W.weights kind a ha]
    by_cases hrec : a = receiver
    · simp only [hrec, beq_self_eq_true, if_true]
      omega
    · simp only [hrec, Ne.symm hrec, beq_iff_eq, if_false]
      omega

theorem Staked.changebw (S : Staked core s) (C : Checked s) (hs : from_ ≠ stakeAccount)
    (hnet : netDelta.symbol = core) (hcpu : cpuDelta.symbol = core)
    (h : s.changebw core env from_ receiver netDelta cpuDelta transfer = .ok s') : Staked core s' := by
  obtain ⟨who, hwh, hro, hdel, -, -, -, -, hot, hown⟩ := changebw_tables C h
  obtain ⟨left, ⟨-, F, href, hbal, hi⟩, -, -⟩ := changebw_amounts S.refunds hs hnet hcpu h
  have I := hi S.issued
  have R : ∀ key r, s'.delband.lookup key = some r → ∀ kind, 0 ≤ r.weight kind :=
    fun key r hr => (hro key r hr).elim id (S.rows key r)
  -- the stake account
  have hn := hdel .net everyone
  have hcp := hdel .cpu everyone
  rw [if_pos (everyone_eq (who, receiver))] at hn hcp
  have hw : s'.refundTotal - s'.refunding who = s.refundTotal - s.refunding who := refundTotal_change fun a ha => by
    rw [href a, if_neg (hwh ▸ ha), Int.add_zero]
  rw [href who, if_pos hwh] at hw
  have hst := hbal stakeAccount
  rw [if_pos rfl, if_neg hs.symm] at hst
  have hold := S.balance
  have B : s'.token.balance stakeAccount core.code =
      s'.delegated .net everyone + s'.delegated .cpu everyone + s'.refundTotal := by
    simp only [Bandwidth.pick] at hn hcp
    omega
  refine ⟨I, R, F, B, fun a => ?_⟩
  have hne := hdel .net (·.1 == a)
  have hco := hdel .cpu (·.1 == a)
  have hb := S.voters a
  by_cases ha : a = who
  · have hnet := delegated_le R .net (·.1 == a)
    have hcpu := delegated_le R .cpu (·.1 == a)
    have hnet0 := delegated_nonneg R .net (·.1 == a)
    have hcpu0 := delegated_nonneg R .cpu (·.1 == a)
    have href := refundTotal_nonneg F
    have hle := I.balance_le stakeAccount
    have hl : Asset.maxAmount < 2 ^ 63 := by decide
    simp only [ha, beq_self_eq_true, if_true, Bandwidth.pick] at hne hco hb hnet hcpu hnet0 hcpu0 ⊢
    rcases hown with hown | hown
    · omega
    · rw [hown, toInt64_eq (by omega) (by omega)]
      omega
  · rw [hot a ha, hb]
    simp only [Ne.symm ha, beq_iff_eq, if_false, Int.add_zero] at hne hco
    omega

theorem Staked.refund (S : Staked core s) (hown : owner ≠ stakeAccount)
    (h : s.refund env owner = .ok s') : Staked core s' := by
  obtain ⟨F, -, hz, hot, hbal, hi, hf⟩ := refund_amounts S.refunds h
  have hw := refundTotal_change hot
  have hs := hbal stakeAccount
  rw [if_neg hown.symm, if_pos rfl] at hs
  have hold := S.balance
  have hdel : ∀ kind p, s'.delegated kind p = s.delegated kind p := fun kind p => by rw [hf]; rfl
  refine ⟨hi S.issued, ?_, F, ?_, fun a => ?_⟩
  · rw [hf]
    exact S.rows
  · rw [hdel, hdel]
    omega
  · rw [hdel, hdel, ← S.voters a, hf]
    rfl

theorem Staked.of_frame (S : Staked core s) (hdel : s'.delband = s.delband) (href : s'.refunds = s.refunds)
    (hv : s'.voters = s.voters) (hi : s'.token.Issued core)
    (hbal : s'.token.balance stakeAccount core.code = s.token.balance stakeAccount core.code) : Staked core s' := by
  obtain ⟨-, hr, F, B, V⟩ := S
  refine ⟨hi, ?_, ?_, ?_, ?_⟩
  · rwa [hdel]
  · unfold RefundsFit
    rwa [href]
  · unfold delegated refundTotal
    rw [hbal, hdel, href]
    exact B
  · unfold delegated stakedBy
    rw [hdel, hv]
    exact V

/-! ## The powerup market -/

theorem Weighed.of_frame (W : Weighed s) (huse : s'.userres = s.userres) (hdel : s'.delband = s.delband)
    (hord : s'.orders = s.orders) : Weighed s' := by
  obtain ⟨C, O, weights⟩ := W
  refine ⟨?_, ?_, ?_⟩
  · unfold Checked
    rwa [huse]
  · unfold OrdersFit
    rwa [hord]
  · unfold weight delegated ordered
    rw [huse, hdel, hord]
    exact weights

theorem Weighed.reserve (W : Weighed s) (hd : ∀ kind : Bandwidth, IsInt64 (kind.pick net cpu))
    (h : s.adjustResources core env reserveAccount net cpu managed = .ok s') :
    Weighed s' ∧ s' = { s with userres := s'.userres } := by
  obtain ⟨hf, C, hw⟩ := adjustResources_ok W.checked hd h
  have hor : s'.orders = s.orders := by rw [hf]
  have hdel : ∀ kind p, s'.delegated kind p = s.delegated kind p := fun kind p => by rw [hf]; rfl
  have hord : ∀ kind p, s'.ordered kind p = s.ordered kind p := fun kind p => by rw [hf]; rfl
  refine ⟨⟨C, ?_, fun kind a ha => ?_⟩, hf⟩
  · unfold OrdersFit
    rw [hor]
    exact W.orders
  · rw [hw, if_neg ha, Int.add_zero, W.weights kind a ha, hdel, hord]

theorem processed_ok {state : PowerupState} {n : Nat} {p : Processed} (W : Weighed s)
    (h : s.processPowerupQueue pricing core env state n = .ok p) :
    Weighed p.tables ∧ p.tables = { s with userres := p.tables.userres, orders := p.tables.orders } ∧
      ∀ kind : Bandwidth, IsInt64 (kind.pick p.netDelta p.cpuDelta) := by
  obtain ⟨r, hr, h⟩ := bind_ok h
  cases h
  obtain ⟨hf, C, hsub, hs⟩ := expireOrders_ok W.checked W.orders hr
  refine ⟨⟨C, fun kind id o ho => W.orders kind id o (hsub id o ho), fun kind a ha => ?_⟩, hf, fun kind => ?_⟩
  · have hdel : r.1.delegated kind (·.2 == a) = s.delegated kind (·.2 == a) := by rw [hf]; rfl
    have hs := hs kind a
    rw [W.weights kind a ha] at hs
    dsimp only
    omega
  · cases kind <;> exact toInt64_range _

theorem sell_isInt64 {m : PowerupStateResource} {frac : Int} {r : PowerupStateResource × Int × Int}
    (h : m.sell pricing frac = .ok r) : IsInt64 r.2.1 := by
  unfold PowerupStateResource.sell at h
  by_cases hz : frac = 0
  · rw [if_pos hz] at h
    cases h
    exact ⟨by norm_num, by norm_num⟩
  · rw [if_neg hz] at h
    iterate 3 replace h := rest_ok h
    cases h
    exact toInt64_range _

theorem Weighed.order {o : PowerupOrder} {r : Staking} (W : Weighed s) (hown : o.owner = receiver)
    (hfit : ∀ kind : Bandwidth, IsInt64 (o.weight kind)) (hr : r = { s with orders := s.orders.insert s.availablePrimaryKey o })
    (h : r.adjustResources core env receiver o.netWeight o.cpuWeight managed = .ok s') :
    Weighed s' ∧ s' = { r with userres := s'.userres } := by
  have C : Checked r := by
    rw [hr]
    exact W.checked
  obtain ⟨hf, C', hw⟩ := adjustResources_ok C hfit h
  have hord : ∀ kind p, s'.ordered kind p = s.ordered kind p + if p o.owner then o.weight kind else 0 := fun kind p =>
    ordered_insert (by rw [hf, hr]) kind p
  have hold : ∀ kind a, r.weight kind a = s.weight kind a := fun kind a => by rw [hr]; rfl
  have hdel : ∀ kind p, s'.delegated kind p = s.delegated kind p := fun kind p => by rw [hf, hr]; rfl
  refine ⟨⟨C', ?_, fun kind a ha => ?_⟩, hf⟩
  · have hor : s'.orders = s.orders.insert s.availablePrimaryKey o := by rw [hf, hr]
    intro kind id o' ho'
    rw [hor] at ho'
    rcases lookup_insert_some ho' with ⟨-, rfl⟩ | ⟨-, ho'⟩
    · exact hfit kind
    · exact W.orders kind id o' ho'
  · rw [hw, hold, hdel, hord, W.weights kind a ha, hown]
    by_cases hrec : a = receiver
    · simp only [hrec, beq_self_eq_true, if_true]
      exact (Int.add_assoc _ _ _)
    · simp only [hrec, Ne.symm hrec, beq_iff_eq, if_false]
      omega

theorem Staked.pay_fees {quantity : Asset} {memo : String} (S : Staked core s) (hp : account ≠ stakeAccount)
    (h : s.pay env account feesAccount quantity memo = .ok s') : Staked core s' := by
  obtain ⟨hfr, hpay⟩ := pay_ok h
  have hf : feesAccount ≠ stakeAccount := by decide +kernel
  have hdel : s'.delband = s.delband := by rw [hfr]
  refine S.of_frame hdel (by rw [hfr]) (by rw [hfr]) (S.issued.transfer hpay) ?_
  by_cases hco : core.code = quantity.symbol.code
  · have hbal := Token.transfer_balance hpay stakeAccount
    rw [if_neg hf.symm, if_neg hp.symm, ← hco] at hbal
    omega
  · exact Token.transfer_balance_ne hpay stakeAccount hco

structure Conserved (core : Symbol) (s : Staking) : Prop where
  staked : Staked core s
  weighed : Weighed s

section

variable (K : Conserved core s)

include K

theorem Conserved.changebw {transfer : Bool} (hs : from_ ≠ stakeAccount)
    (hnet : netDelta.symbol = core) (hcpu : cpuDelta.symbol = core)
    (h : s.changebw core env from_ receiver netDelta cpuDelta transfer = .ok s') : Conserved core s' :=
  ⟨K.staked.changebw K.weighed.checked hs hnet hcpu h, K.weighed.changebw h⟩

theorem Conserved.refund (hown : owner ≠ stakeAccount)
    (h : s.refund env owner = .ok s') : Conserved core s' := by
  have hf := (refund_amounts K.staked.refunds h).2.2.2.2.2.2
  refine ⟨K.staked.refund hown h, K.weighed.of_frame ?_ ?_ ?_⟩ <;> rw [hf]

theorem Conserved.market (W : Weighed s')
    (hf : s' = { s with userres := s'.userres, orders := s'.orders }) (state : Option PowerupState) :
    Conserved core { s' with powerupState := state } := by
  have htok : s'.token = s.token := by rw [hf]
  refine ⟨K.staked.of_frame ?_ ?_ ?_ ?_ ?_, W.of_frame rfl rfl rfl⟩
  · rw [hf]
  · rw [hf]
  · rw [hf]
  · exact htok ▸ K.staked.issued
  · dsimp only
    rw [htok]

theorem Conserved.cfgpowerup {args : PowerupConfig}
    (h : s.cfgpowerup pricing core env args = .ok (s', events)) : Conserved core s' := by
  obtain ⟨fresh, q, days, fee, s1, -, hco, -, had, rfl, -⟩ := cfgpowerup_ok h
  obtain ⟨W, hf⟩ := K.weighed.reserve (fun kind => by
    obtain ⟨m, -, hq⟩ := hco kind
    have hp : kind.pick (q .net).2 (q .cpu).2 = (q kind).2 := by cases kind <;> rfl
    rw [hp, hq]
    exact toInt64_range _) had
  exact K.market W (by rw [hf]) _

theorem Conserved.powerupexec {user : AccountName} {maxItems : UInt16}
    (h : s.powerupexec pricing core env user maxItems = .ok s') : Conserved core s' := by
  obtain ⟨state, p, s1, -, hp, had, rfl⟩ := powerupexec_ok h
  obtain ⟨W1, hf1, hdel⟩ := processed_ok K.weighed hp
  obtain ⟨W, hf⟩ := W1.reserve hdel had
  exact K.market W (by rw [hf, hf1]) _

theorem Conserved.powerup {payer : AccountName} {days : UInt32} {netFrac cpuFrac : Int} {maxPayment : Asset}
    (hpa : payer ≠ stakeAccount)
    (h : s.powerup pricing core env payer receiver days netFrac cpuFrac maxPayment = .ok (s', events)) :
    Conserved core s' := by
  obtain ⟨state, p, net, cpu, fee, s1, -, -, hpr, hsell, hpl, rfl, -⟩ := powerup_ok h
  obtain ⟨o, s2, s3, hown, hnew, hcp, hrec, hres, hp, memo, hpay⟩ := placeOrder_ok hpl
  obtain ⟨W1, hf1, -⟩ := processed_ok K.weighed hpr
  rw [← hnew, ← hcp] at hrec
  have hfit : ∀ kind : Bandwidth, IsInt64 (o.weight kind) := fun kind => by
    have hs := sell_isInt64 (hsell kind)
    cases kind with
    | net => rwa [PowerupOrder.weight, Bandwidth.pick, hnew]
    | cpu => rwa [PowerupOrder.weight, Bandwidth.pick, hcp]
  obtain ⟨W2, hf2⟩ := W1.order hown hfit rfl hrec
  obtain ⟨W3, hf3⟩ := W2.reserve (fun kind => by cases kind <;> exact toInt64_range _) hres
  have K3 : Conserved core { s3 with powerupState := s3.powerupState } :=
    K.market W3 (by rw [hf3, hf2, hf1]) _
  -- only then the fee is paid
  have S := K3.staked.pay_fees hpa hpay
  exact ⟨S.of_frame rfl rfl rfl S.issued rfl, K3.weighed.of_frame (by rw [hp]) (by rw [hp]) (by rw [hp])⟩

theorem Conserved.apply {action : Action} (hact : action.actor ≠ stakeAccount)
    (h : s.apply pricing core env action = .ok (s', events)) : Conserved core s' := by
  cases action with
  | delegatebw from_ receiver net cpu transfer =>
    obtain ⟨hok, rfl⟩ := silent_ok_iff.1 h
    obtain ⟨hnet, hcpu, -, -, hch⟩ := delegatebw_ok hok
    exact K.changebw hact hnet hcpu hch
  | undelegatebw from_ receiver net cpu =>
    obtain ⟨hok, rfl⟩ := silent_ok_iff.1 h
    obtain ⟨hnet, hcpu, -, -, -, hch⟩ := undelegatebw_ok hok
    have hs : from_ ≠ stakeAccount := hact
    refine Conserved.changebw K hs ?_ ?_ hch
    · exact hnet
    · exact hcpu
  | refund owner =>
    obtain ⟨hok, rfl⟩ := silent_ok_iff.1 h
    exact K.refund hact hok
  | cfgpowerup args => exact K.cfgpowerup h
  | powerupexec user maxItems =>
    obtain ⟨hok, rfl⟩ := silent_ok_iff.1 h
    exact K.powerupexec hok
  | powerup payer receiver days net cpu maxPayment => exact K.powerup hact h

end

theorem Conserved.run : ∀ {actions} {s}, Conserved core s →
    (∀ a ∈ actions, a.2.actor ≠ stakeAccount) → Conserved core (s.run pricing core actions).1
  | [], _, K, _ => K
  | a :: actions, s, K, hact => by
    have hr : ∀ b ∈ actions, b.2.actor ≠ stakeAccount := fun b hb => hact b (List.mem_cons_of_mem _ hb)
    cases happ : s.apply pricing core a.1 a.2 with
    | error e =>
      rw [run_cons_error actions happ]
      exact Conserved.run K hr
    | ok r =>
      rw [run_cons_ok actions happ]
      exact Conserved.run (K.apply (hact a List.mem_cons_self) happ) hr

/-- **Stake is conserved.** Over every sequence of actions of other accounts than `ra.stake`, from tables that keep the books:
the balance of `ra.stake` is what is delegated and what waits as refunds, the stake of a voter is the sum of its own delegations,
and the weights of every receiver but `ra.reserv` are the delegations to it and its orders. -/
theorem run_conserved (pricing : Pricing) (core : Symbol) (s : Staking) (K : Conserved core s)
    (actions : List (StakeEnv × Action)) (hactors : ∀ a ∈ actions, a.2.actor ≠ stakeAccount) :
    let s' := (s.run pricing core actions).1
    s'.token.balance stakeAccount core.code = s'.delegated .net everyone + s'.delegated .cpu everyone + s'.refundTotal ∧
      (∀ a, s'.stakedBy a = s'.delegated .net (·.1 == a) + s'.delegated .cpu (·.1 == a)) ∧
      ∀ kind a, a ≠ reserveAccount → s'.weight kind a = s'.delegated kind (·.2 == a) + s'.ordered kind (· == a) := by
  have K' : Conserved core (s.run pricing core actions).1 := K.run hactors
  exact ⟨K'.staked.balance, K'.staked.voters, K'.weighed.weights⟩

def sampleStakes : List (StakeEnv × Action) :=
  [(sampleStakeEnv 1000, .delegatebw sampleUser reserveAccount ⟨500, sampleCoin⟩ ⟨300, sampleCoin⟩ false),
    (sampleStakeEnv 1000, .undelegatebw sampleUser reserveAccount ⟨250, sampleCoin⟩ ⟨0, sampleCoin⟩),
    (sampleStakeEnv 1000, .cfgpowerup (sampleConfig (74 * 10 ^ 15))),
    (sampleStakeEnv 1000, .powerup sampleUser sampleUser 1 (4 * 10 ^ 14) 0 ⟨1000, sampleCoin⟩)]

theorem sampleTables_conserved : Conserved sampleCoin sampleTables where
  staked := {
    issued := {
      ledger := Token.Ledger.run _ _
      valid := by decide
      stat := ⟨⟨⟨10 ^ 13, sampleCoin⟩, ⟨10 ^ 14, sampleCoin⟩, sampleUser⟩, by decide +kernel, rfl, by decide⟩ }
    rows := fun _ _ h => by cases h
    refunds := fun _ _ h => by cases h
    balance := by decide +kernel
    voters := fun _ => rfl }
  weighed := {
    checked := fun _ _ _ h => by cases h
    orders := fun _ _ _ h => by cases h
    weights := fun _ _ _ => rfl }

theorem run_conserved_sampleStakes :
    ((sampleTables.run flatPricing sampleCoin sampleStakes).1.token.balance stakeAccount sampleCoin.code = 800 ∧
      (sampleTables.run flatPricing sampleCoin sampleStakes).1.refundTotal = 250) ∧
    (sampleTables.run flatPricing sampleCoin sampleStakes).1.stakedBy sampleUser =
      (sampleTables.run flatPricing sampleCoin sampleStakes).1.delegated .net (·.1 == sampleUser) +
        (sampleTables.run flatPricing sampleCoin sampleStakes).1.delegated .cpu (·.1 == sampleUser) :=
  ⟨by decide +kernel, (run_conserved flatPricing sampleCoin sampleTables sampleTables_conserved sampleStakes
    (by decide +kernel)).2.1 sampleUser⟩

/-- **The weights of `ra.reserv` are more than the delegations to it and its orders**: they hold what the market has not sold. -/
theorem reserve_holds_market : (sampleTables.weight .net reserveAccount =
      sampleTables.delegated .net (·.2 == reserveAccount) + sampleTables.ordered .net (· == reserveAccount)) ∧
    (sampleTables.run flatPricing sampleCoin sampleStakes).1.weight .net reserveAccount = 6 * 99 * 74 * 10 ^ 14 + 250 ∧
    (sampleTables.run flatPricing sampleCoin sampleStakes).1.delegated .net (·.2 == reserveAccount) = 250 ∧
    (sampleTables.run flatPricing sampleCoin sampleStakes).1.ordered .net (· == reserveAccount) = 0 := by
  decide +kernel

end Staking
end TheChannel

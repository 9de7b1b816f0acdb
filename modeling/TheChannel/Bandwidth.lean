import TheChannel.PowerupWeights
import TheChannel.RaToken
/-!
# Bandwidth — staked and rented bandwidth

`delegatebw`, `undelegatebw` and `refund` of `delegate_bandwidth.cpp` and `cfgpowerup`, `powerup` and `powerupexec` of
`powerup.cpp`, over the tables `delband`, `userres`, `refunds`, `voters`, `powup.state`, `powup.order` and the token ledger.
REX is disabled, so that `vote_stake_updater` does nothing. The votes of a voter are left out: `update_votes` is what the
environment answers, as is the chain's acceptance of new resource limits. An action and the transfers it sends are one step;
a step that throws changes nothing.
-/
namespace TheChannel

inductive Bandwidth
  | net
  | cpu
  deriving DecidableEq

structure DelegatedBandwidth where
  netWeight : Asset
  cpuWeight : Asset
  deriving DecidableEq

structure UserResources where
  netWeight : Asset
  cpuWeight : Asset
  ramBytes : Int
  deriving DecidableEq

structure RefundRequest where
  requestTime : UInt32
  netAmount : Asset
  cpuAmount : Asset
  deriving DecidableEq

/-- What staking reads and writes of a `voter_info`; `hasVotes` says whether there are producers or a proxy. -/
structure VoterInfo where
  staked : Int
  hasVotes : Bool
  netManaged : Bool
  cpuManaged : Bool
  deriving DecidableEq

structure PowerupState where
  net : PowerupStateResource := {}
  cpu : PowerupStateResource := {}
  powerupDays : UInt32 := 30
  minPowerupFee : Asset := defaultAsset

structure PowerupConfig where
  net : PowerupConfigResource
  cpu : PowerupConfigResource
  powerupDays : Option UInt32
  minPowerupFee : Option Asset

structure PowerupOrder where
  owner : AccountName
  netWeight : Int
  cpuWeight : Int
  expires : UInt32
  deriving DecidableEq

/-- `delband` by the staking account and the receiver. -/
structure Staking where
  delband : RowMap (AccountName × AccountName) DelegatedBandwidth
  userres : RowMap AccountName UserResources
  refunds : RowMap AccountName RefundRequest
  voters : RowMap AccountName VoterInfo
  powerupState : Option PowerupState
  orders : RowMap Nat PowerupOrder
  token : Token

/-- What an action finds: the time in microseconds, whether the chain is activated, and the answers of the chain to new
resource limits and of `update_votes`. -/
structure StakeEnv extends ActionEnv where
  time : Nat
  activated : Bool
  setLimits : AccountName → Result Unit
  updateVotes : AccountName → Result Unit

def StakeEnv.now (env : StakeEnv) : UInt32 := UInt32.ofNat (env.time / 1000000)

inductive MarketEvent
  | configured
  | sold (kind : Bandwidth) (utilization amount : Int)
  deriving DecidableEq

def UserResources.isEmpty (r : UserResources) : Bool :=
  r.netWeight.amount == 0 && r.cpuWeight.amount == 0 && r.ramBytes == 0

def DelegatedBandwidth.isEmpty (r : DelegatedBandwidth) : Bool := r.netWeight.amount == 0 && r.cpuWeight.amount == 0

def RefundRequest.isEmpty (r : RefundRequest) : Bool := r.netAmount.amount == 0 && r.cpuAmount.amount == 0

def refundDelaySec : Nat := 3 * (24 * 3600)

def b1Account : AccountName := stringToName ['b', '1']

/-- What of the stake of `b1` is never vested; the double computation of the source is exact. -/
def b1Unvestable : Int := 10 ^ 12 - 10 ^ 12 * (1638921540 - 1527811200) / (10 * (52 * 7 * 24 * 3600))

def validateB1Vesting (newStake stakeChange : Int) : Result Unit :=
  if newStake < b1Unvestable ∧ stakeChange < 0 ∧ newStake + |stakeChange| < b1Unvestable then .ok ()
  else check (decide (b1Unvestable ≤ newStake)) "b1 can only claim what has already vested"

def checkNotNegative (core : Symbol) (quantity : Asset) (msg : String) : Result Unit :=
  check (quantity.symbol == core) "comparison of assets with different symbols is not allowed" >>= fun _ =>
  check (decide (0 ≤ quantity.amount)) msg

namespace Staking
variable (pricing : Pricing) (core : Symbol) (env : StakeEnv) (s : Staking)

/-- The end of `adjust_resources` and of `update_user_resources`: the row is checked, the chain told, and an empty row erased. -/
def storeUserres (account : AccountName) (row : UserResources) (mustNotBeManaged : Bool) : Result Staking :=
  check (decide (0 ≤ row.netWeight.amount)) "insufficient staked total net bandwidth" >>= fun _ =>
  check (decide (0 ≤ row.cpuWeight.amount)) "insufficient staked total cpu bandwidth" >>= fun _ =>
  let netManaged := (s.voters.lookup account).any (·.netManaged)
  let cpuManaged := (s.voters.lookup account).any (·.cpuManaged)
  check (!mustNotBeManaged || (!netManaged && !cpuManaged)) "something is managed which shouldn't be" >>= fun _ =>
  (if netManaged && cpuManaged then .ok () else env.setLimits account) >>= fun _ =>
  .ok { s with userres := s.userres.store row.isEmpty account row }

def adjustResources (account : AccountName) (netDelta cpuDelta : Int) (mustNotBeManaged : Bool) : Result Staking :=
  if netDelta = 0 ∧ cpuDelta = 0 then .ok s
  else
    (match s.userres.lookup account with
      | none =>
        Asset.make netDelta core >>= fun netWeight =>
        Asset.make cpuDelta core >>= fun cpuWeight =>
        .ok (⟨netWeight, cpuWeight, 0⟩ : UserResources)
      | some tot =>
        .ok ⟨⟨toInt64 (tot.netWeight.amount + netDelta), tot.netWeight.symbol⟩,
          ⟨toInt64 (tot.cpuWeight.amount + cpuDelta), tot.cpuWeight.symbol⟩, tot.ramBytes⟩) >>= fun row =>
    s.storeUserres env account row mustNotBeManaged

/-! ## Staking -/

def updateUserResources (receiver : AccountName) (netDelta cpuDelta : Asset) : Result Staking :=
  (match s.userres.lookup receiver with
    | none => Except.ok ⟨netDelta, cpuDelta, 0⟩
    | some tot =>
      tot.netWeight.add netDelta >>= fun netWeight =>
      tot.cpuWeight.add cpuDelta >>= fun cpuWeight =>
      .ok ⟨netWeight, cpuWeight, tot.ramBytes⟩) >>= fun row =>
  s.storeUserres env receiver row false

def updateStakeDelegated (from_ receiver : AccountName) (netDelta cpuDelta : Asset) : Result Staking :=
  (match s.delband.lookup (from_, receiver) with
    | none => Except.ok ⟨netDelta, cpuDelta⟩
    | some dbo =>
      dbo.netWeight.add netDelta >>= fun netWeight =>
      dbo.cpuWeight.add cpuDelta >>= fun cpuWeight =>
      .ok (⟨netWeight, cpuWeight⟩ : DelegatedBandwidth)) >>= fun row =>
  check (decide (0 ≤ row.netWeight.amount)) "insufficient staked net bandwidth" >>= fun _ =>
  check (decide (0 ≤ row.cpuWeight.amount)) "insufficient staked cpu bandwidth" >>= fun _ =>
  .ok { s with delband := s.delband.store row.isEmpty (from_, receiver) row }

def offsetRefund (amount balance : Asset) : Result (Asset × Asset) :=
  amount.sub balance >>= fun left =>
  .ok (if left.amount < 0 then (⟨0, left.symbol⟩, ⟨-left.amount, left.symbol⟩) else (left, ⟨0, balance.symbol⟩))

def newRefund (balance : Asset) : Asset × Asset :=
  if balance.amount < 0 then (⟨-balance.amount, balance.symbol⟩, ⟨0, balance.symbol⟩) else (⟨0, core⟩, balance)

def updateRefund (from_ : AccountName) (netBalance cpuBalance : Asset) : Result (Staking × Asset × Asset) :=
  match s.refunds.lookup from_ with
  | some req =>
    offsetRefund req.netAmount netBalance >>= fun net =>
    offsetRefund req.cpuAmount cpuBalance >>= fun cpu =>
    check (decide (0 ≤ net.1.amount)) "negative net refund amount" >>= fun _ =>
    check (decide (0 ≤ cpu.1.amount)) "negative cpu refund amount" >>= fun _ =>
    let r : RefundRequest :=
      ⟨if netBalance.amount < 0 ∨ cpuBalance.amount < 0 then env.now else req.requestTime, net.1, cpu.1⟩
    .ok ({ s with refunds := s.refunds.store r.isEmpty from_ r }, net.2, cpu.2)
  | none =>
    if netBalance.amount < 0 ∨ cpuBalance.amount < 0 then
      .ok ({ s with refunds := s.refunds.insert from_ ⟨env.now, (newRefund core netBalance).1, (newRefund core cpuBalance).1⟩ },
        (newRefund core netBalance).2, (newRefund core cpuBalance).2)
    else .ok (s, netBalance, cpuBalance)

def pay (from_ to_ : AccountName) (quantity : Asset) (memo : String) : Result Staking :=
  s.token.inlineTransfer env.isAccount from_ to_ quantity memo >>= fun token =>
  .ok { s with token := token }

/-- The refund and the transfer of a stake change of `from_` that `source` pays for. -/
def settleStake (source from_ : AccountName) (self_ : Bool) (netDelta cpuDelta : Asset) : Result Staking :=
  if source = stakeAccount then .ok s
  else
    (if self_ || decide (netDelta.amount + cpuDelta.amount < 0) then s.updateRefund core env from_ netDelta cpuDelta
      else .ok (s, netDelta, cpuDelta)) >>= fun r =>
    r.2.1.add r.2.2 >>= fun transferAmount =>
    if 0 < transferAmount.amount then r.1.pay env source stakeAccount transferAmount "stake bandwidth" else .ok r.1

def updateVotingPower (voter : AccountName) (totalUpdate : Int) : Result (Staking × Int) :=
  let row : VoterInfo := match s.voters.lookup voter with
    | none => ⟨totalUpdate, false, false, false⟩
    | some v => { v with staked := toInt64 (v.staked + totalUpdate) }
  check (decide (0 ≤ row.staked)) "stake for voting cannot be negative" >>= fun _ =>
  (if row.hasVotes then env.updateVotes voter else .ok ()) >>= fun _ =>
  .ok ({ s with voters := s.voters.insert voter row }, row.staked)

def changebw (from_ receiver : AccountName) (netDelta cpuDelta : Asset) (transfer : Bool) : Result Staking :=
  env.requireAuth from_ >>= fun _ =>
  check (decide (netDelta.amount ≠ 0 ∨ cpuDelta.amount ≠ 0)) "should stake non-zero amount" >>= fun _ =>
  netDelta.add cpuDelta >>= fun total =>
  check (decide (max |netDelta.amount| |cpuDelta.amount| ≤ |total.amount|))
    "net and cpu deltas cannot be opposite signs" >>= fun _ =>
  let source := from_
  let from_ := if transfer then receiver else from_
  s.updateStakeDelegated from_ receiver netDelta cpuDelta >>= fun s =>
  s.updateUserResources env receiver netDelta cpuDelta >>= fun s =>
  s.settleStake core env source from_ (!transfer && from_ == receiver) netDelta cpuDelta >>= fun s =>
  s.updateVotingPower env from_ total.amount >>= fun r =>
  (if from_ = b1Account then validateB1Vesting r.2 total.amount else .ok ()) >>= fun _ =>
  .ok r.1

def delegatebw (from_ receiver : AccountName) (netQuantity cpuQuantity : Asset) (transfer : Bool) : Result Staking :=
  checkNotNegative core cpuQuantity "must stake a positive amount" >>= fun _ =>
  checkNotNegative core netQuantity "must stake a positive amount" >>= fun _ =>
  check (decide (0 < toInt64 (netQuantity.amount + cpuQuantity.amount))) "must stake a positive amount" >>= fun _ =>
  check (!transfer || from_ != receiver) "cannot use transfer flag if delegating to self" >>= fun _ =>
  s.changebw core env from_ receiver netQuantity cpuQuantity transfer

def undelegatebw (from_ receiver : AccountName) (netQuantity cpuQuantity : Asset) : Result Staking :=
  checkNotNegative core cpuQuantity "must unstake a positive amount" >>= fun _ =>
  checkNotNegative core netQuantity "must unstake a positive amount" >>= fun _ =>
  check (decide (0 < toInt64 (cpuQuantity.amount + netQuantity.amount))) "must unstake a positive amount" >>= fun _ =>
  check env.activated
    "cannot undelegate bandwidth until the chain is activated (at least 15% of all tokens participate in voting)" >>= fun _ =>
  s.changebw core env from_ receiver ⟨-netQuantity.amount, netQuantity.symbol⟩ ⟨-cpuQuantity.amount, cpuQuantity.symbol⟩ false

def refund (owner : AccountName) : Result Staking :=
  env.requireAuth owner >>= fun _ =>
  match s.refunds.lookup owner with
  | none => .error (.thrown .eosioAssertMessage "refund request not found")
  | some req =>
    check (decide (req.requestTime.toNat * 1000000 + refundDelaySec * 1000000 ≤ env.time)) "refund is not available yet" >>= fun _ =>
    req.netAmount.add req.cpuAmount >>= fun amount =>
    pay env { s with refunds := s.refunds.erase owner } stakeAccount owner amount "unstake"

/-! ## The powerup market -/

/-- `now + eosio::days(days)` as a `time_point_sec`; the microseconds are an `int64_t`. -/
def expiry (now days : UInt32) : UInt32 :=
  UInt32.ofNat ((toInt64 (now.toNat * 1000000 + toInt64 (days.toNat * 86400 * 1000000))).tdiv 1000000 % 2 ^ 32).toNat

def availablePrimaryKey : Nat := s.orders.entries.foldr (fun e n => max (e.1 + 1) n) 0

def earliest : Option (Sigma fun _ : Nat => PowerupOrder) :=
  s.orders.entries.argmin (fun e => e.2.expires.toNat * 2 ^ 64 + e.1)

/-- The loop of `process_powerup_queue`, with the weights that become available. -/
def expireOrders : Nat → Staking → Int → Int → Result (Staking × Int × Int)
  | 0, s, netDelta, cpuDelta => .ok (s, netDelta, cpuDelta)
  | n + 1, s, netDelta, cpuDelta =>
    match s.earliest with
    | none => .ok (s, netDelta, cpuDelta)
    | some e =>
      if env.now < e.2.expires then .ok (s, netDelta, cpuDelta)
      else
        s.adjustResources core env e.2.owner (toInt64 (-e.2.netWeight)) (toInt64 (-e.2.cpuWeight)) false >>= fun s =>
        expireOrders n { s with orders := s.orders.erase e.1 } (toInt64 (netDelta + e.2.netWeight))
          (toInt64 (cpuDelta + e.2.cpuWeight))

/-- The tables, the state in memory and the weights that become available. -/
structure Processed where
  tables : Staking
  state : PowerupState
  netDelta : Int
  cpuDelta : Int

def processPowerupQueue (state : PowerupState) (maxItems : Nat) : Result Processed :=
  expireOrders core env maxItems s 0 0 >>= fun r =>
  let net := ((state.net.updateUtilization pricing env.now).free r.2.1).updateWeight env.now r.2.1
  let cpu := ((state.cpu.updateUtilization pricing env.now).free r.2.2).updateWeight env.now r.2.2
  .ok ⟨r.1, { state with net := net.1, cpu := cpu.1 }, net.2, cpu.2⟩

def cfgpowerup (args : PowerupConfig) : Result (Staking × List MarketEvent) :=
  env.requireAuth systemAccountName >>= fun _ =>
  check (env.isAccount reserveAccount) "ra.reserv account must first be created" >>= fun _ =>
  let state := s.powerupState.getD {}
  let net := state.net.refresh pricing env.now s.powerupState.isSome
  let cpu := state.cpu.refresh pricing env.now s.powerupState.isSome
  let days := args.powerupDays.getD state.powerupDays
  orDefault args.minPowerupFee (state.minPowerupFee != defaultAsset) state.minPowerupFee
    "min_powerup_fee does not have a default value" >>= fun fee =>
  check (decide (0 < days)) "powerup_days must be > 0" >>= fun _ =>
  check (fee.symbol == core) "min_powerup_fee doesn't match core symbol" >>= fun _ =>
  check (decide (0 < fee.amount)) "min_powerup_fee must be positive" >>= fun _ =>
  net.1.configure core env.now args.net >>= fun netState =>
  cpu.1.configure core env.now args.cpu >>= fun cpuState =>
  let net := netState.updateWeight env.now net.2
  let cpu := cpuState.updateWeight env.now cpu.2
  check (decide (net.1.utilization ≤ net.1.weight)) "weight can't shrink below utilization" >>= fun _ =>
  check (decide (cpu.1.utilization ≤ cpu.1.weight)) "weight can't shrink below utilization" >>= fun _ =>
  s.adjustResources core env reserveAccount net.2 cpu.2 true >>= fun s =>
  .ok ({ s with powerupState := some ⟨net.1.capAdjusted, cpu.1.capAdjusted, days, fee⟩ }, [.configured])

def powerupexec (user : AccountName) (maxItems : UInt16) : Result Staking :=
  env.requireAuth user >>= fun _ =>
  match s.powerupState with
  | none => .error (.thrown .eosioAssertMessage "powerup hasn't been initialized")
  | some state =>
    s.processPowerupQueue pricing core env state maxItems.toNat >>= fun p =>
    p.tables.adjustResources core env reserveAccount p.netDelta p.cpuDelta true >>= fun s =>
    .ok { s with powerupState := some p.state }

/-- The order, the weights and the payment of a `powerup` that is accepted. -/
def placeOrder (p : Processed) (payer receiver : AccountName) (days : UInt32) (netAmount cpuAmount : Int) (fee : Asset) :
    Result Staking :=
  let order : PowerupOrder := ⟨receiver, netAmount, cpuAmount, expiry env.now days⟩
  adjustResources core env { p.tables with orders := p.tables.orders.insert p.tables.availablePrimaryKey order }
    receiver netAmount cpuAmount true >>= fun s =>
  s.adjustResources core env reserveAccount (toInt64 (p.netDelta - netAmount)) (toInt64 (p.cpuDelta - cpuAmount)) true >>= fun s =>
  s.pay env payer feesAccount fee (String.ofList ("transfer from ".toList ++ nameToString payer ++ " to ra.fees".toList))

def powerup (payer receiver : AccountName) (days : UInt32) (netFrac cpuFrac : Int) (maxPayment : Asset) :
    Result (Staking × List MarketEvent) :=
  env.requireAuth payer >>= fun _ =>
  match s.powerupState with
  | none => .error (.thrown .eosioAssertMessage "powerup hasn't been initialized")
  | some state =>
    check (maxPayment.symbol == core) "max_payment doesn't match core symbol" >>= fun _ =>
    check (days == state.powerupDays) "days doesn't match configuration" >>= fun _ =>
    check (decide (0 ≤ netFrac)) "net_frac can't be negative" >>= fun _ =>
    check (decide (0 ≤ cpuFrac)) "cpu_frac can't be negative" >>= fun _ =>
    check (decide (netFrac ≤ powerupFrac)) "net can't be more than 100%" >>= fun _ =>
    check (decide (cpuFrac ≤ powerupFrac)) "cpu can't be more than 100%" >>= fun _ =>
    s.processPowerupQueue pricing core env state 2 >>= fun p =>
    p.state.net.sell pricing netFrac >>= fun net =>
    p.state.cpu.sell pricing cpuFrac >>= fun cpu =>
    let fee : Asset := ⟨toInt64 (net.2.2 + cpu.2.2), core⟩
    check (decide (fee.amount ≤ maxPayment.amount)) ("max_payment is less than calculated fee: " ++ fee.toString) >>= fun _ =>
    check (fee.symbol == state.minPowerupFee.symbol) "comparison of assets with different symbols is not allowed" >>= fun _ =>
    check (decide (state.minPowerupFee.amount ≤ fee.amount))
      "calculated fee is below minimum; try powering up with more resources" >>= fun _ =>
    placeOrder core env p payer receiver days net.2.1 cpu.2.1 fee >>= fun s =>
    .ok ({ s with powerupState := some { p.state with net := net.1, cpu := cpu.1 } },
      [.sold .net p.state.net.utilization net.2.1, .sold .cpu p.state.cpu.utilization cpu.2.1])

inductive Action
  | delegatebw (from_ receiver : AccountName) (netQuantity cpuQuantity : Asset) (transfer : Bool)
  | undelegatebw (from_ receiver : AccountName) (netQuantity cpuQuantity : Asset)
  | refund (owner : AccountName)
  | cfgpowerup (args : PowerupConfig)
  | powerupexec (user : AccountName) (maxItems : UInt16)
  | powerup (payer receiver : AccountName) (days : UInt32) (netFrac cpuFrac : Int) (maxPayment : Asset)

def Action.actor : Action → AccountName
  | .delegatebw from_ _ _ _ _ => from_
  | .undelegatebw from_ _ _ _ => from_
  | .refund owner => owner
  | .cfgpowerup _ => systemAccountName
  | .powerupexec user _ => user
  | .powerup payer _ _ _ _ _ => payer

def apply : Action → Result (Staking × List MarketEvent)
  | .delegatebw from_ receiver net cpu transfer => (s.delegatebw core env from_ receiver net cpu transfer).map (·, [])
  | .undelegatebw from_ receiver net cpu => (s.undelegatebw core env from_ receiver net cpu).map (·, [])
  | .refund owner => (s.refund env owner).map (·, [])
  | .cfgpowerup args => s.cfgpowerup pricing core env args
  | .powerupexec user maxItems => (s.powerupexec pricing core env user maxItems).map (·, [])
  | .powerup payer receiver days net cpu maxPayment => s.powerup pricing core env payer receiver days net cpu maxPayment

def step (r : Staking × List MarketEvent) (a : StakeEnv × Action) : Staking × List MarketEvent :=
  match r.1.apply pricing core a.1 a.2 with
  | .ok r' => (r'.1, r.2 ++ r'.2)
  | .error _ => r

def run (actions : List (StakeEnv × Action)) : Staking × List MarketEvent :=
  actions.foldl (step pricing core) (s, [])

end Staking
end TheChannel

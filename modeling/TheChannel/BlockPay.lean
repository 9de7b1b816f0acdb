import TheChannel.NameBidding
/-!
# BlockPay — two contracts that pay from one account

`ra.bpay` hands what is sent to it to the producers with the most votes, who collect it with its `claimrewards`. The system
contract counts the unpaid blocks of each producer in `onblock`; its `claimrewards` fills the buckets with new tokens, which it
sends to `ra.bpay` too, and pays a producer its part of `perblock_bucket` from there. The actions an action sends are run in
their order after it. What is computed with doubles is given by the environment, as are the votes of the producers.
-/
namespace TheChannel

def payFactorPrecision : Int := 10000

/-- The factors of `eosio_global_state4`, as `setinflation` and `setpayfactor` let them pass. -/
structure PayFactors where
  inflationPayFactor : Int
  votepayFactor : Int
  inflation_le : payFactorPrecision ≤ inflationPayFactor
  votepay_le : payFactorPrecision ≤ votepayFactor

structure ProducerInfo where
  isActive : Bool
  unpaidBlocks : Nat
  lastClaimTime : Int
  deriving DecidableEq

/-- The tables `rewards` of `ra.bpay` and `producers` of the system contract, its buckets and the token. -/
structure BlockPay where
  token : Token
  rewards : RowMap AccountName Asset
  producers : RowMap AccountName ProducerInfo
  pervoteBucket : Int
  perblockBucket : Int
  totalUnpaidBlocks : Nat
  lastPervoteBucketFill : Int

/-- What an action finds. `additionalInflation` is the integer part of the new tokens for a supply and a time, and
`producerPerVotePay` the pay for votes from a bucket. Of `total_votes`, a double, only the order is used. -/
structure PayEnv extends ActionEnv where
  now : Int
  activated : Bool
  totalVotes : AccountName → Int
  lastProducerScheduleSize : Nat
  factors : PayFactors
  additionalInflation : Int → Int → Int
  producerPerVotePay : Int → Int

inductive PayInline
  | issue (quantity : Asset) (memo : String)
  | transfer (from_ to_ : AccountName) (quantity : Asset) (memo : String)
  deriving DecidableEq

/-- A `claimrewards` of the system contract: what it read, and the pay for blocks. -/
structure Payout where
  owner : AccountName
  bucket : Int
  unpaid : Nat
  total : Nat
  paid : Int
  deriving DecidableEq

namespace BlockPay
variable (core : Symbol) (env : PayEnv) (s : BlockPay)

/-! ## The contract `ra.bpay` -/

/-- The loop over the producers by votes. It stays at a producer that is not active: `continue` does not go on to the next. -/
def topProducers (count : Nat) : List (AccountName × ProducerInfo) → List AccountName → Option (List AccountName)
  | [], top => some top
  | (owner, info) :: rest, top =>
    if info.isActive then
      if (top ++ [owner]).length == count then some (top ++ [owner]) else topProducers count rest (top ++ [owner])
    else none

/-- `by_votes`, the key of the index: producers that are not active come after those that are, unless they have no votes. -/
def byVotes (e : AccountName × ProducerInfo) : Int := if e.2.isActive then -env.totalVotes e.1 else env.totalVotes e.1

/-- The index `prototalvote`; rows of one key stand in the order of their primary keys. -/
def producersByVotes : List (AccountName × ProducerInfo) :=
  (s.producers.entries.map fun e => (e.1, e.2)).insertionSort fun a b =>
    byVotes env a < byVotes env b ∨ byVotes env a = byVotes env b ∧ a.1 ≤ b.1

def addReward (reward : Asset) (rewards : RowMap AccountName Asset) (producer : AccountName) :
    Result (RowMap AccountName Asset) :=
  match rewards.lookup producer with
  | none => .ok (rewards.insert producer reward)
  | some quantity => (quantity.add reward).map (rewards.insert producer ·)

def distribute (reward : Asset) : List AccountName → RowMap AccountName Asset → Result (RowMap AccountName Asset)
  | [], rewards => .ok rewards
  | producer :: rest, rewards => addReward reward rewards producer >>= fun rewards => distribute reward rest rewards

def onTransfer (from_ to_ : AccountName) (quantity : Asset) : Result BlockPay :=
  if from_ = bpayAccount ∨ to_ ≠ bpayAccount then .ok s
  else if from_ = systemAccountName then .ok s
  else
    check (quantity.symbol == core) "only core token allowed" >>= fun _ =>
    match topProducers env.lastProducerScheduleSize (s.producersByVotes env) [] with
    | none => .error (.thrown .txCpuUsageExceeded "transaction ${id} was executing for too long ${billing_timer}us")
    | some top =>
      check (top.length != 0) "divide by zero" >>= fun _ =>
      distribute ⟨quantity.amount.tdiv top.length, quantity.symbol⟩ top s.rewards >>= fun rewards =>
      .ok { s with rewards := rewards }

def send (auth : ActionEnv) (from_ to_ : AccountName) (quantity : Asset) (memo : String) : Result BlockPay :=
  s.token.transfer auth from_ to_ quantity memo >>= fun token =>
  onTransfer core env { s with token := token } from_ to_ quantity

def authOf (account : AccountName) : ActionEnv := ⟨fun a => a == account, env.isAccount⟩

def runInline : List PayInline → BlockPay → Result BlockPay
  | [], s => .ok s
  | .issue quantity memo :: rest, s =>
    s.token.issue (authOf env systemAccountName) systemAccountName quantity memo >>= fun token =>
    runInline rest { s with token := token }
  | .transfer from_ to_ quantity memo :: rest, s =>
    s.send core env (authOf env from_) from_ to_ quantity memo >>= fun s => runInline rest s

/-- `claimrewards` of `ra.bpay`. -/
def collect (owner : AccountName) : Result BlockPay :=
  env.requireAuth owner >>= fun _ =>
  match s.rewards.lookup owner with
  | none => .error (.thrown .eosioAssertMessage "no rewards to claim")
  | some quantity =>
    runInline core env [.transfer bpayAccount owner quantity "producer block pay"] { s with rewards := s.rewards.erase owner }

/-! ## The system contract -/

/-- The part of `onblock` on unpaid blocks. -/
def onblock (producer : AccountName) : Result BlockPay :=
  env.requireAuth systemAccountName >>= fun _ =>
  if env.activated then
    let s := if s.lastPervoteBucketFill = 0 then { s with lastPervoteBucketFill := env.now } else s
    match s.producers.lookup producer with
    | none => .ok s
    | some prod => .ok { s with
        totalUnpaidBlocks := (s.totalUnpaidBlocks + 1) % 2 ^ 32
        producers := s.producers.insert producer { prod with unpaidBlocks := (prod.unpaidBlocks + 1) % 2 ^ 32 } }
  else .ok s

/-- The part of `register_producer` on the columns that are modelled. -/
def regproducer (producer : AccountName) : Result BlockPay :=
  env.requireAuth producer >>= fun _ =>
  match s.producers.lookup producer with
  | none => .ok { s with producers := s.producers.insert producer ⟨true, 0, env.now⟩ }
  | some prod =>
    let claimed := if prod.lastClaimTime = 0 then env.now else prod.lastClaimTime
    .ok { s with producers := s.producers.insert producer ⟨true, prod.unpaidBlocks, claimed⟩ }

def unregprod (producer : AccountName) : Result BlockPay :=
  env.requireAuth producer >>= fun _ =>
  match s.producers.lookup producer with
  | none => .error (.thrown .eosioAssertMessage "producer not found")
  | some prod => .ok { s with producers := s.producers.insert producer { prod with isActive := false } }

def sendIf (from_ to_ : AccountName) (amount : Int) (memo : String) : Result (List PayInline) :=
  if 0 < amount then (Asset.make amount core).map fun quantity => [.transfer from_ to_ quantity memo] else .ok []

def fundNew (st : CurrencyStats) (balance : Asset) (newTokens : Int) : Result (List PayInline) :=
  if toInt64 (st.supply.amount + newTokens) ≤ st.maxSupply.amount then
    (Asset.make newTokens core).map fun quantity => [.issue quantity "issue tokens for producer pay and savings"]
  else
    (check (decide (newTokens ≤ balance.amount)) "insufficient system token balance for claiming rewards").map fun _ => []

def toProducers (newTokens : Int) : Int :=
  toInt64 (newTokens * payFactorPrecision / env.factors.inflationPayFactor)

def toPerBlockPay (newTokens : Int) : Int :=
  toInt64 (toProducers env newTokens * payFactorPrecision / env.factors.votepayFactor)

def fundInline (st : CurrencyStats) (balance : Asset) (newTokens : Int) : Result (List PayInline) :=
  if 0 < newTokens then
    fundNew core st balance newTokens >>= fun issued =>
    sendIf core systemAccountName savingAccount (toInt64 (newTokens - toProducers env newTokens)) "unallocated bucket" >>= fun savings =>
    sendIf core systemAccountName bpayAccount (toPerBlockPay env newTokens) "fund per-block bucket" >>= fun perBlock =>
    sendIf core systemAccountName vpayAccount (toInt64 (toProducers env newTokens - toPerBlockPay env newTokens))
      "fund per-vote bucket" >>= fun perVote =>
    .ok (issued ++ savings ++ perBlock ++ perVote)
  else .ok []

def fillBuckets (st : CurrencyStats) (balance : Asset) : Result (BlockPay × List PayInline) :=
  let usecs := env.now - s.lastPervoteBucketFill
  if 0 < usecs ∧ 0 < s.lastPervoteBucketFill then
    let inflation := env.additionalInflation st.supply.amount usecs
    check (decide (inflation ≤ 2 ^ 63 - 1 - (2 ^ 10 - 1)))
      "overflow in calculating new tokens to be issued; inflation rate is too high" >>= fun _ =>
    let newTokens := max 0 inflation
    let perBlock := toPerBlockPay env newTokens
    let perVote := toInt64 (toProducers env newTokens - perBlock)
    fundInline core env st balance newTokens >>= fun sent =>
    .ok ({ s with
      pervoteBucket := toInt64 (s.pervoteBucket + perVote)
      perblockBucket := toInt64 (s.perblockBucket + perBlock)
      lastPervoteBucketFill := env.now }, sent)
  else .ok (s, [])

def producerPerBlockPay (prod : ProducerInfo) : Int :=
  if 0 < s.totalUnpaidBlocks then (toInt64 (s.perblockBucket * prod.unpaidBlocks)).tdiv s.totalUnpaidBlocks else 0

def settled (owner : AccountName) (prod : ProducerInfo) (perVote : Int) : BlockPay :=
  { s with
    pervoteBucket := toInt64 (s.pervoteBucket - perVote)
    perblockBucket := toInt64 (s.perblockBucket - s.producerPerBlockPay prod)
    totalUnpaidBlocks := (s.totalUnpaidBlocks + 2 ^ 32 - prod.unpaidBlocks) % 2 ^ 32
    producers := s.producers.insert owner { prod with lastClaimTime := env.now, unpaidBlocks := 0 } }

/-- `claimrewards` of a producer of the system contract, from its checks on. -/
def payProducer (owner : AccountName) (prod : ProducerInfo) (st : CurrencyStats) (balance : Asset) :
    Result (BlockPay × List Payout) :=
  s.fillBuckets core env st balance >>= fun filled =>
  let perBlock := filled.1.producerPerBlockPay prod
  let perVote := env.producerPerVotePay filled.1.pervoteBucket
  sendIf core bpayAccount owner perBlock "producer block pay" >>= fun blockSent =>
  sendIf core vpayAccount owner perVote "producer vote pay" >>= fun voteSent =>
  runInline core env (filled.2 ++ blockSent ++ voteSent) (filled.1.settled env owner prod perVote) >>= fun s =>
  .ok (s, [⟨owner, filled.1.perblockBucket, prod.unpaidBlocks, filled.1.totalUnpaidBlocks, perBlock⟩])

def claimrewards (owner : AccountName) : Result (BlockPay × List Payout) :=
  env.requireAuth owner >>= fun _ =>
  match s.producers.lookup owner with
  | none => .error (.thrown .eosioAssertMessage "producer not registered")
  | some prod =>
    check prod.isActive "producer does not have an active key" >>= fun _ =>
    check env.activated
      "cannot claim rewards until the chain is activated (at least 15% of all tokens participate in voting)" >>= fun _ =>
    check (decide (usecondsPerDay < env.now - prod.lastClaimTime)) "already claimed rewards within past day" >>= fun _ =>
    s.token.getStat core.code "invalid supply symbol code" >>= fun st =>
    match s.token.accounts.lookup (systemAccountName, core.code) with
    | none => .error (.thrown .eosioAssertMessage "no balance with specified symbol")
    | some balance => s.payProducer core env owner prod st balance

/-! ## Runs -/

inductive PayAction
  | transfer (from_ to_ : AccountName) (quantity : Asset) (memo : String)
  | collect (owner : AccountName)
  | onblock (producer : AccountName)
  | regproducer (producer : AccountName)
  | unregprod (producer : AccountName)
  | claimrewards (owner : AccountName)

/-- Is it an action of another account than `ra.bpay`, if it moves tokens? -/
def PayAction.foreign : PayAction → Bool
  | .transfer from_ _ _ _ => from_ != bpayAccount
  | _ => true

def PayAction.blocks : PayAction → Nat
  | .onblock _ => 1
  | _ => 0

def apply : PayAction → Result (BlockPay × List Payout)
  | .transfer from_ to_ quantity memo => (s.send core env env.toActionEnv from_ to_ quantity memo).map (·, [])
  | .collect owner => (s.collect core env owner).map (·, [])
  | .onblock producer => (s.onblock env producer).map (·, [])
  | .regproducer producer => (s.regproducer env producer).map (·, [])
  | .unregprod producer => (s.unregprod env producer).map (·, [])
  | .claimrewards owner => s.claimrewards core env owner

/-- `perblock_bucket` as `fill_buckets` leaves it, from the state before and the supply. -/
def filledBucket (supply : Int) : Int :=
  let usecs := env.now - s.lastPervoteBucketFill
  if 0 < usecs ∧ 0 < s.lastPervoteBucketFill then
    s.perblockBucket + toPerBlockPay env (max 0 (env.additionalInflation supply usecs))
  else s.perblockBucket

/-- Does the product of a pay fit into an `int64_t`? -/
def payFits : PayAction → Bool
  | .claimrewards owner => (s.producers.lookup owner).all fun prod => (s.token.stat.lookup core.code).all fun st =>
      decide (s.filledBucket env st.supply.amount * prod.unpaidBlocks < 2 ^ 63)
  | _ => true

/-- Every action that is accepted finds a state in which its pay fits. -/
def paysFit : List (PayEnv × PayAction) → BlockPay → Bool
  | [], _ => true
  | a :: actions, s =>
    match s.apply core a.1 a.2 with
    | .ok r => s.payFits core a.1 a.2 && paysFit actions r.1
    | .error _ => paysFit actions s

def run : List (PayEnv × PayAction) → BlockPay → BlockPay × List Payout
  | [], s => (s, [])
  | a :: actions, s =>
    match s.apply core a.1 a.2 with
    | .ok r => ((run actions r.1).1, r.2 ++ (run actions r.1).2)
    | .error _ => run actions s

end BlockPay
end TheChannel

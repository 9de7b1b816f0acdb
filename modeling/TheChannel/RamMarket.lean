import TheChannel.RaTokenLedger
/-!
# RamMarket — buying and selling RAM

The actions of the system contract on RAM. `buyram` sells at a fixed price and keeps the cost of what each account bought
(`usersram`); `buyramsys` and `sellramsys` convert between the reserves `base` and `quote` of the market, the second of which
is virtual. Both take bytes from `base` and keep their tokens in `ra.ram`, whose sum is `total_ram_stake`.

The quotient of the conversion is a parameter: the source computes it in floating point. The events of a step are what the
conversions took in and paid out and the cost of burned bytes. Logging, notifications and what the chain does with a quota
are left out; so are the other columns of `user_resources`.
-/
namespace TheChannel

def ramSymbol : Symbol := ⟨5062994, 0⟩

def ramFeePrecision : Int := 10000
def ramCapBaseBytes : Int := 4 * 1024 * 1024
def ramCapPerYearBytes : Int := 2 * 1024 * 1024
def ramCapMaxBytes : Nat := 22 * 1024 * 1024
def ramCapYearSec : Int := 365 * (24 * 3600)
def int64Max : Int := 2 ^ 63 - 1

def asInt64 (n : Int) : Int := Int.bmod n (2 ^ 64)

structure RamConfig where
  ramPricePerByte : Asset
  maxPerUserBytes : Nat
  ramFeePercent : Nat
  deriving DecidableEq

structure UserResourcesRam where
  ramBytes : Int
  quantity : Asset
  ramlimit : Int
  created : Int
  deriving DecidableEq

structure RamMarket where
  base : Asset
  quote : Asset
  maxRamSize : Nat
  totalRamBytesReserved : Nat
  totalRamStake : Int
  newRamPerBlock : UInt16
  lastRamIncrease : UInt32
  ramConfig : RamConfig
  userResources : RowMap AccountName Int
  usersram : RowMap AccountName UserResourcesRam
  token : Token

/-- What an action finds, with the block time as a slot and the time in seconds. -/
structure RamEnv extends ActionEnv where
  slot : UInt32
  nowSec : Int

inductive RamEvent
  | boughtSys (amount : Int)
  | soldSys (amount : Int)
  | burned (cost : Int)
  deriving DecidableEq

abbrev Quotient := Int → Int → Int → Int

def exactQuotient : Quotient := fun inpReserve outReserve inp => inp * outReserve / (inpReserve + inp)

def bancorOutput (quotient : Quotient) (inpReserve outReserve inp : Int) : Int := max (quotient inpReserve outReserve inp) 0

namespace RamMarket
variable (quotient : Quotient) (core : Symbol) (env : RamEnv) (s : RamMarket)

def afterInit (systemTokenSupply : Int) (token : Token) : RamMarket where
  base := ⟨64 * 1024 * 1024 * 1024, ramSymbol⟩
  quote := ⟨systemTokenSupply.tdiv 1000, core⟩
  maxRamSize := 64 * 1024 * 1024 * 1024
  totalRamBytesReserved := 0
  totalRamStake := 0
  newRamPerBlock := 0
  lastRamIncrease := 0
  ramConfig := ⟨⟨20, core⟩, ramCapMaxBytes, 1000⟩
  userResources := ∅
  usersram := ∅
  token := token

def config : RamConfig where
  ramPricePerByte :=
    if s.ramConfig.ramPricePerByte.amount ≤ 0 then ⟨20, core⟩ else ⟨s.ramConfig.ramPricePerByte.amount, core⟩
  maxPerUserBytes := if s.ramConfig.maxPerUserBytes = 0 then ramCapMaxBytes else s.ramConfig.maxPerUserBytes
  ramFeePercent := s.ramConfig.ramFeePercent

def ensureUsersram (nowSec : Int) (owner : AccountName) : UserResourcesRam :=
  (s.usersram.lookup owner).getD ⟨0, ⟨0, core⟩, 0, nowSec⟩

def purchasedRamCap (nowSec : Int) (owner : AccountName) : Result Int :=
  let ceiling := asInt64 (s.config core).maxPerUserBytes
  let years : Int := match s.usersram.lookup owner with
    | none => 0
    | some row => if 0 < row.created ∧ row.created < nowSec then (nowSec - row.created).tdiv ramCapYearSec else 0
  let extra : Int := match s.usersram.lookup owner with
    | none => 0
    | some row => row.ramlimit
  let cap := min (ramCapBaseBytes + ramCapPerYearBytes * years) ceiling + extra
  check (decide (cap ≤ int64Max)) "ram cap overflow" >>= fun _ =>
  .ok cap

def assertUnderRamCap (nowSec : Int) (owner : AccountName) (additionalBytes : Int) : Result Unit :=
  let current : Int := match s.usersram.lookup owner with
    | none => 0
    | some row => row.ramBytes
  check (decide (additionalBytes ≤ int64Max - current)) "ram bytes overflow" >>= fun _ =>
  s.purchasedRamCap core nowSec owner >>= fun cap =>
  check (decide (current + additionalBytes ≤ cap)) "purchased ram exceeds the per-account cap"

def creditPurchasedRam (nowSec : Int) (owner : AccountName) (bytes : Int) (cost : Asset) : Result RamMarket :=
  let row := s.ensureUsersram core nowSec owner
  row.quantity.add cost >>= fun quantity =>
  .ok { s with usersram := s.usersram.insert owner ⟨row.ramBytes + bytes, quantity, row.ramlimit, row.created⟩ }

def debitPurchasedRam (owner : AccountName) (bytes : Int) : Result (RamMarket × Asset) :=
  match s.usersram.lookup owner with
  | none => .error (.thrown .eosioAssertMessage "no purchased ram to sell")
  | some row =>
    check (decide (bytes ≤ row.ramBytes)) "insufficient purchased ram" >>= fun _ =>
    check (decide ((row.quantity.amount * bytes).tdiv row.ramBytes ≤ int64Max)) "ram cost overflow" >>= fun _ =>
    Asset.make ((row.quantity.amount * bytes).tdiv row.ramBytes) row.quantity.symbol >>= fun refund =>
    row.quantity.sub refund >>= fun quantity =>
    .ok ({ s with usersram := s.usersram.insert owner ⟨row.ramBytes - bytes, quantity, row.ramlimit, row.created⟩ }, refund)

def reduceRam (owner : AccountName) (bytes : Int) : Result RamMarket :=
  check (decide (0 < bytes)) "cannot reduce negative byte" >>= fun _ =>
  match s.userResources.lookup owner with
  | none => .error (.thrown .eosioAssertMessage "no resource row")
  | some ramBytes =>
    check (decide (bytes ≤ ramBytes)) "insufficient quota" >>= fun _ =>
    .ok { s with userResources := s.userResources.insert owner (ramBytes - bytes) }

def addRam (isAccount : AccountName → Bool) (owner : AccountName) (bytes : Int) : Result RamMarket :=
  check (decide (0 < bytes)) "cannot add negative byte" >>= fun _ =>
  check (isAccount owner) "account does not exist" >>= fun _ =>
  .ok { s with userResources := s.userResources.insert owner ((s.userResources.lookup owner).getD 0 + bytes) }

/-- Bytes of the reserve are given out, `uint64_t` arithmetic on the sum. -/
def reserve (bytes : Int) : RamMarket :=
  { s with totalRamBytesReserved := (s.totalRamBytesReserved + bytes.toNat) % 2 ^ 64 }

def release (bytes : Int) : RamMarket :=
  { s with totalRamBytesReserved := (s.totalRamBytesReserved + 2 ^ 64 - bytes.toNat % 2 ^ 64) % 2 ^ 64 }

def addBase (bytes : Int) : RamMarket := { s with base := ⟨s.base.amount + bytes, s.base.symbol⟩ }

def addStake (amount : Int) : RamMarket := { s with totalRamStake := s.totalRamStake + amount }

def pay (isAccount : AccountName → Bool) (from_ to_ : AccountName) (quantity : Asset) (memo : String) : Result RamMarket :=
  s.token.inlineTransfer isAccount from_ to_ quantity memo >>= fun token =>
  .ok { s with token := token }

/-- The transfers of a fee: to `ra.ramfee` and on to the fee account. -/
def payFee (isAccount : AccountName → Bool) (from_ : AccountName) (fee : Asset) (memo : String) : Result RamMarket :=
  if 0 < fee.amount then
    s.pay isAccount from_ ramfeeAccount fee memo >>= fun s =>
    s.pay isAccount ramfeeAccount feesAccount fee "transfer from ra.ramfee to ra.fees"
  else .ok s

def updateRamSupply (slot : UInt32) : RamMarket :=
  if slot ≤ s.lastRamIncrease then s
  else
    let newRam : Nat := (slot.toNat - s.lastRamIncrease.toNat) * s.newRamPerBlock.toNat % 2 ^ 32
    { s with
      maxRamSize := (s.maxRamSize + newRam) % 2 ^ 64
      base := ⟨s.base.amount + newRam, s.base.symbol⟩
      lastRamIncrease := slot }

def setram (maxRamSize : Nat) : Result RamMarket :=
  env.requireAuth systemAccountName >>= fun _ =>
  check (decide (s.maxRamSize < maxRamSize)) "ram may only be increased" >>= fun _ =>
  check (decide (maxRamSize < 1024 * 1024 * 1024 * 1024 * 1024)) "ram size is unrealistic" >>= fun _ =>
  check (decide (s.totalRamBytesReserved < maxRamSize)) "attempt to set max below reserved" >>= fun _ =>
  .ok { s with maxRamSize := maxRamSize, base := ⟨s.base.amount + (maxRamSize - s.maxRamSize), s.base.symbol⟩ }

def setramrate (bytesPerBlock : UInt16) : Result RamMarket :=
  env.requireAuth systemAccountName >>= fun _ =>
  .ok { s.updateRamSupply env.slot with newRamPerBlock := bytesPerBlock }

def setramoption (ramPricePerByte : Option Asset) (maxPerUserBytes ramFeePercent : Option Nat) : Result RamMarket :=
  env.requireAuth systemAccountName >>= fun _ =>
  check (ramPricePerByte.all (fun price => price.symbol == core)) "ram price must be core token" >>= fun _ =>
  check (ramPricePerByte.all (fun price => decide (0 < price.amount))) "ram price must be positive" >>= fun _ =>
  check (maxPerUserBytes.all (fun n => decide (ramCapBaseBytes ≤ (n : Int)))) "max per user bytes must be at least 4 MiB" >>= fun _ =>
  check (ramFeePercent.all (fun n => decide ((n : Int) < ramFeePrecision))) "ram fee percent must be less than 10000" >>= fun _ =>
  .ok { s with ramConfig :=
    ⟨ramPricePerByte.getD (s.config core).ramPricePerByte, maxPerUserBytes.getD (s.config core).maxPerUserBytes,
      ramFeePercent.getD (s.config core).ramFeePercent⟩ }

def ramlimitset (account : AccountName) (ramlimit : Int) : Result RamMarket :=
  env.requireAuth systemAccountName >>= fun _ =>
  check (env.isAccount account) "account does not exist" >>= fun _ =>
  check (decide (0 ≤ ramlimit)) "ram limit must be non-negative" >>= fun _ =>
  .ok { s with usersram := s.usersram.insert account { s.ensureUsersram core env.nowSec account with ramlimit := ramlimit } }

def newaccount (newAccountName : AccountName) : Result RamMarket :=
  check (s.userResources.lookup newAccountName).isNone "user_resources row exists" >>= fun _ =>
  check (s.usersram.lookup newAccountName).isNone "usersram row exists" >>= fun _ =>
  .ok { s with
    userResources := s.userResources.insert newAccountName 0
    usersram := s.usersram.insert newAccountName ⟨0, ⟨0, core⟩, 0, env.nowSec⟩ }

def ramFee (amount : Int) : Int :=
  (amount * (s.config core).ramFeePercent + ramFeePrecision - 1).tdiv ramFeePrecision

def buyram (payer receiver : AccountName) (quant : Asset) : Result RamMarket :=
  env.requireAuth payer >>= fun _ =>
  let s := s.updateRamSupply env.slot
  check (quant.symbol == core) "must buy ram with core token" >>= fun _ =>
  check (decide (0 < quant.amount)) "must purchase a positive amount" >>= fun _ =>
  check (decide (0 < (s.config core).ramPricePerByte.amount)) "ram price must be positive" >>= fun _ =>
  check (decide (((s.config core).ramFeePercent : Int) < ramFeePrecision)) "invalid ram fee percent" >>= fun _ =>
  let fee := s.ramFee core quant.amount
  check (decide (fee < quant.amount)) "ram fee consumes the entire payment" >>= fun _ =>
  let quantAfterFee : Asset := ⟨quant.amount - fee, quant.symbol⟩
  let bytesOut := quantAfterFee.amount.tdiv (s.config core).ramPricePerByte.amount
  check (decide (0 < bytesOut)) "must reserve a positive amount" >>= fun _ =>
  check (decide (bytesOut ≤ s.base.amount)) "insufficient available ram" >>= fun _ =>
  s.assertUnderRamCap core env.nowSec receiver bytesOut >>= fun _ =>
  (((s.addBase (-bytesOut)).reserve bytesOut).addStake quantAfterFee.amount).creditPurchasedRam core env.nowSec receiver
    bytesOut quantAfterFee >>= fun s =>
  s.addRam env.isAccount receiver bytesOut >>= fun s =>
  s.pay env.isAccount payer ramAccount quantAfterFee "buy ram" >>= fun s =>
  s.payFee env.isAccount payer ⟨fee, quant.symbol⟩ "ram fee"

def sellram (account : AccountName) (bytes : Int) : Result RamMarket :=
  env.requireAuth account >>= fun _ =>
  check (decide (0 < bytes)) "must sell a positive amount" >>= fun _ =>
  (s.updateRamSupply env.slot).debitPurchasedRam account bytes >>= fun r =>
  check (decide (0 < r.2.amount)) "token amount received from selling ram is too low" >>= fun _ =>
  r.1.reduceRam account bytes >>= fun s =>
  check (decide (0 ≤ s.totalRamStake - r.2.amount)) "error, attempt to unstake more tokens than previously staked" >>= fun _ =>
  (((s.addBase bytes).release bytes).addStake (-r.2.amount)).pay env.isAccount ramAccount account r.2 "sell ram"

def convertToRam (payment : Asset) : Result (RamMarket × Int) :=
  let out := bancorOutput quotient s.quote.amount s.base.amount payment.amount
  s.quote.add payment >>= fun quote =>
  s.base.sub ⟨out, s.base.symbol⟩ >>= fun base =>
  .ok ({ s with quote := quote, base := base }, out)

def convertToCore (bytes : Asset) : Result (RamMarket × Asset) :=
  let out : Asset := ⟨bancorOutput quotient s.base.amount s.quote.amount bytes.amount, core⟩
  s.base.add bytes >>= fun base =>
  s.quote.sub out >>= fun quote =>
  .ok ({ s with base := base, quote := quote }, out)

def buyramsys (payer receiver : AccountName) (quant : Asset) : Result (RamMarket × List RamEvent) :=
  env.requireAuth systemAccountName >>= fun _ =>
  eosAssert (payer == systemAccountName || env.hasAuth payer) .missingAuth "missing authority of ${account}" >>= fun _ =>
  let s := s.updateRamSupply env.slot
  check (quant.symbol == core) "must buy ram with core token" >>= fun _ =>
  check (decide (0 < quant.amount)) "must purchase a positive amount" >>= fun _ =>
  let fee := (quant.amount + 199).tdiv 200
  let quantAfterFee : Asset := ⟨quant.amount - fee, quant.symbol⟩
  check (decide (0 < quantAfterFee.amount)) "ram fee consumes the entire payment" >>= fun _ =>
  s.convertToRam quotient quantAfterFee >>= fun r =>
  check (decide (0 < r.2)) "must reserve a positive amount" >>= fun _ =>
  ((r.1.reserve r.2).addStake quantAfterFee.amount).addRam env.isAccount receiver r.2 >>= fun s =>
  s.pay env.isAccount payer ramAccount quantAfterFee "buy ram sys" >>= fun s =>
  s.payFee env.isAccount payer ⟨fee, quant.symbol⟩ "ram fee" >>= fun s =>
  .ok (s, [.boughtSys quantAfterFee.amount])

def sellramsys (account : AccountName) (bytes : Int) : Result (RamMarket × List RamEvent) :=
  env.requireAuth systemAccountName >>= fun _ =>
  let s := s.updateRamSupply env.slot
  check (decide (0 < bytes)) "must sell a positive amount" >>= fun _ =>
  check (s.userResources.lookup account).isSome "no resource row" >>= fun _ =>
  check (decide (((s.usersram.lookup account).map (·.ramBytes)).getD 0 ≤ (s.userResources.lookup account).getD 0 - bytes))
    "cannot sell fixed-price ram via sellramsys" >>= fun _ =>
  s.reduceRam account bytes >>= fun s =>
  Asset.make bytes ramSymbol >>= fun asset =>
  s.convertToCore quotient core asset >>= fun r =>
  check (decide (1 < r.2.amount)) "token amount received from selling ram is too low" >>= fun _ =>
  check (decide (0 ≤ r.1.totalRamStake - r.2.amount)) "error, attempt to unstake more tokens than previously staked" >>= fun _ =>
  let fee := (r.2.amount + 199).tdiv 200
  ((r.1.release bytes).addStake (-r.2.amount)).pay env.isAccount ramAccount account ⟨r.2.amount - fee, core⟩
    "sell ram sys" >>= fun s =>
  s.payFee env.isAccount ramAccount ⟨fee, core⟩ "sell ram fee" >>= fun s =>
  .ok (s, [.soldSys r.2.amount])

def ramtransfer (from_ to_ : AccountName) (bytes : Int) (memo : String) : Result (RamMarket × List RamEvent) :=
  env.requireAuth from_ >>= fun _ =>
  let s := s.updateRamSupply env.slot
  check (decide (memo.utf8ByteSize ≤ 256)) "memo has more than 256 bytes" >>= fun _ =>
  check (decide (0 < bytes)) "must transfer a positive amount" >>= fun _ =>
  if to_ = nullAccountName then
    s.debitPurchasedRam from_ bytes >>= fun r =>
    r.1.reduceRam from_ bytes >>= fun s =>
    .ok ((s.addBase bytes).release bytes, [.burned r.2.amount])
  else
    s.assertUnderRamCap core env.nowSec to_ bytes >>= fun _ =>
    s.debitPurchasedRam from_ bytes >>= fun r =>
    r.1.creditPurchasedRam core env.nowSec to_ bytes r.2 >>= fun s =>
    s.reduceRam from_ bytes >>= fun s =>
    s.addRam env.isAccount to_ bytes >>= fun s =>
    .ok (s, [])

def ramburn (owner : AccountName) (bytes : Int) (memo : String) : Result (RamMarket × List RamEvent) :=
  env.requireAuth owner >>= fun _ =>
  s.ramtransfer core env owner nullAccountName bytes memo

inductive Action
  | newaccount (newAccountName : AccountName)
  | setram (maxRamSize : Nat)
  | setramrate (bytesPerBlock : UInt16)
  | updateRamSupply
  | setramoption (ramPricePerByte : Option Asset) (maxPerUserBytes ramFeePercent : Option Nat)
  | ramlimitset (account : AccountName) (ramlimit : Int)
  | buyram (payer receiver : AccountName) (quant : Asset)
  | sellram (account : AccountName) (bytes : Int)
  | buyramsys (payer receiver : AccountName) (quant : Asset)
  | sellramsys (account : AccountName) (bytes : Int)
  | ramtransfer (from_ to_ : AccountName) (bytes : Int) (memo : String)
  | ramburn (owner : AccountName) (bytes : Int) (memo : String)

def apply : Action → Result (RamMarket × List RamEvent)
  | .newaccount name => (s.newaccount core env name).map (·, [])
  | .setram maxRamSize => (s.setram env maxRamSize).map (·, [])
  | .setramrate bytesPerBlock => (s.setramrate env bytesPerBlock).map (·, [])
  | .updateRamSupply => .ok (s.updateRamSupply env.slot, [])
  | .setramoption price cap fee => (s.setramoption core env price cap fee).map (·, [])
  | .ramlimitset account ramlimit => (s.ramlimitset core env account ramlimit).map (·, [])
  | .buyram payer receiver quant => (s.buyram core env payer receiver quant).map (·, [])
  | .sellram account bytes => (s.sellram env account bytes).map (·, [])
  | .buyramsys payer receiver quant => s.buyramsys quotient core env payer receiver quant
  | .sellramsys account bytes => s.sellramsys quotient core env account bytes
  | .ramtransfer from_ to_ bytes memo => s.ramtransfer core env from_ to_ bytes memo
  | .ramburn owner bytes memo => s.ramburn core env owner bytes memo

def step (quotient : Quotient) (core : Symbol) (r : RamMarket × List RamEvent) (a : RamEnv × Action) :
    RamMarket × List RamEvent :=
  match r.1.apply quotient core a.1 a.2 with
  | .ok r' => (r'.1, r.2 ++ r'.2)
  | .error _ => r

def run (supply : Int) (token : Token) (actions : List (RamEnv × Action)) : RamMarket × List RamEvent :=
  actions.foldl (step quotient core) (afterInit core supply token, [])

end RamMarket
end TheChannel

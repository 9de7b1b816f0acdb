import TheChannel.RaTokenLedger
/-!
# FlexToken — a token with transfer fees

`flex.token`: the tables of a token (`RaToken`: the rows of `accounts`, `sub_balance`, `add_balance`, `open` and `close` are the
same), where a transfer takes fees for a reflection, a burn and a project pool. The pools of a `stat` row are in a table of their
own here. `flexers` repeats each balance for `reflect`, which hands part of the reflection pool to the holders by inline
transfers of the contract's own tokens, burns the burn pool and pays the project pool.

Arithmetic on doubles and the texts of memos are parameters (`FlexHost`). The actions on vaults are left out: they write the
vaults only, and what they send to this contract are transfers.
-/
namespace TheChannel

structure FlexPools where
  reflection : Asset
  burn : Asset
  project : Asset
  deriving DecidableEq

structure Flexer where
  balance : Asset
  isBanned : Bool
  flextoken : Nat
  tree : AccountName
  treeRate : Nat
  customMemo : String
  deriving DecidableEq

structure FlexSettings where
  tokenSymbol : Symbol
  startKey : Nat
  limit : Nat
  reflectionRate : Nat
  burnRate : Nat
  projectRate : Nat
  projectAccount : AccountName
  deriving DecidableEq

structure SwapPool where
  tokenSymbol : Symbol
  tokenContract : AccountName
  poolIds : String
  deriving DecidableEq

structure FlexToken where
  token : Token
  pools : RowMap Nat FlexPools
  settings : Option FlexSettings
  flexers : RowMap AccountName Flexer
  flexpools : RowMap Nat SwapPool
  swap : Option AccountName
  exempts : RowMap AccountName Unit

/-- Arithmetic on doubles and texts: the two minima of `reflect` by precision and amount, a holder's share by pool, balance and
adjusted supply, `format_memo`, and the memo of a swap. -/
structure FlexHost where
  holderMinimum : Nat → Int → Bool
  poolMinimum : Nat → Int → Bool
  share : Int → Int → Int → Int
  formatMemo : String → AccountName → Asset → String
  swapMemo : SwapPool → AccountName → String
  projectMemo : Nat → String

/-- `share` is a `double` computation, `pool * (balance / supply) * (0.618 / 8)` cut to an integer: at most a twelfth of the exact
quotient, with room for the rounding. -/
def FlexHost.TwelfthAtMost (host : FlexHost) : Prop :=
  ∀ pool balance supply : Int, 0 ≤ pool → 0 < supply → 12 * supply * host.share pool balance supply ≤ pool * max balance 0

@[irreducible] def alcorAccount : AccountName := stringToName ['s', 'w', 'a', 'p', '.', 'a', 'l', 'c', 'o', 'r']

inductive FlexAction
  | forge (issuer : AccountName) (maximumSupply : Asset)
  | mint (to_ : AccountName) (quantity : Asset) (memo : String)
  | smelt (username : AccountName) (quantity : Asset) (memo : String)
  | transfer (from_ to_ : AccountName) (quantity : Asset) (memo : String)
  | openRow (owner : AccountName) (symbol : Symbol) (ramPayer : AccountName)
  | closeRow (owner : AccountName) (symbol : Symbol)
  | reflect
  | setconfig (settings : FlexSettings)
  | renounce (account : AccountName) (banStatus : Bool)
  | addpool (id : Nat) (pool : SwapPool)
  | interestoken (owner : AccountName) (tokenSymbol : String)
  | inheritance (flexer tree : AccountName) (rate : Nat)
  | inheritmemo (flexer : AccountName) (customMemo : String)
  | setswap (swap : AccountName)
  | setexempt (account : AccountName) (on : Bool)

structure Fees where
  reflection : Asset
  burn : Asset
  project : Asset
  deriving DecidableEq

/-- A fee, `(amount * rate) / 10000` in `int64_t`. -/
def feeOf (amount : Int) (rate : Nat) (symbol : Symbol) : Result Asset :=
  Asset.make ((toInt64 (amount * rate)).tdiv 10000) symbol

def FlexSettings.fees (conf : FlexSettings) (quantity : Asset) : Result Fees :=
  feeOf quantity.amount conf.reflectionRate quantity.symbol >>= fun reflection =>
  feeOf quantity.amount conf.burnRate quantity.symbol >>= fun burn =>
  feeOf quantity.amount conf.projectRate quantity.symbol >>= fun project =>
  .ok ⟨reflection, burn, project⟩

def Fees.sum (fees : Fees) : Int := fees.reflection.amount + fees.burn.amount + fees.project.amount

namespace FlexToken
variable (self : AccountName) (host : FlexHost) (env : ActionEnv) (s : FlexToken)

def init : FlexToken := ⟨.init, ∅, none, ∅, ∅, none, ∅⟩

def setToken (token : Token) : FlexToken := { s with token := token }

def poolsOf (code : Nat) : FlexPools := (s.pools.lookup code).getD ⟨⟨0, ⟨code, 0⟩⟩, ⟨0, ⟨code, 0⟩⟩, ⟨0, ⟨code, 0⟩⟩⟩

def getSettings (msg : String) : Result FlexSettings :=
  match s.settings with
  | some conf => .ok conf
  | none => .error (.thrown .eosioAssertMessage msg)

def forge (issuer : AccountName) (maximumSupply : Asset) : Result FlexToken :=
  env.requireAuth self >>= fun _ =>
  check maximumSupply.symbol.isValid "🜚 invalid symbol name" >>= fun _ =>
  check maximumSupply.isValid "🜚 invalid supply" >>= fun _ =>
  check (s.token.stat.lookup maximumSupply.symbol.code).isNone "🜚 token with symbol already exists" >>= fun _ =>
  let zero : Asset := ⟨0, maximumSupply.symbol⟩
  .ok { s with
    token := { s.token with stat := s.token.stat.insert maximumSupply.symbol.code ⟨zero, maximumSupply, issuer⟩ }
    pools := s.pools.insert maximumSupply.symbol.code ⟨zero, zero, zero⟩
    settings := some ⟨maximumSupply.symbol, 0, 100, 100, 0, 100, self⟩ }

def syncedFlexer (owner : AccountName) (actual : Asset) : Option Flexer → Flexer
  | none => ⟨actual, false, 0, owner, 10000, ""⟩
  | some f =>
    let tree := if f.tree = 0 then owner else f.tree
    { f with
      balance := actual
      tree := tree
      treeRate := if f.treeRate = 0 ∧ tree = 0 then 10000 else f.treeRate }

def updateFlexBalance (owner : AccountName) (symbol : Symbol) : Result FlexToken :=
  Asset.make 0 symbol >>= fun zero =>
  let actual := (s.token.accounts.lookup (owner, symbol.code)).getD zero
  .ok { s with flexers := s.flexers.insert owner (syncedFlexer owner actual (s.flexers.lookup owner)) }

def mint (to_ : AccountName) (quantity : Asset) (memo : String) : Result FlexToken :=
  check quantity.symbol.isValid "🜚 invalid symbol name" >>= fun _ =>
  check (decide (memo.utf8ByteSize ≤ 256)) "✍️ memo has more than 256 bytes" >>= fun _ =>
  s.token.getStat quantity.symbol.code "🜚 token with symbol does not exist, create token before issue" >>= fun st =>
  check (to_ == st.issuer) "🜚 tokens can only be issued to issuer account" >>= fun _ =>
  env.requireAuth st.issuer >>= fun _ =>
  check quantity.isValid "🜚 invalid quantity" >>= fun _ =>
  check (decide (0 < quantity.amount)) "🜚 must issue positive quantity" >>= fun _ =>
  check (quantity.symbol == st.supply.symbol) "🜚 symbol precision mismatch" >>= fun _ =>
  check (decide (quantity.amount ≤ st.maxSupply.amount - st.supply.amount))
    "🜚 quantity exceeds current available supply" >>= fun _ =>
  st.supply.add quantity >>= fun supply =>
  Token.addBalance { s.token with stat := s.token.stat.insert quantity.symbol.code { st with supply := supply } }
    st.issuer quantity >>= fun token =>
  (s.setToken token).updateFlexBalance st.issuer quantity.symbol

def smelt (username : AccountName) (quantity : Asset) (memo : String) : Result FlexToken :=
  check quantity.symbol.isValid "🜚 invalid symbol name" >>= fun _ =>
  check (decide (memo.utf8ByteSize ≤ 256)) "memo has more than 256 bytes" >>= fun _ =>
  s.token.getStat quantity.symbol.code "token with symbol does not exist" >>= fun st =>
  env.requireAuth username >>= fun _ =>
  check quantity.isValid "invalid quantity" >>= fun _ =>
  check (decide (0 < quantity.amount)) "must burn positive quantity" >>= fun _ =>
  check (quantity.symbol == st.supply.symbol) "symbol precision mismatch" >>= fun _ =>
  st.supply.sub quantity >>= fun supply =>
  Token.subBalance { s.token with stat := s.token.stat.insert quantity.symbol.code { st with supply := supply } }
    username quantity >>= fun token =>
  (s.setToken token).updateFlexBalance username quantity.symbol >>= fun s =>
  -- a row that became empty is closed
  if s.token.balance username quantity.symbol.code = 0 then
    .ok (s.setToken { s.token with accounts := s.token.accounts.erase (username, quantity.symbol.code) })
  else .ok s

def swapAccount : AccountName :=
  match s.swap with
  | none => alcorAccount
  | some swap => if swap = 0 then alcorAccount else swap

def feeExempt (account : AccountName) : Bool := account == s.swapAccount || (s.exempts.lookup account).isSome

def charged (from_ : AccountName) : Bool :=
  from_ != self && !(s.flexers.lookup from_).any (·.isBanned)

def totalDeduction (exempt : Bool) (quantity : Asset) (fees : Fees) : Result Asset :=
  if exempt then .ok quantity
  else quantity.add fees.reflection >>= fun total =>
    total.add fees.burn >>= fun total =>
    total.add fees.project

def split (exempt : Bool) (quantity balance : Asset) (fees : Fees) : Result (Asset × Asset) :=
  totalDeduction exempt quantity fees >>= fun total =>
  if balance.amount < total.amount then
    -- not enough for the fees on top: they are taken from the transfer
    let remainder := balance.amount - fees.sum
    Asset.make (if 0 < remainder then remainder else 0) quantity.symbol >>= fun actual => .ok (balance, actual)
  else if exempt then
    Asset.make (quantity.amount - fees.sum) quantity.symbol >>= fun actual => .ok (total, actual)
  else .ok (total, quantity)

def creditFees (token : Token) (fees : Fees) : Result Token :=
  token.addBalance self fees.reflection >>= fun token =>
  (if 0 < fees.burn.amount then token.addBalance self fees.burn else .ok token) >>= fun token =>
  if 0 < fees.project.amount then token.addBalance self fees.project else .ok token

def creditPools (exempt : Bool) (pools : FlexPools) (fees : Fees) : Result FlexPools :=
  pools.reflection.add fees.reflection >>= fun reflection =>
  (if exempt then .ok pools.burn else pools.burn.add fees.burn) >>= fun burn =>
  pools.project.add fees.project >>= fun project =>
  .ok ⟨reflection, burn, project⟩

def charge (from_ : AccountName) (quantity balance : Asset) : Result (FlexToken × Asset × Asset) :=
  s.getSettings "distribution config not set 🤷" >>= fun conf =>
  check (quantity.symbol == conf.tokenSymbol) "symbol mismatch" >>= fun _ =>
  conf.fees quantity >>= fun fees =>
  split (s.feeExempt from_) quantity balance fees >>= fun amounts =>
  creditFees self s.token fees >>= fun token =>
  creditPools (s.feeExempt from_) (s.poolsOf quantity.symbol.code) fees >>= fun pools =>
  .ok ({ s with token := token, pools := s.pools.insert quantity.symbol.code pools }, amounts)

def move (from_ to_ : AccountName) (symbol : Symbol) (total actual : Asset) : Result FlexToken :=
  s.token.subBalance from_ total >>= fun token =>
  token.addBalance to_ actual >>= fun token =>
  (s.setToken token).updateFlexBalance from_ symbol >>= fun s =>
  s.updateFlexBalance to_ symbol

def transfer (from_ to_ : AccountName) (quantity : Asset) (memo : String) : Result FlexToken :=
  check (env.hasAuth from_ || env.hasAuth self) "🜚 missing required authority of sender or contract" >>= fun _ =>
  check (from_ != to_) "🜚 cannot transfer to self" >>= fun _ =>
  check (env.isAccount to_) "🜚 to account does not exist" >>= fun _ =>
  s.token.getStat quantity.symbol.code "🜚 no balance with specified symbol" >>= fun st =>
  match s.token.accounts.lookup (from_, quantity.symbol.code) with
  | none => .error (.thrown .eosioAssertMessage "🜚 sender has no balance with specified symbol")
  | some balance =>
    check (decide (quantity.amount ≤ balance.amount)) "🜚 sender has insufficient balance" >>= fun _ =>
    check (decide (memo.utf8ByteSize ≤ 256)) "✍️ memo too long " >>= fun _ =>
    check quantity.isValid "🜚 invalid amount" >>= fun _ =>
    check (decide (0 < quantity.amount)) "🜚 must transfer positive amount" >>= fun _ =>
    check (quantity.symbol == st.supply.symbol) "🜚 symbol mismatch, check # of digits" >>= fun _ =>
    if s.charged self from_ then
      s.charge self from_ quantity balance >>= fun r =>
      r.1.move from_ to_ quantity.symbol r.2.1 r.2.2
    else s.move from_ to_ quantity.symbol quantity quantity

/-! ## Reflections -/

def balanceOf (symbol : Symbol) (owner : AccountName) : Asset :=
  (s.token.accounts.lookup (owner, symbol.code)).getD ⟨0, symbol⟩

def exemptBalances (symbol : Symbol) : Result Asset :=
  (s.exempts.keys.insertionSort (· ≤ ·)).foldlM
    (fun total account => if account = s.swapAccount then .ok total else total.add (s.balanceOf symbol account))
    (s.balanceOf symbol s.swapAccount)

def flexersFrom (startKey : Nat) : List (AccountName × Flexer) :=
  ((s.flexers.entries.map (fun e => (e.1, e.2))).filter (fun e => decide (startKey ≤ e.1))).insertionSort (fun a b => a.1 ≤ b.1)

structure Share where
  recipient : AccountName
  amount : Asset
  memo : String

def shareOf (conf : FlexSettings) (row : Flexer) (recipient : AccountName) (amount : Asset) (useCustom : Bool) : Share :=
  if useCustom && row.customMemo != "" then ⟨recipient, amount, host.formatMemo row.customMemo recipient amount⟩
  else
    let plain : Share := ⟨recipient, amount, "Pure liquid 🜚 FLEX 🜚 shine on kin @ flex.town 👀"⟩
    match s.flexpools.lookup (if row.flextoken = 0 then 1 else row.flextoken) with
    | none => plain
    | some pool =>
      if pool.tokenContract = self ∧ pool.tokenSymbol = conf.tokenSymbol then plain
      else ⟨s.swapAccount, amount, host.swapMemo pool recipient⟩

def sendShare (share : Share) (d : List Share × Asset) : Result (List Share × Asset) :=
  if share.amount.amount ≤ 0 then .ok d
  else
    check (decide (share.memo.utf8ByteSize ≤ 256)) "✍️ memo has more than 256 bytes" >>= fun _ =>
    d.2.add share.amount >>= fun total => .ok (d.1 ++ [share], total)

def eligible (conf : FlexSettings) (pool : Int) (owner : AccountName) (row : Flexer) : Bool :=
  owner != self && !row.isBanned && row.balance.symbol == conf.tokenSymbol &&
    host.holderMinimum conf.tokenSymbol.precision row.balance.amount && host.poolMinimum conf.tokenSymbol.precision pool

def reflectRow (conf : FlexSettings) (pool supply : Int) (d : List Share × Asset) (e : AccountName × Flexer) :
    Result (List Share × Asset) :=
  if eligible self host conf pool e.1 e.2 then
    Asset.make (host.share pool e.2.balance.amount supply) conf.tokenSymbol >>= fun share =>
    if share.amount ≤ 0 then .ok d
    else
      let named := if e.2.tree = 0 then e.1 else e.2.tree
      let tree := if env.isAccount named then named else e.1
      let rate := if e.2.treeRate = 0 ∧ e.2.tree = 0 then 10000 else e.2.treeRate
      feeOf share.amount (min rate 10000) conf.tokenSymbol >>= fun treeShare =>
      share.sub treeShare >>= fun holderShare =>
      sendShare (s.shareOf self host conf e.2 tree treeShare true) d >>= fun d =>
      sendShare (s.shareOf self host conf e.2 e.1 holderShare false) d
  else .ok d

def distribution (conf : FlexSettings) (st : CurrencyStats) : Result (List Share × Asset) :=
  s.exemptBalances conf.tokenSymbol >>= fun exempt =>
  st.supply.sub exempt >>= fun supply =>
  check (decide (0 < supply.amount)) "🜚 adjusted total supply must be positive" >>= fun _ =>
  ((s.flexersFrom conf.startKey).take conf.limit).foldlM
    (s.reflectRow self host env conf (s.poolsOf conf.tokenSymbol.code).reflection.amount supply.amount) ([], ⟨0, conf.tokenSymbol⟩)

def inlineEnv : ActionEnv := { env with hasAuth := fun account => account == self }

def transferAll : List Share → FlexToken → Result FlexToken
  | [], s => .ok s
  | share :: shares, s =>
    s.transfer self (inlineEnv self env) self share.recipient share.amount share.memo >>= transferAll shares

def emptied (pools : FlexPools) (distributed : Asset) : Result FlexPools :=
  if 0 < distributed.amount ∨ 0 < pools.burn.amount ∨ 0 < pools.project.amount then
    pools.reflection.sub distributed >>= fun reflection =>
    .ok ⟨reflection, ⟨0, pools.burn.symbol⟩, ⟨0, pools.project.symbol⟩⟩
  else .ok pools

def reflect : Result FlexToken :=
  s.getSettings "🜚 distribution config not set" >>= fun conf =>
  s.token.getStat conf.tokenSymbol.code "🜚 symbol not found" >>= fun st =>
  let pools := s.poolsOf conf.tokenSymbol.code
  check (decide (0 < pools.reflection.amount)) "🜚 no reflections to distribute" >>= fun _ =>
  s.distribution self host env conf st >>= fun d =>
  emptied pools d.2 >>= fun pools' =>
  let next := ((s.flexersFrom conf.startKey).drop conf.limit).head?
  let s' := { s with
    pools := s.pools.insert conf.tokenSymbol.code pools'
    settings := some { conf with startKey := (next.map Prod.fst).getD 0 } }
  -- the inline actions
  transferAll self env d.1 s' >>= fun s' =>
  (if 0 < pools.burn.amount then
    s'.smelt (inlineEnv self env) self pools.burn
      ("Burn " ++ toString (conf.burnRate / 100) ++ "% of every transaction 🔥")
    else .ok s') >>= fun s' =>
  if 0 < pools.project.amount ∧ conf.projectAccount ≠ 0 then
    s'.transfer self (inlineEnv self env) self conf.projectAccount pools.project (host.projectMemo conf.projectRate)
  else .ok s'

/-! ## Settings -/

def setconfig (settings : FlexSettings) : Result FlexToken :=
  env.requireAuth self >>= fun _ =>
  check settings.tokenSymbol.isValid "🜚 invalid symbol" >>= fun _ =>
  check (decide (0 < settings.limit)) "limit must be positive" >>= fun _ =>
  check (decide (settings.limit ≤ 1000)) "limit cannot exceed 1000" >>= fun _ =>
  check (decide (settings.reflectionRate ≤ 10000)) "reflection rate cannot exceed 100%" >>= fun _ =>
  check (decide (settings.burnRate ≤ 10000)) "burn rate cannot exceed 100%" >>= fun _ =>
  check (decide (settings.projectRate ≤ 10000)) "project rate cannot exceed 100%" >>= fun _ =>
  check (decide (settings.reflectionRate + settings.burnRate + settings.projectRate ≤ 10000))
    "total fees cannot exceed 100%" >>= fun _ =>
  check (settings.projectAccount == 0 || env.isAccount settings.projectAccount) "project account does not exist" >>= fun _ =>
  .ok { s with settings := some settings }

def upsertFlexer (owner : AccountName) (fresh : Result Flexer) (change : Flexer → Flexer) : Result FlexToken :=
  match s.flexers.lookup owner with
  | none => fresh >>= fun f => .ok { s with flexers := s.flexers.insert owner f }
  | some f => .ok { s with flexers := s.flexers.insert owner (change f) }

def renounce (account : AccountName) (banStatus : Bool) : Result FlexToken :=
  (if env.hasAuth account then check banStatus "🜚 you can remove reflections, not add them back. whoops 🤷"
    else env.requireAuth self) >>= fun _ =>
  check (env.isAccount account) "account does not exist" >>= fun _ =>
  s.getSettings "distribution config not set" >>= fun conf =>
  s.upsertFlexer account
    (Asset.make 0 conf.tokenSymbol >>= fun zero => .ok ⟨zero, banStatus, 0, account, 10000, ""⟩)
    (fun f => { f with isBanned := banStatus })

def addpool (id : Nat) (pool : SwapPool) : Result FlexToken :=
  env.requireAuth self >>= fun _ =>
  check (env.isAccount pool.tokenContract) "token contract account does not exist 🤷" >>= fun _ =>
  check pool.tokenSymbol.isValid "🜚 invalid symbol" >>= fun _ =>
  check (pool.poolIds != "") "pool ids cannot be empty" >>= fun _ =>
  .ok { s with flexpools := s.flexpools.insert id pool }

def matchingPool (tokenSymbol : String) : Nat :=
  let ids := (s.flexpools.entries.filter
    (fun e => String.ofList (Asset.letters 7 e.2.tokenSymbol.code) == tokenSymbol)).map (·.1)
  (ids.insertionSort (· ≤ ·)).head?.getD 0

def interestoken (owner : AccountName) (tokenSymbol : String) : Result FlexToken :=
  env.requireAuth owner >>= fun _ =>
  if tokenSymbol = "" ∨ tokenSymbol = "FLEX" then
    match s.flexers.lookup owner with
    | none => .ok s
    | some f => .ok { s with flexers := s.flexers.insert owner { f with flextoken := 0 } }
  else
    let id := s.matchingPool tokenSymbol
    check (id != 0) ("🜚 No reflection pool found for symbol: " ++ tokenSymbol) >>= fun _ =>
    s.upsertFlexer owner
      -- an asset without a symbol cannot be made
      (Asset.make 0 ⟨0, 0⟩ >>= fun zero => .ok ⟨zero, false, id, owner, 10000, ""⟩)
      (fun f => { f with flextoken := id })

def inheritance (flexer tree : AccountName) (rate : Nat) : Result FlexToken :=
  check (env.hasAuth flexer || env.hasAuth self) "🜚 missing authority" >>= fun _ =>
  check (decide (rate ≤ 10000)) "🜚 rate must be 0-10000" >>= fun _ =>
  s.getSettings "distribution config not set 🤷" >>= fun conf =>
  let treeAccount := if tree = 0 then flexer else tree
  check (env.isAccount treeAccount) "🜚 tree account does not exist" >>= fun _ =>
  s.upsertFlexer flexer
    (Asset.make 0 conf.tokenSymbol >>= fun zero => .ok ⟨zero, false, 0, treeAccount, rate, ""⟩)
    (fun f => { f with tree := treeAccount, treeRate := rate })

def inheritmemo (flexer : AccountName) (customMemo : String) : Result FlexToken :=
  check (env.hasAuth flexer || env.hasAuth self) "🜚 missing authority" >>= fun _ =>
  check (decide (customMemo.utf8ByteSize ≤ 200)) "✍️ memo has more than 200 bytes" >>= fun _ =>
  s.getSettings "distribution config not set 🤷" >>= fun conf =>
  s.upsertFlexer flexer
    (Asset.make 0 conf.tokenSymbol >>= fun zero => .ok ⟨zero, false, 0, flexer, 10000, customMemo⟩)
    (fun f => { f with customMemo := customMemo })

def setswap (swap : AccountName) : Result FlexToken :=
  env.requireAuth self >>= fun _ =>
  check (env.isAccount swap) "🜚 swap account does not exist" >>= fun _ =>
  .ok { s with swap := some swap }

def setexempt (account : AccountName) (on : Bool) : Result FlexToken :=
  env.requireAuth self >>= fun _ =>
  check (env.isAccount account) "🜚 account does not exist" >>= fun _ =>
  .ok { s with exempts := if on then s.exempts.insert account () else s.exempts.erase account }

def apply : FlexAction → Result FlexToken
  | .forge issuer maximumSupply => s.forge self env issuer maximumSupply
  | .mint to_ quantity memo => s.mint env to_ quantity memo
  | .smelt username quantity memo => s.smelt env username quantity memo
  | .transfer from_ to_ quantity memo => s.transfer self env from_ to_ quantity memo
  | .openRow owner symbol ramPayer => (s.token.openRow env owner symbol ramPayer).map s.setToken
  | .closeRow owner symbol => (s.token.closeRow env owner symbol).map s.setToken
  | .reflect => s.reflect self host env
  | .setconfig settings => s.setconfig self env settings
  | .renounce account banStatus => s.renounce self env account banStatus
  | .addpool id pool => s.addpool self env id pool
  | .interestoken owner tokenSymbol => s.interestoken env owner tokenSymbol
  | .inheritance flexer tree rate => s.inheritance self env flexer tree rate
  | .inheritmemo flexer customMemo => s.inheritmemo self env flexer customMemo
  | .setswap swap => s.setswap self env swap
  | .setexempt account on => s.setexempt self env account on

def step (s : FlexToken) (a : ActionEnv × FlexAction) : FlexToken :=
  match s.apply self host a.1 a.2 with
  | .ok s' => s'
  | .error _ => s

def run (actions : List (ActionEnv × FlexAction)) : FlexToken := actions.foldl (step self host) init

end FlexToken
end TheChannel

import TheChannel.Contract
/-!
# RaToken — the token contract

`ra.token`: a `stat` row for each symbol code, and for each owner the balances by symbol code. Both tables are looked up by
the code alone. Who pays for the RAM of a row and the notifications of `transfer` are left out. An action that throws is
undone (`step`).
-/
namespace TheChannel

structure CurrencyStats where
  supply : Asset
  maxSupply : Asset
  issuer : AccountName
  deriving DecidableEq

/-- The table `stat` by symbol code; the tables `accounts` by owner and symbol code. -/
structure Token where
  stat : RowMap Nat CurrencyStats
  accounts : RowMap (AccountName × Nat) Asset

namespace Token
variable (self : AccountName) (env : ActionEnv) (t : Token)

def init : Token := ⟨∅, ∅⟩

def getStat (code : Nat) (msg : String) : Result CurrencyStats :=
  match t.stat.lookup code with
  | some st => .ok st
  | none => .error (.thrown .eosioAssertMessage msg)

def setBalance (owner : AccountName) (code : Nat) (balance : Asset) : Token :=
  { t with accounts := t.accounts.insert (owner, code) balance }

def subBalance (owner : AccountName) (value : Asset) : Result Token :=
  match t.accounts.lookup (owner, value.symbol.code) with
  | none => .error (.thrown .eosioAssertMessage "no balance object found")
  | some balance =>
    check (decide (value.amount ≤ balance.amount)) "overdrawn balance" >>= fun _ =>
    balance.sub value >>= fun balance =>
    .ok (t.setBalance owner value.symbol.code balance)

def addBalance (owner : AccountName) (value : Asset) : Result Token :=
  match t.accounts.lookup (owner, value.symbol.code) with
  | none => .ok (t.setBalance owner value.symbol.code value)
  | some balance =>
    balance.add value >>= fun balance =>
    .ok (t.setBalance owner value.symbol.code balance)

def create (issuer : AccountName) (maximumSupply : Asset) : Result Token :=
  env.requireAuth self >>= fun _ =>
  check maximumSupply.isValid "invalid supply" >>= fun _ =>
  check (decide (0 < maximumSupply.amount)) "max-supply must be positive" >>= fun _ =>
  check (t.stat.lookup maximumSupply.symbol.code).isNone "token with symbol already exists" >>= fun _ =>
  .ok { t with
    stat := t.stat.insert maximumSupply.symbol.code ⟨⟨0, maximumSupply.symbol⟩, maximumSupply, issuer⟩ }

def issue (to_ : AccountName) (quantity : Asset) (memo : String) : Result Token :=
  check quantity.symbol.isValid "invalid symbol name" >>= fun _ =>
  check (decide (memo.utf8ByteSize ≤ 256)) "memo has more than 256 bytes" >>= fun _ =>
  t.getStat quantity.symbol.code "token with symbol does not exist, create token before issue" >>= fun st =>
  check (to_ == st.issuer) "tokens can only be issued to issuer account" >>= fun _ =>
  env.requireAuth st.issuer >>= fun _ =>
  check quantity.isValid "invalid quantity" >>= fun _ =>
  check (decide (0 < quantity.amount)) "must issue positive quantity" >>= fun _ =>
  check (quantity.symbol == st.supply.symbol) "symbol precision mismatch" >>= fun _ =>
  check (decide (quantity.amount ≤ st.maxSupply.amount - st.supply.amount)) "quantity exceeds available supply" >>= fun _ =>
  st.supply.add quantity >>= fun supply =>
  addBalance { t with stat := t.stat.insert quantity.symbol.code { st with supply := supply } } st.issuer quantity

def issuefixed (to_ : AccountName) (supply : Asset) (memo : String) : Result Token :=
  t.getStat supply.symbol.code "invalid supply symbol code" >>= fun st =>
  check (st.supply.symbol == supply.symbol) "symbol precision mismatch" >>= fun _ =>
  supply.sub st.supply >>= fun quantity =>
  t.issue env to_ quantity memo

def setmaxsupply (issuer : AccountName) (maximumSupply : Asset) : Result Token :=
  check maximumSupply.isValid "invalid supply" >>= fun _ =>
  check (decide (0 < maximumSupply.amount)) "max-supply must be positive" >>= fun _ =>
  t.getStat maximumSupply.symbol.code "token supply does not exist" >>= fun st =>
  check (issuer == st.issuer) "only issuer can set token maximum supply" >>= fun _ =>
  env.requireAuth st.issuer >>= fun _ =>
  check (maximumSupply.symbol == st.supply.symbol) "symbol precision mismatch" >>= fun _ =>
  check (decide (st.supply.amount ≤ maximumSupply.amount)) "max supply is less than available supply" >>= fun _ =>
  .ok { t with stat := t.stat.insert maximumSupply.symbol.code { st with maxSupply := maximumSupply } }

def retire (quantity : Asset) (memo : String) : Result Token :=
  check quantity.symbol.isValid "invalid symbol name" >>= fun _ =>
  check (decide (memo.utf8ByteSize ≤ 256)) "memo has more than 256 bytes" >>= fun _ =>
  t.getStat quantity.symbol.code "token with symbol does not exist" >>= fun st =>
  env.requireAuth st.issuer >>= fun _ =>
  check quantity.isValid "invalid quantity" >>= fun _ =>
  check (decide (0 < quantity.amount)) "must retire positive quantity" >>= fun _ =>
  check (quantity.symbol == st.supply.symbol) "symbol precision mismatch" >>= fun _ =>
  st.supply.sub quantity >>= fun supply =>
  subBalance { t with stat := t.stat.insert quantity.symbol.code { st with supply := supply } } st.issuer quantity

def transfer (from_ to_ : AccountName) (quantity : Asset) (memo : String) : Result Token :=
  check (from_ != to_) "cannot transfer to self" >>= fun _ =>
  env.requireAuth from_ >>= fun _ =>
  check (env.isAccount to_) "to account does not exist" >>= fun _ =>
  t.getStat quantity.symbol.code "unable to find key" >>= fun st =>
  check quantity.isValid "invalid quantity" >>= fun _ =>
  check (decide (0 < quantity.amount)) "must transfer positive quantity" >>= fun _ =>
  check (quantity.symbol == st.supply.symbol) "symbol precision mismatch" >>= fun _ =>
  check (decide (memo.utf8ByteSize ≤ 256)) "memo has more than 256 bytes" >>= fun _ =>
  t.subBalance from_ quantity >>= fun t =>
  t.addBalance to_ quantity

/-- An inline `transfer` that another contract sends with the authority of `from_`. -/
def inlineTransfer (isAccount : AccountName → Bool) (from_ to_ : AccountName) (quantity : Asset) (memo : String) : Result Token :=
  t.transfer ⟨fun account => account == from_, isAccount⟩ from_ to_ quantity memo

def openRow (owner : AccountName) (symbol : Symbol) (ramPayer : AccountName) : Result Token :=
  env.requireAuth ramPayer >>= fun _ =>
  check (env.isAccount owner) "owner account does not exist" >>= fun _ =>
  t.getStat symbol.code "symbol does not exist" >>= fun st =>
  check (st.supply.symbol == symbol) "symbol precision mismatch" >>= fun _ =>
  match t.accounts.lookup (owner, symbol.code) with
  | none => .ok (t.setBalance owner symbol.code ⟨0, symbol⟩)
  | some _ => .ok t

def closeRow (owner : AccountName) (symbol : Symbol) : Result Token :=
  env.requireAuth owner >>= fun _ =>
  match t.accounts.lookup (owner, symbol.code) with
  | none => .error (.thrown .eosioAssertMessage
      "Balance row already deleted or never existed. Action won't have any effect.")
  | some balance =>
    check (balance.amount == 0) "Cannot close because the balance is not zero." >>= fun _ =>
    .ok { t with accounts := t.accounts.erase (owner, symbol.code) }

inductive Action
  | create (issuer : AccountName) (maximumSupply : Asset)
  | issue (to_ : AccountName) (quantity : Asset) (memo : String)
  | issuefixed (to_ : AccountName) (supply : Asset) (memo : String)
  | setmaxsupply (issuer : AccountName) (maximumSupply : Asset)
  | retire (quantity : Asset) (memo : String)
  | transfer (from_ to_ : AccountName) (quantity : Asset) (memo : String)
  | openRow (owner : AccountName) (symbol : Symbol) (ramPayer : AccountName)
  | closeRow (owner : AccountName) (symbol : Symbol)

def apply : Action → Result Token
  | .create issuer maximumSupply => t.create self env issuer maximumSupply
  | .issue to_ quantity memo => t.issue env to_ quantity memo
  | .issuefixed to_ supply memo => t.issuefixed env to_ supply memo
  | .setmaxsupply issuer maximumSupply => t.setmaxsupply env issuer maximumSupply
  | .retire quantity memo => t.retire env quantity memo
  | .transfer from_ to_ quantity memo => t.transfer env from_ to_ quantity memo
  | .openRow owner symbol ramPayer => t.openRow env owner symbol ramPayer
  | .closeRow owner symbol => t.closeRow env owner symbol

def step (t : Token) (a : ActionEnv × Action) : Token :=
  match t.apply self a.1 a.2 with
  | .ok t' => t'
  | .error _ => t

def run (actions : List (ActionEnv × Action)) : Token := actions.foldl (step self) init

/-! ## Balances -/

def balance (owner : AccountName) (code : Nat) : Int := RowMap.weigh (fun _ a => a.amount) (owner, code) (t.accounts.lookup (owner, code))

def circulating (code : Nat) : Int := RowMap.total (fun k a => if k.2 = code then a.amount else 0) t.accounts

end Token
end TheChannel

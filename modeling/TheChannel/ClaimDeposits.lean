import TheChannel.Contract
/-!
# ClaimDeposits — deposits of other chains, paid once

`ra.claim`: relayers credit deposits made on another chain, and each is paid to its recipient, who claims it with its own
authority (`claim`), with a signature by a key linked to it (`claimsig`), or, for a recipient that does not exist yet, with a
signature by the key the deposit was credited for (`claimopen`, which creates the account).

The actions an action sends are listed in their order; a call fails with them if they are not accepted. Recovering a key from
the hash of a message and a signature is a function of the call's environment, as are the linked keys of `ra.authex`.
-/
namespace TheChannel
open AList List

@[irreducible] def claimAccount : AccountName := stringToName ['r', 'a', '.', 'c', 'l', 'a', 'i', 'm']

/-- `created` is left out, since nothing reads it. A `checksum256` is a number of 256 bits. -/
structure Deposit where
  extTxid : Nat
  chain : AccountName
  recipient : AccountName
  quantity : Asset
  claimed : Bool
  pubkey : String
  packedkey : List UInt8
  deriving DecidableEq

structure ClaimCfg where
  ramBytes : Nat
  ramFee : Asset
  deriving DecidableEq

structure ClaimDeposits where
  relayers : List AccountName
  deposits : RowMap Nat Deposit
  nextId : Nat
  cfg : ClaimCfg

inductive ClaimInline
  | newaccount (creator name_ : AccountName) (packedkey : List UInt8)
  | buyrambytes (payer receiver : AccountName) (bytes : Nat)
  | bridgelink (account chain : AccountName) (address : String) (packedkey : List UInt8)
  | transfer (from_ to_ : AccountName) (quantity : Asset) (memo : String)
  deriving DecidableEq

structure AuthexLink where
  account : AccountName
  chain : AccountName
  packedkey : List UInt8
  deriving DecidableEq

/-- What a call finds. A transfer is accepted only if its receiver exists, or is created before it. -/
structure ClaimEnv extends ActionEnv where
  links : List AuthexLink
  recoverPackedKey : String → List UInt8 → Option (List UInt8)
  accepts : List ClaimInline → Bool
  receiver_exists : ∀ (sent : List ClaimInline) (from_ to_ : AccountName) (quantity : Asset) (memo : String),
    accepts sent = true → .transfer from_ to_ quantity memo ∈ sent →
    isAccount to_ = true ∨ ∃ creator packedkey, .newaccount creator to_ packedkey ∈ sent

inductive ClaimAction
  | addrelayer (account : AccountName)
  | rmrelayer (account : AccountName)
  | credit (chain : AccountName) (extTxid : Nat) (recipient : AccountName) (quantity : Asset)
  | creditopen (chain : AccountName) (extTxid : Nat) (recipient : AccountName) (quantity : Asset) (pubkey : String)
      (packedkey : List UInt8)
  | claim (id : Nat)
  | claimsig (id : Nat) (sig : List UInt8)
  | claimopen (id : Nat) (sig : List UInt8)
  | cfgclaim (ramBytes : Nat) (ramFee : Asset)
  deriving DecidableEq

def ClaimAction.credits : ClaimAction → Option Nat
  | .credit _ extTxid _ _ | .creditopen _ extTxid _ _ _ _ => some extTxid
  | _ => none

def ClaimAction.claims : ClaimAction → Option Nat
  | .claim id | .claimsig id _ | .claimopen id _ => some id
  | _ => none

def checksumHex (h : Nat) : String :=
  String.ofList ((List.range 64).map fun i => Nat.digitChar (h / 16 ^ (63 - i) % 16))

def nameString (n : AccountName) : String := String.ofList (nameToString n)

namespace Deposit
variable (d : Deposit) (id : Nat)

def byTxid : Nat := d.extTxid / 2 ^ 192

def message : String :=
  checksumHex d.extTxid ++ "|" ++ nameString d.recipient ++ "|" ++ d.quantity.toString ++ "|" ++ nameString d.chain ++ "|" ++
    String.ofList (Nat.toDigits 10 id)

def claimMessage : String := d.message id ++ "|claim auth"

def claimopenMessage : String := d.pubkey ++ "|" ++ d.message id ++ "|claimopen auth"

end Deposit

namespace ClaimDeposits
variable (env : ClaimEnv) (s : ClaimDeposits) {s' : ClaimDeposits} {sent : List ClaimInline} {id extTxid : Nat} {d : Deposit}
  {sig packedkey : List UInt8} {payout quantity : Asset} {chain recipient : AccountName} {pubkey : String} {action : ClaimAction}
  {claimed : List Nat} {calls : List (ClaimEnv × ClaimAction)} {c : ClaimEnv × ClaimAction}

def requireRelayer : Result Unit :=
  if env.hasAuth claimAccount then .ok ()
  else check (s.relayers.any env.hasAuth) "missing authority of a relayer or ra.claim"

def linkedKeyMatches (account chain : AccountName) (packed : List UInt8) : Bool :=
  env.links.any fun l => l.account == account && l.chain == chain && !l.packedkey.isEmpty && l.packedkey == packed

def findDeposit (id : Nat) : Result Deposit :=
  match s.deposits.lookup id with
  | some d => .ok d
  | none => .error (.thrown .eosioAssertMessage "deposit not found")

def payClaim (id : Nat) (payout : Asset) : Result (ClaimDeposits × List ClaimInline) :=
  s.findDeposit id >>= fun d =>
  check (!d.claimed) "deposit already claimed" >>= fun _ =>
  check (payout.symbol == d.quantity.symbol) "payout symbol mismatch" >>= fun _ =>
  check (decide (0 < payout.amount ∧ payout.amount ≤ d.quantity.amount)) "payout out of range" >>= fun _ =>
  .ok ({ s with deposits := s.deposits.insert id { d with claimed := true } },
    [.transfer claimAccount d.recipient payout "cross-chain claim"])

def emplaceDeposit (chain : AccountName) (extTxid : Nat) (recipient : AccountName) (quantity : Asset) (pubkey : String)
    (packedkey : List UInt8) : Result ClaimDeposits :=
  check (chain != 0) "chain name required" >>= fun _ =>
  check (recipient != 0) "recipient name required" >>= fun _ =>
  check (decide (0 < quantity.amount)) "quantity must be positive" >>= fun _ =>
  check quantity.isValid "invalid quantity" >>= fun _ =>
  -- the rows whose id has the same first eight bytes are compared
  check (s.deposits.entries.all fun e => e.2.byTxid != extTxid / 2 ^ 192 || e.2.extTxid != extTxid)
    "external transaction already credited" >>= fun _ =>
  let id := if s.nextId = 0 then 1 else s.nextId
  check (s.deposits.lookup id).isNone
    "could not insert object, most likely a uniqueness constraint was violated" >>= fun _ =>
  .ok { s with
    deposits := s.deposits.insert id ⟨extTxid, chain, recipient, quantity, false, pubkey, packedkey⟩
    nextId := (id + 1) % 2 ^ 64 }

def addrelayer (account : AccountName) : Result ClaimDeposits :=
  env.requireAuth claimAccount >>= fun _ =>
  check (env.isAccount account) "account does not exist" >>= fun _ =>
  check (!s.relayers.contains account) "relayer already added" >>= fun _ =>
  .ok { s with relayers := account :: s.relayers }

def rmrelayer (account : AccountName) : Result ClaimDeposits :=
  env.requireAuth claimAccount >>= fun _ =>
  check (s.relayers.contains account) "relayer not found" >>= fun _ =>
  .ok { s with relayers := s.relayers.erase account }

def credit (chain : AccountName) (extTxid : Nat) (recipient : AccountName) (quantity : Asset) : Result ClaimDeposits :=
  s.requireRelayer env >>= fun _ =>
  check (env.isAccount recipient) "recipient account does not exist" >>= fun _ =>
  s.emplaceDeposit chain extTxid recipient quantity "" []

def claim (id : Nat) : Result (ClaimDeposits × List ClaimInline) :=
  s.findDeposit id >>= fun d =>
  env.requireAuth d.recipient >>= fun _ =>
  s.payClaim id d.quantity

/-- `recover_packed_key`; a signature no key can be recovered from fails the call. -/
def recoverKey (message : String) (sig : List UInt8) : Result (List UInt8) :=
  check (decide (8 ≤ sig.length ∧ sig.length ≤ 256)) "invalid signature size" >>= fun _ =>
  match env.recoverPackedKey message sig with
  | some packed =>
    check (decide (0 < packed.length ∧ packed.length ≤ 128)) "recover_key failed" >>= fun _ =>
    .ok packed
  | none => .error (.thrown .eosioAssertMessage "recover_key failed")

def claimsig (id : Nat) (sig : List UInt8) : Result (ClaimDeposits × List ClaimInline) :=
  s.findDeposit id >>= fun d =>
  check (!d.claimed) "deposit already claimed" >>= fun _ =>
  recoverKey env (d.claimMessage id) sig >>= fun packed =>
  check (linkedKeyMatches env d.recipient d.chain packed) "signature does not match a linked key" >>= fun _ =>
  s.payClaim id d.quantity

def creditopen (chain : AccountName) (extTxid : Nat) (recipient : AccountName) (quantity : Asset) (pubkey : String)
    (packedkey : List UInt8) : Result ClaimDeposits :=
  s.requireRelayer env >>= fun _ =>
  check (!env.isAccount recipient) "recipient already exists; use credit" >>= fun _ =>
  check ((nameToString recipient).length == 12) "recipient must be 12 characters" >>= fun _ =>
  check (!(nameToString recipient).contains '.') "recipient cannot contain a dot" >>= fun _ =>
  check (decide (0 < pubkey.utf8ByteSize ∧ pubkey.utf8ByteSize ≤ 256)) "pubkey must be 1..256 bytes" >>= fun _ =>
  check (decide (8 ≤ packedkey.length ∧ packedkey.length ≤ 128)) "packed key must be 8..128 bytes" >>= fun _ =>
  s.emplaceDeposit chain extTxid recipient quantity pubkey packedkey

def cfgclaim (ramBytes : Nat) (ramFee : Asset) : Result ClaimDeposits :=
  env.requireAuth claimAccount >>= fun _ =>
  check (decide (ramBytes ≤ 1024 * 1024)) "ram_bytes too large" >>= fun _ =>
  check (decide (0 ≤ ramFee.amount)) "ram fee must be non-negative" >>= fun _ =>
  check (!decide (0 < ramFee.amount) || ramFee.isValid) "invalid ram fee" >>= fun _ =>
  .ok { s with cfg := ⟨ramBytes, ramFee⟩ }

/-- What is left of a deposit after the fee; `asset`'s subtraction. -/
def payoutOf (quantity : Asset) : Result Asset :=
  if 0 < s.cfg.ramFee.amount then
    check (s.cfg.ramFee.symbol == quantity.symbol) "ram fee symbol mismatch" >>= fun _ =>
    check (decide (s.cfg.ramFee.amount < quantity.amount)) "deposit does not cover account ram" >>= fun _ =>
    quantity.sub s.cfg.ramFee
  else .ok quantity

/-- The account is created with the credited key before the payout is sent. A `pubkey` has at most 256 bytes, so that all of it
is the address. -/
def claimopen (id : Nat) (sig : List UInt8) : Result (ClaimDeposits × List ClaimInline) :=
  s.findDeposit id >>= fun d =>
  check (!d.claimed) "deposit already claimed" >>= fun _ =>
  check (!d.packedkey.isEmpty && !d.pubkey.isEmpty) "deposit is not a lazy-account credit" >>= fun _ =>
  check (!env.isAccount d.recipient) "recipient already exists; use claim or claimsig" >>= fun _ =>
  recoverKey env (d.claimopenMessage id) sig >>= fun packed =>
  check (packed == d.packedkey) "signature does not match the credited key" >>= fun _ =>
  s.payoutOf d.quantity >>= fun payout =>
  s.payClaim id payout >>= fun paid =>
  .ok (paid.1,
    ClaimInline.newaccount claimAccount d.recipient d.packedkey ::
    (if 0 < s.cfg.ramBytes then [ClaimInline.buyrambytes claimAccount d.recipient s.cfg.ramBytes] else []) ++
    ClaimInline.bridgelink d.recipient d.chain d.pubkey d.packedkey :: paid.2)

def act : ClaimAction → Result (ClaimDeposits × List ClaimInline)
  | .addrelayer account => (s.addrelayer env account).map (·, [])
  | .rmrelayer account => (s.rmrelayer env account).map (·, [])
  | .credit chain extTxid recipient quantity => (s.credit env chain extTxid recipient quantity).map (·, [])
  | .creditopen chain extTxid recipient quantity pubkey packedkey =>
    (s.creditopen env chain extTxid recipient quantity pubkey packedkey).map (·, [])
  | .claim id => s.claim env id
  | .claimsig id sig => s.claimsig env id sig
  | .claimopen id sig => s.claimopen env id sig
  | .cfgclaim ramBytes ramFee => (s.cfgclaim env ramBytes ramFee).map (·, [])

def apply (action : ClaimAction) : Result (ClaimDeposits × List ClaimInline) :=
  s.act env action >>= fun r =>
  check (env.accepts r.2) "inline action failed" >>= fun _ =>
  .ok r

structure ClaimStep where
  before : ClaimDeposits
  env : ClaimEnv
  action : ClaimAction
  sent : List ClaimInline

def run : ClaimDeposits → List (ClaimEnv × ClaimAction) → ClaimDeposits × List ClaimStep
  | s, [] => (s, [])
  | s, c :: cs =>
    match s.apply c.1 c.2 with
    | .ok r => ((run r.1 cs).1, ⟨s, c.1, c.2, r.2⟩ :: (run r.1 cs).2)
    | .error _ => run s cs

def transfers (sent : List ClaimInline) : List (AccountName × AccountName × Asset) :=
  sent.filterMap fun
    | .transfer from_ to_ quantity _ => some (from_, to_, quantity)
    | _ => none

def feeOf : ClaimAction → Int
  | .claimopen _ _ => s.cfg.ramFee.amount
  | _ => 0

def empty : ClaimDeposits := ⟨[], ∅, 1, ⟨0, ⟨0, ⟨0, 0⟩⟩⟩⟩

/-! ## What an accepted action did -/

variable {env s}

theorem findDeposit_ok_iff : s.findDeposit id = .ok d ↔ s.deposits.lookup id = some d := by
  unfold findDeposit
  split <;> simp_all

theorem recoverKey_ok {message : String} {packed : List UInt8} (h : recoverKey env message sig = .ok packed) :
    env.recoverPackedKey message sig = some packed := by
  replace h := rest_ok h
  split at h
  case h_2 => cases h
  rename_i key hkey
  cases rest_ok h
  exact hkey

/-- The deposit `id` was not claimed and is now, and the payout was sent: its quantity less the fee. -/
structure Paid (s : ClaimDeposits) (id : Nat) (fee : Int) (d : Deposit) (s' : ClaimDeposits) (sent : List ClaimInline) :
    Prop where
  row : s.deposits.lookup id = some d
  unclaimed : d.claimed = false
  marked : s' = { s with deposits := s.deposits.insert id { d with claimed := true } }
  payout : transfers sent = [(claimAccount, d.recipient, ⟨d.quantity.amount - fee, d.quantity.symbol⟩)]
  positive : 0 < d.quantity.amount - fee

theorem payClaim_ok (h : s.payClaim id payout = .ok (s', sent)) :
    ∃ d, s.deposits.lookup id = some d ∧ d.claimed = false ∧ payout.symbol = d.quantity.symbol ∧ 0 < payout.amount ∧
      s' = { s with deposits := s.deposits.insert id { d with claimed := true } } ∧
      sent = [.transfer claimAccount d.recipient payout "cross-chain claim"] := by
  obtain ⟨d, hd, h⟩ := bind_ok h
  obtain ⟨hcl, h⟩ := check_ok h
  obtain ⟨hsym, h⟩ := check_ok h
  obtain ⟨hr, h⟩ := check_ok h
  cases h
  rw [decide_eq_true_eq] at hr
  exact ⟨d, findDeposit_ok_iff.1 hd, by simpa using hcl, by simpa using hsym, hr.1, rfl, rfl⟩

theorem payClaim_paid (hd : s.deposits.lookup id = some d) (h : s.payClaim id d.quantity = .ok (s', sent)) :
    Paid s id 0 d s' sent := by
  obtain ⟨d', hd', hcl, -, hpos, rfl, rfl⟩ := payClaim_ok h
  cases hd.symm.trans hd'
  refine ⟨hd, hcl, rfl, ?_, by rw [Int.sub_zero]; exact hpos⟩
  rw [Int.sub_zero]
  rfl

theorem claim_ok (h : s.claim env id = .ok (s', sent)) :
    ∃ d, s.deposits.lookup id = some d ∧ s.payClaim id d.quantity = .ok (s', sent) := by
  obtain ⟨d, hd, h⟩ := bind_ok h
  exact ⟨d, findDeposit_ok_iff.1 hd, rest_ok h⟩

theorem claimsig_ok (h : s.claimsig env id sig = .ok (s', sent)) :
    ∃ d, s.deposits.lookup id = some d ∧ s.payClaim id d.quantity = .ok (s', sent) := by
  obtain ⟨d, hd, h⟩ := bind_ok h
  obtain ⟨packed, -, h⟩ := bind_ok (rest_ok h)
  exact ⟨d, findDeposit_ok_iff.1 hd, rest_ok h⟩

theorem payoutOf_ok (hfee : 0 ≤ s.cfg.ramFee.amount) (h : s.payoutOf quantity = .ok payout) :
    payout = ⟨quantity.amount - s.cfg.ramFee.amount, quantity.symbol⟩ := by
  unfold payoutOf at h
  split at h
  · replace h := rest_ok h
    replace h := rest_ok h
    exact (Asset.sub_ok_iff.1 h).2.2
  · cases h
    have : s.cfg.ramFee.amount = 0 := by omega
    rw [this, Int.sub_zero]

theorem claimopen_ok (hfee : 0 ≤ s.cfg.ramFee.amount) (h : s.claimopen env id sig = .ok (s', sent)) :
    ∃ d, Paid s id s.cfg.ramFee.amount d s' sent ∧ env.recoverPackedKey (d.claimopenMessage id) sig = some d.packedkey := by
  obtain ⟨d, hd, h⟩ := bind_ok h
  iterate 3 replace h := rest_ok h
  obtain ⟨packed, hpa, h⟩ := bind_ok h
  obtain ⟨hkey, h⟩ := check_ok h
  obtain ⟨payout, hpay, h⟩ := bind_ok h
  obtain ⟨paid, hp, h⟩ := bind_ok h
  cases h
  rw [findDeposit_ok_iff] at hd
  obtain ⟨d', hd', hcl, -, hpos, hs, hse⟩ := payClaim_ok hp
  cases hd.symm.trans hd'
  have ham := payoutOf_ok hfee hpay
  refine ⟨d, ⟨hd, hcl, hs, ?_, ?_⟩, ?_⟩
  · rw [hse, ham]
    simp only [transfers, filterMap_cons, filterMap_append, cons_append]
    split <;> simp
  · rw [ham] at hpos
    exact hpos
  · rw [recoverKey_ok hpa]
    simpa using hkey

theorem emplaceDeposit_ok (h : s.emplaceDeposit chain extTxid recipient quantity pubkey packedkey = .ok s') :
    ∃ id, id = (if s.nextId = 0 then 1 else s.nextId) ∧ s.deposits.lookup id = none ∧
      (∀ id' d, s.deposits.lookup id' = some d → d.extTxid ≠ extTxid) ∧ s'.cfg = s.cfg ∧
      s'.deposits = s.deposits.insert id ⟨extTxid, chain, recipient, quantity, false, pubkey, packedkey⟩ := by
  iterate 4 replace h := rest_ok h
  obtain ⟨hnew, h⟩ := check_ok h
  obtain ⟨hid, h⟩ := check_ok h
  cases h
  refine ⟨_, rfl, by simpa using hid, ?_, rfl, rfl⟩
  intro id' d hd heq
  have := all_eq_true.1 hnew ⟨id', d⟩ (RowMap.mem_entries_iff.2 hd)
  simp [Deposit.byTxid, heq] at this

/-- What an accepted action does to the deposits: it credits one, pays one or leaves them. -/
inductive Effect (s : ClaimDeposits) (action : ClaimAction) (s' : ClaimDeposits) (sent : List ClaimInline) : Prop
  | credited (id : Nat) (d : Deposit) (hcredits : action.credits = some d.extTxid) (hclaims : action.claims = none)
      (hid : s.deposits.lookup id = none) (hnew : ∀ id' d', s.deposits.lookup id' = some d' → d'.extTxid ≠ d.extTxid)
      (hunclaimed : d.claimed = false) (hcfg : s'.cfg = s.cfg) (hrows : s'.deposits = s.deposits.insert id d)
      (hsent : sent = [])
  | paid (id : Nat) (d : Deposit) (hcredits : action.credits = none) (hclaims : action.claims = some id)
      (hpaid : Paid s id (s.feeOf action) d s' sent)
  | left (hcredits : action.credits = none) (hclaims : action.claims = none) (hrows : s'.deposits = s.deposits)
      (hfee : 0 ≤ s'.cfg.ramFee.amount) (hsent : sent = [])

theorem emplaceDeposit_effect (h : s.emplaceDeposit chain extTxid recipient quantity pubkey packedkey = .ok s')
    (hcr : action.credits = some extTxid) (hcl : action.claims = none) : Effect s action s' [] := by
  obtain ⟨id, -, hid, hnew, hcfg, hr⟩ := emplaceDeposit_ok h
  exact .credited id _ hcr hcl hid hnew rfl hcfg hr rfl

theorem apply_effect (hfee : 0 ≤ s.cfg.ramFee.amount) (h : s.apply env action = .ok (s', sent)) :
    Effect s action s' sent := by
  obtain ⟨r, hact, h⟩ := bind_ok h
  replace h := rest_ok h
  cases h
  cases action with
  | addrelayer account =>
    obtain ⟨hok, rfl⟩ := silent_ok_iff.1 hact
    iterate 3 replace hok := rest_ok hok
    cases hok
    exact .left rfl rfl rfl hfee rfl
  | rmrelayer account =>
    obtain ⟨hok, rfl⟩ := silent_ok_iff.1 hact
    iterate 2 replace hok := rest_ok hok
    cases hok
    exact .left rfl rfl rfl hfee rfl
  | credit chain extTxid recipient quantity =>
    obtain ⟨hok, rfl⟩ := silent_ok_iff.1 hact
    obtain ⟨-, -, hok⟩ := bind_ok hok
    replace hok := rest_ok hok
    exact emplaceDeposit_effect hok rfl rfl
  | creditopen chain extTxid recipient quantity pubkey packedkey =>
    obtain ⟨hok, rfl⟩ := silent_ok_iff.1 hact
    obtain ⟨-, -, hok⟩ := bind_ok hok
    iterate 5 replace hok := rest_ok hok
    exact emplaceDeposit_effect hok rfl rfl
  | claim id =>
    obtain ⟨d, hd, hp⟩ := claim_ok hact
    exact .paid id d rfl rfl (payClaim_paid hd hp)
  | claimsig id sig =>
    obtain ⟨d, hd, hp⟩ := claimsig_ok hact
    exact .paid id d rfl rfl (payClaim_paid hd hp)
  | claimopen id sig =>
    obtain ⟨d, hp, -⟩ := claimopen_ok hfee hact
    exact .paid id d rfl rfl hp
  | cfgclaim ramBytes ramFee =>
    obtain ⟨hok, rfl⟩ := silent_ok_iff.1 hact
    iterate 2 replace hok := rest_ok hok
    obtain ⟨hpos, hok⟩ := check_ok hok
    replace hok := rest_ok hok
    cases hok
    exact .left rfl rfl rfl (by simpa using hpos) rfl

/-! ## Runs -/

/-- The rows agree with the transactions credited and the deposits claimed so far. -/
structure Recorded (s : ClaimDeposits) (credited claimed : List Nat) : Prop where
  fee : 0 ≤ s.cfg.ramFee.amount
  txids : ∀ x ∈ credited, ∃ id d, s.deposits.lookup id = some d ∧ d.extTxid = x
  txidOnce : credited.Nodup
  ids : ∀ id, id ∈ claimed ↔ ∃ d, s.deposits.lookup id = some d ∧ d.claimed = true
  idOnce : claimed.Nodup

theorem recorded_empty : Recorded empty [] [] :=
  ⟨le_rfl, by simp, nodup_nil, by simp [empty], nodup_nil⟩

theorem Recorded.credited {credited : List Nat} (h : Recorded s credited claimed) {id : Nat}
    (hid : s.deposits.lookup id = none) (hnew : ∀ id' d', s.deposits.lookup id' = some d' → d'.extTxid ≠ d.extTxid)
    (hu : d.claimed = false) (hcfg : s'.cfg = s.cfg) (hr : s'.deposits = s.deposits.insert id d) :
    Recorded s' (credited ++ [d.extTxid]) claimed := by
  have hold : ∀ id' d', s.deposits.lookup id' = some d' → s'.deposits.lookup id' = some d' := by
    intro id' d' hd'
    rw [hr, lookup_insert_ne (by rintro rfl; rw [hid] at hd'; cases hd')]
    exact hd'
  refine ⟨hcfg ▸ h.fee, ?_, ?_, ?_, h.idOnce⟩
  · intro x hx
    rcases mem_append.1 hx with hx | hx
    · obtain ⟨id', d', hd', ht⟩ := h.txids x hx
      exact ⟨id', d', hold id' d' hd', ht⟩
    · rw [mem_singleton] at hx
      exact ⟨id, d, by rw [hr, lookup_insert], hx.symm⟩
  · refine h.txidOnce.append (nodup_singleton _) (disjoint_singleton.2 fun hx => ?_)
    obtain ⟨id', d', hd', ht⟩ := h.txids _ hx
    exact hnew id' d' hd' ht
  · intro id'
    rw [h.ids id']
    constructor
    · rintro ⟨d', hd', hcl⟩
      exact ⟨d', hold id' d' hd', hcl⟩
    · rintro ⟨d', hd', hcl⟩
      rw [hr] at hd'
      rcases RowMap.lookup_insert_some hd' with ⟨-, rfl⟩ | ⟨-, hd'⟩
      · rw [hu] at hcl
        cases hcl
      · exact ⟨d', hd', hcl⟩

theorem Recorded.paid {credited : List Nat} (h : Recorded s credited claimed) {id : Nat} {fee : Int}
    (hp : Paid s id fee d s' sent) : Recorded s' credited (claimed ++ [id]) := by
  obtain ⟨hd, hu, rfl, -, -⟩ := hp
  refine ⟨h.fee, ?_, h.txidOnce, ?_, ?_⟩
  · intro x hx
    obtain ⟨id', d', hd', ht⟩ := h.txids x hx
    by_cases hid : id' = id
    · subst hid
      cases hd.symm.trans hd'
      exact ⟨id', _, lookup_insert _, ht⟩
    · exact ⟨id', d', by rw [lookup_insert_ne hid]; exact hd', ht⟩
  · intro id'
    rw [mem_append, mem_singleton, h.ids id']
    by_cases hid : id' = id
    · subst hid
      simp [lookup_insert]
    · simp [lookup_insert_ne hid, hid]
  · refine h.idOnce.append (nodup_singleton _) (disjoint_singleton.2 fun hx => ?_)
    obtain ⟨d', hd', hcl⟩ := (h.ids id).1 hx
    rw [hd] at hd'
    cases hd'
    rw [hu] at hcl
    cases hcl

theorem Recorded.apply {credited : List Nat} (h : Recorded s credited claimed)
    (hok : s.apply env action = .ok (s', sent)) :
    Recorded s' (credited ++ action.credits.toList) (claimed ++ action.claims.toList) := by
  cases apply_effect h.fee hok with
  | credited id d hcr hcl hid hnew hu hcfg hr _ =>
    rw [hcr, hcl, Option.toList_none, append_nil]
    exact h.credited hid hnew hu hcfg hr
  | paid id d hcr hcl hp =>
    rw [hcr, hcl, Option.toList_none, append_nil]
    exact h.paid hp
  | left hcr hcl hr hfee _ =>
    rw [hcr, hcl, Option.toList_none, append_nil, append_nil]
    exact ⟨hfee, hr ▸ h.txids, h.txidOnce, hr ▸ h.ids, h.idOnce⟩

def Kept (s s' : ClaimDeposits) : Prop :=
  ∀ id d, s.deposits.lookup id = some d → ∃ b, s'.deposits.lookup id = some { d with claimed := b }

theorem Kept.refl (s : ClaimDeposits) : Kept s s := fun _ d hd => ⟨d.claimed, hd⟩

theorem Kept.trans {s1 : ClaimDeposits} (h : Kept s s1) (h' : Kept s1 s') : Kept s s' := by
  intro id d hd
  obtain ⟨b, hb⟩ := h id d hd
  obtain ⟨b', hb'⟩ := h' id _ hb
  exact ⟨b', hb'⟩

theorem Effect.kept (h : Effect s action s' sent) : Kept s s' := by
  intro id' d' hd'
  cases h with
  | credited id d _ _ hid _ _ _ hr _ =>
    rw [hr, lookup_insert_ne (by rintro rfl; rw [hid] at hd'; cases hd')]
    exact ⟨d'.claimed, hd'⟩
  | paid id d _ _ hp =>
    obtain ⟨hd, -, rfl, -, -⟩ := hp
    by_cases hid : id' = id
    · subst hid
      cases hd.symm.trans hd'
      exact ⟨true, lookup_insert _⟩
    · exact ⟨d'.claimed, by rw [lookup_insert_ne hid]; exact hd'⟩
  | left _ _ hr _ _ => exact ⟨d'.claimed, hr ▸ hd'⟩

theorem run_cons_ok {r : ClaimDeposits × List ClaimInline}
    (h : s.apply c.1 c.2 = .ok r) : run s (c :: calls) = ((run r.1 calls).1, ⟨s, c.1, c.2, r.2⟩ :: (run r.1 calls).2) := by
  rw [run, h]

theorem run_cons_error {e : Fault} (h : s.apply c.1 c.2 = .error e) : run s (c :: calls) = run s calls := by
  rw [run, h]

theorem Recorded.run (calls : List (ClaimEnv × ClaimAction)) : ∀ {s} {credited claimed},
    Recorded s credited claimed →
    Recorded (run s calls).1 (credited ++ (run s calls).2.filterMap (·.action.credits))
      (claimed ++ (run s calls).2.filterMap (·.action.claims)) ∧
    Kept s (run s calls).1 ∧
    ∀ step ∈ (run s calls).2, 0 ≤ step.before.cfg.ramFee.amount ∧
      Kept s step.before ∧ ∃ s1, step.before.apply step.env step.action = .ok (s1, step.sent) ∧ Kept s1 (run s calls).1 := by
  induction calls with
  | nil =>
    intro s credited claimed h
    refine ⟨?_, Kept.refl s, by simp [ClaimDeposits.run]⟩
    simpa [ClaimDeposits.run] using h
  | cons c calls ih =>
    intro s credited claimed h
    cases hok : s.apply c.1 c.2 with
    | error e =>
      rw [run_cons_error hok]
      exact ih h
    | ok r =>
      rw [run_cons_ok hok]
      obtain ⟨s1, sent⟩ := r
      obtain ⟨hrun, hk, hs⟩ := ih (h.apply hok)
      refine ⟨?_, (apply_effect h.fee hok).kept.trans hk, ?_⟩
      · cases hcr : c.2.credits <;> cases hcl : c.2.claims <;>
          simpa [filterMap_cons, hcr, hcl] using hrun
      · intro step hstep
        rcases mem_cons.1 hstep with rfl | hstep
        · exact ⟨h.fee, Kept.refl s, s1, hok, hk⟩
        · obtain ⟨hfee, hb, haf⟩ := hs step hstep
          exact ⟨hfee, (apply_effect h.fee hok).kept.trans hb, haf⟩

/-- **Every deposit is paid at most once.** In every run from the empty tables, whoever calls: no transaction of another chain
is credited twice; no deposit is claimed twice; an accepted claim sends one transfer, to the recorded recipient, of the recorded
quantity less the fee that is configured for `claimopen`, which is positive; no other action sends a transfer; and a deposit is
marked as claimed iff it was claimed. -/
theorem run_pays_once (calls : List (ClaimEnv × ClaimAction)) : let s := (run empty calls).1
    let steps := (run empty calls).2
    (steps.filterMap (·.action.credits)).Nodup ∧
    (steps.filterMap (·.action.claims)).Nodup ∧
    (∀ step ∈ steps, ∀ id, step.action.claims = some id → ∃ d payout, s.deposits.lookup id = some d ∧
      transfers step.sent = [(claimAccount, d.recipient, payout)] ∧ payout.symbol = d.quantity.symbol ∧
      payout.amount = d.quantity.amount - step.before.feeOf step.action ∧ 0 < payout.amount) ∧
    (∀ step ∈ steps, step.action.claims = none → transfers step.sent = []) ∧
    (∀ id d, s.deposits.lookup id = some d → (d.claimed = true ↔ id ∈ steps.filterMap (·.action.claims))) := by
  intro s steps
  obtain ⟨hrec, -, hst⟩ := recorded_empty.run calls
  rw [nil_append, nil_append] at hrec
  refine ⟨hrec.txidOnce, hrec.idOnce, ?_, ?_, ?_⟩
  · intro step hstep id hid
    obtain ⟨hfee, -, s₁, hok, hk⟩ := hst step hstep
    cases apply_effect hfee hok with
    | credited _ _ _ hcs => exact absurd (hcs.symm.trans hid) (by simp)
    | left _ hcs => exact absurd (hcs.symm.trans hid) (by simp)
    | paid id' d _ hcs hp =>
      cases hcs.symm.trans hid
      obtain ⟨b, hb⟩ := hk id _ (by rw [hp.marked]; exact lookup_insert _)
      exact ⟨_, _, hb, hp.payout, rfl, rfl, hp.positive⟩
  · intro step hstep hid
    obtain ⟨hfee, -, s₁, hok, -⟩ := hst step hstep
    cases apply_effect hfee hok with
    | credited _ _ _ _ _ _ _ _ _ hs =>
      rw [hs]
      rfl
    | left _ _ _ _ hs =>
      rw [hs]
      rfl
    | paid id' d _ hcs _ => exact absurd (hcs.symm.trans hid) (by simp)
  · intro id d hd
    rw [hrec.ids id]
    constructor
    · exact fun hcl => ⟨d, hd, hcl⟩
    · rintro ⟨d', hd', hcl⟩
      cases hd.symm.trans hd'
      exact hcl

/-! ## The key of a deposit -/

theorem apply_opens (hfee : 0 ≤ s.cfg.ramFee.amount) (h : s.apply env action = .ok (s', sent))
    (hd : s.deposits.lookup id = some d) (hcl : action.claims = some id) (habs : env.isAccount d.recipient = false) :
    ∃ sig, action = .claimopen id sig ∧ env.recoverPackedKey (d.claimopenMessage id) sig = some d.packedkey := by
  obtain ⟨r, hact, h⟩ := bind_ok h
  obtain ⟨hacc, h⟩ := check_ok h
  cases h
  -- `claim` and `claimsig` send the transfer alone, and its receiver must exist
  have hrec : ∀ {payout : Asset}, s.payClaim id payout = .ok (s', sent) → False := by
    intro payout hpay
    obtain ⟨d', hd', -, -, -, -, hs⟩ := payClaim_ok hpay
    cases hd.symm.trans hd'
    rcases env.receiver_exists sent claimAccount d.recipient payout "cross-chain claim" hacc
      (by rw [hs]; exact mem_singleton_self _) with he | ⟨creator, packedkey, hmem⟩
    · rw [habs] at he
      cases he
    · rw [hs, mem_singleton] at hmem
      cases hmem
  cases action with
  | claim id' =>
    cases hcl
    obtain ⟨d', -, hp⟩ := claim_ok hact
    exact (hrec hp).elim
  | claimsig id' sig =>
    cases hcl
    obtain ⟨d', -, hp⟩ := claimsig_ok hact
    exact (hrec hp).elim
  | claimopen id' sig =>
    cases hcl
    obtain ⟨d', hp, hkey⟩ := claimopen_ok hfee hact
    cases hd.symm.trans hp.row
    exact ⟨sig, rfl, hkey⟩
  | _ => cases hcl

theorem apply_claimsig {sig : List UInt8} (h : s.apply env (.claimsig id sig) = .ok (s', sent)) (hd : s.deposits.lookup id = some d) :
    ∃ l ∈ env.links, l.account = d.recipient ∧ l.chain = d.chain ∧
      env.recoverPackedKey (d.claimMessage id) sig = some l.packedkey := by
  obtain ⟨r, hact, -⟩ := bind_ok h
  obtain ⟨d', hd', hact⟩ := bind_ok hact
  cases hd.symm.trans (findDeposit_ok_iff.1 hd')
  obtain ⟨packed, hpa, hact⟩ := bind_ok (rest_ok hact)
  obtain ⟨l, hl, hm⟩ := any_eq_true.1 (check_ok hact).1
  simp only [Bool.and_eq_true, beq_iff_eq] at hm
  exact ⟨l, hl, hm.1.1.1, hm.1.1.2, hm.2 ▸ recoverKey_ok hpa⟩

/-- **A deposit for an account that does not exist yet is paid with its key.** After an accepted `creditopen`, in every run,
an action that claims the deposit while its recipient does not exist is a `claimopen` whose signature over the deposit was
verified to be by the credited key; and the signature of a `claimsig` is by that key too, if the recipient has linked no other
for the chain. -/
theorem creditopen_paid_with_key (calls : List (ClaimEnv × ClaimAction)) {env : ClaimEnv} {chain recipient : AccountName}
    {extTxid : Nat} {quantity : Asset} {pubkey : String} {packedkey : List UInt8} {s₁ : ClaimDeposits} {sent : List ClaimInline}
    (hopen : (run empty calls).1.apply env (.creditopen chain extTxid recipient quantity pubkey packedkey) = .ok (s₁, sent))
    (later : List (ClaimEnv × ClaimAction)) :
    let id := if (run empty calls).1.nextId = 0 then 1 else (run empty calls).1.nextId
    ∀ step ∈ (run s₁ later).2, step.action.claims = some id →
      (step.env.isAccount recipient = false → ∃ sig, step.action = .claimopen id sig ∧ step.env.recoverPackedKey
        (Deposit.claimopenMessage ⟨extTxid, chain, recipient, quantity, false, pubkey, packedkey⟩ id) sig = some packedkey) ∧
      ∀ sig, step.action = .claimsig id sig →
        (∀ l ∈ step.env.links, l.account = recipient → l.chain = chain → l.packedkey = packedkey) → step.env.recoverPackedKey
          (Deposit.claimMessage ⟨extTxid, chain, recipient, quantity, false, pubkey, packedkey⟩ id) sig = some packedkey := by
  intro id step hstep hcl
  obtain ⟨hrec, -, -⟩ := recorded_empty.run calls
  have hrow : s₁.deposits.lookup id = some ⟨extTxid, chain, recipient, quantity, false, pubkey, packedkey⟩ := by
    obtain ⟨r, hact, hopen⟩ := bind_ok hopen
    replace hopen := rest_ok hopen
    cases hopen
    obtain ⟨s₂, hok, heq⟩ := map_ok_iff.1 hact
    cases heq
    obtain ⟨-, -, hok⟩ := bind_ok hok
    iterate 5 replace hok := rest_ok hok
    obtain ⟨id, rfl, -, -, -, hr⟩ := emplaceDeposit_ok hok
    rw [hr, lookup_insert]
  obtain ⟨-, -, hs⟩ := (hrec.apply hopen).run later
  obtain ⟨hfee, hbe, s₂, hok, -⟩ := hs step hstep
  obtain ⟨b, hb⟩ := hbe id _ hrow
  refine ⟨fun habs => ?_, fun sig hsig hlinks => ?_⟩
  · obtain ⟨sig, hac, hkey⟩ := apply_opens hfee hok hb hcl habs
    exact ⟨sig, hac, hkey⟩
  · rw [hsig] at hok
    obtain ⟨l, hl, hrecipient, hchain, hkey⟩ := apply_claimsig hok hb
    rw [← hlinks l hl hrecipient hchain]
    exact hkey

def sampleEnv (exists_ : AccountName → Bool) (recovered : Option (List UInt8)) : ClaimEnv where
  hasAuth _ := true
  isAccount := exists_
  links := []
  recoverPackedKey _ _ := recovered
  accepts sent := sent.all fun
    | .transfer _ to_ _ _ => exists_ to_ || sent.any fun
      | .newaccount _ name_ _ => name_ == to_
      | _ => false
    | _ => true
  receiver_exists sent from_ to_ quantity memo h hmem := by
    have := all_eq_true.1 h _ hmem
    simp only [Bool.or_eq_true] at this
    rcases this with hexists | hnew
    · exact .inl hexists
    · obtain ⟨a, ha, heq⟩ := any_eq_true.1 hnew
      cases a with
      | newaccount creator name_ packedkey =>
        rw [beq_iff_eq] at heq
        exact .inr ⟨creator, packedkey, heq ▸ ha⟩
      | _ => cases heq

def sampleRecipient : AccountName := stringToName ['a', 'l', 'i', 'c', 'e', 'a', 'c', 'c', 'o', 'u', 'n', 't']

def sampleKey : List UInt8 := [0, 1, 2, 3, 4, 5, 6, 7]

def sampleSig : List UInt8 := [0, 9, 9, 9, 9, 9, 9, 9]

def sampleOpen : ClaimAction := .creditopen 1 7 sampleRecipient ⟨100, ⟨16722, 4⟩⟩ "PUB_EM_1" sampleKey

theorem creditopen_paid_with_key_sampleOpen : let env := sampleEnv (fun _ => false) (some sampleKey)
    ∃ s₁ sent, empty.apply env sampleOpen = .ok (s₁, sent) ∧
      (run s₁ [(env, .claimopen 1 sampleSig)]).2.map (fun step => step.action.claims) = [some 1] ∧
      ∀ step ∈ (run s₁ [(env, .claimopen 1 sampleSig)]).2, step.action.claims = some 1 →
        step.env.isAccount sampleRecipient = false → ∃ sig, step.action = .claimopen 1 sig := by
  intro env
  have hon : (empty.apply env sampleOpen).toOption.isSome = true := by decide +kernel
  cases hok : empty.apply env sampleOpen with
  | error e =>
    rw [hok] at hon
    cases hon
  | ok r =>
    refine ⟨r.1, r.2, rfl, ?_, ?_⟩
    · have : ((empty.apply env sampleOpen).map fun r =>
          (run r.1 [(env, .claimopen 1 sampleSig)]).2.map (·.action.claims)).toOption = some [some 1] := by
        decide +kernel
      rw [hok] at this
      exact Option.some.inj this
    · intro step hstep hcl habs
      obtain ⟨sig, hsig, -⟩ := (creditopen_paid_with_key [] hok [(env, .claimopen 1 sampleSig)] step hstep hcl).1 habs
      exact ⟨sig, hsig⟩

/-- **Whoever creates the account takes the deposit.** After the `creditopen` another party creates the recipient's account and
claims with its authority; the deposit is paid, though no signature at all recovers to the credited key. -/
theorem creditopen_paid_without_key :
    let steps := (run empty [(sampleEnv (fun _ => false) none, sampleOpen), (sampleEnv (fun _ => true) none, .claim 1)]).2
    steps.map (fun step => (step.action, transfers step.sent)) =
      [(sampleOpen, []), (.claim 1, [(claimAccount, sampleRecipient, ⟨100, ⟨16722, 4⟩⟩)])] ∧
    ∀ step ∈ steps, ∀ message sig, step.env.recoverPackedKey message sig = none := by
  intro steps
  refine ⟨by decide +kernel, ?_⟩
  intro step hstep message sig
  have hn : ∀ step ∈ steps, step.env.recoverPackedKey = fun _ _ => none := by
    have : steps.map (·.env.recoverPackedKey) = [fun _ _ => none, fun _ _ => none] := by
      rfl
    intro step hstep
    have hmem : step.env.recoverPackedKey ∈ steps.map (·.env.recoverPackedKey) := mem_map_of_mem hstep
    rw [this] at hmem
    simpa using hmem
  rw [hn step hstep]

end ClaimDeposits
end TheChannel

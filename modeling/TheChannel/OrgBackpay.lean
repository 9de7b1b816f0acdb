import TheChannel.Contract
/-!
# OrgBackpay — what an organisation owes its people

`ra.org`: people hold seats of a role, a month is judged by reviews, and closing the month adds what each seat earned to the
owed amounts of `accounts` and to their total in `stat`. Incoming tokens of the configured contract and symbol are paid out in
proportion to what is owed. Amounts are computed with `int64_t`; `__int128` products are exact.

The total is the sum of the rows (`run_owed`).
-/
namespace TheChannel
open Option RowMap

@[irreducible] def orgAccount : AccountName := stringToName ['r', 'a', '.', 'o', 'r', 'g']

structure OrgConfig where
  buckContract : AccountName
  buck : Symbol
  openDays : Nat
  graceDays : Nat
  nextRoleId : Nat
  nextSeatId : Nat
  deriving DecidableEq

structure OrgStat where
  owed : Asset
  paid : Asset
  deriving DecidableEq

structure OrgRole where
  kpiName : String
  kpiType : AccountName
  baseSalary : Asset
  bucketSalary : Asset
  boost : Nat
  reviewRole : Nat
  deriving DecidableEq

structure OrgSeat where
  roleId : Nat
  worker : AccountName
  granted : Nat
  deriving DecidableEq

inductive ReviewKind
  | self_
  | manager
  | peer
  deriving DecidableEq

structure OrgReview where
  roleId : Nat
  worker : AccountName
  reviewer : AccountName
  kind : ReviewKind
  rating : Nat
  proof : String
  deriving DecidableEq

structure Org where
  config : Option OrgConfig
  stat : Option OrgStat
  admins : List AccountName
  roles : RowMap Nat OrgRole
  seats : RowMap Nat OrgSeat
  reviews : RowMap (Nat × Nat) OrgReview
  accounts : RowMap AccountName Asset
  periods : List Nat

/-- What an action finds; `now` in microseconds, and whether the transfers it sends succeed. -/
structure OrgEnv extends ActionEnv where
  now : Nat
  accepts : List (AccountName × Asset) → Bool

inductive OrgAction
  | setconfig (buckContract : AccountName) (buck : Symbol)
  | addadmin (account : AccountName)
  | rmadmin (account : AccountName)
  | addrole (kpiName : String) (kpiType : AccountName) (baseSalary bucketSalary : Asset) (boost reviewRole : Nat)
  | editrole (roleId : Nat) (kpiName : String) (kpiType : AccountName) (baseSalary bucketSalary : Asset)
      (boost reviewRole : Nat)
  | grantrole (roleId : Nat) (worker : AccountName)
  | revokerole (roleId : Nat) (worker : AccountName)
  | review (reviewer : AccountName) (period roleId : Nat) (worker : AccountName) (rating : Nat) (proof : String)
  | closeperiod (period : Nat)
  | onTransfer (firstReceiver from_ to_ : AccountName) (quantity : Asset)
  deriving DecidableEq

/-! ## Dates -/

def daysFromCivil (year month day : Nat) : Int :=
  let y := if month ≤ 2 then year - 1 else year
  let era := y / 400
  let yoe := y - era * 400
  let doy := (153 * (if month > 2 then month - 3 else month + 9) + 2) / 5 + day - 1
  let doe := yoe * 365 + yoe / 4 - yoe / 100 + doy
  era * 146097 + doe - 719468

def secondsPerDay : Int := 86400

def unixFromYmd (y m d : Nat) : Nat := (daysFromCivil y m d * secondsPerDay % 2 ^ 32).toNat

def periodEndUnix (period : Nat) : Nat :=
  if period % 100 = 12 then unixFromYmd (period / 100 + 1) 1 1 else unixFromYmd (period / 100) (period % 100 + 1) 1

example : periodEndUnix 202602 = 1772323200 := by decide

def secSinceEpoch (microseconds : Nat) : Nat := microseconds / 1000000 % 2 ^ 32

namespace Org
variable (env : OrgEnv) (s : Org) {s' : Org} {c : OrgConfig} {quantity : Asset} {period : Nat}

def empty : Org := ⟨none, none, [], ∅, ∅, ∅, ∅, []⟩

def getConfig : Result OrgConfig :=
  match s.config with
  | some c => .ok c
  | none => .error (.thrown .eosioAssertMessage "config not set; call setconfig")

def getStat : Result OrgStat :=
  match s.stat with
  | some st => .ok st
  | none => .error (.thrown .eosioAssertMessage "stat not set; call setconfig")

def getRole (roleId : Nat) : Result OrgRole :=
  match s.roles.lookup roleId with
  | some r => .ok r
  | none => .error (.thrown .eosioAssertMessage "role not found")

def isAdmin (account : AccountName) : Bool := account == orgAccount || s.admins.contains account

def requireAdmin : Result Unit :=
  check (env.hasAuth orgAccount || s.admins.any env.hasAuth) "missing authority of an admin or ra.org"

def hasSeat (roleId : Nat) (worker : AccountName) : Bool :=
  s.seats.entries.any fun e => e.2.worker == worker && e.2.roleId == roleId

def countSeats (roleId : Nat) : Nat := count (fun _ seat => seat.roleId == roleId) s.seats

def countPeers (peerRole : Nat) (worker : AccountName) : Nat :=
  count (fun _ seat => seat.roleId == peerRole && seat.worker != worker && !s.isAdmin seat.worker) s.seats

def checkPeriod (period : Nat) : Result Unit :=
  check (decide (1970 ≤ period / 100 ∧ period / 100 ≤ 3000)) "period year is out of range" >>= fun _ =>
  check (decide (1 ≤ period % 100 ∧ period % 100 ≤ 12)) "period month must be 1-12"

def checkSalary (quantity : Asset) (buck : Symbol) : Result Unit :=
  check quantity.isValid "salary is invalid" >>= fun _ =>
  check (quantity.symbol == buck) "salary must be in bucks" >>= fun _ =>
  check (decide (0 ≤ quantity.amount)) "salary cannot be negative"

def writeRole (kpiName : String) (kpiType : AccountName) (baseSalary bucketSalary : Asset) (boost reviewRole : Nat)
    (buck : Symbol) : Result OrgRole :=
  check (decide (0 < kpiName.utf8ByteSize ∧ kpiName.utf8ByteSize ≤ 64)) "kpi name must be 1..64 bytes" >>= fun _ =>
  check (kpiType != 0) "kpi type required" >>= fun _ =>
  checkSalary baseSalary buck >>= fun _ =>
  checkSalary bucketSalary buck >>= fun _ =>
  check (decide (boost ≤ 10000)) "boost cannot exceed 10000 percent" >>= fun _ =>
  check (reviewRole == 0 || (s.roles.lookup reviewRole).isSome) "review role not found" >>= fun _ =>
  .ok ⟨kpiName, kpiType, baseSalary, bucketSalary, boost, reviewRole⟩

def addOwed (owner : AccountName) (quantity : Asset) : Result Org :=
  if quantity.amount ≤ 0 then .ok s
  else
    (match s.accounts.lookup owner with
      | none => .ok quantity
      | some owed => owed.add quantity) >>= fun owed =>
    s.getStat >>= fun st =>
    st.owed.add quantity >>= fun total =>
    .ok { s with accounts := s.accounts.insert owner owed, stat := some { st with owed := total } }

def peerRole (roleId reviewRole : Nat) : Nat := if reviewRole = 0 then roleId else reviewRole

def inferKind (reviewer worker : AccountName) (roleId reviewRole : Nat) : Result ReviewKind :=
  if reviewer = worker then
    check (s.hasSeat roleId worker) "worker does not hold this role" >>= fun _ => .ok .self_
  else if s.isAdmin reviewer then .ok .manager
  else
    check (s.hasSeat (peerRole roleId reviewRole) reviewer) "reviewer is not a peer for this role" >>= fun _ =>
    .ok .peer

/-! ## Actions -/

def keepIn (buck : Symbol) (a : Asset) : Result Asset := Asset.make (if a.symbol = buck then a.amount else 0) buck

def noSymbol : Symbol := ⟨0, 0⟩

def setconfig (buckContract : AccountName) (buck : Symbol) : Result Org :=
  env.requireAuth orgAccount >>= fun _ =>
  check (env.isAccount buckContract) "buck contract account does not exist" >>= fun _ =>
  check buck.isValid "invalid buck symbol" >>= fun _ =>
  let c := s.config.getD ⟨0, noSymbol, 3, 3, 1, 1⟩
  (if c.buck.isValid && (c.buck != buck || c.buckContract != buckContract) then
      s.getStat >>= fun st =>
      check (st.owed.amount == 0) "cannot change buck while backpay is owed"
    else .ok ()) >>= fun _ =>
  let st := s.stat.getD ⟨⟨0, noSymbol⟩, ⟨0, noSymbol⟩⟩
  keepIn buck st.owed >>= fun owed =>
  keepIn buck st.paid >>= fun paid =>
  .ok { s with
    config := some
      { buckContract := buckContract
        buck := buck
        openDays := if c.openDays = 0 then 3 else c.openDays
        graceDays := if c.graceDays = 0 then 3 else c.graceDays
        nextRoleId := if c.nextRoleId = 0 then 1 else c.nextRoleId
        nextSeatId := if c.nextSeatId = 0 then 1 else c.nextSeatId }
    stat := some ⟨owed, paid⟩ }

def addadmin (account : AccountName) : Result Org :=
  s.requireAdmin env >>= fun _ =>
  check (env.isAccount account) "account does not exist" >>= fun _ =>
  check (account != orgAccount) "ra.org is already an admin" >>= fun _ =>
  check (!s.admins.contains account) "admin already added" >>= fun _ =>
  .ok { s with admins := account :: s.admins }

def rmadmin (account : AccountName) : Result Org :=
  s.requireAdmin env >>= fun _ =>
  check (s.admins.contains account) "admin not found" >>= fun _ =>
  .ok { s with admins := s.admins.erase account }

def uniquenessViolated : String := "could not insert object, most likely a uniqueness constraint was violated"

def addrole (kpiName : String) (kpiType : AccountName) (baseSalary bucketSalary : Asset) (boost reviewRole : Nat) : Result Org :=
  s.requireAdmin env >>= fun _ =>
  s.getConfig >>= fun c =>
  s.writeRole kpiName kpiType baseSalary bucketSalary boost reviewRole c.buck >>= fun role =>
  check (s.roles.lookup c.nextRoleId).isNone uniquenessViolated >>= fun _ =>
  .ok { s with
    roles := s.roles.insert c.nextRoleId role
    config := some { c with nextRoleId := (c.nextRoleId + 1) % 2 ^ 64 } }

def editrole (roleId : Nat) (kpiName : String) (kpiType : AccountName) (baseSalary bucketSalary : Asset)
    (boost reviewRole : Nat) : Result Org :=
  s.requireAdmin env >>= fun _ =>
  s.getConfig >>= fun c =>
  s.getRole roleId >>= fun _ =>
  s.writeRole kpiName kpiType baseSalary bucketSalary boost reviewRole c.buck >>= fun role =>
  .ok { s with roles := s.roles.insert roleId role }

def grantrole (roleId : Nat) (worker : AccountName) : Result Org :=
  s.requireAdmin env >>= fun _ =>
  check (env.isAccount worker) "worker account does not exist" >>= fun _ =>
  s.getConfig >>= fun c =>
  s.getRole roleId >>= fun _ =>
  check (!s.hasSeat roleId worker) "worker already has this role" >>= fun _ =>
  check (s.seats.lookup c.nextSeatId).isNone uniquenessViolated >>= fun _ =>
  .ok { s with
    seats := s.seats.insert c.nextSeatId ⟨roleId, worker, env.now⟩
    config := some { c with nextSeatId := (c.nextSeatId + 1) % 2 ^ 64 } }

def revokerole (roleId : Nat) (worker : AccountName) : Result Org :=
  s.requireAdmin env >>= fun _ =>
  match (s.seats.entries.filter fun e => e.2.worker == worker && e.2.roleId == roleId).argmin Sigma.fst with
  | some e => .ok { s with seats := s.seats.erase e.1 }
  | none => .error (.thrown .eosioAssertMessage "worker does not hold this role")

def reviewIds (period roleId : Nat) (worker : AccountName) : List Nat :=
  ((s.reviews.entries.filter fun e => e.1.1 == period && e.2.roleId == roleId && e.2.worker == worker).map (·.1.2)).mergeSort

def availableReviewId (period : Nat) : Nat :=
  ((s.reviews.entries.filter fun e => e.1.1 == period).map (·.1.2 + 1)).foldl max 0

def review (reviewer : AccountName) (period roleId : Nat) (worker : AccountName) (rating : Nat) (proof : String) : Result Org :=
  env.requireAuth reviewer >>= fun _ =>
  checkPeriod period >>= fun _ =>
  check (decide (rating ≤ 10)) "rating must be 0-10" >>= fun _ =>
  check (decide (proof.utf8ByteSize ≤ 256)) "proof has more than 256 bytes" >>= fun _ =>
  check (env.isAccount worker) "worker account does not exist" >>= fun _ =>
  s.getConfig >>= fun c =>
  check (decide ((periodEndUnix period : Int) - c.openDays * secondsPerDay ≤ secSinceEpoch env.now))
    "review window has not opened" >>= fun _ =>
  check (decide ((secSinceEpoch env.now : Int) < periodEndUnix period + c.graceDays * secondsPerDay))
    "review window has closed" >>= fun _ =>
  check (!s.periods.contains period) "period is already closed" >>= fun _ =>
  s.getRole roleId >>= fun role =>
  check (s.hasSeat roleId worker) "worker does not hold this role" >>= fun _ =>
  s.inferKind reviewer worker roleId role.reviewRole >>= fun kind =>
  let existing := (s.reviewIds period roleId worker).find? fun id =>
    (s.reviews.lookup (period, id)).any (·.reviewer == reviewer)
  let id := existing.getD (s.availableReviewId period)
  .ok { s with reviews := s.reviews.insert (period, id) ⟨roleId, worker, reviewer, kind, rating, proof⟩ }

/-- The ratings of a seat: its own (the last one, or -1), and the sums and numbers of the managers' and peers'. -/
structure Ratings where
  selfRating : Int
  mgrSum : Int
  mgrN : Nat
  peerSum : Int
  peerN : Nat
  deriving DecidableEq

def Ratings.add (r : Ratings) (review : OrgReview) : Ratings :=
  match review.kind with
  | .self_ => { r with selfRating := review.rating }
  | .manager => { r with mgrSum := r.mgrSum + review.rating, mgrN := r.mgrN + 1 }
  | .peer => { r with peerSum := r.peerSum + review.rating, peerN := r.peerN + 1 }

def ratingsOf (period : Nat) (seat : OrgSeat) : Ratings :=
  ((s.reviewIds period seat.roleId seat.worker).filterMap fun id => s.reviews.lookup (period, id)).foldl Ratings.add
    ⟨-1, 0, 0, 0, 0⟩

def Ratings.weight (r : Ratings) : Int :=
  let selfTerm := (3300 * r.selfRating).tdiv 10
  let mgrTerm := (3300 * r.mgrSum).tdiv (r.mgrN * 10)
  let peerTerm := if r.peerN = 0 then 3300 else (3300 * r.peerSum).tdiv (r.peerN * 10)
  100 + selfTerm + mgrTerm + peerTerm

def startOf (roleId : Nat) (role : OrgRole) : Int :=
  let n := s.countSeats roleId
  let base := role.baseSalary.amount
  let boosted := toInt64 (base + (toInt64 (base * role.boost)).tdiv 100)
  let bucket := if 0 < n then role.bucketSalary.amount.tdiv n else 0
  toInt64 (boosted + bucket)

def closeSeat (buck : Symbol) (period : Nat) (seat : OrgSeat) : Result Org :=
  if periodEndUnix period ≤ secSinceEpoch seat.granted then .ok s
  else
    s.getRole seat.roleId >>= fun role =>
    let r := s.ratingsOf period seat
    if r.selfRating < 0 ∨ r.mgrN = 0 then .ok s
    else if r.peerN = 0 ∧ 0 < s.countPeers (peerRole seat.roleId role.reviewRole) seat.worker then .ok s
    else if s.startOf seat.roleId role ≤ 0 then .ok s
    else
      Asset.make (toInt64 ((s.startOf seat.roleId role * r.weight).tdiv 10000)) buck >>= fun owed =>
      s.addOwed seat.worker owed

def closeSeats (buck : Symbol) (period : Nat) : List OrgSeat → Org → Result Org
  | [], s => .ok s
  | seat :: l, s => s.closeSeat buck period seat >>= fun s => closeSeats buck period l s

def seatsInOrder : List OrgSeat := (s.seats.entries.map Sigma.fst).mergeSort.filterMap fun id => s.seats.lookup id

def closeperiod (period : Nat) : Result Org :=
  checkPeriod period >>= fun _ =>
  s.getConfig >>= fun c =>
  check (decide ((periodEndUnix period : Int) + c.graceDays * secondsPerDay ≤ secSinceEpoch env.now))
    "review grace has not ended" >>= fun _ =>
  check (!s.periods.contains period) "period is already closed" >>= fun _ =>
  closeSeats c.buck period s.seatsInOrder s >>= fun s =>
  .ok { s with periods := period :: s.periods }

def shareOf (pool total owed : Int) : Int := min (toInt64 ((pool * owed).tdiv total)) owed

def trickle (isAccount : AccountName → Bool) (pool total : Int) (buck : Symbol) :
    List AccountName → RowMap AccountName Asset → RowMap AccountName Asset × List (AccountName × Asset) × Int
  | [], accounts => (accounts, [], 0)
  | owner :: l, accounts =>
    match accounts.lookup owner with
    | none => trickle isAccount pool total buck l accounts
    | some owed =>
      let share := shareOf pool total owed.amount
      if owed.amount ≤ 0 ∨ share ≤ 0 ∨ isAccount owner = false then trickle isAccount pool total buck l accounts
      else
        let rest := trickle isAccount pool total buck l (accounts.insert owner { owed with amount := owed.amount - share })
        (rest.1, (owner, ⟨share, buck⟩) :: rest.2.1, rest.2.2 + share)

/-- `on_transfer`, notified by the contract `firstReceiver`. -/
def onTransfer (firstReceiver from_ to_ : AccountName) (quantity : Asset) : Result Org :=
  if to_ ≠ orgAccount ∨ from_ = orgAccount then .ok s
  else
    match s.config with
    | none => .ok s
    | some c =>
      if firstReceiver ≠ c.buckContract ∨ quantity.symbol ≠ c.buck then .ok s
      else
        check (decide (0 < quantity.amount)) "quantity must be positive" >>= fun _ =>
        s.getStat >>= fun st =>
        if st.owed.amount ≤ 0 then .ok s
        else
          let r := trickle env.isAccount quantity.amount st.owed.amount c.buck (s.accounts.entries.map Sigma.fst).mergeSort
            s.accounts
          check (env.accepts r.2.1) "inline transfer failed" >>= fun _ =>
          .ok { s with
            accounts := r.1
            stat := some
              { owed := { st.owed with amount := st.owed.amount - r.2.2 }
                paid := { st.paid with amount := toInt64 (st.paid.amount + r.2.2) } } }

def apply : OrgAction → Result Org
  | .setconfig buckContract buck => s.setconfig env buckContract buck
  | .addadmin account => s.addadmin env account
  | .rmadmin account => s.rmadmin env account
  | .addrole kpiName kpiType base bucket boost reviewRole => s.addrole env kpiName kpiType base bucket boost reviewRole
  | .editrole roleId kpiName kpiType base bucket boost reviewRole =>
    s.editrole env roleId kpiName kpiType base bucket boost reviewRole
  | .grantrole roleId worker => s.grantrole env roleId worker
  | .revokerole roleId worker => s.revokerole env roleId worker
  | .review reviewer period roleId worker rating proof => s.review env reviewer period roleId worker rating proof
  | .closeperiod period => s.closeperiod env period
  | .onTransfer firstReceiver from_ to_ quantity => s.onTransfer env firstReceiver from_ to_ quantity

def step (c : OrgEnv × OrgAction) : Org :=
  match s.apply c.1 c.2 with
  | .ok s' => s'
  | .error _ => s

def run (calls : List (OrgEnv × OrgAction)) : Org := calls.foldl step s

/-! ## The total and the rows -/

def buck : Option Symbol := s.config.map OrgConfig.buck

def totalOwed : Int := (s.stat.map (·.owed.amount)).getD 0

/-- The total is the sum of the rows, no row is negative, and what is owed is in the configured symbol. -/
structure Balanced (s : Org) : Prop where
  sum : total (fun _ a => a.amount) s.accounts = s.totalOwed
  nonneg : ∀ owner a, s.accounts.lookup owner = some a → 0 ≤ a.amount
  symbol : ∀ owner a, s.accounts.lookup owner = some a → a.amount ≠ 0 → s.buck = some a.symbol
  paired : s.stat.map (·.owed.symbol) = s.buck
  valid : ∀ b, s.buck = some b → b.isValid = true

theorem balanced_empty : Balanced empty where
  sum := rfl
  nonneg owner a h := by cases h
  symbol owner a h := by cases h
  paired := rfl
  valid b h := by cases h

variable {env s}

theorem Balanced.frame (h : Balanced s) (hacc : s'.accounts = s.accounts) (hs : s'.stat = s.stat)
    (hb : s'.buck = s.buck) : Balanced s' := by
  refine ⟨?_, ?_, ?_, ?_, ?_⟩
  · rw [hacc, totalOwed, hs]
    exact h.sum
  · rw [hacc]
    exact h.nonneg
  · rw [hacc, hb]
    exact h.symbol
  · rw [hs, hb]
    exact h.paired
  · rw [hb]
    exact h.valid

theorem getConfig_ok_iff : s.getConfig = .ok c ↔ s.config = some c := by
  unfold getConfig
  split <;> simp_all

theorem getStat_ok_iff {st : OrgStat} : s.getStat = .ok st ↔ s.stat = some st := by
  unfold getStat
  split <;> simp_all

variable {owner : AccountName}

theorem Balanced.addOwed (h : Balanced s) (hsym : s.buck = some quantity.symbol)
    (hok : s.addOwed owner quantity = .ok s') : Balanced s' ∧ s'.config = s.config := by
  unfold Org.addOwed at hok
  split at hok
  · cases hok
    exact ⟨h, rfl⟩
  rename_i hpos
  obtain ⟨owed, how, hok⟩ := bind_ok hok
  obtain ⟨st, hst, hok⟩ := bind_ok hok
  obtain ⟨total, htot, hok⟩ := bind_ok hok
  cases hok
  rw [getStat_ok_iff] at hst
  obtain ⟨-, -, rfl⟩ := Asset.add_ok_iff.1 htot
  -- the row grows by the quantity and is in its symbol
  have hrow : owed.amount = weigh (fun _ (a : Asset) => a.amount) owner (s.accounts.lookup owner) + quantity.amount ∧
      owed.symbol = quantity.symbol := by
    cases hold : s.accounts.lookup owner with
    | none =>
      rw [hold] at how
      cases how
      exact ⟨(Int.zero_add _).symm, rfl⟩
    | some a =>
      rw [hold] at how
      obtain ⟨hs, -, rfl⟩ := Asset.add_ok_iff.1 how
      exact ⟨rfl, hs.symm⟩
  have hw : 0 ≤ weigh (fun _ (a : Asset) => a.amount) owner (s.accounts.lookup owner) := by
    cases hold : s.accounts.lookup owner with
    | none => exact le_rfl
    | some a => exact h.nonneg owner a hold
  refine ⟨⟨?_, ?_, ?_, ?_, h.valid⟩, rfl⟩
  · have hsum := h.sum
    simp only [totalOwed, hst, map_some, getD_some] at hsum ⊢
    rw [total_insert, hsum, hrow.1]
    ring
  · intro o a ha
    rcases lookup_insert_some ha with ⟨-, rfl⟩ | ⟨-, ha⟩
    · omega
    · exact h.nonneg o a ha
  · intro o a ha hne
    rcases lookup_insert_some ha with ⟨-, rfl⟩ | ⟨-, ha⟩
    · rw [hrow.2]
      exact hsym
    · exact h.symbol o a ha hne
  · have := h.paired
    rw [hst] at this
    exact this

theorem Balanced.closeSeat (h : Balanced s) (hc : s.config = some c) {seat : OrgSeat}
    (hok : s.closeSeat c.buck period seat = .ok s') : Balanced s' ∧ s'.config = s.config := by
  unfold Org.closeSeat at hok
  split at hok
  · cases hok
    exact ⟨h, rfl⟩
  obtain ⟨role, -, hok⟩ := bind_ok hok
  dsimp only at hok
  split at hok
  · cases hok
    exact ⟨h, rfl⟩
  split at hok
  · cases hok
    exact ⟨h, rfl⟩
  split at hok
  · cases hok
    exact ⟨h, rfl⟩
  obtain ⟨owed, how, hok⟩ := bind_ok hok
  obtain ⟨-, -, rfl⟩ := Asset.make_ok_iff.1 how
  exact h.addOwed (by rw [Org.buck, hc]; rfl) hok

theorem Balanced.closeSeats : ∀ {l} {s : Org}, Balanced s → s.config = some c →
    Org.closeSeats c.buck period l s = .ok s' → Balanced s' ∧ s'.config = some c
  | [], s, h, hc, hok => by
    cases hok
    exact ⟨h, hc⟩
  | seat :: l, s, h, hc, hok => by
    obtain ⟨s1, hs, hok⟩ := bind_ok hok
    obtain ⟨h1, hc1⟩ := h.closeSeat hc hs
    exact h1.closeSeats (hc1.trans hc) hok

theorem shareOf_le (pool total owed : Int) : shareOf pool total owed ≤ owed := min_le_right _ _

theorem trickle_rows (isAccount : AccountName → Bool) (pool total : Int) (buck : Symbol) :
    ∀ l accounts,
      (∀ owner a, accounts.lookup owner = some a → 0 ≤ a.amount) →
      RowMap.total (fun _ a => a.amount) (trickle isAccount pool total buck l accounts).1 =
        RowMap.total (fun _ a => a.amount) accounts - (trickle isAccount pool total buck l accounts).2.2 ∧
      ∀ owner a', (trickle isAccount pool total buck l accounts).1.lookup owner = some a' → 0 ≤ a'.amount ∧
        ∃ a, accounts.lookup owner = some a ∧ a'.symbol = a.symbol ∧ (a'.amount ≠ 0 → a.amount ≠ 0)
  | [], accounts, h => ⟨(Int.sub_zero _).symm, fun owner a ha => ⟨h owner a ha, a, ha, rfl, id⟩⟩
  | owner :: l, accounts, h => by
    unfold trickle
    cases hrow : accounts.lookup owner with
    | none => exact trickle_rows isAccount pool total buck l accounts h
    | some owed =>
      dsimp only
      split
      · exact trickle_rows isAccount pool total buck l accounts h
      rename_i hp
      have hs := shareOf_le pool total owed.amount
      generalize shareOf pool total owed.amount = share at hp hs ⊢
      have hn : ∀ o a, (accounts.insert owner { owed with amount := owed.amount - share }).lookup o = some a →
          0 ≤ a.amount := by
        intro o a ha
        rcases lookup_insert_some ha with ⟨-, rfl⟩ | ⟨-, ha⟩
        · dsimp only
          omega
        · exact h o a ha
      obtain ⟨hsum, hr⟩ := trickle_rows isAccount pool total buck l _ hn
      refine ⟨?_, ?_⟩
      · rw [hsum, total_insert, hrow, weigh_some]
        ring
      · intro o a' ha'
        obtain ⟨ha0, a, ha, hsym, hne⟩ := hr o a' ha'
        refine ⟨ha0, ?_⟩
        rcases lookup_insert_some ha with ⟨ho, rfl⟩ | ⟨-, ha⟩
        · refine ⟨owed, ho ▸ hrow, hsym, fun _ => ?_⟩
          omega
        · exact ⟨a, ha, hsym, hne⟩

theorem Balanced.onTransfer (h : Balanced s) {firstReceiver from_ to_ : AccountName}
    (hok : s.onTransfer env firstReceiver from_ to_ quantity = .ok s') : Balanced s' := by
  unfold Org.onTransfer at hok
  split at hok
  · cases hok
    exact h
  split at hok
  · cases hok
    exact h
  split at hok
  · cases hok
    exact h
  replace hok := rest_ok hok
  obtain ⟨st, hst, hok⟩ := bind_ok hok
  split at hok
  · cases hok
    exact h
  replace hok := rest_ok hok
  cases hok
  rw [getStat_ok_iff] at hst
  obtain ⟨hsum, hr⟩ := trickle_rows env.isAccount quantity.amount st.owed.amount _
    (s.accounts.entries.map Sigma.fst).mergeSort s.accounts h.nonneg
  refine ⟨?_, fun owner a ha => (hr owner a ha).1, ?_, ?_, h.valid⟩
  · have := h.sum
    simp only [totalOwed, hst, map_some, getD_some] at this ⊢
    rw [hsum, this]
  · intro owner a' ha' hne
    obtain ⟨-, a, ha, hsym, hne'⟩ := hr owner a' ha'
    rw [hsym]
    exact h.symbol owner a ha (hne' hne)
  · have := h.paired
    rw [hst] at this
    exact this

variable {buck : Symbol}

theorem Balanced.setconfig (h : Balanced s) {buckContract : AccountName}
    (hok : s.setconfig env buckContract buck = .ok s') : Balanced s' := by
  iterate 2 replace hok := rest_ok hok
  obtain ⟨hval, hok⟩ := check_ok hok
  obtain ⟨u, hch, hok⟩ := bind_ok hok
  obtain ⟨owed, how, hok⟩ := bind_ok hok
  obtain ⟨paid, -, hok⟩ := bind_ok hok
  cases hok
  have ho' : owed = _ := (Asset.make_ok_iff.1 how).2.2
  -- either the symbol stays, or nothing is owed
  have hca : s.buck = some buck ∨ s.totalOwed = 0 := by
    cases hc : s.config with
    | none =>
      right
      have hp := h.paired
      rw [Org.buck, hc, map_none, map_eq_none_iff] at hp
      rw [totalOwed, hp]
      rfl
    | some c =>
      by_cases hs : c.buck = buck
      · left
        rw [Org.buck, hc, map_some, hs]
      · right
        have hcv : c.buck.isValid = true := h.valid c.buck (by rw [Org.buck, hc]; rfl)
        simp only [hc, getD_some, hcv, Bool.true_and, bne_iff_ne, ne_eq, hs, not_false_eq_true, Bool.or_eq_true,
          true_or, if_true] at hch
        obtain ⟨st, hst, hz⟩ := bind_ok hch
        rw [getStat_ok_iff] at hst
        rw [check_ok_iff, beq_iff_eq] at hz
        rw [totalOwed, hst, map_some, getD_some, hz]
  have ham : owed.amount = s.totalOwed := by
    rw [ho']
    cases hst : s.stat with
    | none => simp [totalOwed, hst]
    | some st =>
      have hp := h.paired
      rw [hst, map_some] at hp
      simp only [totalOwed, hst, map_some, getD_some] at hca ⊢
      rcases hca with hs | hz
      · rw [← hp, Option.some.injEq] at hs
        rw [if_pos hs]
      · rw [hz]
        split <;> rfl
  refine ⟨?_, h.nonneg, ?_, ?_, ?_⟩
  · rw [h.sum, ← ham]
    rfl
  · intro owner a ha hne
    rcases hca with hs | hz
    · rw [← h.symbol owner a ha hne, hs]
      rfl
    · have hle := weigh_le_total (w := fun _ (a : Asset) => a.amount) h.nonneg owner
      rw [ha, weigh_some, h.sum, hz] at hle
      have := h.nonneg owner _ ha
      omega
  · rw [ho']
    rfl
  · intro b hb
    cases hb
    exact hval

theorem Balanced.apply (h : Balanced s) {action : OrgAction} (hok : s.apply env action = .ok s') : Balanced s' := by
  cases action with
  | setconfig buckContract buck => exact h.setconfig hok
  | addadmin account =>
    obtain ⟨-, -, hok⟩ := bind_ok hok
    iterate 3 replace hok := rest_ok hok
    cases hok
    exact h.frame rfl rfl rfl
  | rmadmin account =>
    obtain ⟨-, -, hok⟩ := bind_ok hok
    replace hok := rest_ok hok
    cases hok
    exact h.frame rfl rfl rfl
  | addrole kpiName kpiType base bucket boost reviewRole =>
    obtain ⟨-, -, hok⟩ := bind_ok hok
    obtain ⟨c, hc, hok⟩ := bind_ok hok
    obtain ⟨role, -, hok⟩ := bind_ok hok
    replace hok := rest_ok hok
    cases hok
    exact h.frame rfl rfl (by rw [Org.buck, Org.buck, getConfig_ok_iff.1 hc]; rfl)
  | editrole roleId kpiName kpiType base bucket boost reviewRole =>
    obtain ⟨-, -, hok⟩ := bind_ok hok
    obtain ⟨c, -, hok⟩ := bind_ok hok
    obtain ⟨-, -, hok⟩ := bind_ok hok
    obtain ⟨role, -, hok⟩ := bind_ok hok
    cases hok
    exact h.frame rfl rfl rfl
  | grantrole roleId worker =>
    obtain ⟨-, -, hok⟩ := bind_ok hok
    replace hok := rest_ok hok
    obtain ⟨c, hc, hok⟩ := bind_ok hok
    obtain ⟨-, -, hok⟩ := bind_ok hok
    iterate 2 replace hok := rest_ok hok
    cases hok
    exact h.frame rfl rfl (by rw [Org.buck, Org.buck, getConfig_ok_iff.1 hc]; rfl)
  | revokerole roleId worker =>
    obtain ⟨-, -, hok⟩ := bind_ok hok
    split at hok
    · cases hok
      exact h.frame rfl rfl rfl
    · cases hok
  | review reviewer period roleId worker rating proof =>
    replace hok := rest_ok hok
    obtain ⟨-, -, hok⟩ := bind_ok hok
    iterate 3 replace hok := rest_ok hok
    obtain ⟨c, -, hok⟩ := bind_ok hok
    iterate 3 replace hok := rest_ok hok
    obtain ⟨role, -, hok⟩ := bind_ok hok
    replace hok := rest_ok hok
    obtain ⟨kind, -, hok⟩ := bind_ok hok
    cases hok
    exact h.frame rfl rfl rfl
  | closeperiod period =>
    obtain ⟨-, -, hok⟩ := bind_ok hok
    obtain ⟨c, hc, hok⟩ := bind_ok hok
    iterate 2 replace hok := rest_ok hok
    obtain ⟨s1, hs, hok⟩ := bind_ok hok
    cases hok
    exact (h.closeSeats (getConfig_ok_iff.1 hc) hs).1.frame rfl rfl rfl
  | onTransfer firstReceiver from_ to_ quantity => exact h.onTransfer hok

theorem Balanced.step (h : Balanced s) (c : OrgEnv × OrgAction) : Balanced (s.step c) := by
  unfold Org.step
  cases hok : s.apply c.1 c.2 with
  | ok s' => exact h.apply hok
  | error e => exact h

theorem Balanced.run (calls : List (OrgEnv × OrgAction)) : ∀ {s : Org}, Balanced s → Balanced (s.run calls) := by
  induction calls with
  | nil => exact fun h => h
  | cons c calls ih => exact fun h => ih (h.step c)

/-- **The debt ledger.** After every sequence of actions and incoming transfers, the total that `stat` has is the sum of the
owed amounts of all rows, no row is negative, and every row that is not zero is in the configured symbol. -/
theorem run_owed (calls : List (OrgEnv × OrgAction)) : let s := empty.run calls
    (s.stat.map (·.owed.amount)).getD 0 = total (fun _ a => a.amount) s.accounts ∧
    ∀ owner a, s.accounts.lookup owner = some a →
      0 ≤ a.amount ∧ (a.amount ≠ 0 → ∃ c, s.config = some c ∧ a.symbol = c.buck) := by
  intro s
  have h : Balanced s := balanced_empty.run calls
  refine ⟨h.sum.symm, fun owner a ha => ⟨h.nonneg owner a ha, fun hne => ?_⟩⟩
  obtain ⟨c, hc, hb⟩ := map_eq_some_iff.1 (h.symbol owner a ha hne)
  exact ⟨c, hc, hb.symm⟩

end Org
end TheChannel

import TheChannel.RaTokenLedger
/-!
# NameBidding — auctions of short names

`bidname`, `bidrefund`, the closing of an auction in `onblock` and the claim of a name in `newaccount`, over the tables
`namebids` and `bidrefunds` and the token ledger. A high bid below 0 is that of a closed auction. An action and the
transfers it sends are one step. The events say which auctions a step closes, with the amount sent to the fee account, and
which it removes as claimed.

The money of `ra.names` is the open high bids and the refunds, and `ra.fees` gets each winning bid (`run_money`).
-/
namespace TheChannel
open RowMap List

structure NameBid where
  highBidder : AccountName
  highBid : Int
  lastBidTime : Int
  deriving DecidableEq

structure Auctions where
  bids : RowMap AccountName NameBid
  refunds : RowMap (AccountName × AccountName) Asset
  lastProducerScheduleUpdate : Nat
  lastNameClose : Nat
  token : Token

inductive AuctionEvent
  | sentToFees (newname : AccountName) (bid : Int)
  | claimed (newname : AccountName) (bid : Int)
  deriving DecidableEq

def blocksPerDay : Nat := 2 * (24 * 3600)
def usecondsPerDay : Int := 24 * 3600 * 1000000

def slotsSince (slot earlier : Nat) : Nat := (slot + 2 ^ 32 - earlier) % 2 ^ 32

/-- A key of the index `highbid`: minus the high bid as a `uint64_t`. -/
def NameBid.byHighBid (b : NameBid) : Nat := (-b.highBid % 2 ^ 64).toNat

namespace Auctions
variable (core : Symbol) (env : ActionEnv) (now : Int) (s : Auctions) {s' : Auctions} {events : List AuctionEvent}
  {newname bidder creator : AccountName} {b : NameBid}

def addRefund (refunds : RowMap (AccountName × AccountName) Asset) (key : AccountName × AccountName) (amount : Asset) :
    Result (RowMap (AccountName × AccountName) Asset) :=
  match refunds.lookup key with
  | some refund => refund.add amount >>= fun refund => .ok (refunds.insert key refund)
  | none => .ok (refunds.insert key amount)

def placeBid (bidder newname : AccountName) (bid : Asset) : Result Auctions :=
  match s.bids.lookup newname with
  | none => .ok { s with bids := s.bids.insert newname ⟨bidder, bid.amount, now⟩ }
  | some current =>
    check (decide (0 < current.highBid)) "this auction has already closed" >>= fun _ =>
    check (decide (current.highBid.tdiv 10 < bid.amount - current.highBid)) "must increase bid by 10%" >>= fun _ =>
    check (current.highBidder != bidder) "account is already highest bidder" >>= fun _ =>
    addRefund s.refunds (newname, current.highBidder) ⟨current.highBid, core⟩ >>= fun refunds =>
    .ok { s with bids := s.bids.insert newname ⟨bidder, bid.amount, now⟩, refunds := refunds }

def bidname (bidder newname : AccountName) (bid : Asset) : Result Auctions :=
  env.requireAuth bidder >>= fun _ =>
  check (nameSuffix newname == newname) "you can only bid on top-level suffix" >>= fun _ =>
  check (newname != 0) "the empty name is not a valid account name to bid on" >>= fun _ =>
  check (newname &&& 0xf == 0) "13 character names are not valid account names to bid on" >>= fun _ =>
  check (newname &&& 0x1f0 == 0)
    "accounts with 12 character names and no dots can be created without bidding required" >>= fun _ =>
  check (!env.isAccount newname) "account already exists" >>= fun _ =>
  check (bid.symbol == core) "asset must be system token" >>= fun _ =>
  check (decide (0 < bid.amount)) "insufficient bid" >>= fun _ =>
  s.placeBid core now bidder newname bid >>= fun s =>
  s.token.inlineTransfer env.isAccount bidder namesAccount bid
    (String.ofList ("bid name ".toList ++ nameToString newname)) >>= fun token =>
  .ok { s with token := token }

def bidrefund (bidder newname : AccountName) : Result Auctions :=
  match s.refunds.lookup (newname, bidder) with
  | none => .error (.thrown .eosioAssertMessage "refund not found")
  | some amount =>
    s.token.inlineTransfer env.isAccount namesAccount bidder amount
      (String.ofList ("refund bid on name ".toList ++ nameToString newname)) >>= fun token =>
    .ok { s with refunds := s.refunds.erase (newname, bidder), token := token }

/-- `idx.lower_bound( std::numeric_limits<uint64_t>::max()/2 )`: rows with the same high bid are in the order of their
names. -/
def highest : Option (Sigma fun _ : AccountName => NameBid) :=
  (s.bids.entries.filter (fun e => decide (2 ^ 63 - 1 ≤ e.2.byHighBid))).argmin (fun e => e.2.byHighBid * 2 ^ 64 + e.1)

def closable (threshActivatedStakeTime : Int) (b : NameBid) : Bool :=
  decide (0 < b.highBid) && decide (usecondsPerDay < now - b.lastBidTime) && decide (0 < threshActivatedStakeTime) &&
    decide (14 * usecondsPerDay < now - threshActivatedStakeTime)

def closeHighest (threshActivatedStakeTime : Int) (slot : Nat) : Result (Auctions × List AuctionEvent) :=
  match s.highest with
  | none => .ok (s, [])
  | some e =>
    if closable now threshActivatedStakeTime e.2 then
      s.token.inlineTransfer env.isAccount namesAccount feesAccount ⟨e.2.highBid, core⟩
        "transfer from ra.names to ra.fees" >>= fun token =>
      .ok ({ s with
        bids := s.bids.insert e.1 { e.2 with highBid := -e.2.highBid }
        lastNameClose := slot
        token := token }, [.sentToFees e.1 e.2.highBid])
    else .ok (s, [])

def onblock (threshActivatedStakeTime : Int) (slot : Nat) : Result (Auctions × List AuctionEvent) :=
  env.requireAuth systemAccountName >>= fun _ =>
  if threshActivatedStakeTime = 0 then .ok (s, [])
  else if slotsSince slot s.lastProducerScheduleUpdate ≤ 120 then .ok (s, [])
  else if slotsSince slot s.lastNameClose ≤ blocksPerDay then .ok ({ s with lastProducerScheduleUpdate := slot }, [])
  else closeHighest core env now { s with lastProducerScheduleUpdate := slot } threshActivatedStakeTime slot

def hasDot (name : AccountName) : Bool := (List.range 12).any (fun i => (name >>> 4 >>> (5 * i)) &&& 0x1f == 0)

def claim (creator newAccountName : AccountName) : Result (Auctions × List AuctionEvent) :=
  match s.bids.lookup newAccountName with
  | none => .error (.thrown .eosioAssertMessage "no active bid for name")
  | some current =>
    check (current.highBidder == creator) "only highest bidder can claim" >>= fun _ =>
    check (decide (current.highBid < 0)) "auction for name is not closed yet" >>= fun _ =>
    .ok ({ s with bids := s.bids.erase newAccountName }, [.claimed newAccountName (-current.highBid)])

/-- What `newaccount` does for the auctions; an account that exists is refused before the contract runs. -/
def newaccount (creator newAccountName : AccountName) : Result (Auctions × List AuctionEvent) :=
  eosAssert (!env.isAccount newAccountName) .accountNameExists
    "Cannot create account named ${name}, as that name is already taken" >>= fun _ =>
  if creator ≠ systemAccountName ∧ hasDot newAccountName = true then
    if nameSuffix newAccountName = newAccountName then s.claim creator newAccountName
    else
      check (creator == nameSuffix newAccountName) "only suffix may create this account" >>= fun _ =>
      .ok (s, [])
  else .ok (s, [])

inductive Action
  | bidname (bidder newname : AccountName) (bid : Asset)
  | bidrefund (bidder newname : AccountName)
  | onblock (threshActivatedStakeTime : Int) (slot : Nat)
  | newaccount (creator newAccountName : AccountName)

def Action.bidsFor (account : AccountName) : Action → Bool
  | .bidname bidder _ _ | .bidrefund bidder _ => bidder == account
  | .onblock .. | .newaccount .. => false

def apply : Action → Result (Auctions × List AuctionEvent)
  | .bidname bidder newname bid => (s.bidname core env now bidder newname bid).map (·, [])
  | .bidrefund bidder newname => (s.bidrefund env bidder newname).map (·, [])
  | .onblock threshActivatedStakeTime slot => s.onblock core env now threshActivatedStakeTime slot
  | .newaccount creator newAccountName => s.newaccount env creator newAccountName

def step (core : Symbol) (r : Auctions × List AuctionEvent) (a : ActionEnv × Int × Action) : Auctions × List AuctionEvent :=
  match r.1.apply core a.1 a.2.1 a.2.2 with
  | .ok r' => (r'.1, r.2 ++ r'.2)
  | .error _ => r

def run (actions : List (ActionEnv × Int × Action)) : Auctions × List AuctionEvent := actions.foldl (step core) (s, [])

/-! ## The books -/

def openBids : Int := total (fun _ b => max b.highBid 0) s.bids

def pendingRefunds : Int := total (fun _ a => a.amount) s.refunds

def closedBid (newname : AccountName) : List Int :=
  match s.bids.lookup newname with
  | none => []
  | some b => if b.highBid < 0 then [-b.highBid] else []

def sent (newname : AccountName) (events : List AuctionEvent) : List Int :=
  events.flatMap fun
    | .sentToFees n bid => if n = newname then [bid] else []
    | .claimed _ _ => []

def claims (newname : AccountName) (events : List AuctionEvent) : List Int :=
  events.flatMap fun
    | .sentToFees _ _ => []
    | .claimed n bid => if n = newname then [bid] else []

def toFees (events : List AuctionEvent) : Int :=
  (events.map fun
    | .sentToFees _ bid => bid
    | .claimed _ _ => 0).sum

/-- **The money of the auctions**: refunds are in the core symbol, and `ra.names` has the open bids and the refunds. -/
structure Money (s : Auctions) : Prop where
  symbol : ∀ key amount, s.refunds.lookup key = some amount → amount.symbol = core
  held : s.token.balance namesAccount core.code = s.openBids + s.pendingRefunds

/-! ## What the actions do to the books -/

variable {core env now s}

theorem openBids_insert (h : s'.bids = s.bids.insert newname b) :
    s'.openBids = s.openBids - weigh (fun _ b => max b.highBid 0) newname (s.bids.lookup newname) + max b.highBid 0 := by
  unfold openBids
  rw [h, total_insert]

theorem closedBid_insert (h : s'.bids = s.bids.insert newname b) (n : AccountName) :
    s'.closedBid n = if n = newname then (if b.highBid < 0 then [-b.highBid] else []) else s.closedBid n := by
  unfold closedBid
  rw [h, lookup_insert_ite]
  by_cases hn : n = newname
  · rw [if_pos hn, if_pos hn]
  · rw [if_neg hn, if_neg hn]

theorem addRefund_ok {refunds refunds' : RowMap (AccountName × AccountName) Asset} {key : AccountName × AccountName}
    {amount : Asset} (h : addRefund refunds key amount = .ok refunds') :
    total (fun _ a => a.amount) refunds' = total (fun _ a => a.amount) refunds + amount.amount ∧
      ∃ total, total.symbol = amount.symbol ∧ refunds' = refunds.insert key total := by
  unfold addRefund at h
  cases hrow : refunds.lookup key with
  | none =>
    rw [hrow] at h
    cases h
    refine ⟨?_, amount, rfl, rfl⟩
    rw [total_insert, hrow, weigh_none, Int.sub_zero]
  | some refund =>
    rw [hrow] at h
    obtain ⟨total, htot, h⟩ := bind_ok h
    obtain ⟨hsym, -, rfl⟩ := Asset.add_ok_iff.1 htot
    cases h
    refine ⟨?_, ⟨refund.amount + amount.amount, refund.symbol⟩, hsym.symm, rfl⟩
    rw [total_insert, hrow, weigh_some]
    dsimp only
    omega

theorem placeBid_ok {bid : Asset} (h : s.placeBid core now bidder newname bid = .ok s') (hpos : 0 < bid.amount) :
    s'.token = s.token ∧ s'.openBids + s'.pendingRefunds = s.openBids + s.pendingRefunds + bid.amount ∧
      ((∀ key amount, s.refunds.lookup key = some amount → amount.symbol = core) →
        ∀ key amount, s'.refunds.lookup key = some amount → amount.symbol = core) ∧
      ∀ n, s'.closedBid n = s.closedBid n := by
  unfold placeBid at h
  have hon : (if bid.amount < 0 then [-bid.amount] else []) = [] := if_neg (not_lt.2 hpos.le)
  cases hrow : s.bids.lookup newname with
  | none =>
    rw [hrow] at h
    cases h
    refine ⟨rfl, ?_, id, fun n => ?_⟩
    · rw [openBids_insert rfl, hrow, weigh_none]
      show _ - 0 + max bid.amount 0 + s.pendingRefunds = _
      omega
    · rw [closedBid_insert rfl]
      split
      · rename_i hn
        rw [hn, closedBid, hrow]
        exact hon
      · rfl
  | some current =>
    rw [hrow] at h
    obtain ⟨hcu, h⟩ := check_ok h
    iterate 2 replace h := rest_ok h
    obtain ⟨refunds, href, h⟩ := bind_ok h
    cases h
    obtain ⟨htot, total, hsym, rfl⟩ := addRefund_ok href
    have hcu := of_decide_eq_true hcu
    refine ⟨rfl, ?_, fun hall key amount hk => ?_, fun n => ?_⟩
    · rw [openBids_insert rfl, hrow, weigh_some]
      unfold pendingRefunds
      dsimp only at htot ⊢
      omega
    · rcases lookup_insert_some hk with ⟨-, rfl⟩ | ⟨-, hk⟩
      · exact hsym
      · exact hall key amount hk
    · rw [closedBid_insert rfl]
      split
      · rename_i hn
        rw [hn, closedBid, hrow]
        exact hon.trans (if_neg (not_lt.2 hcu.le)).symm
      · rfl

/-- What a step does to the money and to the winning bids of each name. `apart` says that `ra.fees` itself does not bid. -/
structure Keeps (core : Symbol) (apart : Prop) (s s' : Auctions) (events : List AuctionEvent) : Prop where
  money : Money core s → Money core s'
  fees : Money core s → apart →
    s'.token.balance feesAccount core.code = s.token.balance feesAccount core.code + toFees events
  once : ∀ newname, s.closedBid newname ++ sent newname events = claims newname events ++ s'.closedBid newname

variable {apart : Prop}

theorem fees_ne_names : feesAccount ≠ namesAccount := by decide +kernel

theorem Keeps.same (hb : s'.bids = s.bids) (href : s'.refunds = s.refunds) (htok : s'.token = s.token) :
    Keeps core apart s s' [] where
  money := fun M => by
    refine ⟨href ▸ M.symbol, ?_⟩
    unfold openBids pendingRefunds
    rw [htok, hb, href]
    exact M.held
  fees := fun _ _ => by
    rw [htok]
    exact (Int.add_zero _).symm
  once := fun n => by
    unfold closedBid
    rw [hb]
    exact append_nil _

theorem Keeps.bidname {bid : Asset} (h : s.bidname core env now bidder newname bid = .ok s')
    (hap : apart → bidder ≠ feesAccount) : Keeps core apart s s' [] := by
  iterate 6 replace h := rest_ok h
  obtain ⟨hsym, h⟩ := check_ok h
  obtain ⟨hpos, h⟩ := check_ok h
  obtain ⟨s1, hp, h⟩ := bind_ok h
  obtain ⟨token, ht, h⟩ := bind_ok h
  cases h
  obtain ⟨htok, hb, hs, hcl⟩ := placeBid_ok hp (of_decide_eq_true hpos)
  have hbal := Token.transfer_balance ht namesAccount
  have hfee := Token.transfer_balance ht feesAccount
  have hne := (Token.transfer_ok ht).1
  rw [if_pos rfl, if_neg (Ne.symm hne), htok, beq_iff_eq.1 hsym] at hbal
  refine ⟨fun M => ⟨hs M.symbol, ?_⟩, fun _ ha => ?_, fun n => ?_⟩
  · show token.balance namesAccount core.code = s1.openBids + s1.pendingRefunds
    rw [hbal, hb, M.held]
    omega
  · rw [if_neg fees_ne_names, if_neg (Ne.symm (hap ha)), htok, beq_iff_eq.1 hsym, Int.add_zero, Int.sub_zero] at hfee
    exact hfee.trans (Int.add_zero _).symm
  · exact (append_nil _).trans (hcl n).symm

theorem Keeps.bidrefund (h : s.bidrefund env bidder newname = .ok s') (hap : apart → bidder ≠ feesAccount) :
    Keeps core apart s s' [] := by
  unfold Auctions.bidrefund at h
  split at h
  · cases h
  rename_i amount hrow
  obtain ⟨token, ht, h⟩ := bind_ok h
  cases h
  refine ⟨fun M => ⟨fun key a ha => ?_, ?_⟩, fun M ha => ?_, fun n => append_nil _⟩
  · exact M.symbol key a (lookup_erase_some ha).2
  · have hbal := Token.transfer_balance ht namesAccount
    rw [if_pos rfl, if_neg (Token.transfer_ok ht).1, M.symbol _ _ hrow, M.held] at hbal
    unfold pendingRefunds
    rw [total_erase, hrow, weigh_some]
    refine hbal.trans ?_
    show _ = s.openBids + _
    unfold pendingRefunds
    omega
  · have hfee := Token.transfer_balance ht feesAccount
    rw [if_neg (Ne.symm (hap ha)), if_neg fees_ne_names, M.symbol _ _ hrow, Int.add_zero, Int.sub_zero] at hfee
    exact hfee.trans (Int.add_zero _).symm

theorem Keeps.closeHighest {time : Int} {slot : Nat} (h : s.closeHighest core env now time slot = .ok (s', events)) :
    Keeps core apart s s' events := by
  unfold Auctions.closeHighest at h
  cases htop : s.highest with
  | none =>
    rw [htop] at h
    cases h
    exact Keeps.same rfl rfl rfl
  | some e =>
    rw [htop] at h
    dsimp only at h
    split at h
    · rename_i hcl
      obtain ⟨token, ht, h⟩ := bind_ok h
      cases h
      simp only [closable, Bool.and_eq_true, decide_eq_true_eq] at hcl
      obtain ⟨⟨⟨hpos, -⟩, -⟩, -⟩ := hcl
      have hrow := mem_entries_iff.1 (mem_of_mem_filter (argmin_mem htop))
      refine ⟨fun M => ⟨M.symbol, ?_⟩, fun _ _ => ?_, fun n => ?_⟩
      · have hbal := Token.transfer_balance ht namesAccount
        rw [if_pos rfl, if_neg (Token.transfer_ok ht).1, M.held] at hbal
        rw [openBids_insert rfl, hrow, weigh_some]
        refine hbal.trans ?_
        show _ = _ + s.pendingRefunds
        dsimp only
        omega
      · have hfee := Token.transfer_balance ht feesAccount
        rw [if_pos rfl, if_neg fees_ne_names, Int.sub_zero] at hfee
        rw [toFees, map_singleton, sum_singleton]
        exact hfee
      · refine Eq.trans ?_ (congrArg _ (closedBid_insert rfl n).symm)
        by_cases hn : n = e.1
        · subst hn
          rw [if_pos rfl, closedBid, hrow]
          simp [sent, claims, hpos, not_lt.2 hpos.le]
        · rw [if_neg hn]
          simp [sent, claims, Ne.symm hn]
    · cases h
      exact Keeps.same rfl rfl rfl

theorem Keeps.onblock {time : Int} {slot : Nat} (h : s.onblock core env now time slot = .ok (s', events)) :
    Keeps core apart s s' events := by
  replace h := rest_ok h
  split at h
  · cases h
    exact Keeps.same rfl rfl rfl
  split at h
  · cases h
    exact Keeps.same rfl rfl rfl
  split at h
  · cases h
    exact Keeps.same rfl rfl rfl
  · obtain ⟨hm, hfee, hon⟩ := Keeps.closeHighest h
    exact ⟨fun M => hm ⟨M.symbol, M.held⟩, fun M => hfee ⟨M.symbol, M.held⟩, hon⟩

theorem Keeps.claim (h : s.claim creator newname = .ok (s', events)) : Keeps core apart s s' events := by
  unfold Auctions.claim at h
  split at h
  · cases h
  rename_i current hrow
  replace h := rest_ok h
  obtain ⟨hneg, h⟩ := check_ok h
  cases h
  have hneg := of_decide_eq_true hneg
  refine ⟨fun M => ⟨M.symbol, ?_⟩, fun _ _ => (Int.add_zero _).symm, fun n => ?_⟩
  · unfold openBids
    rw [total_erase, hrow, weigh_some, max_eq_right hneg.le, Int.sub_zero]
    exact M.held
  · unfold closedBid
    rw [lookup_erase_ite]
    by_cases hn : n = newname
    · subst hn
      simp [sent, claims, hrow, hneg]
    · simp [sent, claims, hn, Ne.symm hn]

theorem Keeps.newaccount (h : s.newaccount env creator newname = .ok (s', events)) : Keeps core apart s s' events := by
  replace h := rest_ok h
  split at h
  · split at h
    · exact Keeps.claim h
    · replace h := rest_ok h
      cases h
      exact Keeps.same rfl rfl rfl
  · cases h
    exact Keeps.same rfl rfl rfl

theorem Keeps.apply {a : Action} (h : s.apply core env now a = .ok (s', events))
    (hap : apart → a.bidsFor feesAccount = false) : Keeps core apart s s' events := by
  cases a with
  | bidname bidder newname bid =>
    obtain ⟨s1, hb, h⟩ := map_ok_iff.1 h
    cases h
    exact Keeps.bidname hb fun ha => beq_eq_false_iff_ne.1 (hap ha)
  | bidrefund bidder newname =>
    obtain ⟨s1, href, h⟩ := map_ok_iff.1 h
    cases h
    exact Keeps.bidrefund href fun ha => beq_eq_false_iff_ne.1 (hap ha)
  | onblock time slot => exact Keeps.onblock h
  | newaccount creator newAccountName => exact Keeps.newaccount h

theorem Keeps.step {r : Auctions × List AuctionEvent} (K : Keeps core apart s r.1 r.2) {a : ActionEnv × Int × Action}
    (hap : apart → a.2.2.bidsFor feesAccount = false) : Keeps core apart s (Auctions.step core r a).1 (Auctions.step core r a).2 := by
  unfold Auctions.step
  cases h : r.1.apply core a.1 a.2.1 a.2.2 with
  | error e => exact K
  | ok r' =>
    have K' := Keeps.apply h hap
    refine ⟨fun M => K'.money (K.money M), fun M ha => ?_, fun n => ?_⟩
    · rw [K'.fees (K.money M) ha, K.fees M ha, toFees, toFees, toFees, map_append, sum_append, Int.add_assoc]
    have hon := K'.once n
    -- the closed bid in the middle is moved from the claims to what was sent
    calc s.closedBid n ++ sent n (r.2 ++ r'.2) = (s.closedBid n ++ sent n r.2) ++ sent n r'.2 := by simp [sent]
      _ = claims n r.2 ++ (r.1.closedBid n ++ sent n r'.2) := by rw [K.once n, append_assoc]
      _ = claims n (r.2 ++ r'.2) ++ r'.1.closedBid n := by rw [hon]; simp [claims]

/-- **The money of the name auctions**, over every sequence of actions: `ra.names` has the open bids and the refunds if it
had them before; `ra.fees` has what it had and the winning bids sent to it, if it does not bid itself; and for each name the
winning bids sent, after the one that was closed before, are those of the claimed auctions, then the one that is closed now. -/
theorem run_money (core : Symbol) (s : Auctions) (M : Money core s) (actions : List (ActionEnv × Int × Action)) :
    Money core (run core s actions).1 ∧
    ((∀ a ∈ actions, a.2.2.bidsFor feesAccount = false) → (run core s actions).1.token.balance feesAccount core.code =
      s.token.balance feesAccount core.code + toFees (run core s actions).2) ∧
    ∀ newname, s.closedBid newname ++ sent newname (run core s actions).2 =
      claims newname (run core s actions).2 ++ (run core s actions).1.closedBid newname := by
  have K : Keeps core (∀ a ∈ actions, a.2.2.bidsFor feesAccount = false) s (run core s actions).1 (run core s actions).2 :=
    List.foldlRecOn (motive := fun r => Keeps core _ s r.1 r.2) actions (Auctions.step core) (Keeps.same rfl rfl rfl)
      (fun _ K a ha => K.step fun hap => hap a ha)
  exact ⟨K.money M, K.fees M, K.once⟩

def sampleBidders : AccountName × AccountName × AccountName :=
  (stringToName ['a', 'l', 'i', 'c', 'e'], stringToName ['b', 'o', 'b'], stringToName ['x', 'y', 'z'])

def sampleSymbol : Symbol := ⟨5130324, 4⟩

def sampleAuctions : Auctions where
  bids := ∅
  refunds := ∅
  lastProducerScheduleUpdate := 0
  lastNameClose := 0
  token :=
    { stat := (∅ : RowMap Nat CurrencyStats).insert sampleSymbol.code ⟨⟨1000, sampleSymbol⟩, ⟨2000, sampleSymbol⟩, 0⟩
      accounts := ((∅ : RowMap (AccountName × Nat) Asset).insert (sampleBidders.1, sampleSymbol.code) ⟨500, sampleSymbol⟩).insert
        (sampleBidders.2.1, sampleSymbol.code) ⟨500, sampleSymbol⟩ }

def sampleAuction : List (ActionEnv × Int × Action) :=
  let env : ActionEnv := ⟨fun _ => true, fun account => account != sampleBidders.2.2⟩
  [(env, 1, .bidname sampleBidders.1 sampleBidders.2.2 ⟨100, sampleSymbol⟩),
    (env, 2, .bidname sampleBidders.2.1 sampleBidders.2.2 ⟨120, sampleSymbol⟩),
    (env, 20 * usecondsPerDay, .onblock 1 (20 * blocksPerDay)),
    (env, 20 * usecondsPerDay, .newaccount sampleBidders.2.1 sampleBidders.2.2),
    (env, 20 * usecondsPerDay, .bidrefund sampleBidders.1 sampleBidders.2.2)]

theorem sampleAuctions_money : Money sampleSymbol sampleAuctions where
  symbol := fun key amount h => by cases h
  held := by decide +kernel

theorem run_money_sampleAuction : (run sampleSymbol sampleAuctions sampleAuction).2 =
        [.sentToFees sampleBidders.2.2 120, .claimed sampleBidders.2.2 120] ∧
      Money sampleSymbol (run sampleSymbol sampleAuctions sampleAuction).1 ∧
      (run sampleSymbol sampleAuctions sampleAuction).1.token.balance feesAccount sampleSymbol.code =
        sampleAuctions.token.balance feesAccount sampleSymbol.code + toFees (run sampleSymbol sampleAuctions sampleAuction).2 := by
  obtain ⟨hmoney, hfees, -⟩ := run_money sampleSymbol sampleAuctions sampleAuctions_money sampleAuction
  exact ⟨by decide +kernel, hmoney, hfees (by decide +kernel)⟩

end Auctions
end TheChannel

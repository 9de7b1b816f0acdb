import TheChannel.RamMarket
/-!
# RamLedger — every byte of RAM is in one place

The bytes of the market and the bytes given out are the size of the RAM; the quotas of the accounts are the bytes given out;
what an account bought at the fixed price is part of its quota. The sums are kept in `uint64_t` and `int64_t`: the bounds of
the ledger are what keeps them from wrapping around.
-/
namespace TheChannel
namespace RamMarket
open RowMap Asset

variable {quotient : Quotient} {core : Symbol} {env : RamEnv} {s s' : RamMarket}
  {owner account payer receiver from_ to_ : AccountName} {bytes nowSec : Int} {quant cost refund : Asset} {memo : String}
  {isAccount : AccountName → Bool} {events : List RamEvent} {row : UserResourcesRam}

/-! ## What the parts of an action do -/

def quota (s : RamMarket) (owner : AccountName) : Int := (s.userResources.lookup owner).getD 0

def purchased (s : RamMarket) (owner : AccountName) : Int := ((s.usersram.lookup owner).map (·.ramBytes)).getD 0

def costOf (s : RamMarket) (owner : AccountName) : Int := ((s.usersram.lookup owner).map (·.quantity.amount)).getD 0

theorem purchased_insert {r : RowMap AccountName UserResourcesRam}
    (h : s'.usersram = r.insert owner row) (a : AccountName) :
    s'.purchased a = if a = owner then row.ramBytes else ((r.lookup a).map (·.ramBytes)).getD 0 := by
  unfold purchased
  rw [h, lookup_insert_ite]
  split <;> rfl

theorem quota_insert {r : RowMap AccountName Int} {b : Int} (h : s'.userResources = r.insert owner b) (a : AccountName) :
    s'.quota a = if a = owner then b else (r.lookup a).getD 0 := by
  unfold quota
  rw [h, lookup_insert_ite]
  split <;> rfl

theorem total_quota_insert {rows : RowMap AccountName Int} (owner : AccountName) (b : Int) :
    total (fun _ b => b) (rows.insert owner b) = total (fun _ b => b) rows - (rows.lookup owner).getD 0 + b := by
  rw [total_insert]
  cases rows.lookup owner <;> rfl

theorem ensureUsersram_ramBytes (core : Symbol) (s : RamMarket) (nowSec : Int) (owner : AccountName) :
    (s.ensureUsersram core nowSec owner).ramBytes = s.purchased owner := by
  unfold ensureUsersram purchased
  cases s.usersram.lookup owner <;> rfl

theorem ensureUsersram_amount (core : Symbol) (s : RamMarket) (nowSec : Int) (owner : AccountName) :
    (s.ensureUsersram core nowSec owner).quantity.amount = s.costOf owner := by
  unfold ensureUsersram costOf
  cases s.usersram.lookup owner <;> rfl

theorem creditPurchasedRam_ok (h : s.creditPurchasedRam core nowSec owner bytes cost = .ok s') :
    ∃ row, row.ramBytes = s.purchased owner + bytes ∧ row.quantity.amount = s.costOf owner + cost.amount ∧
      row.quantity.symbol = cost.symbol ∧ s' = { s with usersram := s.usersram.insert owner row } := by
  obtain ⟨quantity, hqua, h⟩ := bind_ok h
  obtain ⟨hsym, -, rfl⟩ := add_ok_iff.1 hqua
  cases h
  refine ⟨_, ?_, ?_, ?_, rfl⟩
  · rw [ensureUsersram_ramBytes]
  · rw [ensureUsersram_amount]
  · exact hsym.symm

theorem debitPurchasedRam_ok (h : s.debitPurchasedRam owner bytes = .ok (s', refund)) :
    ∃ row row', s.usersram.lookup owner = some row ∧ bytes ≤ row.ramBytes ∧
      refund = ⟨(row.quantity.amount * bytes).tdiv row.ramBytes, row.quantity.symbol⟩ ∧
      row'.ramBytes = row.ramBytes - bytes ∧ row'.quantity = ⟨row.quantity.amount - refund.amount, row.quantity.symbol⟩ ∧
      s' = { s with usersram := s.usersram.insert owner row' } := by
  unfold debitPurchasedRam at h
  split at h
  · cases h
  rename_i row hrow
  obtain ⟨hle, h⟩ := check_ok h
  replace h := rest_ok h
  obtain ⟨refund', hm, h⟩ := bind_ok h
  obtain ⟨-, -, rfl⟩ := make_ok_iff.1 hm
  obtain ⟨quantity, hqua, h⟩ := bind_ok h
  obtain ⟨-, -, rfl⟩ := sub_ok_iff.1 hqua
  cases h
  exact ⟨row, _, hrow, of_decide_eq_true hle, rfl, rfl, rfl, rfl⟩

theorem reduceRam_ok (h : s.reduceRam owner bytes = .ok s') : 0 < bytes ∧ bytes ≤ s.quota owner ∧
      s' = { s with userResources := s.userResources.insert owner (s.quota owner - bytes) } := by
  obtain ⟨hpos, h⟩ := check_ok h
  unfold quota
  split at h
  · cases h
  rename_i b hrow
  obtain ⟨hle, h⟩ := check_ok h
  cases h
  rw [hrow]
  exact ⟨of_decide_eq_true hpos, of_decide_eq_true hle, rfl⟩

theorem addRam_ok (h : s.addRam isAccount owner bytes = .ok s') :
    0 < bytes ∧ s' = { s with userResources := s.userResources.insert owner (s.quota owner + bytes) } := by
  obtain ⟨hpos, h⟩ := check_ok h
  replace h := rest_ok h
  cases h
  exact ⟨of_decide_eq_true hpos, rfl⟩

theorem pay_ok (h : s.pay isAccount from_ to_ quant memo = .ok s') :
    ∃ token, s.token.inlineTransfer isAccount from_ to_ quant memo = .ok token ∧ s' = { s with token := token } := by
  obtain ⟨token, ht, h⟩ := bind_ok h
  cases h
  exact ⟨token, ht, rfl⟩

/-- The transfers of an action: what they add to the balance of `ra.ram`. -/
structure Settled (core : Symbol) (t t' : Token) (amount : Int) : Prop where
  stat : t'.stat = t.stat
  balance : t'.balance ramAccount core.code = t.balance ramAccount core.code + amount
  ledger : t.Ledger → t'.Ledger

theorem Settled.trans {t t1 t' : Token} {a b : Int} (h : Settled core t t1 a) (h' : Settled core t1 t' b) :
    Settled core t t' (a + b) where
  stat := h'.stat.trans h.stat
  balance := by rw [h'.balance, h.balance, Int.add_assoc]
  ledger := fun L => h'.ledger (h.ledger L)

theorem Settled.transfer {t t' : Token} {from_ to_ : AccountName} (h : t.inlineTransfer isAccount from_ to_ quant memo = .ok t')
    (hsym : quant.symbol = core) : Settled core t t'
      ((if ramAccount = to_ then quant.amount else 0) - (if ramAccount = from_ then quant.amount else 0)) where
  stat := Token.transfer_stat h
  balance := by
    have hbal := Token.transfer_balance h ramAccount
    rw [hsym] at hbal
    rw [hbal, Int.add_sub_assoc]
  ledger := fun L => L.transfer h

theorem ramAccount_ne_ramfee : ramAccount ≠ ramfeeAccount := by decide +kernel

theorem ramAccount_ne_fees : ramAccount ≠ feesAccount := by decide +kernel

theorem payFee_ok {fee : Asset} (h : s.payFee isAccount from_ fee memo = .ok s') (hsym : fee.symbol = core) :
    ∃ token, s' = { s with token := token } ∧
      Settled core s.token token (if ramAccount = from_ then -(max fee.amount 0) else 0) := by
  unfold payFee at h
  split at h
  · rename_i hpos
    obtain ⟨s1, h1, h⟩ := bind_ok h
    obtain ⟨t1, ht1, rfl⟩ := pay_ok h1
    obtain ⟨token, htok, rfl⟩ := pay_ok h
    refine ⟨token, rfl, ?_⟩
    have hset := (Settled.transfer ht1 hsym).trans (Settled.transfer htok hsym)
    rw [if_neg ramAccount_ne_ramfee, if_neg ramAccount_ne_fees] at hset
    convert hset using 1
    split <;> omega
  · rename_i hpos
    cases h
    refine ⟨s.token, rfl, rfl, ?_, id⟩
    split <;> omega

theorem payFee_balance {fee : Asset} (h : s.payFee isAccount from_ fee memo = .ok s') (hr : from_ ≠ ramfeeAccount)
    (hf : from_ ≠ feesAccount) :
    s'.token.balance from_ fee.symbol.code = s.token.balance from_ fee.symbol.code - max fee.amount 0 := by
  unfold payFee at h
  split at h
  · obtain ⟨s1, h1, h⟩ := bind_ok h
    obtain ⟨t1, ht1, rfl⟩ := pay_ok h1
    obtain ⟨token, htok, rfl⟩ := pay_ok h
    have hb1 := Token.transfer_balance ht1 from_
    have hb2 := Token.transfer_balance htok from_
    rw [if_neg hr, if_pos rfl] at hb1
    rw [if_neg hf, if_neg hr] at hb2
    dsimp only at *
    omega
  · cases h
    omega

/-! ## The invariant -/

structure Ledger (s : RamMarket) : Prop where
  market : s.base.amount + s.totalRamBytesReserved = s.maxRamSize
  users : total (fun _ b => b) s.userResources = s.totalRamBytesReserved
  purchased : ∀ owner, 0 ≤ s.purchased owner ∧ s.purchased owner ≤ s.quota owner
  base : -maxAmount ≤ s.base.amount
  size : s.maxRamSize ≤ 2 ^ 50 + s.lastRamIncrease.toNat * (2 ^ 16 - 1)

section

variable (L : Ledger s)

include L

theorem Ledger.maxRamSize_lt : s.maxRamSize < 2 ^ 51 := by
  have hs := L.size
  have hsl := s.lastRamIncrease.toNat_lt
  omega

theorem Ledger.reserved_lt : s.totalRamBytesReserved < 2 ^ 63 := by
  have hmax := L.maxRamSize_lt
  have hm := L.market
  have hb := L.base
  unfold maxAmount at hb
  omega

theorem Ledger.quota_le (owner : AccountName) : s.quota owner ≤ s.totalRamBytesReserved := by
  have hle : weigh (fun _ b => b) owner (s.userResources.lookup owner) ≤ total (fun _ b => b) s.userResources :=
    weigh_le_total (fun owner b hb => by
      have := L.purchased owner
      unfold quota at this
      rw [hb, Option.getD_some] at this
      omega) owner
  rw [L.users] at hle
  unfold quota
  cases hrow : s.userResources.lookup owner with
  | none => exact Int.natCast_nonneg _
  | some b =>
    rw [hrow] at hle
    exact hle

theorem reserve_eq (hpos : 0 < bytes) (hb : -maxAmount ≤ s.base.amount - bytes) :
    ((s.reserve bytes).totalRamBytesReserved : Int) = s.totalRamBytesReserved + bytes := by
  have hmax := L.maxRamSize_lt
  have hres := L.reserved_lt
  have hm := L.market
  unfold maxAmount at hb
  unfold reserve
  dsimp only
  rw [Nat.mod_eq_of_lt (by omega)]
  omega

theorem release_eq (hpos : 0 < bytes) (hle : bytes ≤ s.quota owner) :
    ((s.release bytes).totalRamBytesReserved : Int) = s.totalRamBytesReserved + -bytes := by
  have hq := L.quota_le owner
  have hres := L.reserved_lt
  unfold release
  dsimp only
  rw [Nat.mod_eq_of_lt (show bytes.toNat < 2 ^ 64 by omega)]
  omega

/-- **Bytes are given out**, or back where `d` is negative: `p` of them at the fixed price, and what was bought so stays part of
the quota. -/
theorem Ledger.moved {d p : Int} (hp : 0 ≤ s.purchased owner + p ∧ s.purchased owner + p ≤ s.quota owner + d)
    (hb : -maxAmount ≤ s'.base.amount) (hb' : s'.base.amount + d = s.base.amount)
    (hres : (s'.totalRamBytesReserved : Int) = s.totalRamBytesReserved + d) (hmax' : s'.maxRamSize = s.maxRamSize)
    (hl' : s'.lastRamIncrease = s.lastRamIncrease) (hq' : s'.userResources = s.userResources.insert owner (s.quota owner + d))
    (hp' : ∀ a, s'.purchased a = s.purchased a + (if a = owner then p else 0)) : Ledger s' := by
  refine ⟨?_, ?_, fun a => ?_, hb, ?_⟩
  · rw [hres, hmax', ← L.market]
    omega
  · rw [hq', total_quota_insert, L.users, hres]
    unfold quota
    omega
  · have hold := L.purchased a
    rw [hp', quota_insert hq']
    change 0 ≤ _ ∧ _ ≤ if a = owner then s.quota owner + d else s.quota a
    by_cases ha : a = owner
    · subst ha
      rw [if_pos rfl, if_pos rfl]
      exact hp
    · rw [if_neg ha, if_neg ha]
      omega
  · rw [hmax', hl']
    exact L.size

theorem Ledger.same (hb' : s'.base.amount = s.base.amount)
    (hres' : s'.totalRamBytesReserved = s.totalRamBytesReserved) (hmax' : s'.maxRamSize = s.maxRamSize)
    (hl' : s'.lastRamIncrease = s.lastRamIncrease) (hq' : s'.userResources = s.userResources)
    (hp' : ∀ a, s'.purchased a = s.purchased a) : Ledger s' := by
  refine ⟨?_, ?_, fun a => ?_, hb' ▸ L.base, ?_⟩
  · rw [hb', hres', hmax', L.market]
  · rw [hq', hres', L.users]
  · rw [hp']
    unfold quota
    rw [hq']
    exact L.purchased a
  · rw [hmax', hl']
    exact L.size

end

/-! ## The actions keep it -/

theorem Ledger.afterInit (core : Symbol) (supply : Int) (token : Token) : Ledger (afterInit core supply token) where
  market := by norm_num [RamMarket.afterInit]
  users := rfl
  purchased := fun owner => ⟨le_rfl, le_rfl⟩
  base := by norm_num [RamMarket.afterInit, maxAmount]
  size := by norm_num [RamMarket.afterInit]

theorem Ledger.updateRamSupply (L : Ledger s) (slot : UInt32) : Ledger (s.updateRamSupply slot) := by
  unfold RamMarket.updateRamSupply
  split
  · exact L
  · rename_i hsl
    have hmax := L.maxRamSize_lt
    have hs := L.size
    have hm := L.market
    have hr := s.newRamPerBlock.toNat_lt
    rw [UInt32.not_le, UInt32.lt_iff_toNat_lt] at hsl
    -- the product fits in what the passed slots allow
    have hp : (slot.toNat - s.lastRamIncrease.toNat) * s.newRamPerBlock.toNat ≤
        (slot.toNat - s.lastRamIncrease.toNat) * (2 ^ 16 - 1) := Nat.mul_le_mul_left _ (by omega)
    have hmod := Nat.mod_le ((slot.toNat - s.lastRamIncrease.toNat) * s.newRamPerBlock.toNat) (2 ^ 32)
    have hlt := Nat.mod_lt ((slot.toNat - s.lastRamIncrease.toNat) * s.newRamPerBlock.toNat) (show 0 < 2 ^ 32 by decide)
    generalize (slot.toNat - s.lastRamIncrease.toNat) * s.newRamPerBlock.toNat % 2 ^ 32 = newRam at hmod hlt
    have hnew : (s.maxRamSize + newRam) % 2 ^ 64 = s.maxRamSize + newRam := Nat.mod_eq_of_lt (by omega)
    refine ⟨?_, L.users, L.purchased, ?_, ?_⟩
    · dsimp only
      rw [hnew]
      omega
    · have := L.base
      dsimp only
      omega
    · dsimp only
      rw [hnew]
      omega

theorem buyram_ok (h : s.buyram core env payer receiver quant = .ok s') :
    ∃ s1 bytes fee row token, s1 = s.updateRamSupply env.slot ∧ 0 < bytes ∧ bytes ≤ s1.base.amount ∧ bytes ≤ quant.amount - fee ∧
      (0 < quant.amount ∧ fee = s1.ramFee core quant.amount ∧
        bytes = (quant.amount - fee).tdiv (s1.config core).ramPricePerByte.amount ∧
        (payer ≠ ramfeeAccount → payer ≠ feesAccount →
          token.balance payer core.code = s1.token.balance payer core.code - quant.amount)) ∧
      quant.symbol = core ∧ row.ramBytes = s1.purchased receiver + bytes ∧
      row.quantity = ⟨s1.costOf receiver + (quant.amount - fee), core⟩ ∧
      Settled core s1.token token (quant.amount - fee) ∧
      s' = { s1 with
        base := ⟨s1.base.amount + -bytes, s1.base.symbol⟩
        totalRamBytesReserved := (s1.reserve bytes).totalRamBytesReserved
        totalRamStake := s1.totalRamStake + (quant.amount - fee)
        usersram := s1.usersram.insert receiver row
        userResources := s1.userResources.insert receiver (s1.quota receiver + bytes)
        token := token } := by
  replace h := rest_ok h
  generalize hs1 : s.updateRamSupply env.slot = s1 at h
  obtain ⟨hsym, h⟩ := check_ok h
  obtain ⟨hqua, h⟩ := check_ok h
  obtain ⟨hpr, h⟩ := check_ok h
  replace h := rest_ok h
  obtain ⟨hfee, h⟩ := check_ok h
  obtain ⟨hpos, h⟩ := check_ok h
  obtain ⟨hb, h⟩ := check_ok h
  obtain ⟨-, -, h⟩ := bind_ok h
  obtain ⟨s2, hcr, h⟩ := bind_ok h
  obtain ⟨s3, hadd, h⟩ := bind_ok h
  obtain ⟨s4, hpay, h⟩ := bind_ok h
  have hsym := beq_iff_eq.1 hsym
  obtain ⟨row, hby, ham, hrow, rfl⟩ := creditPurchasedRam_ok hcr
  obtain ⟨-, rfl⟩ := addRam_ok hadd
  obtain ⟨t1, ht1, rfl⟩ := pay_ok hpay
  have hp := (Token.transfer_ok ht1).1
  have hset := Settled.transfer ht1 hsym
  have hbal := Token.transfer_balance ht1 payer
  have hfrom := payFee_balance h
  obtain ⟨token, rfl, hf⟩ := payFee_ok h hsym
  rw [if_pos rfl, if_neg hp.symm] at hset
  rw [if_neg hp.symm] at hf
  -- a byte costs at least one unit
  have hle : (quant.amount - s1.ramFee core quant.amount).tdiv (s1.config core).ramPricePerByte.amount ≤
      quant.amount - s1.ramFee core quant.amount := by
    have hfee := of_decide_eq_true hfee
    have hpr := of_decide_eq_true hpr
    rw [Int.tdiv_eq_ediv_of_nonneg (by omega)]
    exact Int.ediv_le_self _ (by omega)
  refine ⟨s1, _, _, row, token, rfl, of_decide_eq_true hpos, of_decide_eq_true hb, hle,
    ⟨of_decide_eq_true hqua, rfl, rfl, fun hr hf => ?_⟩, hsym, hby, ?_, ?_, rfl⟩
  · have hfrom := hfrom hr hf
    rw [if_neg hp, if_pos rfl] at hbal
    have hqua := of_decide_eq_true hqua
    have hm := Int.mul_nonneg hqua.le (Int.natCast_nonneg (s1.config core).ramFeePercent)
    have hfee : 0 ≤ s1.ramFee core quant.amount := Int.tdiv_nonneg (by unfold ramFeePrecision; omega) (by decide)
    dsimp only [addStake, reserve, addBase] at *
    rw [hsym] at *
    omega
  · rw [← hsym, ← hrow]
    exact congrArg (Asset.mk · _) ham
  · have := hset.trans hf
    rwa [Int.sub_zero, Int.add_zero] at this

theorem sellram_ok (h : s.sellram env account bytes = .ok s') :
    ∃ s1 row row' refund token memo, s1 = s.updateRamSupply env.slot ∧ 0 < bytes ∧ s1.usersram.lookup account = some row ∧
      bytes ≤ row.ramBytes ∧ bytes ≤ s1.quota account ∧
      refund = ⟨(row.quantity.amount * bytes).tdiv row.ramBytes, row.quantity.symbol⟩ ∧
      row'.ramBytes = row.ramBytes - bytes ∧ row'.quantity = ⟨row.quantity.amount - refund.amount, row.quantity.symbol⟩ ∧
      s1.token.inlineTransfer env.isAccount ramAccount account refund memo = .ok token ∧
      s' = { s1 with
        base := ⟨s1.base.amount + bytes, s1.base.symbol⟩
        totalRamBytesReserved := (s1.release bytes).totalRamBytesReserved
        totalRamStake := s1.totalRamStake + -refund.amount
        usersram := s1.usersram.insert account row'
        userResources := s1.userResources.insert account (s1.quota account - bytes)
        token := token } := by
  replace h := rest_ok h
  obtain ⟨hpos, h⟩ := check_ok h
  generalize hs1 : s.updateRamSupply env.slot = s1 at h
  obtain ⟨r, hd, h⟩ := bind_ok h
  replace h := rest_ok h
  obtain ⟨s2, hred, h⟩ := bind_ok h
  replace h := rest_ok h
  obtain ⟨row, row', hrow, hle, href, hb, hqua, hr⟩ := debitPurchasedRam_ok (hd : _ = Except.ok (r.1, r.2))
  rw [hr] at hred
  obtain ⟨-, hq, rfl⟩ := reduceRam_ok hred
  obtain ⟨token, htok, rfl⟩ := pay_ok h
  exact ⟨s1, row, row', r.2, token, _, rfl, of_decide_eq_true hpos, hrow, hle, hq, href, hb, hqua, htok, rfl⟩

theorem buyramsys_ok (h : s.buyramsys quotient core env payer receiver quant = .ok (s', events)) :
    ∃ s1 q out quote token, s1 = s.updateRamSupply env.slot ∧ 0 < q ∧ 0 < out ∧
      -maxAmount ≤ s1.base.amount - out ∧ events = [.boughtSys q] ∧ Settled core s1.token token q ∧
      s' = { s1 with
        base := ⟨s1.base.amount - out, s1.base.symbol⟩
        quote := quote
        totalRamBytesReserved := (s1.reserve out).totalRamBytesReserved
        totalRamStake := s1.totalRamStake + q
        userResources := s1.userResources.insert receiver (s1.quota receiver + out)
        token := token } := by
  iterate 2 replace h := rest_ok h
  generalize hs1 : s.updateRamSupply env.slot = s1 at h
  obtain ⟨hsym, h⟩ := check_ok h
  replace h := rest_ok h
  obtain ⟨hq, h⟩ := check_ok h
  obtain ⟨r, hco, h⟩ := bind_ok h
  obtain ⟨hout, h⟩ := check_ok h
  obtain ⟨s2, hadd, h⟩ := bind_ok h
  obtain ⟨s3, hpay, h⟩ := bind_ok h
  obtain ⟨s4, hfee, h⟩ := bind_ok h
  cases h
  have hsym := beq_iff_eq.1 hsym
  obtain ⟨quote, -, hco⟩ := bind_ok hco
  obtain ⟨base, hb, hco⟩ := bind_ok hco
  obtain ⟨-, ⟨hge, -⟩, rfl⟩ := sub_ok_iff.1 hb
  cases hco
  obtain ⟨-, rfl⟩ := addRam_ok hadd
  obtain ⟨t1, ht1, rfl⟩ := pay_ok hpay
  have hp := (Token.transfer_ok ht1).1
  have hset := Settled.transfer ht1 hsym
  obtain ⟨token, rfl, hf⟩ := payFee_ok hfee hsym
  rw [if_pos rfl, if_neg hp.symm] at hset
  rw [if_neg hp.symm] at hf
  refine ⟨s1, _, _, quote, token, rfl, of_decide_eq_true hq, of_decide_eq_true hout, hge, rfl, ?_, rfl⟩
  have := hset.trans hf
  rwa [Int.sub_zero, Int.add_zero] at this

theorem sellramsys_ok (h : s.sellramsys quotient core env account bytes = .ok (s', events)) :
    ∃ s1 out quote token, s1 = s.updateRamSupply env.slot ∧ 0 < bytes ∧ bytes ≤ s1.quota account ∧
      s1.purchased account ≤ s1.quota account - bytes ∧ events = [.soldSys out] ∧
      out = bancorOutput quotient s1.base.amount s1.quote.amount bytes ∧ Settled core s1.token token (-out) ∧
      s' = { s1 with
        base := ⟨s1.base.amount + bytes, s1.base.symbol⟩
        quote := quote
        totalRamBytesReserved := (s1.release bytes).totalRamBytesReserved
        totalRamStake := s1.totalRamStake + -out
        userResources := s1.userResources.insert account (s1.quota account - bytes)
        token := token } := by
  replace h := rest_ok h
  generalize hs1 : s.updateRamSupply env.slot = s1 at h
  obtain ⟨hpos, h⟩ := check_ok h
  replace h := rest_ok h
  obtain ⟨hp, h⟩ := check_ok h
  obtain ⟨s2, hred, h⟩ := bind_ok h
  obtain ⟨asset, has, h⟩ := bind_ok h
  obtain ⟨r, hco, h⟩ := bind_ok h
  obtain ⟨hout, h⟩ := check_ok h
  replace h := rest_ok h
  obtain ⟨s3, hpay, h⟩ := bind_ok h
  obtain ⟨s4, hfee, h⟩ := bind_ok h
  cases h
  obtain ⟨-, hq, rfl⟩ := reduceRam_ok hred
  obtain ⟨-, -, rfl⟩ := make_ok_iff.1 has
  obtain ⟨base, hb, hco⟩ := bind_ok hco
  obtain ⟨quote, -, hco⟩ := bind_ok hco
  obtain ⟨-, -, rfl⟩ := add_ok_iff.1 hb
  cases hco
  have hout := of_decide_eq_true hout
  obtain ⟨t1, ht1, rfl⟩ := pay_ok hpay
  have hset := Settled.transfer ht1 rfl
  obtain ⟨token, rfl, hf⟩ := payFee_ok hfee rfl
  rw [if_neg (Token.transfer_ok ht1).1, if_pos rfl] at hset
  rw [if_pos rfl] at hf
  refine ⟨s1, _, quote, token, rfl, of_decide_eq_true hpos, hq, of_decide_eq_true hp, rfl, rfl, ?_, rfl⟩
  have hall := hset.trans hf
  refine ⟨hall.stat, hall.balance.trans (congrArg (s1.token.balance ramAccount core.code + ·) ?_), hall.ledger⟩
  -- what the account gets and the fee are what is paid out
  dsimp only at hout ⊢
  rw [Int.tdiv_eq_ediv_of_nonneg (by omega)]
  omega

theorem ramtransfer_ok (h : s.ramtransfer core env from_ to_ bytes memo = .ok (s', events)) :
    ∃ (s1 : RamMarket) (row row' : UserResourcesRam) (refund : Asset), s1 = s.updateRamSupply env.slot ∧ 0 < bytes ∧ s1.usersram.lookup from_ = some row ∧
      bytes ≤ row.ramBytes ∧ refund = ⟨(row.quantity.amount * bytes).tdiv row.ramBytes, row.quantity.symbol⟩ ∧
      row'.ramBytes = row.ramBytes - bytes ∧ row'.quantity = ⟨row.quantity.amount - refund.amount, row.quantity.symbol⟩ ∧
      bytes ≤ s1.quota from_ ∧
      ((events = [.burned refund.amount] ∧
        s' = { s1 with
          base := ⟨s1.base.amount + bytes, s1.base.symbol⟩
          totalRamBytesReserved := (s1.release bytes).totalRamBytesReserved
          usersram := s1.usersram.insert from_ row'
          userResources := s1.userResources.insert from_ (s1.quota from_ - bytes) }) ∨
      (events = [] ∧ ∃ s2 s3 row2, s2 = { s1 with usersram := s1.usersram.insert from_ row' } ∧
        row2.ramBytes = s2.purchased to_ + bytes ∧ row2.quantity.amount = s2.costOf to_ + refund.amount ∧
        row2.quantity.symbol = refund.symbol ∧
        s3 = { s2 with
          usersram := s2.usersram.insert to_ row2
          userResources := s1.userResources.insert from_ (s1.quota from_ - bytes) } ∧
        s' = { s3 with userResources := s3.userResources.insert to_ (s3.quota to_ + bytes) })) := by
  replace h := rest_ok h
  generalize hs1 : s.updateRamSupply env.slot = s1 at h
  replace h := rest_ok h
  obtain ⟨hpos, h⟩ := check_ok h
  have hpos := of_decide_eq_true hpos
  split at h
  · obtain ⟨r, hd, h⟩ := bind_ok h
    obtain ⟨s2, hred, h⟩ := bind_ok h
    cases h
    obtain ⟨row, row', hrow, hle, href, hb, hqua, hr⟩ := debitPurchasedRam_ok (hd : _ = Except.ok (r.1, r.2))
    rw [hr] at hred
    obtain ⟨-, hq, rfl⟩ := reduceRam_ok hred
    exact ⟨s1, row, row', r.2, rfl, hpos, hrow, hle, href, hb, hqua, hq, .inl ⟨rfl, rfl⟩⟩
  · obtain ⟨-, -, h⟩ := bind_ok h
    obtain ⟨r, hd, h⟩ := bind_ok h
    obtain ⟨s2, hcr, h⟩ := bind_ok h
    obtain ⟨s3, hred, h⟩ := bind_ok h
    obtain ⟨s4, hadd, h⟩ := bind_ok h
    cases h
    obtain ⟨row, row', hrow, hle, href, hb, hqua, hr⟩ := debitPurchasedRam_ok (hd : _ = Except.ok (r.1, r.2))
    rw [hr] at hcr
    obtain ⟨row2, hb2, ha2, hsym2, rfl⟩ := creditPurchasedRam_ok hcr
    obtain ⟨-, hq, rfl⟩ := reduceRam_ok hred
    obtain ⟨-, rfl⟩ := addRam_ok hadd
    exact ⟨s1, row, row', r.2, rfl, hpos, hrow, hle, href, hb, hqua, hq,
      .inr ⟨rfl, _, _, row2, rfl, hb2, ha2, hsym2, rfl, rfl⟩⟩

theorem Ledger.setram {maxRamSize : Nat} (L : Ledger s) (h : s.setram env maxRamSize = .ok s') : Ledger s' := by
  replace h := rest_ok h
  obtain ⟨hg, h⟩ := check_ok h
  obtain ⟨hr, h⟩ := check_ok h
  replace h := rest_ok h
  cases h
  have hg := of_decide_eq_true hg
  have hr := of_decide_eq_true hr
  have hm := L.market
  have hb := L.base
  refine ⟨?_, L.users, L.purchased, ?_, ?_⟩ <;> dsimp only <;> omega

theorem Ledger.newaccount {name : AccountName} (L : Ledger s) (h : s.newaccount core env name = .ok s') : Ledger s' := by
  obtain ⟨hres, h⟩ := check_ok h
  obtain ⟨hram, h⟩ := check_ok h
  cases h
  have hres := Option.isNone_iff_eq_none.1 hres
  have hram := Option.isNone_iff_eq_none.1 hram
  refine ⟨L.market, ?_, fun a => ?_, L.base, L.size⟩
  · rw [total_quota_insert, hres, L.users, Option.getD_none, Int.sub_zero, Int.add_zero]
  · rw [purchased_insert rfl, quota_insert rfl]
    by_cases ha : a = name
    · rw [if_pos ha, if_pos ha]
      exact ⟨le_rfl, le_rfl⟩
    · rw [if_neg ha, if_neg ha]
      exact L.purchased a

theorem Ledger.ramlimitset {ramlimit : Int} (L : Ledger s) (h : s.ramlimitset core env account ramlimit = .ok s') : Ledger s' := by
  iterate 3 replace h := rest_ok h
  cases h
  refine L.same rfl rfl rfl rfl rfl fun a => ?_
  rw [purchased_insert rfl]
  split
  · rename_i ha
    rw [ha]
    exact ensureUsersram_ramBytes ..
  · rfl

theorem Ledger.setramoption {price : Option Asset} {cap fee : Option Nat} (L : Ledger s)
    (h : s.setramoption core env price cap fee = .ok s') : Ledger s' := by
  iterate 5 replace h := rest_ok h
  cases h
  exact L.same rfl rfl rfl rfl rfl fun a => rfl

theorem purchased_change {p : Int} (hb : row.ramBytes = s.purchased owner + p) (h' : s'.usersram = s.usersram.insert owner row)
    (a : AccountName) : s'.purchased a = s.purchased a + (if a = owner then p else 0) := by
  rw [purchased_insert h', hb]
  by_cases ha : a = owner
  · rw [if_pos ha, if_pos ha, ha]
  · rw [if_neg ha, if_neg ha, Int.add_zero]
    rfl

theorem Ledger.buyram (L : Ledger s) (h : s.buyram core env payer receiver quant = .ok s') : Ledger s' := by
  obtain ⟨s1, bytes, fee, row, token, rfl, hpos, hb, -, -, -, hby, -, -, rfl⟩ := buyram_ok h
  have L1 := L.updateRamSupply env.slot
  have hold := L1.purchased receiver
  have hbase : -maxAmount ≤ (s.updateRamSupply env.slot).base.amount + -bytes := by
    unfold maxAmount
    omega
  exact L1.moved (by omega) hbase (Int.neg_add_cancel_right ..) (reserve_eq L1 hpos hbase) rfl rfl rfl (purchased_change hby rfl)

theorem purchased_of_lookup (h : s.usersram.lookup owner = some row) : s.purchased owner = row.ramBytes := by
  unfold purchased
  rw [h]
  rfl

theorem Ledger.debited {row' : UserResourcesRam} (L : Ledger s) (hpos : 0 < bytes) (hq : bytes ≤ s.quota owner)
    (hrow : s.usersram.lookup owner = some row) (hle : bytes ≤ row.ramBytes) (hb : row'.ramBytes = row.ramBytes - bytes)
    (hb' : s'.base.amount + -bytes = s.base.amount)
    (hres' : s'.totalRamBytesReserved = (s.release bytes).totalRamBytesReserved) (hmax' : s'.maxRamSize = s.maxRamSize)
    (hl' : s'.lastRamIncrease = s.lastRamIncrease)
    (hq' : s'.userResources = s.userResources.insert owner (s.quota owner - bytes))
    (h' : s'.usersram = s.usersram.insert owner row') : Ledger s' := by
  have hp := L.purchased owner
  have hbase := L.base
  have hown := purchased_of_lookup hrow
  exact L.moved (by omega) (by omega) hb' (hres' ▸ release_eq L hpos hq) hmax' hl' hq' (purchased_change (hown ▸ hb) h')

theorem Ledger.sellram (L : Ledger s) (h : s.sellram env account bytes = .ok s') : Ledger s' := by
  obtain ⟨s1, row, row', refund, token, memo, rfl, hpos, hrow, hle, hq, -, hb, -, -, rfl⟩ := sellram_ok h
  exact (L.updateRamSupply env.slot).debited hpos hq hrow hle hb (Int.add_neg_cancel_right ..) rfl rfl rfl rfl rfl

theorem Ledger.buyramsys (L : Ledger s) (h : s.buyramsys quotient core env payer receiver quant = .ok (s', events)) :
    Ledger s' := by
  obtain ⟨s1, q, out, quote, token, rfl, -, hpos, hb, -, -, rfl⟩ := buyramsys_ok h
  have L1 := L.updateRamSupply env.slot
  have hold := L1.purchased receiver
  refine L1.moved (p := 0) (by omega) hb (Int.sub_add_cancel ..) (reserve_eq L1 hpos hb) rfl rfl rfl fun a => ?_
  rw [ite_self, Int.add_zero]
  rfl

theorem Ledger.sellramsys (L : Ledger s) (h : s.sellramsys quotient core env account bytes = .ok (s', events)) : Ledger s' := by
  obtain ⟨s1, out, quote, token, rfl, hpos, hq, hp, -, -, -, rfl⟩ := sellramsys_ok h
  have L1 := L.updateRamSupply env.slot
  have hold := L1.purchased account
  have hbase := L1.base
  refine L1.moved (p := 0) (by omega) (hbase.trans (by dsimp only; omega)) (Int.add_neg_cancel_right ..)
    (release_eq L1 hpos hq) rfl rfl rfl fun a => ?_
  rw [ite_self, Int.add_zero]
  rfl

theorem Ledger.ramtransfer (L : Ledger s)
    (h : s.ramtransfer core env from_ to_ bytes memo = .ok (s', events)) : Ledger s' := by
  obtain ⟨s1, row, row', refund, hs1, hpos, hrow, hle, -, hb, -, hq, hca⟩ := ramtransfer_ok h
  have L1 : Ledger s1 := hs1 ▸ L.updateRamSupply env.slot
  have L2 : Ledger { s1 with
      base := ⟨s1.base.amount + bytes, s1.base.symbol⟩
      totalRamBytesReserved := (s1.release bytes).totalRamBytesReserved
      usersram := s1.usersram.insert from_ row'
      userResources := s1.userResources.insert from_ (s1.quota from_ - bytes) } :=
    L1.debited hpos hq hrow hle hb (Int.add_neg_cancel_right ..) rfl rfl rfl rfl rfl
  rcases hca with ⟨-, rfl⟩ | ⟨-, s2, s3, row2, rfl, hb2, -, -, rfl, rfl⟩
  · exact L2
  · -- as if the bytes were given back and then out again
    have hto := L2.purchased to_
    refine L2.moved (d := bytes) (by omega) L1.base rfl ?_ rfl rfl rfl (purchased_change hb2 rfl)
    dsimp only
    rw [release_eq L1 hpos hq]
    omega

theorem Ledger.apply {a : Action} (L : Ledger s) (h : s.apply quotient core env a = .ok (s', events)) : Ledger s' := by
  cases a with
  | newaccount name => exact L.newaccount (silent_ok_iff.1 h).1
  | setram maxRamSize => exact L.setram (silent_ok_iff.1 h).1
  | setramrate bytesPerBlock =>
    obtain ⟨-, h1⟩ := requireAuth_bind_ok_iff.1 (silent_ok_iff.1 h).1
    cases h1
    exact (L.updateRamSupply env.slot).same rfl rfl rfl rfl rfl fun _ => rfl
  | updateRamSupply =>
    cases h
    exact L.updateRamSupply env.slot
  | setramoption price cap fee => exact L.setramoption (silent_ok_iff.1 h).1
  | ramlimitset account ramlimit => exact L.ramlimitset (silent_ok_iff.1 h).1
  | buyram payer receiver quant => exact L.buyram (silent_ok_iff.1 h).1
  | sellram account bytes => exact L.sellram (silent_ok_iff.1 h).1
  | buyramsys payer receiver quant => exact L.buyramsys h
  | sellramsys account bytes => exact L.sellramsys h
  | ramtransfer from_ to_ bytes memo => exact L.ramtransfer h
  | ramburn owner bytes memo =>
    replace h := rest_ok h
    exact L.ramtransfer h

theorem Ledger.run (quotient : Quotient) (core : Symbol) (supply : Int) (token : Token) (actions : List (RamEnv × Action)) :
    Ledger (run quotient core supply token actions).1 := by
  refine List.foldlRecOn (motive := fun r => Ledger r.1) (b := (RamMarket.afterInit core supply token, [])) actions
    (RamMarket.step quotient core) (Ledger.afterInit core supply token) (fun r L a _ => ?_)
  unfold RamMarket.step
  cases h : r.1.apply quotient core a.1 a.2 with
  | ok r' => exact L.apply h
  | error e => exact L

/-- **The ledger of RAM**, over every sequence of actions after `init` and whatever the conversions give: the market and the
bytes given out are the size of the RAM, the quotas are the bytes given out, and what an account bought at the fixed price is
part of its quota. No sum leaves its type. -/
theorem run_ram_ledger (quotient : Quotient) (core : Symbol) (supply : Int) (token : Token)
    (actions : List (RamEnv × Action)) :
    (run quotient core supply token actions).1.base.amount + (run quotient core supply token actions).1.totalRamBytesReserved =
      (run quotient core supply token actions).1.maxRamSize ∧
    total (fun _ b => b) (run quotient core supply token actions).1.userResources =
      (run quotient core supply token actions).1.totalRamBytesReserved ∧
    (∀ owner, (run quotient core supply token actions).1.purchased owner ≤
      (run quotient core supply token actions).1.quota owner) ∧
    (∀ owner, 0 ≤ (run quotient core supply token actions).1.purchased owner ∧
      (run quotient core supply token actions).1.quota owner < 2 ^ 63) ∧
    (run quotient core supply token actions).1.maxRamSize < 2 ^ 51 ∧
    -2 ^ 62 < (run quotient core supply token actions).1.base.amount := by
  have L := Ledger.run quotient core supply token actions
  have hres := L.reserved_lt
  have hb := L.base
  refine ⟨L.market, L.users, fun a => (L.purchased a).2, fun a => ⟨(L.purchased a).1, ?_⟩, L.maxRamSize_lt, ?_⟩
  · have := L.quota_le a
    omega
  · unfold maxAmount at hb
    omega

end RamMarket
end TheChannel

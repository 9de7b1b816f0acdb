import TheChannel.RamSolvency
/-!
# RamPurchase — buying an exact number of bytes

`buyrambytes` computes the payment from the bytes, rounding up for the fee, and `buyram` the bytes from the payment, rounding the
fee up and the bytes down. The roundings undo each other: the bytes are those asked for, and no smaller payment buys them
(`buyrambytes_exact`).
-/
namespace TheChannel
namespace RamMarket
open Fault

variable {core : Symbol} {env : RamEnv} {s s' : RamMarket} {payer receiver : AccountName}

section

variable (s : RamMarket) (core : Symbol)

def netPayment (amount : Int) : Int := amount - s.ramFee core amount

def bytesOut (amount : Int) : Int := (s.netPayment core amount).tdiv (s.config core).ramPricePerByte.amount

/-- The least payment for the bytes, as `buyrambytes` computes it. -/
def grossCost (bytes : UInt32) : Int :=
  let netCost := bytes.toNat * (s.config core).ramPricePerByte.amount
  let denom := ramFeePrecision - (s.config core).ramFeePercent
  (netCost * ramFeePrecision + denom - 1).tdiv denom

def buyrambytes (env : RamEnv) (payer receiver : AccountName) (bytes : UInt32) : Result RamMarket :=
  check (decide (0 < bytes)) "must purchase a positive amount" >>= fun _ =>
  check (decide (((s.config core).ramFeePercent : Int) < ramFeePrecision)) "invalid ram fee percent" >>= fun _ =>
  check (decide (0 < bytes.toNat * (s.config core).ramPricePerByte.amount)) "ram price is too low for this purchase" >>= fun _ =>
  check (decide (s.grossCost core bytes ≤ int64Max)) "ram cost overflow" >>= fun _ =>
  Asset.make (s.grossCost core bytes) core >>= s.buyram core env payer receiver

theorem price_pos : 0 < (s.config core).ramPricePerByte.amount := by
  unfold config
  split_ifs <;> dsimp only <;> omega

end

theorem netPayment_eq {amount : Int} (h : 0 ≤ amount) :
    s.netPayment core amount = amount * (ramFeePrecision - (s.config core).ramFeePercent) / ramFeePrecision := by
  unfold netPayment ramFee ramFeePrecision
  have hm := Int.mul_nonneg h (Int.natCast_nonneg (s.config core).ramFeePercent)
  rw [Int.tdiv_eq_ediv_of_nonneg (by omega), Int.mul_sub]
  omega

theorem updateRamSupply_ramConfig (slot : UInt32) : (s.updateRamSupply slot).ramConfig = s.ramConfig := by
  unfold updateRamSupply
  split <;> rfl

theorem buyram_pays {quant : Asset} (h : s.buyram core env payer receiver quant = .ok s') :
    0 < quant.amount ∧ s'.purchased receiver = s.purchased receiver + s.bytesOut core quant.amount ∧
      (payer ≠ ramfeeAccount → payer ≠ feesAccount →
        s'.token.balance payer core.code = s.token.balance payer core.code - quant.amount) := by
  obtain ⟨huse, -, htok⟩ := updateRamSupply_other s env.slot
  obtain ⟨s1, bytes, fee, row, token, rfl, -, -, -, ⟨hq, rfl, rfl, hbal⟩, -, hby, -, -, rfl⟩ := buyram_ok h
  refine ⟨hq, ?_, htok ▸ hbal⟩
  rw [purchased_insert rfl, if_pos rfl, hby]
  unfold purchased bytesOut netPayment ramFee config
  rw [huse, updateRamSupply_ramConfig]

theorem ceil_spec {n d : Int} (hn : 0 ≤ n) (hd : 0 < d) :
    0 ≤ (n + d - 1).tdiv d ∧ n ≤ (n + d - 1).tdiv d * d ∧ (n + d - 1).tdiv d * d < n + d := by
  rw [Int.tdiv_eq_ediv_of_nonneg (by omega)]
  have hle := Int.ediv_mul_le (n + d - 1) hd.ne'
  have hlt := Int.lt_ediv_add_one_mul_self (n + d - 1) hd
  rw [Int.add_mul] at hlt
  exact ⟨Int.ediv_nonneg (by omega) hd.le, by omega, by omega⟩

section

variable {bytes : UInt32} (hfee : ((s.config core).ramFeePercent : Int) < ramFeePrecision)
include hfee

theorem le_bytesOut_iff {amount n : Int} (h : 0 ≤ amount) :
    n ≤ s.bytesOut core amount ↔ n * (s.config core).ramPricePerByte.amount * ramFeePrecision ≤
      amount * (ramFeePrecision - (s.config core).ramFeePercent) := by
  have hm := Int.mul_nonneg h (Int.sub_nonneg.2 hfee.le)
  have hd : (0 : Int) < ramFeePrecision := by decide
  unfold bytesOut
  rw [netPayment_eq h, Int.tdiv_eq_ediv_of_nonneg (Int.ediv_nonneg hm hd.le), Int.le_ediv_iff_mul_le (s.price_pos core),
    Int.le_ediv_iff_mul_le hd]

theorem grossCost_spec (bytes : UInt32) : s.bytesOut core (s.grossCost core bytes) = bytes.toNat ∧
    ∀ amount, 0 ≤ amount → bytes.toNat ≤ s.bytesOut core amount → s.grossCost core bytes ≤ amount := by
  have hp := s.price_pos core
  have hn := Int.mul_nonneg (Int.natCast_nonneg bytes.toNat) hp.le
  have hd := Int.sub_pos.2 hfee
  obtain ⟨hnn, hle, hlt⟩ := ceil_spec (Int.mul_nonneg hn (show 0 ≤ ramFeePrecision by decide)) hd
  have hout := fun n => le_bytesOut_iff hfee (n := n) hnn
  refine ⟨Int.le_antisymm (Int.le_of_lt_add_one (not_le.1 fun h => ?_)) ((hout _).2 hle), fun amount h hb => ?_⟩
  · -- one byte more costs at least a unit more, the rounding less
    have h := (hout _).1 h
    rw [Int.add_mul, Int.one_mul] at h
    unfold ramFeePrecision at *
    omega
  · have h := (le_bytesOut_iff hfee h).1 hb
    refine Int.le_of_lt_add_one (lt_of_mul_lt_mul_right ?_ hd.le)
    rw [Int.add_mul]
    exact hlt.trans_le (by omega)

/-- **An exact purchase**, whatever the price and the fee: a cost that does not overflow goes to `buyram`, which credits exactly
the bytes and takes the cost, and any purchase that credits them costs at least as much. -/
theorem buyrambytes_exact (hpos : 0 < bytes) (hcost : s.grossCost core bytes ≤ int64Max) :
    s.buyrambytes core env payer receiver bytes =
      (Asset.make (s.grossCost core bytes) core >>= s.buyram core env payer receiver) ∧
    (∀ s', s.buyrambytes core env payer receiver bytes = .ok s' → s'.purchased receiver = s.purchased receiver + bytes.toNat ∧
      (payer ≠ ramfeeAccount → payer ≠ feesAccount →
        s'.token.balance payer core.code = s.token.balance payer core.code - s.grossCost core bytes)) ∧
    ∀ quant s', s.buyram core env payer receiver quant = .ok s' →
      s'.purchased receiver = s.purchased receiver + bytes.toNat → s.grossCost core bytes ≤ quant.amount := by
  obtain ⟨hout, hleast⟩ := grossCost_spec hfee bytes
  have heq : s.buyrambytes core env payer receiver bytes =
      (Asset.make (s.grossCost core bytes) core >>= s.buyram core env payer receiver) := by
    have hn := Int.mul_pos (Int.natCast_pos.2 (show 0 < bytes.toNat from hpos)) (s.price_pos core)
    unfold buyrambytes
    simp only [hpos, hfee, hn, hcost, decide_true]
    rfl
  refine ⟨heq, fun s' h => ?_, fun quant s' h hby => ?_⟩
  · obtain ⟨quant, hm, h⟩ := bind_ok (heq ▸ h)
    obtain ⟨-, -, rfl⟩ := Asset.make_ok_iff.1 hm
    obtain ⟨-, hby, hbal⟩ := buyram_pays h
    exact ⟨hout ▸ hby, hbal⟩
  · obtain ⟨hq, hby', -⟩ := buyram_pays h
    exact hleast _ hq.le (by omega)

end

theorem buyrambytes_exact_sampleBuyer : let s := afterInit sampleCore (10 ^ 13) sampleToken
    s.grossCost sampleCore 112 = 2489 ∧ (s.buyrambytes sampleCore sampleRamEnv sampleBuyer sampleBuyer 112).map
        (fun s' => (s'.purchased sampleBuyer, s'.token.balance sampleBuyer sampleCore.code)) = .ok (112, 11) ∧
      ∀ quant s', s.buyram sampleCore sampleRamEnv sampleBuyer sampleBuyer quant = .ok s' →
        s'.purchased sampleBuyer = s.purchased sampleBuyer + (112 : UInt32).toNat → 2489 ≤ quant.amount :=
  ⟨by decide, by decide +kernel, (buyrambytes_exact (by decide) (by decide) (by decide)).2.2⟩

end RamMarket
end TheChannel

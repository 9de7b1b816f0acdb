import TheChannel.FlexTokenLedger
/-!
# FlexTokenFees — what a transfer of the fee token is charged

The fees of a transfer are exact and go where they belong exactly if their products fit an `int64_t` and the sender does not pay a
burn fee while it is exempt (`transfer_fees`): that fee is credited to the contract and to no pool (`burn_fee_not_pooled`).
-/
namespace TheChannel
namespace FlexToken
open Token Asset

variable {self from_ to_ : AccountName} {env : ActionEnv} {s s' : FlexToken} {quantity : Asset} {memo : String} {fees : Fees}
  {conf : FlexSettings} {amount : Int} {rate : Nat}

theorem fee_exact_iff (hpos : 0 < amount) :
    (toInt64 (amount * rate)).tdiv 10000 = amount * rate / 10000 ↔ amount * rate < 2 ^ 63 := by
  have hp : 0 ≤ amount * rate := Int.mul_nonneg hpos.le (Int.natCast_nonneg rate)
  refine ⟨fun h => ?_, fun hlt => by rw [toInt64_eq (by omega) hlt, Int.tdiv_eq_ediv_of_nonneg hp]⟩
  rw [Int.tdiv_eq_ediv, toInt64, show (10000 : Int).sign = 1 from rfl] at h
  split at h <;> omega

def Exact (conf : FlexSettings) (quantity : Asset) (fees : Fees) : Prop :=
  fees.reflection.amount = quantity.amount * conf.reflectionRate / 10000 ∧
    fees.burn.amount = quantity.amount * conf.burnRate / 10000 ∧
    fees.project.amount = quantity.amount * conf.projectRate / 10000

theorem exact_iff (hpos : 0 < quantity.amount) (h : conf.fees quantity = .ok fees) :
    Exact conf quantity fees ↔ conf.fits quantity.amount = true := by
  obtain ⟨hr, hb, hp⟩ := FlexSettings.fees_ok h
  unfold Exact FlexSettings.fits
  rw [feeOf_ok hr, feeOf_ok hb, feeOf_ok hp]
  simp only [fee_exact_iff hpos, decide_eq_true_eq]

def pooled (s : FlexToken) (code : Nat) : Int :=
  (s.poolsOf code).reflection.amount + (s.poolsOf code).burn.amount + (s.poolsOf code).project.amount

/-- The fees that a transfer is charged, and that they are exact. -/
def Charges (self : AccountName) (s : FlexToken) (from_ : AccountName) (quantity : Asset) (fees : Fees) : Prop :=
  if s.charged self from_ then
    ∃ conf, s.settings = some conf ∧ conf.fees quantity = .ok fees ∧ Exact conf quantity fees
  else fees.sum = 0

theorem creditFees_balance {t t' : Token} (F : fees.Fit quantity) (h : creditFees self t fees = .ok t') (owner : AccountName) :
    t'.balance owner quantity.symbol.code = t.balance owner quantity.symbol.code + if owner = self then fees.sum else 0 := by
  -- one fee, credited if it is positive
  have credit : ∀ {t t' : Token} {fee : Asset} {b : Prop} [Decidable b], fee.symbol = quantity.symbol → (¬ b → fee.amount = 0) →
      (if b then t.addBalance self fee else .ok t) = .ok t' → t'.balance owner quantity.symbol.code =
        t.balance owner quantity.symbol.code + if owner = self then fee.amount else 0 := by
    intro t t' fee b _ hfee hz h
    split at h
    · rw [addBalance_ok h, hfee, balance_setBalance]
      by_cases ho : owner = self
      · simp [ho]
      · simp [ho]
    · rename_i hb
      cases h
      simp [hz hb]
  obtain ⟨t1, h1, h⟩ := bind_ok h
  obtain ⟨t2, h2, h⟩ := bind_ok h
  have hb := F.burn
  have hp := F.project
  have hb1 := credit (b := True) F.reflectionSymbol (fun h => absurd trivial h) (by simpa using h1)
  rw [credit F.projectSymbol (by omega) h, credit F.burnSymbol (by omega) h2, hb1]
  unfold Fees.sum
  split <;> omega

section

variable (hrates : ∀ conf, s.settings = some conf → conf.Rates)
  (hrows : ∀ owner code a st, s.token.accounts.lookup (owner, code) = some a → s.token.stat.lookup code = some st →
    a.symbol = st.supply.symbol)
  (hself : from_ ≠ self) (hto : to_ ≠ self)
  (h : s.transfer self env from_ to_ quantity memo = .ok s') {code : Nat} (hcode : quantity.symbol.code = code)

include hrates hrows hself hto h hcode

theorem charged_booked (hcd : s.charged self from_ = true) :
    ∃ conf fees, s.settings = some conf ∧ conf.fees quantity = .ok fees ∧ (conf.fits quantity.amount = true →
      s'.token.balance self code - s.token.balance self code = fees.sum ∧
      s'.pooled code - s.pooled code = fees.sum - (if s.feeExempt from_ then fees.burn.amount else 0) ∧
      s.token.balance from_ code - s'.token.balance from_ code =
        s'.token.balance to_ code - s.token.balance to_ code + fees.sum) := by
  subst hcode
  obtain ⟨hne, hpos, st, balance, hst, hsym, hrow, hle, ⟨-, r, hch, hm⟩ | ⟨hnot, -⟩⟩ := transfer_accepted_ok h
  · obtain ⟨conf, fees, token, pools, hco, hf, hs, htok, hp, hr⟩ := charge_ok hch
    obtain ⟨r, amounts⟩ := r
    subst hr
    refine ⟨conf, fees, hco, hf, fun hfit => ?_⟩
    have F := conf.fees_fit (hrates conf hco) hpos hfit hf
    have hbal := hrows _ _ balance st hrow hst
    obtain ⟨htot, hact, hsum, -⟩ := split_ok F hle (hbal.trans hsym.symm) hs
    dsimp only at hsum
    have hcr := creditFees_balance F htok
    obtain ⟨hpr, hpb, hpp⟩ := creditPools_ok hp
    obtain ⟨t1, t2, f, g, hsub, hadd, hs', -, -⟩ := move_ok hm
    have hpo : s'.poolsOf quantity.symbol.code = pools :=
      hs' ▸ (poolsOf_insert s token quantity.symbol.code quantity.symbol.code pools).trans (if_pos rfl)
    rw [show t2 = s'.token by rw [hs']] at hadd
    have hb := exchange_balance hne (congrArg Symbol.code htot) (congrArg Symbol.code hact) hsub hadd
    simp only [hcr] at hb
    refine ⟨?_, ?_, ?_⟩
    · rw [hb, if_pos rfl, if_neg (Ne.symm hself), if_neg (Ne.symm hto)]
      omega
    · rw [pooled, pooled, hpo, Fees.sum]
      by_cases he : s.feeExempt from_ = true
      · rw [if_pos he] at hpb ⊢
        omega
      · rw [if_neg he] at hpb ⊢
        omega
    · rw [hb from_, hb to_, if_neg hself, if_neg hto, if_neg hne, if_neg (Ne.symm hne), if_pos rfl, if_pos rfl]
      omega
  · rw [hcd] at hnot
    cases hnot

/-- **The fees of a transfer.** In every state in which the rates are within bounds and a row has the symbol of its currency, for every
accepted transfer between two other accounts than the contract: the fees are exact, the balance of the contract grows by as much as the pools, and the sender pays what the
recipient gets and the fees, exactly if no product of a rate wraps around and no exempt sender pays a burn fee. -/
theorem transfer_fees :
    (∃ fees, Charges self s from_ quantity fees ∧
      s'.token.balance self code - s.token.balance self code = s'.pooled code - s.pooled code ∧
      s.token.balance from_ code - s'.token.balance from_ code =
        s'.token.balance to_ code - s.token.balance to_ code + fees.sum) ↔
    ∀ conf, s.settings = some conf → s.charged self from_ = true → conf.fits quantity.amount = true ∧
      (s.feeExempt from_ = true → quantity.amount * conf.burnRate < 10000) := by
  obtain ⟨hne, hpos, st, balance, -, -, -, -, ⟨hcd, -⟩ | ⟨hcd, hm⟩⟩ := transfer_accepted_ok h
  · obtain ⟨conf, fees, hco, hf, books⟩ := charged_booked hrates hrows hself hto h hcode hcd
    have hburn : 0 ≤ quantity.amount * conf.burnRate := Int.mul_nonneg hpos.le (Int.natCast_nonneg _)
    simp only [Charges, hcd, if_true]
    constructor
    · rintro ⟨fees', ⟨conf', hco', hf', hex⟩, hg, -⟩ conf'' hco'' -
      rw [hco] at hco' hco''
      cases hco'
      cases hco''
      rw [hf] at hf'
      cases hf'
      have hfit := (exact_iff hpos hf).1 hex
      obtain ⟨hbal, hpo, -⟩ := books hfit
      refine ⟨hfit, fun he => ?_⟩
      have hb := hex.2.1
      rw [if_pos he] at hpo
      omega
    · intro hall
      obtain ⟨hfit, hbu⟩ := hall conf hco trivial
      obtain ⟨hbal, hpo, hd⟩ := books hfit
      have hex := (exact_iff hpos hf).2 hfit
      have hb := hex.2.1
      refine ⟨fees, ⟨conf, hco, hf, hex⟩, ?_, hd⟩
      split at hpo
      · rename_i he
        have := hbu he
        omega
      · omega
  · obtain ⟨t1, t2, f, g, hsub, hadd, rfl, -, -⟩ := move_ok hm
    subst hcode
    have hb := exchange_balance hne rfl rfl hsub hadd
    refine iff_of_true ⟨⟨⟨0, quantity.symbol⟩, ⟨0, quantity.symbol⟩, ⟨0, quantity.symbol⟩⟩, ?_, ?_, ?_⟩ ?_
    · simp [Charges, hcd, Fees.sum]
    · rw [hb, if_neg (Ne.symm hself), if_neg (Ne.symm hto)]
      change _ = s.pooled _ - s.pooled _
      omega
    · rw [hb, hb, if_neg hne, if_neg (Ne.symm hne), if_pos rfl, if_pos rfl, Fees.sum]
      dsimp only
      omega
    · intro conf _ hc
      rw [hcd] at hc
      cases hc

end

def sampleBurn (quantity : Int) (exempt : Bool) : List (ActionEnv × FlexAction) :=
  sampleTransfer quantity ++ [.setconfig ⟨sampleSymbol, 0, 100, 100, 100, 100, 0⟩, .setexempt sampleIssuer exempt].map (sampleEnv, ·)

theorem transfer_fees_sampleBurn : let s := run sampleSelf sampleHost (sampleBurn (10 ^ 16) false)
    let r := s.transfer sampleSelf sampleEnv sampleIssuer sampleHolder ⟨10 ^ 16, sampleSymbol⟩ ""
    r.isOk = true ∧ ∀ s', r = .ok s' → s'.token.balance sampleSelf sampleSymbol.code - s.token.balance sampleSelf sampleSymbol.code =
      s'.pooled sampleSymbol.code - s.pooled sampleSymbol.code := by
  intro s r
  refine ⟨by decide +kernel, fun s' h => ?_⟩
  have K : Kept s := Kept.init.foldl sampleHost_share (by decide +kernel)
  obtain ⟨fees, -, hg, -⟩ := (transfer_fees K.rates (fun owner code a st ha hst => by
      obtain ⟨-, st', hst', hsym⟩ := K.ledger.sound owner code a ha
      cases hst.symm.trans hst'
      exact hsym) (by decide) (by decide) h rfl).2
    (fun conf hco _ => by
      cases (show s.settings = some ⟨sampleSymbol, 0, 100, 100, 100, 100, 0⟩ by decide +kernel).symm.trans hco
      exact ⟨by decide, fun he => absurd he (by decide +kernel)⟩)
  exact hg

/-- **The burn fee of an exempt sender** is credited to the contract and to no pool. -/
theorem burn_fee_not_pooled : let s := run sampleSelf sampleHost (sampleBurn (10 ^ 16) true)
    (s.transfer sampleSelf sampleEnv sampleIssuer sampleHolder ⟨10 ^ 16, sampleSymbol⟩ "").map (fun s' =>
      (s'.token.balance sampleSelf sampleSymbol.code - s.token.balance sampleSelf sampleSymbol.code,
        s'.pooled sampleSymbol.code - s.pooled sampleSymbol.code)) = .ok (3 * 10 ^ 14, 2 * 10 ^ 14) := by
  decide +kernel

end FlexToken
end TheChannel

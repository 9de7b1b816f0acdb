import TheChannel.FlexToken
/-!
# FlexTokenLedger — balances, supply and pools of the fee token

Each action moves between balances what it takes from one of them, and changes the supply with a balance, as long as a fee is
what it is meant to be. It is not when `amount * rate` wraps around: then the contract's balance and the pools become negative
and the balances no longer add up to the supply (`fees_wrap_around`). Without that, with maximum supplies that are not negative
and reflections that do not exceed their pool, the ledger holds over every run (`run_ledger_kept`).

The copies of the balances in `flexers` are right over every run (`run_mirrors`): each action that writes a balance writes the
copy after it.
-/
namespace TheChannel
open Token Asset AList

/-! ## Fees -/

variable {amount : Int} {conf : FlexSettings} {quantity : Asset}

theorem feeOf_ok {rate : Nat} {symbol : Symbol} {fee : Asset} (h : feeOf amount rate symbol = .ok fee) :
    fee = ⟨(toInt64 (amount * rate)).tdiv 10000, symbol⟩ := (make_ok_iff.1 h).2.2

theorem fee_bounds {rate : Nat} (hpos : 0 < amount) (hfit : amount * rate < 2 ^ 63) :
    0 ≤ (toInt64 (amount * rate)).tdiv 10000 ∧ 10000 * (toInt64 (amount * rate)).tdiv 10000 ≤ amount * rate := by
  have hp : 0 ≤ amount * rate := Int.mul_nonneg hpos.le (Int.natCast_nonneg rate)
  rw [toInt64_eq (by omega) hfit, Int.tdiv_eq_ediv_of_nonneg hp]
  omega

def FlexSettings.fits (conf : FlexSettings) (amount : Int) : Bool :=
  decide (amount * conf.reflectionRate < 2 ^ 63 ∧ amount * conf.burnRate < 2 ^ 63 ∧ amount * conf.projectRate < 2 ^ 63)

def FlexSettings.Rates (conf : FlexSettings) : Prop := conf.reflectionRate + conf.burnRate + conf.projectRate ≤ 10000

structure Fees.Fit (fees : Fees) (quantity : Asset) : Prop where
  reflectionSymbol : fees.reflection.symbol = quantity.symbol
  burnSymbol : fees.burn.symbol = quantity.symbol
  projectSymbol : fees.project.symbol = quantity.symbol
  reflection : 0 ≤ fees.reflection.amount
  burn : 0 ≤ fees.burn.amount
  project : 0 ≤ fees.project.amount
  sum_le : fees.sum ≤ quantity.amount

theorem FlexSettings.fees_ok {fees : Fees} (h : conf.fees quantity = .ok fees) :
    feeOf quantity.amount conf.reflectionRate quantity.symbol = .ok fees.reflection ∧
      feeOf quantity.amount conf.burnRate quantity.symbol = .ok fees.burn ∧
      feeOf quantity.amount conf.projectRate quantity.symbol = .ok fees.project := by
  obtain ⟨reflection, href, h⟩ := bind_ok h
  obtain ⟨burn, hb, h⟩ := bind_ok h
  obtain ⟨project, hp, h⟩ := bind_ok h
  cases h
  exact ⟨href, hb, hp⟩

theorem FlexSettings.fees_fit {fees : Fees} (hra : conf.Rates)
    (hpos : 0 < quantity.amount) (hf : conf.fits quantity.amount = true) (h : conf.fees quantity = .ok fees) :
    fees.Fit quantity := by
  obtain ⟨href, hbu, hpr⟩ := fees_ok h
  obtain ⟨hfit1, hfit2, hfit3⟩ := of_decide_eq_true hf
  obtain ⟨hr, hr'⟩ := fee_bounds hpos hfit1
  obtain ⟨hb, hb'⟩ := fee_bounds hpos hfit2
  obtain ⟨hp, hp'⟩ := fee_bounds hpos hfit3
  have hsum : quantity.amount * conf.reflectionRate + quantity.amount * conf.burnRate + quantity.amount * conf.projectRate ≤
      quantity.amount * 10000 := by
    rw [← Int.mul_add, ← Int.mul_add]
    refine Int.mul_le_mul_of_nonneg_left ?_ hpos.le
    unfold FlexSettings.Rates at hra
    omega
  obtain ⟨reflection, burn, project⟩ := fees
  obtain rfl := feeOf_ok href
  obtain rfl := feeOf_ok hbu
  obtain rfl := feeOf_ok hpr
  refine ⟨rfl, rfl, rfl, hr, hb, hp, ?_⟩
  simp only [Fees.sum]
  omega

namespace FlexToken
variable {quantity total actual balance : Asset} {fees : Fees} {exempt : Bool}
  {self owner from_ to_ username account flexer : AccountName} {host : FlexHost} {env : ActionEnv} {s s' : FlexToken}
  {symbol : Symbol} {code : Nat} {st : CurrencyStats} {memo : String} {t t' token : Token} {pools pools' : FlexPools}
  {change : Flexer → Flexer} {fresh : Result Flexer} {f : Flexer} {action : FlexAction}

theorem split_ok {amounts : Asset × Asset} (F : fees.Fit quantity)
    (hbal : quantity.amount ≤ balance.amount) (hsym : balance.symbol = quantity.symbol)
    (h : split exempt quantity balance fees = .ok amounts) :
    amounts.1.symbol = quantity.symbol ∧ amounts.2.symbol = quantity.symbol ∧
      amounts.1.amount = amounts.2.amount + fees.sum ∧ 0 ≤ amounts.2.amount := by
  have hsum := F.sum_le
  obtain ⟨total, htot, h⟩ := bind_ok h
  unfold totalDeduction at htot
  cases exempt with
  | true =>
    rw [if_pos rfl] at htot
    cases htot
    rw [if_neg (by omega), if_pos rfl] at h
    obtain ⟨actual, hact, h⟩ := bind_ok h
    obtain ⟨-, -, rfl⟩ := make_ok_iff.1 hact
    cases h
    exact ⟨rfl, rfl, by dsimp only; omega, by dsimp only; omega⟩
  | false =>
    rw [if_neg Bool.false_ne_true] at htot
    obtain ⟨total1, h1, htot⟩ := bind_ok htot
    obtain ⟨total2, h2, htot⟩ := bind_ok htot
    obtain ⟨-, -, rfl⟩ := add_ok_iff.1 h1
    obtain ⟨-, -, rfl⟩ := add_ok_iff.1 h2
    obtain ⟨-, -, rfl⟩ := add_ok_iff.1 htot
    unfold Fees.sum at *
    split at h
    · -- the whole balance goes, and it covers the fees
      obtain ⟨actual, hact, h⟩ := bind_ok h
      obtain ⟨-, -, rfl⟩ := make_ok_iff.1 hact
      cases h
      refine ⟨hsym, rfl, ?_, ?_⟩
      · dsimp only
        split <;> omega
      · dsimp only
        split <;> omega
    · rw [if_neg Bool.false_ne_true] at h
      cases h
      have hr := F.reflection
      have hb := F.burn
      have hp := F.project
      exact ⟨rfl, rfl, by dsimp only; omega, by dsimp only; omega⟩

/-! ## The parts of an action -/

theorem updateFlexBalance_ok (h : s.updateFlexBalance owner symbol = .ok s') :
    ∃ f : Flexer, s' = { s with flexers := s.flexers.insert owner f } ∧
      f.balance = (s.token.accounts.lookup (owner, symbol.code)).getD ⟨0, symbol⟩ := by
  obtain ⟨zero, hz, h⟩ := bind_ok h
  obtain ⟨-, -, rfl⟩ := make_ok_iff.1 hz
  cases h
  refine ⟨_, rfl, ?_⟩
  cases s.flexers.lookup owner <;> rfl

theorem move_ok (h : s.move from_ to_ symbol total actual = .ok s') :
    ∃ (t1 t2 : Token) (f g : Flexer), s.token.subBalance from_ total = .ok t1 ∧ t1.addBalance to_ actual = .ok t2 ∧
      s' = { s with token := t2, flexers := (s.flexers.insert from_ f).insert to_ g } ∧
      f.balance = (t2.accounts.lookup (from_, symbol.code)).getD ⟨0, symbol⟩ ∧
      g.balance = (t2.accounts.lookup (to_, symbol.code)).getD ⟨0, symbol⟩ := by
  obtain ⟨t1, hsub, h⟩ := bind_ok h
  obtain ⟨t2, hadd, h⟩ := bind_ok h
  obtain ⟨s1, h1, h⟩ := bind_ok h
  obtain ⟨f, rfl, hf⟩ := updateFlexBalance_ok h1
  obtain ⟨g, rfl, hg⟩ := updateFlexBalance_ok h
  exact ⟨t1, t2, f, g, hsub, hadd, rfl, hf, hg⟩

theorem transfer_accepted_ok (h : s.transfer self env from_ to_ quantity memo = .ok s') :
    from_ ≠ to_ ∧ 0 < quantity.amount ∧ ∃ st balance, s.token.stat.lookup quantity.symbol.code = some st ∧
      quantity.symbol = st.supply.symbol ∧ s.token.accounts.lookup (from_, quantity.symbol.code) = some balance ∧
      quantity.amount ≤ balance.amount ∧
      ((s.charged self from_ = true ∧ ∃ r, s.charge self from_ quantity balance = .ok r ∧
          r.1.move from_ to_ quantity.symbol r.2.1 r.2.2 = .ok s') ∨
        (s.charged self from_ = false ∧ s.move from_ to_ quantity.symbol quantity quantity = .ok s')) := by
  replace h := rest_ok h
  obtain ⟨hne, h⟩ := check_ok h
  replace h := rest_ok h
  obtain ⟨st, hst, h⟩ := bind_ok h
  split at h
  · cases h
  rename_i balance hrow
  obtain ⟨hle, h⟩ := check_ok h
  iterate 2 replace h := rest_ok h
  obtain ⟨hpos, h⟩ := check_ok h
  obtain ⟨hsym, h⟩ := check_ok h
  refine ⟨bne_iff_ne.1 hne, of_decide_eq_true hpos, st, balance, getStat_ok_iff.1 hst, beq_iff_eq.1 hsym, hrow,
    of_decide_eq_true hle, ?_⟩
  cases hch : s.charged self from_ with
  | true =>
    rw [hch, if_pos rfl] at h
    obtain ⟨r, hr, h⟩ := bind_ok h
    exact .inl ⟨rfl, r, hr, h⟩
  | false =>
    rw [hch, if_neg Bool.false_ne_true] at h
    exact .inr ⟨rfl, h⟩

theorem getSettings_ok {msg : String} (h : s.getSettings msg = .ok conf) : s.settings = some conf := by
  unfold getSettings at h
  split at h
  · cases h
    assumption
  · cases h

theorem charge_ok {r : FlexToken × Asset × Asset} (h : s.charge self from_ quantity balance = .ok r) :
    ∃ conf fees token pools, s.settings = some conf ∧ conf.fees quantity = .ok fees ∧
      split (s.feeExempt from_) quantity balance fees = .ok r.2 ∧ creditFees self s.token fees = .ok token ∧
      creditPools (s.feeExempt from_) (s.poolsOf quantity.symbol.code) fees = .ok pools ∧
      r.1 = { s with token := token, pools := s.pools.insert quantity.symbol.code pools } := by
  obtain ⟨conf, hc, h⟩ := bind_ok h
  replace h := rest_ok h
  obtain ⟨fees, hf, h⟩ := bind_ok h
  obtain ⟨amounts, hs, h⟩ := bind_ok h
  obtain ⟨token, htok, h⟩ := bind_ok h
  obtain ⟨pools, hp, h⟩ := bind_ok h
  cases h
  exact ⟨conf, fees, token, pools, getSettings_ok hc, hf, hs, htok, hp, rfl⟩

/-! ## The ledger -/

def Nonneg (p : FlexPools) : Prop := 0 ≤ p.reflection.amount ∧ 0 ≤ p.burn.amount ∧ 0 ≤ p.project.amount

structure Kept (s : FlexToken) : Prop where
  ledger : s.token.Ledger
  pools : ∀ code, Nonneg (s.poolsOf code)
  rates : ∀ conf, s.settings = some conf → conf.Rates

theorem poolsOf_insert (s : FlexToken) (token : Token) (c code : Nat) (p : FlexPools) :
    poolsOf { s with token := token, pools := s.pools.insert c p } code = if code = c then p else s.poolsOf code := by
  unfold poolsOf
  rw [RowMap.lookup_insert_ite]
  split <;> rfl

theorem poolsOf_congr (h : s'.pools = s.pools) : s'.poolsOf code = s.poolsOf code := by
  unfold poolsOf
  rw [h]

theorem Kept.init : Kept init where
  ledger := Token.Ledger.init
  pools := fun _ => ⟨le_rfl, le_rfl, le_rfl⟩
  rates := fun _ h => by cases h

theorem creditFees_ok (F : fees.Fit quantity) (S : t.Sound)
    (hst : t.stat.lookup quantity.symbol.code = some st) (hsym : quantity.symbol = st.supply.symbol)
    (h : creditFees self t fees = .ok t') :
    t'.Sound ∧ t'.stat = t.stat ∧
      ∀ code, t'.circulating code = t.circulating code + if quantity.symbol.code = code then fees.sum else 0 := by
  -- one fee, credited if it is positive
  have credit : ∀ {t t' : Token} {fee : Asset} {b : Prop} [Decidable b], t.Sound →
      t.stat.lookup quantity.symbol.code = some st → fee.symbol = quantity.symbol → 0 ≤ fee.amount → (¬ b → fee.amount = 0) →
      (if b then t.addBalance self fee else .ok t) = .ok t' →
      t'.Sound ∧ t'.stat = t.stat ∧
        ∀ code, t'.circulating code = t.circulating code + if quantity.symbol.code = code then fee.amount else 0 := by
    intro t t' fee b _ S hst hfee hpos hz h
    split at h
    · obtain ⟨S', hs, hc⟩ := S.addBalance (hfee ▸ hst) (hfee.trans hsym) hpos h
      rw [hfee] at hc
      exact ⟨S', hs, hc⟩
    · rename_i hb
      cases h
      simp [S, hz hb]
  obtain ⟨t1, h1, h⟩ := bind_ok h
  obtain ⟨t2, h2, h⟩ := bind_ok h
  have hr := F.reflection
  have hb := F.burn
  have hp := F.project
  obtain ⟨S1, hs1, hc1⟩ := credit (b := True) S hst F.reflectionSymbol hr (fun h => absurd trivial h) (by simpa using h1)
  obtain ⟨S2, hs2, hc2⟩ := credit S1 (hs1 ▸ hst) F.burnSymbol hb (by omega) h2
  obtain ⟨S3, hs3, hc3⟩ := credit S2 (hs2 ▸ hs1 ▸ hst) F.projectSymbol hp (by omega) h
  refine ⟨S3, hs3.trans (hs2.trans hs1), fun code => ?_⟩
  rw [hc3, hc2, hc1]
  unfold Fees.sum
  split <;> omega

theorem creditPools_ok (h : creditPools exempt pools fees = .ok pools') :
    pools'.reflection.amount = pools.reflection.amount + fees.reflection.amount ∧
    pools'.burn.amount = pools.burn.amount + (if exempt then 0 else fees.burn.amount) ∧
    pools'.project.amount = pools.project.amount + fees.project.amount := by
  obtain ⟨reflection, href, h⟩ := bind_ok h
  obtain ⟨burn, hb, h⟩ := bind_ok h
  obtain ⟨project, hpr, h⟩ := bind_ok h
  cases h
  obtain ⟨-, -, rfl⟩ := add_ok_iff.1 href
  obtain ⟨-, -, rfl⟩ := add_ok_iff.1 hpr
  refine ⟨rfl, ?_, rfl⟩
  by_cases he : exempt = true
  · rw [if_pos he] at hb ⊢
    cases hb
    exact (Int.add_zero _).symm
  · rw [if_neg he] at hb ⊢
    obtain ⟨-, -, rfl⟩ := add_ok_iff.1 hb
    rfl

theorem move_circulating (S : s.token.Sound)
    (hst : s.token.stat.lookup quantity.symbol.code = some st) (hsym : quantity.symbol = st.supply.symbol)
    (htot : total.symbol = quantity.symbol) (hact : actual.symbol = quantity.symbol) (hpos : 0 ≤ actual.amount)
    (h : s.move from_ to_ quantity.symbol total actual = .ok s') :
    s'.token.Sound ∧ s'.token.stat = s.token.stat ∧ s'.pools = s.pools ∧ s'.settings = s.settings ∧
      ∀ code, s'.token.circulating code = s.token.circulating code +
        if quantity.symbol.code = code then actual.amount - total.amount else 0 := by
  obtain ⟨t1, t2, f, g, hsub, hadd, rfl, -, -⟩ := move_ok h
  obtain ⟨S1, hs1, hc1⟩ := S.subBalance (htot ▸ hst) (htot.trans hsym) hsub
  obtain ⟨S2, hs2, hc2⟩ := S1.addBalance (hact ▸ hs1 ▸ hst) (hact.trans hsym) hpos hadd
  refine ⟨S2, hs2.trans hs1, rfl, rfl, fun code => ?_⟩
  rw [hc2, hc1, htot, hact]
  split <;> omega

theorem Kept.of_circulating (K : Kept s) (hso : s'.token.Sound) (hs : s'.token.stat = s.token.stat)
    (hci : ∀ code, s'.token.circulating code = s.token.circulating code) (hp : ∀ code, Nonneg (s'.poolsOf code))
    (hset : s'.settings = s.settings) : Kept s' where
  ledger := ⟨hso, fun code st hst => by
    rw [hci]
    exact K.ledger.balanced code st (hs ▸ hst)⟩
  pools := hp
  rates := hset ▸ K.rates

theorem Kept.transfer (K : Kept s)
    (hfi : s.charged self from_ = true → ∀ conf, s.settings = some conf → conf.fits quantity.amount = true)
    (h : s.transfer self env from_ to_ quantity memo = .ok s') : Kept s' := by
  obtain ⟨-, hpos, st, balance, hst, hsym, hrow, hle, hm⟩ := transfer_accepted_ok h
  have S := K.ledger.sound
  rcases hm with ⟨hcd, r, hch, hm⟩ | ⟨-, hm⟩
  · obtain ⟨conf, fees, token, pools, hco, hf, hs, htok, hp, hr⟩ := charge_ok hch
    obtain ⟨r, amounts⟩ := r
    subst hr
    have F := conf.fees_fit (K.rates conf hco) hpos (hfi hcd conf hco) hf
    obtain ⟨-, st', hst', hbal⟩ := S _ _ balance hrow
    rw [hst] at hst'
    cases hst'
    obtain ⟨htot, hact, hsum, hac⟩ := split_ok F hle (hbal.trans hsym.symm) hs
    obtain ⟨S1, hs1, hc1⟩ := creditFees_ok F S hst hsym htok
    obtain ⟨S2, hs2, hp2, hset2, hc2⟩ :=
      move_circulating S1 (hs1.symm ▸ hst) hsym htot hact hac hm
    refine K.of_circulating S2 (hs2.trans hs1) (fun code => ?_) (fun code => ?_) hset2
    · rw [hc2, hc1]
      split <;> omega
    · rw [poolsOf_congr hp2, poolsOf_insert]
      split
      · obtain ⟨hr, hb, hpr⟩ := creditPools_ok hp
        obtain ⟨hr0, hb0, hp0⟩ := K.pools quantity.symbol.code
        refine ⟨hr ▸ Int.add_nonneg hr0 F.reflection, hb ▸ Int.add_nonneg hb0 ?_, hpr ▸ Int.add_nonneg hp0 F.project⟩
        split
        · exact le_rfl
        · exact F.burn
      · exact K.pools code
  · obtain ⟨S1, hs1, hp1, hset1, hc1⟩ := move_circulating S hst hsym rfl rfl hpos.le hm
    refine K.of_circulating S1 hs1 (fun code => ?_) (fun code => ?_) hset1
    · rw [hc1, Int.sub_self, ite_self, Int.add_zero]
    · rw [poolsOf_congr hp1]
      exact K.pools code

theorem Kept.setToken (K : Kept s) (L : token.Ledger) : Kept (s.setToken token) := ⟨L, K.pools, K.rates⟩

theorem Kept.updateFlexBalance (K : Kept s) (h : s.updateFlexBalance owner symbol = .ok s') : Kept s' := by
  obtain ⟨f, rfl, -⟩ := updateFlexBalance_ok h
  exact ⟨K.ledger, K.pools, K.rates⟩

theorem Kept.forge (K : Kept s) {issuer : AccountName} {maximumSupply : Asset} (hpos : 0 ≤ maximumSupply.amount)
    (h : s.forge self env issuer maximumSupply = .ok s') : Kept s' := by
  iterate 3 replace h := rest_ok h
  obtain ⟨hnew, h⟩ := check_ok h
  cases h
  refine ⟨K.ledger.newStat issuer (Option.isNone_iff_eq_none.1 hnew) hpos, fun code => ?_, fun conf hco => ?_⟩
  · unfold poolsOf
    rw [RowMap.lookup_insert_ite]
    split
    · exact ⟨le_rfl, le_rfl, le_rfl⟩
    · exact K.pools code
  · cases hco
    exact (by decide : 100 + 0 + 100 ≤ 10000)

theorem mint_ok (h : s.mint env to_ quantity memo = .ok s') :
    ∃ st token, s.token.stat.lookup quantity.symbol.code = some st ∧ 0 < quantity.amount ∧
      quantity.symbol = st.supply.symbol ∧ quantity.amount ≤ st.maxSupply.amount - st.supply.amount ∧
      addBalance { s.token with
        stat := s.token.stat.insert quantity.symbol.code { st with supply := ⟨st.supply.amount + quantity.amount, st.supply.symbol⟩ } }
        st.issuer quantity = .ok token ∧
      (s.setToken token).updateFlexBalance st.issuer quantity.symbol = .ok s' := by
  iterate 2 replace h := rest_ok h
  obtain ⟨st, hst, h⟩ := bind_ok h
  iterate 3 replace h := rest_ok h
  obtain ⟨hpos, h⟩ := check_ok h
  obtain ⟨hsym, h⟩ := check_ok h
  obtain ⟨hmax, h⟩ := check_ok h
  obtain ⟨supply, hsup, h⟩ := bind_ok h
  obtain ⟨-, -, rfl⟩ := add_ok_iff.1 hsup
  obtain ⟨token, htok, h⟩ := bind_ok h
  exact ⟨st, token, getStat_ok_iff.1 hst, of_decide_eq_true hpos, beq_iff_eq.1 hsym, of_decide_eq_true hmax, htok, h⟩

theorem Kept.mint (K : Kept s) (h : s.mint env to_ quantity memo = .ok s') : Kept s' := by
  obtain ⟨st, token, hst, hpos, hsym, hmax, htok, h⟩ := mint_ok h
  exact (K.setToken (K.ledger.supplyAdd hst hpos hsym hmax htok)).updateFlexBalance h

theorem smelt_ok (h : s.smelt env username quantity memo = .ok s') :
    ∃ st token s1, s.token.stat.lookup quantity.symbol.code = some st ∧ 0 < quantity.amount ∧
      quantity.symbol = st.supply.symbol ∧
      subBalance { s.token with
        stat := s.token.stat.insert quantity.symbol.code { st with supply := ⟨st.supply.amount - quantity.amount, st.supply.symbol⟩ } }
        username quantity = .ok token ∧
      (s.setToken token).updateFlexBalance username quantity.symbol = .ok s1 ∧
      (s' = s1 ∨ (s1.token.balance username quantity.symbol.code = 0 ∧
        s' = s1.setToken { s1.token with accounts := s1.token.accounts.erase (username, quantity.symbol.code) })) := by
  iterate 2 replace h := rest_ok h
  obtain ⟨st, hst, h⟩ := bind_ok h
  iterate 2 replace h := rest_ok h
  obtain ⟨hpos, h⟩ := check_ok h
  obtain ⟨hsym, h⟩ := check_ok h
  obtain ⟨supply, hsup, h⟩ := bind_ok h
  obtain ⟨-, -, rfl⟩ := sub_ok_iff.1 hsup
  obtain ⟨token, htok, h⟩ := bind_ok h
  obtain ⟨s1, hs1, h⟩ := bind_ok h
  refine ⟨st, token, s1, getStat_ok_iff.1 hst, of_decide_eq_true hpos, beq_iff_eq.1 hsym, htok, hs1, ?_⟩
  split at h
  case isTrue hz =>
    cases h
    exact .inr ⟨hz, rfl⟩
  case isFalse =>
    cases h
    exact .inl rfl

theorem Kept.smelt (K : Kept s) (h : s.smelt env username quantity memo = .ok s') : Kept s' := by
  obtain ⟨st, token, s1, hst, hpos, hsym, htok, hs1, hs'⟩ := smelt_ok h
  have K1 := (K.setToken (K.ledger.supplySub hst hpos hsym htok)).updateFlexBalance hs1
  rcases hs' with rfl | ⟨hz, rfl⟩
  · exact K1
  · exact K1.setToken (K1.ledger.eraseRow hz)

/-! Inline transfers come from the contract and are not charged. -/

theorem not_charged (s : FlexToken) : s.charged self self = false := by simp [charged]

theorem Kept.inlineTransfer (K : Kept s) (h : s.transfer self env self to_ quantity memo = .ok s') : Kept s' := by
  refine K.transfer (fun hch => ?_) h
  rw [not_charged] at hch
  cases hch

theorem Kept.transferAll : ∀ {shares} {s}, Kept s → transferAll self env shares s = .ok s' → Kept s'
  | [], _, K, h => by
    cases h
    exact K
  | share :: shares, s, K, h => by
    obtain ⟨s1, hs1, h⟩ := bind_ok h
    exact Kept.transferAll (K.inlineTransfer hs1) h

/-- The state in which `reflect` leaves its own tables, before the actions it sends. -/
def paged (s : FlexToken) (conf : FlexSettings) (pools : FlexPools) (startKey : Nat) : FlexToken :=
  { s with
    pools := s.pools.insert conf.tokenSymbol.code pools
    settings := some { conf with startKey := startKey } }

theorem reflect_ok (h : s.reflect self host env = .ok s') :
    ∃ conf st d pools startKey s1 s2, s.settings = some conf ∧ s.token.stat.lookup conf.tokenSymbol.code = some st ∧
      s.distribution self host env conf st = .ok d ∧ emptied (s.poolsOf conf.tokenSymbol.code) d.2 = .ok pools ∧
      transferAll self env d.1 (s.paged conf pools startKey) = .ok s1 ∧
      (s2 = s1 ∨ ∃ quantity memo, s1.smelt (inlineEnv self env) self quantity memo = .ok s2) ∧
      (s' = s2 ∨ ∃ to_ quantity memo, s2.transfer self (inlineEnv self env) self to_ quantity memo = .ok s') := by
  obtain ⟨conf, hc, h⟩ := bind_ok h
  obtain ⟨st, hst, h⟩ := bind_ok h
  replace h := rest_ok h
  obtain ⟨d, hd, h⟩ := bind_ok h
  obtain ⟨pools, hp, h⟩ := bind_ok h
  obtain ⟨s1, hs1, h⟩ := bind_ok h
  obtain ⟨s2, hs2, h⟩ := bind_ok h
  refine ⟨conf, st, d, pools, _, s1, s2, getSettings_ok hc, getStat_ok_iff.1 hst, hd, hp, hs1, ?_, ?_⟩
  · split at hs2
    · exact .inr ⟨_, _, hs2⟩
    · cases hs2
      exact .inl rfl
  · split at h
    · exact .inr ⟨_, _, _, h⟩
    · cases h
      exact .inl rfl

theorem sendShare_total {share : Share} {d d' : List Share × Asset} (h : sendShare share d = .ok d') :
    d'.2.amount = d.2.amount + max share.amount.amount 0 := by
  unfold sendShare at h
  split at h
  · rename_i hle
    cases h
    rw [max_eq_right hle, Int.add_zero]
  · rename_i hpos
    replace h := rest_ok h
    obtain ⟨total, htot, h⟩ := bind_ok h
    obtain ⟨-, -, rfl⟩ := add_ok_iff.1 htot
    cases h
    rw [max_eq_left (by omega)]

theorem shareOf_amount (conf : FlexSettings) (row : Flexer) (recipient : AccountName) (amount : Asset) (useCustom : Bool) :
    (s.shareOf self host conf row recipient amount useCustom).amount = amount := by
  unfold shareOf
  split
  · rfl
  · split
    · rfl
    · split <;> rfl

/-- The balances on which `reflect` pays shares. -/
def paidBalances (self : AccountName) (host : FlexHost) (conf : FlexSettings) (pool : Int)
    (rows : List (AccountName × Flexer)) : Int :=
  ((rows.filter fun e => eligible self host conf pool e.1 e.2).map fun e => max e.2.balance.amount 0).sum

section Distribution

variable {conf : FlexSettings} {pool supply : Int} (hshare : host.TwelfthAtMost) (hpool : 0 ≤ pool)
  (hfit : pool * 10000 < 2 ^ 63) (hsup : 0 < supply)

include hshare hpool hfit hsup

theorem reflectRow_total {e : AccountName × Flexer} {d d' : List Share × Asset}
    (hrow : paidBalances self host conf pool [e] ≤ 12 * supply)
    (h : s.reflectRow self host env conf pool supply d e = .ok d') :
    12 * supply * d'.2.amount ≤ 12 * supply * d.2.amount + pool * paidBalances self host conf pool [e] := by
  unfold reflectRow at h
  split at h
  · rename_i hel
    have hpaid : paidBalances self host conf pool [e] = max e.2.balance.amount 0 := by simp [paidBalances, hel]
    rw [hpaid] at hrow ⊢
    have hmul := Int.mul_le_mul_of_nonneg_left hrow hpool
    have hsh := hshare pool e.2.balance.amount supply hpool hsup
    obtain ⟨share, hmake, h⟩ := bind_ok h
    obtain ⟨-, -, rfl⟩ := make_ok_iff.1 hmake
    split at h
    · cases h
      nlinarith [Int.mul_nonneg hpool (le_max_right e.2.balance.amount 0)]
    · rename_i hpos
      dsimp only at hpos
      obtain ⟨tree, htree, h⟩ := bind_ok h
      obtain ⟨holder, hhold, h⟩ := bind_ok h
      obtain ⟨d1, hd1, hd2⟩ := bind_ok h
      -- a share is at most the pool, so the product with the rate fits
      generalize host.share pool e.2.balance.amount supply = share at hsh hpos htree hhold
      have hle : share ≤ pool := by
        by_contra hgt
        nlinarith
      generalize hrate : min (if e.2.treeRate = 0 ∧ e.2.tree = 0 then 10000 else e.2.treeRate) 10000 = rate at htree
      have hr : (rate : Int) ≤ 10000 := by exact_mod_cast hrate ▸ min_le_right _ _
      have hprod : share * rate ≤ share * 10000 := Int.mul_le_mul_of_nonneg_left hr (by omega)
      have hb := fee_bounds (show 0 < share by omega) (show share * rate < 2 ^ 63 by omega)
      rw [feeOf_ok htree] at hhold hd1
      obtain ⟨-, -, rfl⟩ := sub_ok_iff.1 hhold
      have h1 := sendShare_total hd1
      have h2 := sendShare_total hd2
      rw [shareOf_amount] at h1 h2
      dsimp only at h1 h2
      rw [max_eq_left (by omega)] at h1 h2
      have htot : d'.2.amount = d.2.amount + share := by omega
      rw [htot]
      nlinarith
  · rename_i hel
    cases h
    simp [paidBalances, hel]

theorem reflectRows_total : ∀ {rows : List (AccountName × Flexer)} {d d' : List Share × Asset},
    paidBalances self host conf pool rows ≤ 12 * supply →
    rows.foldlM (s.reflectRow self host env conf pool supply) d = .ok d' →
    12 * supply * d'.2.amount ≤ 12 * supply * d.2.amount + pool * paidBalances self host conf pool rows
  | [], d, d', _, h => by
    cases h
    simp [paidBalances]
  | e :: rows, d, d', hrows, h => by
    rw [List.foldlM_cons] at h
    obtain ⟨d1, hd1, h⟩ := bind_ok h
    have hsplit : paidBalances self host conf pool (e :: rows) =
        paidBalances self host conf pool [e] + paidBalances self host conf pool rows := by
      unfold paidBalances
      rw [← List.singleton_append, List.filter_append, List.map_append, List.sum_append]
    have hpos : ∀ rows, 0 ≤ paidBalances self host conf pool rows := fun rows =>
      List.sum_nonneg fun x hx => by
        obtain ⟨e, -, rfl⟩ := List.mem_map.1 hx
        exact le_max_right _ _
    have h0 := hpos [e]
    have h1 := hpos rows
    have hstep := reflectRow_total hshare hpool hfit hsup (by omega) hd1
    have hrest := reflectRows_total (by omega) h
    rw [hsplit]
    nlinarith

end Distribution

/-- `reflect` pays on balances of at most twelve times the adjusted supply, and no product of the pool and a rate wraps around. -/
def distributes (self : AccountName) (host : FlexHost) (s : FlexToken) (conf : FlexSettings) (st : CurrencyStats) : Bool :=
  let pool := (s.poolsOf conf.tokenSymbol.code).reflection.amount
  ((s.exemptBalances conf.tokenSymbol).toOption.all fun exempt => (st.supply.sub exempt).toOption.all fun supply =>
    decide (paidBalances self host conf pool ((s.flexersFrom conf.startKey).take conf.limit) ≤ 12 * supply.amount)) &&
    decide (pool * 10000 < 2 ^ 63)

theorem distribution_le {conf : FlexSettings} {st : CurrencyStats} {d : List Share × Asset} (hshare : host.TwelfthAtMost)
    (hpool : 0 ≤ (s.poolsOf conf.tokenSymbol.code).reflection.amount) (hdis : s.distributes self host conf st = true)
    (h : s.distribution self host env conf st = .ok d) : d.2.amount ≤ (s.poolsOf conf.tokenSymbol.code).reflection.amount := by
  obtain ⟨exempt, hex, h⟩ := bind_ok h
  obtain ⟨supply, hsup, h⟩ := bind_ok h
  obtain ⟨hpos, h⟩ := check_ok h
  simp only [distributes, hex, hsup, Except.toOption, Option.all_some, Bool.and_eq_true, decide_eq_true_eq] at hdis hpos
  have htot := reflectRows_total hshare hpool hdis.2 hpos hdis.1 h
  have hmul := Int.mul_le_mul_of_nonneg_left hdis.1 hpool
  by_contra hgt
  dsimp only at htot
  nlinarith

theorem Kept.reflect (K : Kept s)
    (hle : ∀ conf st d, s.settings = some conf → s.token.stat.lookup conf.tokenSymbol.code = some st →
      s.distribution self host env conf st = .ok d → d.2.amount ≤ (s.poolsOf conf.tokenSymbol.code).reflection.amount)
    (h : s.reflect self host env = .ok s') : Kept s' := by
  obtain ⟨conf, st, d, pools, startKey, s1, s2, hco, hst, hd, hpo, hs1, hs2, hs'⟩ := reflect_ok h
  have K0 : Kept (s.paged conf pools startKey) := by
    refine ⟨K.ledger, fun code => ?_, fun conf' hc' => ?_⟩
    · have hp : (s.paged conf pools startKey).poolsOf code = if code = conf.tokenSymbol.code then pools else s.poolsOf code :=
        poolsOf_insert s s.token _ _ _
      rw [hp]
      split
      · unfold emptied at hpo
        split at hpo
        · obtain ⟨reflection, href, hpo⟩ := bind_ok hpo
          obtain ⟨-, -, rfl⟩ := sub_ok_iff.1 href
          cases hpo
          exact ⟨Int.sub_nonneg.2 (hle conf st d hco hst hd), le_rfl, le_rfl⟩
        · cases hpo
          exact K.pools _
      · exact K.pools code
    · cases hc'
      exact K.rates conf hco
  have K1 := K0.transferAll hs1
  have K2 : Kept s2 := by
    rcases hs2 with rfl | ⟨quantity, memo, hs2⟩
    · exact K1
    · exact K1.smelt hs2
  rcases hs' with rfl | ⟨to_, quantity, memo, hs'⟩
  · exact K2
  · exact K2.inlineTransfer hs'

/-! ## Actions that do not touch a balance -/

structure SameLedger (s s' : FlexToken) : Prop where
  token : s'.token = s.token
  pools : s'.pools = s.pools
  settings : s'.settings = s.settings

theorem Kept.same (K : Kept s) (h : SameLedger s s') : Kept s' :=
  ⟨h.token ▸ K.ledger, fun code => by rw [poolsOf_congr h.pools]; exact K.pools code, h.settings ▸ K.rates⟩

/-- A row of `flexers` was changed but for its balance, or was made with the balance 0. -/
def FlexerChange (s s' : FlexToken) : Prop :=
  s' = s ∨ ∃ owner f, s' = { s with flexers := s.flexers.insert owner f } ∧
    ((s.flexers.lookup owner = none ∧ f.balance.amount = 0) ∨
      ∃ g, s.flexers.lookup owner = some g ∧ f.balance = g.balance)

theorem FlexerChange.same (h : FlexerChange s s') : SameLedger s s' := by
  rcases h with rfl | ⟨owner, f, rfl, -⟩
  · exact ⟨rfl, rfl, rfl⟩
  · exact ⟨rfl, rfl, rfl⟩

theorem FlexerChange.of_upsert
    (h : s.upsertFlexer owner fresh change = .ok s') (hfr : ∀ f, fresh = .ok f → f.balance.amount = 0)
    (hch : ∀ f, (change f).balance = f.balance) : FlexerChange s s' := by
  unfold upsertFlexer at h
  cases hrow : s.flexers.lookup owner with
  | none =>
    rw [hrow] at h
    obtain ⟨f, hf, h⟩ := bind_ok h
    cases h
    exact .inr ⟨owner, f, rfl, .inl ⟨hrow, hfr f hf⟩⟩
  | some g =>
    rw [hrow] at h
    cases h
    exact .inr ⟨owner, _, rfl, .inr ⟨g, hrow, hch g⟩⟩

theorem fresh_amount {zero : Symbol} {make : Asset → Flexer} (hm : ∀ a, (make a).balance = a)
    (h : (Asset.make 0 zero >>= fun a => (.ok (make a) : Result Flexer)) = .ok f) : f.balance.amount = 0 := by
  obtain ⟨a, ha, h⟩ := bind_ok h
  obtain ⟨-, -, rfl⟩ := make_ok_iff.1 ha
  cases h
  rw [hm]

theorem renounce_ok {banStatus : Bool} (h : s.renounce self env account banStatus = .ok s') : FlexerChange s s' := by
  obtain ⟨u, -, h⟩ := bind_ok h
  replace h := rest_ok h
  obtain ⟨conf, -, h⟩ := bind_ok h
  exact .of_upsert h (fun _ => fresh_amount (fun _ => rfl)) fun _ => rfl

theorem interestoken_ok {tokenSymbol : String} (h : s.interestoken env owner tokenSymbol = .ok s') : FlexerChange s s' := by
  replace h := rest_ok h
  split at h
  · cases hrow : s.flexers.lookup owner with
    | none =>
      rw [hrow] at h
      cases h
      exact .inl rfl
    | some f =>
      rw [hrow] at h
      cases h
      exact .inr ⟨owner, _, rfl, .inr ⟨f, hrow, rfl⟩⟩
  · replace h := rest_ok h
    exact .of_upsert h (fun _ => fresh_amount (fun _ => rfl)) fun _ => rfl

theorem inheritance_ok {tree : AccountName} {rate : Nat} (h : s.inheritance self env flexer tree rate = .ok s') :
    FlexerChange s s' := by
  iterate 2 replace h := rest_ok h
  obtain ⟨conf, -, h⟩ := bind_ok h
  replace h := rest_ok h
  exact .of_upsert h (fun _ => fresh_amount (fun _ => rfl)) fun _ => rfl

theorem inheritmemo_ok {customMemo : String} (h : s.inheritmemo self env flexer customMemo = .ok s') :
    FlexerChange s s' := by
  iterate 2 replace h := rest_ok h
  obtain ⟨conf, -, h⟩ := bind_ok h
  exact .of_upsert h (fun _ => fresh_amount (fun _ => rfl)) fun _ => rfl

theorem setconfig_ok {settings : FlexSettings} (h : s.setconfig self env settings = .ok s') :
    settings.Rates ∧ s' = { s with settings := some settings } := by
  iterate 7 replace h := rest_ok h
  obtain ⟨hr, h⟩ := check_ok h
  replace h := rest_ok h
  cases h
  rw [decide_eq_true_eq] at hr
  exact ⟨hr, rfl⟩

theorem addpool_ok {id : Nat} {pool : SwapPool} (h : s.addpool self env id pool = .ok s') :
    ∃ flexpools, s' = { s with flexpools := flexpools } := by
  iterate 4 replace h := rest_ok h
  cases h
  exact ⟨_, rfl⟩

theorem setswap_ok {swap : AccountName} (h : s.setswap self env swap = .ok s') : s' = { s with swap := some swap } := by
  iterate 2 replace h := rest_ok h
  cases h
  rfl

theorem setexempt_ok {on : Bool} (h : s.setexempt self env account on = .ok s') :
    ∃ exempts, s' = { s with exempts := exempts } := by
  iterate 2 replace h := rest_ok h
  cases h
  exact ⟨_, rfl⟩

/-! ## Runs -/

def safe (self : AccountName) (host : FlexHost) (s : FlexToken) : FlexAction → Bool
  | .forge _ maximumSupply => decide (0 ≤ maximumSupply.amount)
  | .transfer from_ _ quantity _ => !s.charged self from_ || s.settings.all (·.fits quantity.amount)
  | .reflect => s.settings.all fun conf => (s.token.stat.lookup conf.tokenSymbol.code).all (s.distributes self host conf)
  | _ => true

theorem Kept.apply (hshare : host.TwelfthAtMost) (K : Kept s) (hs : s.safe self host action = true)
    (h : s.apply self host env action = .ok s') : Kept s' := by
  cases action with
  | forge issuer maximumSupply => exact K.forge (of_decide_eq_true hs) h
  | mint to_ quantity memo => exact K.mint h
  | smelt username quantity memo => exact K.smelt h
  | transfer from_ to_ quantity memo =>
    refine K.transfer (fun hch conf hco => ?_) h
    simp only [safe, hch, hco, Bool.not_true, Bool.false_or, Option.all_some] at hs
    exact hs
  | openRow owner symbol ramPayer =>
    obtain ⟨token, htok, rfl⟩ := map_ok_iff.1 h
    exact K.setToken (K.ledger.openRow htok)
  | closeRow owner symbol =>
    obtain ⟨token, htok, rfl⟩ := map_ok_iff.1 h
    exact K.setToken (K.ledger.closeRow htok)
  | reflect =>
    refine K.reflect (fun conf st d hco hst hd => ?_) h
    simp only [safe, hco, hst, Option.all_some] at hs
    exact distribution_le hshare (K.pools _).1 hs hd
  | setconfig settings =>
    obtain ⟨hr, rfl⟩ := setconfig_ok h
    refine ⟨K.ledger, K.pools, fun conf hco => ?_⟩
    cases hco
    exact hr
  | renounce account banStatus => exact K.same (renounce_ok h).same
  | addpool id pool =>
    obtain ⟨flexpools, rfl⟩ := addpool_ok h
    exact K.same ⟨rfl, rfl, rfl⟩
  | interestoken owner tokenSymbol => exact K.same (interestoken_ok h).same
  | inheritance flexer tree rate => exact K.same (inheritance_ok h).same
  | inheritmemo flexer customMemo => exact K.same (inheritmemo_ok h).same
  | setswap swap =>
    obtain rfl := setswap_ok h
    exact K.same ⟨rfl, rfl, rfl⟩
  | setexempt account on =>
    obtain ⟨exempts, rfl⟩ := setexempt_ok h
    exact K.same ⟨rfl, rfl, rfl⟩

def safeRun (self : AccountName) (host : FlexHost) : FlexToken → List (ActionEnv × FlexAction) → Bool
  | _, [] => true
  | s, a :: actions =>
    match s.apply self host a.1 a.2 with
    | .ok s' => s.safe self host a.2 && safeRun self host s' actions
    | .error _ => safeRun self host s actions

theorem Kept.foldl (hshare : host.TwelfthAtMost) : ∀ {actions} {s}, Kept s → safeRun self host s actions = true →
    Kept (actions.foldl (step self host) s)
  | [], _, K, _ => K
  | a :: actions, s, K, hs => by
    unfold safeRun at hs
    rw [List.foldl_cons]
    unfold FlexToken.step
    cases h : s.apply self host a.1 a.2 with
    | ok s' =>
      rw [h] at hs
      obtain ⟨hs, hr⟩ := (Bool.and_eq_true_iff ..).1 hs
      exact Kept.foldl hshare (K.apply hshare hs h) hr
    | error e =>
      rw [h] at hs
      exact Kept.foldl hshare K hs

/-- **The ledger of the fee token.** Over every run in which accepted `forge` actions have a maximum supply that is not negative,
no fee of an accepted transfer wraps around and every accepted `reflect` pays on balances of at most twelve times the adjusted
supply, from a pool whose product with a rate does not wrap around: the balances of
each symbol add up to its supply, the supply is within its maximum, and no balance and no pool is negative. -/
theorem run_ledger_kept (self : AccountName) (host : FlexHost) (hshare : host.TwelfthAtMost)
    (actions : List (ActionEnv × FlexAction)) (hsafe : safeRun self host init actions = true) (code : Nat) :
    (∀ st, (run self host actions).token.stat.lookup code = some st →
      (run self host actions).token.circulating code = st.supply.amount ∧ st.supply.amount ≤ st.maxSupply.amount ∧
      0 ≤ ((run self host actions).poolsOf code).reflection.amount ∧ 0 ≤ ((run self host actions).poolsOf code).burn.amount ∧
      0 ≤ ((run self host actions).poolsOf code).project.amount) ∧
    ∀ owner a, (run self host actions).token.accounts.lookup (owner, code) = some a → 0 ≤ a.amount := by
  have K : Kept (run self host actions) := Kept.init.foldl hshare hsafe
  refine ⟨fun st hst => ?_, fun owner a ha => (K.ledger.sound owner code a ha).1⟩
  obtain ⟨hsum, hmax, -⟩ := K.ledger.balanced code st hst
  exact ⟨hsum, hmax, K.pools code⟩

/-! A maximum supply of 4 * 10^18, and fees of 1% for the reflection and the project pool, as `forge` sets them. -/

def sampleSelf : AccountName := stringToName ['f', 'l', 'e', 'x']

def sampleIssuer : AccountName := stringToName ['i', 's', 's', 'u', 'e', 'r']

def sampleHolder : AccountName := stringToName ['h', 'o', 'l', 'd', 'e', 'r']

def sampleSymbol : Symbol := ⟨1480936518, 4⟩

def sampleHost : FlexHost :=
  ⟨fun _ _ => true, fun _ _ => true, fun pool balance supply => pool * max balance 0 / (13 * supply), fun memo _ _ => memo,
    fun _ _ => "swap", fun _ => "Project"⟩

theorem sampleHost_share : sampleHost.TwelfthAtMost := by
  intro pool balance supply hpool hsup
  have hdiv := Int.ediv_mul_le (pool * max balance 0) (b := 13 * supply) (by omega)
  have hnn : 0 ≤ pool * max balance 0 / (13 * supply) :=
    Int.ediv_nonneg (Int.mul_nonneg hpool (le_max_right _ _)) (by omega)
  show 12 * supply * (pool * max balance 0 / (13 * supply)) ≤ _
  nlinarith

def sampleEnv : ActionEnv := ⟨fun _ => true, fun _ => true⟩

def sampleTransfer (quantity : Int) : List (ActionEnv × FlexAction) :=
  [.forge sampleIssuer ⟨4 * 10 ^ 18, sampleSymbol⟩, .mint sampleIssuer ⟨4 * 10 ^ 18, sampleSymbol⟩ "",
    .transfer sampleIssuer sampleHolder ⟨quantity, sampleSymbol⟩ ""].map (sampleEnv, ·)

def sampleReflect : List (ActionEnv × FlexAction) :=
  sampleTransfer (10 ^ 16) ++ [.setconfig ⟨sampleSymbol, 0, 100, 100, 100, 100, 0⟩, .reflect].map (sampleEnv, ·)

theorem run_ledger_kept_sampleReflect :
    ((run sampleSelf sampleHost sampleReflect).poolsOf sampleSymbol.code).reflection.amount < 10 ^ 14 ∧
    ∀ st, (run sampleSelf sampleHost sampleReflect).token.stat.lookup sampleSymbol.code = some st →
      (run sampleSelf sampleHost sampleReflect).token.circulating sampleSymbol.code = st.supply.amount :=
  ⟨by decide +kernel, fun st hst => ((run_ledger_kept sampleSelf sampleHost sampleHost_share sampleReflect (by decide +kernel)
    sampleSymbol.code).1 st hst).1⟩

/-- **The product of 10^17 and the rate 100 does not fit an `int64_t`**: the fees of the transfer are negative, and so are the
balance of the contract and the pools; the balances add up to more than the supply. -/
theorem fees_wrap_around : let s := run sampleSelf sampleHost (sampleTransfer (10 ^ 17))
    s.token.balance sampleSelf sampleSymbol.code = -844674407370955 ∧
    (s.poolsOf sampleSymbol.code).reflection.amount = -844674407370955 ∧
    (s.poolsOf sampleSymbol.code).project.amount = -844674407370955 ∧
    s.token.stat.lookup sampleSymbol.code = some ⟨⟨4 * 10 ^ 18, sampleSymbol⟩, ⟨4 * 10 ^ 18, sampleSymbol⟩, sampleIssuer⟩ ∧
    s.token.circulating sampleSymbol.code = 4 * 10 ^ 18 + 844674407370955 := by
  decide +kernel

/-! ## The copies of the balances -/

/-- The row of an owner in `flexers` has the balance of its row in `accounts`, 0 without one; or there is neither a row nor a
balance. -/
def Mirrors (s : FlexToken) (code : Nat) (owner : AccountName) : Prop :=
  (∃ f, s.flexers.lookup owner = some f ∧ f.balance.amount = s.token.balance owner code ∧
    ∀ a, s.token.accounts.lookup (owner, code) = some a → a.amount ≠ 0 → f.balance = a) ∨
  (s.flexers.lookup owner = none ∧ s.token.balance owner code = 0)

theorem Mirrors.synced (hf : s.flexers.lookup owner = some f)
    (hbal : f.balance = (s.token.accounts.lookup (owner, symbol.code)).getD ⟨0, symbol⟩) : s.Mirrors symbol.code owner := by
  refine .inl ⟨f, hf, ?_, fun a ha _ => ?_⟩
  · unfold balance
    rw [hbal]
    cases s.token.accounts.lookup (owner, symbol.code) <;> rfl
  · rw [hbal, ha, Option.getD_some]

theorem Mirrors.of_same (h : s.Mirrors code owner) (hf : s'.flexers.lookup owner = s.flexers.lookup owner)
    (hrow : s'.token.accounts.lookup (owner, code) = s.token.accounts.lookup (owner, code)) : s'.Mirrors code owner := by
  unfold Mirrors balance at *
  rwa [hf, hrow]

theorem Mirrors.of_zero (h : s.Mirrors code owner) (hfl : s'.flexers.lookup owner = s.flexers.lookup owner)
    (hz : s.token.balance owner code = 0) (hz' : ∀ a, s'.token.accounts.lookup (owner, code) = some a → a.amount = 0) :
    s'.Mirrors code owner := by
  have hbal : s'.token.balance owner code = 0 := by
    unfold balance
    cases hrow : s'.token.accounts.lookup (owner, code) with
    | none => rfl
    | some a => exact hz' a hrow
  unfold Mirrors at *
  rw [hfl, hbal]
  rw [hz] at h
  rcases h with ⟨f, hf, ham, -⟩ | h
  · exact .inl ⟨f, hf, ham, fun a ha hne => absurd (hz' a ha) hne⟩
  · exact .inr h

/-- **A step that keeps the copies**, if the symbol is the only one after it. -/
structure MirrorStep (contract : AccountName) (code : Nat) (s s' : FlexToken) : Prop where
  grows : ∀ c, (s.token.stat.lookup c).isSome = true → (s'.token.stat.lookup c).isSome = true
  mirrors : (∀ c, (s'.token.stat.lookup c).isSome = true → c = code) → (∀ o, o ≠ contract → s.Mirrors code o) →
    ∀ o, o ≠ contract → s'.Mirrors code o

theorem MirrorStep.refl : MirrorStep self code s s := ⟨fun _ h => h, fun _ h => h⟩

theorem MirrorStep.trans {s'' : FlexToken} (h : MirrorStep self code s s') (h' : MirrorStep self code s' s'') :
    MirrorStep self code s s'' where
  grows := fun c hc => h'.grows c (h.grows c hc)
  mirrors := fun hco hm => h'.mirrors hco (h.mirrors (fun c hc => hco c (h'.grows c hc)) hm)

theorem MirrorStep.of_frame (hg : ∀ c, (s.token.stat.lookup c).isSome = true → (s'.token.stat.lookup c).isSome = true)
    (hacc : s'.token.accounts = s.token.accounts) (hf : s'.flexers = s.flexers) : MirrorStep self code s s' :=
  ⟨hg, fun _ hm o ho => (hm o ho).of_same (by rw [hf]) (by rw [hacc])⟩

theorem isSome_insert {st' : CurrencyStats} {t : RowMap Nat CurrencyStats} {c c' : Nat} (h : (t.lookup c).isSome = true) :
    ((t.insert c' st').lookup c).isSome = true := by
  rw [RowMap.lookup_insert_ite]
  split
  · rfl
  · exact h

theorem MirrorStep.of_flexer (h : FlexerChange s s') : MirrorStep self code s s' := by
  rcases h with rfl | ⟨owner, f, rfl, hf⟩
  · exact .refl
  · refine ⟨fun _ h => h, fun _ hm o ho => ?_⟩
    by_cases hown : o = owner
    · subst hown
      have hrow : lookup o (s.flexers.insert o f) = some f := lookup_insert _
      rcases hf with ⟨hn, hz⟩ | ⟨g, hg, hbal⟩
      · -- a new row: there was no balance
        rcases hm o ho with ⟨g, hg, -⟩ | ⟨-, hbal⟩
        · rw [hn] at hg
          cases hg
        · refine .inl ⟨f, hrow, hz.trans hbal.symm, fun a ha hne => absurd ?_ hne⟩
          exact (balance_of_lookup ha).symm.trans hbal
      · rcases hm o ho with ⟨g', hg', ham, has⟩ | ⟨hn, -⟩
        · rw [hg] at hg'
          cases hg'
          exact .inl ⟨f, hrow, hbal ▸ ham, fun a ha hne => hbal.trans (has a ha hne)⟩
        · rw [hg] at hn
          cases hn
    · exact (hm o ho).of_same (lookup_insert_ne hown) rfl

theorem MirrorStep.of_synced (hg : ∀ c, (s.token.stat.lookup c).isSome = true → (token.stat.lookup c).isSome = true)
    (hs : (token.stat.lookup symbol.code).isSome = true)
    (hr : ∀ o, o ≠ owner → token.accounts.lookup (o, code) = s.token.accounts.lookup (o, code))
    (hbal : f.balance = (token.accounts.lookup (owner, symbol.code)).getD ⟨0, symbol⟩) :
    MirrorStep self code s { s with token := token, flexers := s.flexers.insert owner f } := by
  refine ⟨hg, fun hco hm o ho => ?_⟩
  by_cases hown : o = owner
  · subst hown
    rw [← hco _ hs]
    exact .synced (lookup_insert _) hbal
  · exact (hm o ho).of_same (lookup_insert_ne hown) (hr o hown)

theorem lookup_setBalance_ne (t : Token) {o : AccountName} (c c' : Nat) (a : Asset) (h : o ≠ owner) :
    (t.setBalance owner c a).accounts.lookup (o, c') = t.accounts.lookup (o, c') :=
  lookup_insert_ne (fun hk => h (congrArg Prod.fst hk))

theorem eraseRow_mirrors {c : Nat} (hz : s.token.balance owner c = 0) :
    MirrorStep self code s (s.setToken { s.token with accounts := s.token.accounts.erase (owner, c) }) := by
  refine ⟨fun _ h => h, fun _ hm o ho => ?_⟩
  have hrow : (s.token.accounts.erase (owner, c)).lookup (o, code) =
      if (o, code) = (owner, c) then none else s.token.accounts.lookup (o, code) := RowMap.lookup_erase_ite ..
  by_cases hkey : (o, code) = (owner, c)
  · cases hkey
    rw [if_pos rfl] at hrow
    refine (hm _ ho).of_zero rfl hz fun a ha => ?_
    cases hrow.symm.trans ha
  · rw [if_neg hkey] at hrow
    exact (hm o ho).of_same rfl hrow

theorem mint_mirrors (h : s.mint env to_ quantity memo = .ok s') : MirrorStep self code s s' := by
  obtain ⟨st, token, hst, -, -, -, htok, h⟩ := mint_ok h
  obtain ⟨f, rfl, hf⟩ := updateFlexBalance_ok h
  obtain rfl := addBalance_ok htok
  exact .of_synced (fun _ hc => isSome_insert hc) (isSome_insert (by rw [hst]; rfl))
    (fun o ho => lookup_setBalance_ne _ _ _ _ ho) hf

theorem smelt_mirrors (h : s.smelt env username quantity memo = .ok s') : MirrorStep self code s s' := by
  obtain ⟨st, token, s1, hst, -, -, htok, hs1, hs'⟩ := smelt_ok h
  have h1 : MirrorStep self code s s1 := by
    obtain ⟨f, rfl, hf⟩ := updateFlexBalance_ok hs1
    obtain ⟨a, -, -, -, rfl⟩ := subBalance_ok htok
    exact .of_synced (fun _ hc => isSome_insert hc) (isSome_insert (by rw [hst]; rfl))
      (fun o ho => lookup_setBalance_ne _ _ _ _ ho) hf
  rcases hs' with rfl | ⟨hz, rfl⟩
  · exact h1
  · refine h1.trans (eraseRow_mirrors hz)

theorem move_mirrors (hs : (s.token.stat.lookup symbol.code).isSome = true)
    (h : s.move from_ to_ symbol total actual = .ok s') : MirrorStep self code s s' := by
  obtain ⟨t1, t2, f, g, hsub, hadd, rfl, hf, hg⟩ := move_ok h
  obtain ⟨a, -, -, -, rfl⟩ := subBalance_ok hsub
  obtain rfl := addBalance_ok hadd
  refine ⟨fun _ hc => hc, fun hco hm o ho => ?_⟩
  by_cases hto : o = to_
  · subst hto
    rw [← hco _ hs]
    exact .synced (lookup_insert _) hg
  · by_cases hfr : o = from_
    · subst hfr
      rw [← hco _ hs]
      exact .synced ((lookup_insert_ne hto).trans (lookup_insert _)) hf
    · refine (hm o ho).of_same ((lookup_insert_ne hto).trans (lookup_insert_ne hfr)) ?_
      exact (lookup_setBalance_ne _ _ _ _ hto).trans (lookup_setBalance_ne _ _ _ _ hfr)

theorem creditFees_frame (h : creditFees self t fees = .ok t') :
    t'.stat = t.stat ∧ ∀ o c, o ≠ self → t'.accounts.lookup (o, c) = t.accounts.lookup (o, c) := by
  have credit : ∀ {t t' : Token} {fee : Asset} {b : Prop} [Decidable b],
      (if b then t.addBalance self fee else .ok t) = .ok t' →
      t'.stat = t.stat ∧ ∀ o c, o ≠ self → t'.accounts.lookup (o, c) = t.accounts.lookup (o, c) := by
    intro t t' fee b _ h
    split at h
    · obtain rfl := addBalance_ok h
      exact ⟨rfl, fun o c ho => lookup_setBalance_ne _ _ _ _ ho⟩
    · cases h
      exact ⟨rfl, fun _ _ _ => rfl⟩
  obtain ⟨t1, h1, h⟩ := bind_ok h
  obtain ⟨t2, h2, h⟩ := bind_ok h
  obtain ⟨hs1, hr1⟩ := credit (b := True) (by simpa using h1)
  obtain ⟨hs2, hr2⟩ := credit h2
  obtain ⟨hs3, hr3⟩ := credit h
  exact ⟨hs3.trans (hs2.trans hs1),
    fun o c ho => (hr3 o c ho).trans ((hr2 o c ho).trans (hr1 o c ho))⟩

theorem transfer_mirrors (h : s.transfer self env from_ to_ quantity memo = .ok s') : MirrorStep self code s s' := by
  obtain ⟨-, -, st, balance, hst, -, -, -, hmo⟩ := transfer_accepted_ok h
  have hs : (s.token.stat.lookup quantity.symbol.code).isSome = true := by rw [hst]; rfl
  rcases hmo with ⟨-, r, hch, hmo⟩ | ⟨-, hmo⟩
  · obtain ⟨conf, fees, token, pools, -, -, -, htok, -, hr⟩ := charge_ok hch
    obtain ⟨hstat, hro⟩ := creditFees_frame htok
    have hcd : MirrorStep self code s r.1 := by
      rw [hr]
      refine ⟨fun c hc => ?_, fun _ hm o ho => (hm o ho).of_same rfl (hro o code ho)⟩
      rwa [hstat]
    exact hcd.trans (move_mirrors (hcd.grows _ hs) hmo)
  · exact move_mirrors hs hmo

theorem transferAll_mirrors : ∀ {shares} {s}, transferAll self env shares s = .ok s' →
    MirrorStep self code s s'
  | [], _, h => by
    cases h
    exact .refl
  | share :: shares, s, h => by
    obtain ⟨s1, hs1, h⟩ := bind_ok h
    exact (transfer_mirrors hs1).trans (transferAll_mirrors h)

theorem reflect_mirrors (h : s.reflect self host env = .ok s') : MirrorStep self code s s' := by
  obtain ⟨conf, st, d, pools, startKey, s1, s2, -, -, -, -, hs1, hs2, hs'⟩ := reflect_ok h
  have h0 : MirrorStep self code s (s.paged conf pools startKey) := .of_frame (fun _ h => h) rfl rfl
  have h1 := h0.trans (transferAll_mirrors hs1)
  have h2 : MirrorStep self code s s2 := by
    rcases hs2 with rfl | ⟨quantity, memo, hs2⟩
    · exact h1
    · exact h1.trans (smelt_mirrors hs2)
  rcases hs' with rfl | ⟨to_, quantity, memo, hs'⟩
  · exact h2
  · exact h2.trans (transfer_mirrors hs')

variable {symbol : Symbol}

theorem apply_mirrors (h : s.apply self host env action = .ok s') : MirrorStep self code s s' := by
  cases action with
  | forge issuer maximumSupply =>
    have h : s.forge self env issuer maximumSupply = .ok s' := h
    iterate 4 replace h := rest_ok h
    cases h
    exact .of_frame (fun _ hc => isSome_insert hc) rfl rfl
  | mint to_ quantity memo => exact mint_mirrors h
  | smelt username quantity memo => exact smelt_mirrors h
  | transfer from_ to_ quantity memo => exact transfer_mirrors h
  | openRow owner symbol ramPayer =>
    obtain ⟨token, htok, rfl⟩ := map_ok_iff.1 h
    iterate 2 replace htok := rest_ok htok
    obtain ⟨st, hst, htok⟩ := bind_ok htok
    replace htok := rest_ok htok
    have hst := getStat_ok_iff.1 hst
    cases hrow : s.token.accounts.lookup (owner, symbol.code) with
    | some a =>
      rw [hrow] at htok
      cases htok
      exact .refl
    | none =>
      rw [hrow] at htok
      cases htok
      refine ⟨fun _ hc => hc, fun hco hm o ho => ?_⟩
      have hsym : symbol.code = code := hco _ (by change (s.token.stat.lookup _).isSome = true; rw [hst]; rfl)
      by_cases hown : o = owner
      · subst hown hsym
        refine (hm o ho).of_zero rfl ?_ fun a ha => ?_
        · unfold balance
          rw [hrow, RowMap.weigh_none]
        · cases (lookup_insert _).symm.trans ha
          rfl
      · exact (hm o ho).of_same rfl (lookup_setBalance_ne _ _ _ _ hown)
  | closeRow owner symbol =>
    obtain ⟨token, htok, rfl⟩ := map_ok_iff.1 h
    replace htok := rest_ok htok
    split at htok
    · cases htok
    rename_i a hrow
    obtain ⟨hz, htok⟩ := check_ok htok
    cases htok
    exact eraseRow_mirrors ((balance_of_lookup hrow).trans (beq_iff_eq.1 hz))
  | reflect => exact reflect_mirrors h
  | setconfig settings =>
    obtain ⟨-, rfl⟩ := setconfig_ok h
    exact .of_frame (fun _ h => h) rfl rfl
  | renounce account banStatus => exact .of_flexer (renounce_ok h)
  | addpool id pool =>
    obtain ⟨flexpools, rfl⟩ := addpool_ok h
    exact .of_frame (fun _ h => h) rfl rfl
  | interestoken owner tokenSymbol => exact .of_flexer (interestoken_ok h)
  | inheritance flexer tree rate => exact .of_flexer (inheritance_ok h)
  | inheritmemo flexer customMemo => exact .of_flexer (inheritmemo_ok h)
  | setswap swap =>
    obtain rfl := setswap_ok h
    exact .of_frame (fun _ h => h) rfl rfl
  | setexempt account on =>
    obtain ⟨exempts, rfl⟩ := setexempt_ok h
    exact .of_frame (fun _ h => h) rfl rfl

theorem foldl_mirrors : ∀ (actions : List (ActionEnv × FlexAction)) (s : FlexToken),
    MirrorStep self code s (actions.foldl (step self host) s)
  | [], _ => .refl
  | a :: actions, s => by
    have hstep : MirrorStep self code s (s.step self host a) := by
      unfold step
      cases h : s.apply self host a.1 a.2 with
      | ok s' => exact apply_mirrors h
      | error e => exact .refl
    exact hstep.trans (foldl_mirrors actions _)

/-- **The copies are right.** Over every run that forged one symbol only, each owner other than the contract has a row in
`flexers` with the balance of its row in `accounts` (0 without one), or has neither a row in `flexers` nor a balance. A balance
that is not 0 is the same asset in both. -/
theorem run_mirrors (self : AccountName) (host : FlexHost) (actions : List (ActionEnv × FlexAction)) (code : Nat)
    (hcode : ∀ c, ((run self host actions).token.stat.lookup c).isSome = true → c = code) (owner : AccountName)
    (howner : owner ≠ self) : (run self host actions).Mirrors code owner :=
  (foldl_mirrors actions init).mirrors hcode (fun _ _ => .inr ⟨rfl, rfl⟩) owner howner

theorem run_mirrors_sampleTransfer :
    (run sampleSelf sampleHost (sampleTransfer (10 ^ 16))).token.balance sampleHolder sampleSymbol.code = 10 ^ 16 ∧
    (run sampleSelf sampleHost (sampleTransfer (10 ^ 16))).Mirrors sampleSymbol.code sampleHolder := by
  refine ⟨by decide +kernel, run_mirrors sampleSelf sampleHost (sampleTransfer (10 ^ 16)) sampleSymbol.code (fun c hc => ?_)
    sampleHolder (by decide +kernel)⟩
  have hk : (run sampleSelf sampleHost (sampleTransfer (10 ^ 16))).token.stat.keys = [sampleSymbol.code] := by decide +kernel
  have hmem : c ∈ (run sampleSelf sampleHost (sampleTransfer (10 ^ 16))).token.stat.keys :=
    mem_keys.1 (lookup_isSome.1 hc)
  rw [hk] at hmem
  exact List.mem_singleton.1 hmem

end FlexToken
end TheChannel

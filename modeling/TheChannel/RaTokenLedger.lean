import TheChannel.RaToken
/-!
# RaTokenLedger — the ledger of the token contract

Over every sequence of actions the balances of a symbol code add up to the supply of its `stat` row. A balance row exists
only for a symbol that has a `stat` row and has that row's symbol (`Sound`); each action changes the sum of the balances as
it changes the supply (`Balanced`).
-/
namespace TheChannel
namespace Token
open RowMap Asset

variable {self owner from_ to_ issuer : AccountName} {env : ActionEnv} {t t' : Token} {value a quantity maximumSupply : Asset}
  {code c : Nat} {st st' : CurrencyStats} {memo : String} {symbol core : Symbol}

/-! ## What the parts of an action do -/

theorem getStat_ok_iff {msg : String} : t.getStat code msg = .ok st ↔ t.stat.lookup code = some st := by
  unfold getStat
  cases t.stat.lookup code <;> simp

theorem subBalance_ok (h : t.subBalance owner value = .ok t') :
    ∃ a, t.accounts.lookup (owner, value.symbol.code) = some a ∧ value.amount ≤ a.amount ∧ value.symbol = a.symbol ∧
      t' = t.setBalance owner value.symbol.code ⟨a.amount - value.amount, value.symbol⟩ := by
  unfold subBalance at h
  split at h
  · cases h
  rename_i a hrow
  obtain ⟨hle, h⟩ := check_ok h
  obtain ⟨b, hb, h⟩ := bind_ok h
  obtain ⟨hsym, -, rfl⟩ := sub_ok_iff.1 hb
  refine ⟨a, hrow, of_decide_eq_true hle, hsym, ?_⟩
  rw [hsym] at h ⊢
  exact (Except.ok.inj h).symm

theorem addBalance_ok (h : t.addBalance owner value = .ok t') :
    t' = t.setBalance owner value.symbol.code ⟨t.balance owner value.symbol.code + value.amount, value.symbol⟩ := by
  unfold addBalance at h
  unfold balance
  cases hrow : t.accounts.lookup (owner, value.symbol.code) with
  | none =>
    rw [hrow] at h
    rw [weigh_none, Int.zero_add]
    exact (Except.ok.inj h).symm
  | some a =>
    rw [hrow] at h
    obtain ⟨b, hb, h⟩ := bind_ok h
    obtain ⟨hsym, -, rfl⟩ := add_ok_iff.1 hb
    rw [weigh_some]
    rw [hsym] at h ⊢
    exact (Except.ok.inj h).symm

theorem circulating_setBalance (t : Token) (owner : AccountName) (c code : Nat) (a : Asset) :
    (t.setBalance owner c a).circulating code = t.circulating code + (if c = code then a.amount - t.balance owner c else 0) := by
  unfold circulating balance setBalance
  rw [total_insert]
  cases t.accounts.lookup (owner, c) with
  | none =>
    rw [weigh_none, weigh_none]
    split <;> omega
  | some b =>
    rw [weigh_some, weigh_some]
    split <;> omega

theorem circulating_erase (owner : AccountName) (c code : Nat) :
    circulating { t with accounts := t.accounts.erase (owner, c) } code =
      t.circulating code - (if c = code then t.balance owner c else 0) := by
  unfold circulating balance
  rw [total_erase]
  cases t.accounts.lookup (owner, c) with
  | none =>
    rw [weigh_none, weigh_none]
    split <;> omega
  | some b =>
    rw [weigh_some, weigh_some]

theorem balance_of_lookup (h : t.accounts.lookup (owner, c) = some a) : t.balance owner c = a.amount := by
  unfold balance
  rw [h, weigh_some]

theorem transfer_ok (h : t.transfer env from_ to_ quantity memo = .ok t') :
    from_ ≠ to_ ∧ 0 < quantity.amount ∧ ∃ st, t.stat.lookup quantity.symbol.code = some st ∧
      quantity.symbol = st.supply.symbol ∧ ∃ t1, t.subBalance from_ quantity = .ok t1 ∧ t1.addBalance to_ quantity = .ok t' := by
  obtain ⟨hne, h⟩ := check_ok h
  iterate 2 replace h := rest_ok h
  obtain ⟨st, hst, h⟩ := bind_ok h
  replace h := rest_ok h
  obtain ⟨hpos, h⟩ := check_ok h
  obtain ⟨hsym, h⟩ := check_ok h
  replace h := rest_ok h
  obtain ⟨t1, hsub, h⟩ := bind_ok h
  exact ⟨bne_iff_ne.1 hne, of_decide_eq_true hpos, st, getStat_ok_iff.1 hst, beq_iff_eq.1 hsym, t1, hsub, h⟩

theorem balance_setBalance (t : Token) (owner owner' : AccountName) (c c' : Nat) (a : Asset) :
    (t.setBalance owner c a).balance owner' c' = if (owner', c') = (owner, c) then a.amount else t.balance owner' c' := by
  unfold balance setBalance
  rw [lookup_insert_ite]
  split <;> rfl

theorem exchange_balance {total actual : Asset} {c : Nat} {t1 : Token} (hne : from_ ≠ to_) (htot : total.symbol.code = c)
    (hact : actual.symbol.code = c) (hsub : t.subBalance from_ total = .ok t1) (hadd : t1.addBalance to_ actual = .ok t')
    (owner : AccountName) : t'.balance owner c = t.balance owner c + (if owner = to_ then actual.amount else 0) -
      (if owner = from_ then total.amount else 0) := by
  obtain ⟨a, hrow, -, -, rfl⟩ := subBalance_ok hsub
  obtain rfl := addBalance_ok hadd
  have hfr := balance_of_lookup hrow
  rw [htot] at hfr
  simp only [htot, hact, balance_setBalance, Prod.mk.injEq, and_true, Ne.symm hne, if_false]
  by_cases hto : owner = to_
  · subst hto
    rw [if_pos rfl, if_pos rfl, if_neg (Ne.symm hne), Int.sub_zero]
  · rw [if_neg hto, if_neg hto, Int.add_zero]
    by_cases hf : owner = from_
    · subst hf
      rw [if_pos rfl, if_pos rfl, hfr]
    · rw [if_neg hf, if_neg hf, Int.sub_zero]

section

variable (h : t.transfer env from_ to_ quantity memo = .ok t')

include h

theorem transfer_balance (owner : AccountName) :
    t'.balance owner quantity.symbol.code = t.balance owner quantity.symbol.code +
      (if owner = to_ then quantity.amount else 0) - (if owner = from_ then quantity.amount else 0) := by
  obtain ⟨hne, -, st, -, -, t1, hsub, hadd⟩ := transfer_ok h
  exact exchange_balance hne rfl rfl hsub hadd owner

theorem transfer_balance_ne
    (owner : AccountName) {code : Nat} (hco : code ≠ quantity.symbol.code) :
    t'.balance owner code = t.balance owner code := by
  obtain ⟨-, -, st, -, -, t1, hsub, hadd⟩ := transfer_ok h
  obtain ⟨a, -, -, -, rfl⟩ := subBalance_ok hsub
  obtain rfl := addBalance_ok hadd
  rw [balance_setBalance, if_neg (by simp [hco]), balance_setBalance, if_neg (by simp [hco])]

theorem transfer_stat : t'.stat = t.stat := by
  obtain ⟨-, -, st, -, -, t1, hsub, hadd⟩ := transfer_ok h
  obtain ⟨a, -, -, -, rfl⟩ := subBalance_ok hsub
  obtain rfl := addBalance_ok hadd
  rfl

end

/-! ## The invariant -/

def Sound (t : Token) : Prop := ∀ owner code a, t.accounts.lookup (owner, code) = some a →
  0 ≤ a.amount ∧ ∃ st, t.stat.lookup code = some st ∧ a.symbol = st.supply.symbol

def Balanced (t : Token) : Prop := ∀ code st, t.stat.lookup code = some st →
  t.circulating code = st.supply.amount ∧ st.supply.amount ≤ st.maxSupply.amount ∧ st.supply.symbol.code = code

structure Ledger (t : Token) : Prop where
  sound : Sound t
  balanced : Balanced t

section

variable (h : Sound t)

include h

theorem Sound.circulating_nonneg (code : Nat) : 0 ≤ t.circulating code := by
  refine total_nonneg fun k a ha => ?_
  split
  · exact (h k.1 k.2 a ha).1
  · exact le_rfl

theorem Sound.circulating_eq_zero (hn : t.stat.lookup code = none) : t.circulating code = 0 := by
  refine (total_congr fun k a ha => if_neg ?_).trans (total_zero t.accounts)
  rintro rfl
  obtain ⟨-, st, hst, -⟩ := h k.1 k.2 a ha
  rw [hn] at hst
  cases hst

theorem Sound.balance_nonneg (owner : AccountName) (code : Nat) : 0 ≤ t.balance owner code := by
  unfold balance
  cases hrow : t.accounts.lookup (owner, code) with
  | none => exact le_rfl
  | some a => exact (h owner code a hrow).1

theorem Sound.balance_le_circulating (owner : AccountName) (code : Nat) :
    t.balance owner code ≤ t.circulating code := by
  have hle := weigh_le_total (t := t.accounts) (w := fun k a => if k.2 = code then a.amount else 0)
    (fun k a ha => by
      split
      · exact (h k.1 k.2 a ha).1
      · exact le_rfl) (owner, code)
  unfold balance circulating
  cases hrow : t.accounts.lookup (owner, code) with
  | none =>
    rw [hrow] at hle
    exact hle
  | some a =>
    rw [hrow, weigh_some, if_pos rfl] at hle
    exact hle

theorem Sound.write (hst : t.stat.lookup c = some st) (hpos : 0 ≤ a.amount) (hsym : a.symbol = st.supply.symbol)
    (owner : AccountName) : Sound (t.setBalance owner c a) := by
  intro owner' code' a' ha'
  rw [setBalance] at ha'
  rcases lookup_insert_some ha' with ⟨hk, rfl⟩ | ⟨-, ha'⟩
  · cases hk
    exact ⟨hpos, st, hst, hsym⟩
  · exact h owner' code' a' ha'

theorem Sound.stat (hst : t.stat.lookup c = some st) (hsym : st'.supply.symbol = st.supply.symbol) :
    Sound { t with stat := t.stat.insert c st' } := by
  intro owner' code' a' ha'
  obtain ⟨hpos, st1, hst1, hsym1⟩ := h owner' code' a' ha'
  refine ⟨hpos, ?_⟩
  by_cases hk : code' = c
  · subst hk
    rw [hst] at hst1
    cases hst1
    exact ⟨st', AList.lookup_insert t.stat, hsym1.trans hsym.symm⟩
  · exact ⟨st1, (AList.lookup_insert_ne hk).trans hst1, hsym1⟩

end

theorem Sound.subBalance (h : Sound t) (hst : t.stat.lookup value.symbol.code = some st)
    (hsym : value.symbol = st.supply.symbol) (hsub : t.subBalance owner value = .ok t') :
    Sound t' ∧ t'.stat = t.stat ∧
      ∀ code, t'.circulating code = t.circulating code - if value.symbol.code = code then value.amount else 0 := by
  obtain ⟨a, hrow, hle, -, rfl⟩ := subBalance_ok hsub
  refine ⟨h.write (a := ⟨a.amount - value.amount, value.symbol⟩) hst (Int.sub_nonneg.2 hle) hsym owner, rfl, fun code => ?_⟩
  rw [circulating_setBalance, balance_of_lookup hrow]
  dsimp only
  split <;> omega

theorem Sound.addBalance (h : Sound t) (hst : t.stat.lookup value.symbol.code = some st)
    (hsym : value.symbol = st.supply.symbol) (hpos : 0 ≤ value.amount) (hadd : t.addBalance owner value = .ok t') :
    Sound t' ∧ t'.stat = t.stat ∧
      ∀ code, t'.circulating code = t.circulating code + if value.symbol.code = code then value.amount else 0 := by
  obtain rfl := addBalance_ok hadd
  have hnew := Int.add_nonneg (h.balance_nonneg owner value.symbol.code) hpos
  refine ⟨h.write (a := ⟨t.balance owner value.symbol.code + value.amount, value.symbol⟩) hst hnew hsym owner, rfl,
    fun code => ?_⟩
  rw [circulating_setBalance]
  dsimp only
  split <;> omega

theorem Ledger.restat (L : Ledger t) (hst : t.stat.lookup c = some st) (hsym : st'.supply.symbol = st.supply.symbol)
    (hmax : st'.supply.amount ≤ st'.maxSupply.amount) (hS : Sound t') (hs : t'.stat = t.stat.insert c st')
    (hci : ∀ code, t'.circulating code =
      t.circulating code + if c = code then st'.supply.amount - st.supply.amount else 0) : Ledger t' where
  sound := hS
  balanced := by
    intro code st1 hst1
    have hci := hci code
    rw [hs] at hst1
    rcases lookup_insert_some hst1 with ⟨hk, rfl⟩ | ⟨hk, hst1⟩
    · subst hk
      obtain ⟨heq, -, hco⟩ := L.balanced code st hst
      rw [if_pos rfl, heq] at hci
      exact ⟨hci.trans (by omega), hmax, hsym ▸ hco⟩
    · rw [if_neg (Ne.symm hk), Int.add_zero] at hci
      rw [hci]
      exact L.balanced code st1 hst1

/-! ## The actions keep it -/

theorem Ledger.init : Ledger init where
  sound := fun owner code a h => by cases h
  balanced := fun code st h => by cases h

theorem Ledger.newStat (L : Ledger t) (issuer : AccountName)
    (hn : t.stat.lookup maximumSupply.symbol.code = none) (hpos : 0 ≤ maximumSupply.amount) :
    Ledger { t with stat := t.stat.insert maximumSupply.symbol.code ⟨⟨0, maximumSupply.symbol⟩, maximumSupply, issuer⟩ } := by
  refine ⟨fun owner code a ha => ?_, fun code st hst => ?_⟩
  · obtain ⟨ha0, st, hst, hsym⟩ := L.sound owner code a ha
    refine ⟨ha0, st, ?_, hsym⟩
    rw [AList.lookup_insert_ne (fun hk => ?_)]
    · exact hst
    · rw [hk, hn] at hst
      cases hst
  · rcases lookup_insert_some hst with ⟨hk, rfl⟩ | ⟨-, hst⟩
    · exact ⟨(hk ▸ L.sound.circulating_eq_zero hn : t.circulating code = 0), hpos, hk.symm⟩
    · exact L.balanced code st hst

theorem Ledger.create (L : Ledger t) (h : t.create self env issuer maximumSupply = .ok t') : Ledger t' := by
  iterate 2 replace h := rest_ok h
  obtain ⟨hpos, h⟩ := check_ok h
  obtain ⟨hnew, h⟩ := check_ok h
  cases h
  exact L.newStat issuer (Option.isNone_iff_eq_none.1 hnew) (le_of_lt (of_decide_eq_true hpos))

theorem Ledger.supplyAdd (L : Ledger t) (hst : t.stat.lookup quantity.symbol.code = some st)
    (hpos : 0 < quantity.amount) (hsym : quantity.symbol = st.supply.symbol)
    (hmax : quantity.amount ≤ st.maxSupply.amount - st.supply.amount) (h : addBalance { t with
      stat := t.stat.insert quantity.symbol.code { st with supply := ⟨st.supply.amount + quantity.amount, st.supply.symbol⟩ } }
      owner quantity = .ok t') : Ledger t' := by
  obtain ⟨hS, hs, hci⟩ := (L.sound.stat hst (by exact rfl)).addBalance (AList.lookup_insert t.stat) (by exact hsym) hpos.le h
  refine L.restat hst (by exact rfl) ?_ hS hs fun code => (hci code).trans ?_
  · show st.supply.amount + quantity.amount ≤ st.maxSupply.amount
    omega
  · rw [add_sub_cancel_left]
    rfl

theorem issue_ok (h : t.issue env to_ quantity memo = .ok t') :
    ∃ st, t.stat.lookup quantity.symbol.code = some st ∧ to_ = st.issuer ∧ 0 < quantity.amount ∧
      quantity.symbol = st.supply.symbol ∧ quantity.amount ≤ st.maxSupply.amount - st.supply.amount ∧
      addBalance { t with
        stat := t.stat.insert quantity.symbol.code { st with supply := ⟨st.supply.amount + quantity.amount, st.supply.symbol⟩ } }
        st.issuer quantity = .ok t' := by
  iterate 2 replace h := rest_ok h
  obtain ⟨st, hst, h⟩ := bind_ok h
  obtain ⟨hto, h⟩ := check_ok h
  iterate 2 replace h := rest_ok h
  obtain ⟨hpos, h⟩ := check_ok h
  obtain ⟨hsym, h⟩ := check_ok h
  obtain ⟨hmax, h⟩ := check_ok h
  obtain ⟨supply, hsup, h⟩ := bind_ok h
  obtain ⟨-, -, rfl⟩ := add_ok_iff.1 hsup
  exact ⟨st, getStat_ok_iff.1 hst, beq_iff_eq.1 hto, of_decide_eq_true hpos, beq_iff_eq.1 hsym, of_decide_eq_true hmax, h⟩

theorem Ledger.issue (L : Ledger t) (h : t.issue env to_ quantity memo = .ok t') : Ledger t' := by
  obtain ⟨st, hst, -, hpos, hsym, hmax, hadd⟩ := issue_ok h
  exact L.supplyAdd hst hpos hsym hmax hadd

theorem Ledger.setmaxsupply (L : Ledger t) (h : t.setmaxsupply env issuer maximumSupply = .ok t') : Ledger t' := by
  iterate 2 replace h := rest_ok h
  obtain ⟨st, hst, h⟩ := bind_ok h
  iterate 3 replace h := rest_ok h
  obtain ⟨hmax, h⟩ := check_ok h
  cases h
  have hst := getStat_ok_iff.1 hst
  refine L.restat hst (by exact rfl) (by exact of_decide_eq_true hmax) (L.sound.stat hst (by exact rfl)) rfl fun code => ?_
  rw [Int.sub_self, ite_self, Int.add_zero]
  rfl

theorem Ledger.supplySub (L : Ledger t) (hst : t.stat.lookup quantity.symbol.code = some st)
    (hpos : 0 < quantity.amount) (hsym : quantity.symbol = st.supply.symbol) (h : subBalance { t with
      stat := t.stat.insert quantity.symbol.code { st with supply := ⟨st.supply.amount - quantity.amount, st.supply.symbol⟩ } }
      owner quantity = .ok t') : Ledger t' := by
  obtain ⟨hS, hs, hci⟩ := (L.sound.stat hst (by exact rfl)).subBalance (AList.lookup_insert t.stat) (by exact hsym) h
  obtain ⟨-, hmax, -⟩ := L.balanced _ st hst
  refine L.restat hst (by exact rfl) ?_ hS hs fun code => (hci code).trans ?_
  · show st.supply.amount - quantity.amount ≤ st.maxSupply.amount
    omega
  · rw [sub_sub_cancel_left, ← neg_zero, ← apply_ite, sub_eq_add_neg]
    rfl

variable {quantity : Asset} {memo : String}

theorem Ledger.retire (L : Ledger t) (h : t.retire env quantity memo = .ok t') : Ledger t' := by
  iterate 2 replace h := rest_ok h
  obtain ⟨st, hst, h⟩ := bind_ok h
  iterate 2 replace h := rest_ok h
  obtain ⟨hpos, h⟩ := check_ok h
  obtain ⟨hsym, h⟩ := check_ok h
  obtain ⟨supply, hsup, h⟩ := bind_ok h
  obtain ⟨-, -, rfl⟩ := sub_ok_iff.1 hsup
  exact L.supplySub (getStat_ok_iff.1 hst) (of_decide_eq_true hpos) (beq_iff_eq.1 hsym) h

theorem Ledger.transfer (L : Ledger t) (h : t.transfer env from_ to_ quantity memo = .ok t') : Ledger t' := by
  obtain ⟨-, hpos, st, hst, hsym, t1, hsub, hadd⟩ := transfer_ok h
  obtain ⟨hso1, hs1, hc1⟩ := L.sound.subBalance hst hsym hsub
  obtain ⟨hso, hs, hci⟩ := hso1.addBalance (hs1 ▸ hst) hsym hpos.le hadd
  refine ⟨hso, fun code st' hst' => ?_⟩
  rw [hs, hs1] at hst'
  obtain ⟨heq, hb⟩ := L.balanced code st' hst'
  refine ⟨?_, hb⟩
  rw [hci, hc1, heq]
  omega

theorem Ledger.transfer_accepted (L : Ledger t)
    (hst : t.stat.lookup quantity.symbol.code = some st) (hsym : quantity.symbol = st.supply.symbol)
    (hmax : st.maxSupply.amount ≤ maxAmount) (hne : from_ ≠ to_) (hau : env.hasAuth from_ = true)
    (hacc : env.isAccount to_ = true) (hval : quantity.isValid = true) (hpos : 0 < quantity.amount)
    (hm : memo.utf8ByteSize ≤ 256) (hbal : quantity.amount ≤ t.balance from_ quantity.symbol.code) :
    ∃ t', t.transfer env from_ to_ quantity memo = .ok t' := by
  obtain ⟨heq, hle, -⟩ := L.balanced _ st hst
  have hci := L.sound.balance_le_circulating from_ quantity.symbol.code
  obtain ⟨a, hrow⟩ : ∃ a, t.accounts.lookup (from_, quantity.symbol.code) = some a := by
    cases hrow : t.accounts.lookup (from_, quantity.symbol.code) with
    | some a => exact ⟨a, rfl⟩
    | none =>
      unfold balance at hbal
      rw [hrow] at hbal
      exact absurd hbal (not_le.2 hpos)
  obtain ⟨-, st', hst', ha⟩ := L.sound from_ _ a hrow
  rw [hst] at hst'
  cases hst'
  have ham := balance_of_lookup hrow
  have hr : (0 : Int) ≤ maxAmount := by decide
  -- the debit
  have hsub : t.subBalance from_ quantity =
      .ok (t.setBalance from_ quantity.symbol.code ⟨a.amount - quantity.amount, a.symbol⟩) := by
    unfold subBalance
    rw [hrow]
    dsimp only
    rw [check_bind (decide_eq_true (by omega)), sub_ok_iff.2 ⟨hsym.trans ha.symm, ⟨by omega, by omega⟩, rfl⟩, ok_bind]
  generalize ht1 : t.setBalance from_ quantity.symbol.code ⟨a.amount - quantity.amount, a.symbol⟩ = t1 at hsub
  obtain ⟨hs1, he1, hc1⟩ := L.sound.subBalance hst hsym hsub
  -- the credit
  have hadd : ∃ t', t1.addBalance to_ quantity = .ok t' := by
    unfold addBalance
    cases hto : t1.accounts.lookup (to_, quantity.symbol.code) with
    | none => exact ⟨_, rfl⟩
    | some b =>
      have hb := hs1.balance_le_circulating to_ quantity.symbol.code
      rw [balance_of_lookup hto, hc1, if_pos rfl] at hb
      obtain ⟨hb0, st1, hst1, hbs⟩ := hs1 to_ _ b hto
      rw [he1, hst] at hst1
      cases hst1
      dsimp only
      rw [add_ok_iff.2 ⟨hsym.trans hbs.symm, ⟨by omega, by omega⟩, rfl⟩]
      exact ⟨_, rfl⟩
  obtain ⟨t', hadd⟩ := hadd
  refine ⟨t', ?_⟩
  unfold Token.transfer
  rw [check_bind (bne_iff_ne.2 hne)]
  refine requireAuth_bind_ok_iff.2 ⟨hau, ?_⟩
  rw [check_bind hacc, getStat_ok_iff.2 hst, ok_bind, check_bind hval, check_bind (decide_eq_true hpos),
    check_bind (beq_iff_eq.2 hsym), check_bind (decide_eq_true hm), hsub, ok_bind, hadd]

theorem Ledger.openRow {ramPayer : AccountName} (L : Ledger t)
    (h : t.openRow env owner symbol ramPayer = .ok t') : Ledger t' := by
  iterate 2 replace h := rest_ok h
  obtain ⟨st, hst, h⟩ := bind_ok h
  obtain ⟨hsym, h⟩ := check_ok h
  cases hrow : t.accounts.lookup (owner, symbol.code) with
  | some a =>
    rw [hrow] at h
    cases h
    exact L
  | none =>
    rw [hrow] at h
    cases h
    have hbal : t.balance owner symbol.code = 0 := by
      unfold balance
      rw [hrow, weigh_none]
    refine ⟨L.sound.write (getStat_ok_iff.1 hst) le_rfl (beq_iff_eq.1 hsym).symm owner, fun code st' hst' => ?_⟩
    rw [circulating_setBalance, hbal, Int.sub_zero, ite_self, Int.add_zero]
    exact L.balanced code st' hst'

theorem Ledger.eraseRow (L : Ledger t) (hz : t.balance owner c = 0) :
    Ledger { t with accounts := t.accounts.erase (owner, c) } := by
  refine ⟨fun owner' code' a' ha' => ?_, fun code st hst => ?_⟩
  · exact L.sound owner' code' a' (lookup_erase_some ha').2
  · rw [circulating_erase, hz, ite_self, Int.sub_zero]
    exact L.balanced code st hst

theorem Ledger.closeRow (L : Ledger t) (h : t.closeRow env owner symbol = .ok t') : Ledger t' := by
  replace h := rest_ok h
  split at h
  · cases h
  rename_i a hrow
  obtain ⟨hz, h⟩ := check_ok h
  cases h
  exact L.eraseRow ((balance_of_lookup hrow).trans (beq_iff_eq.1 hz))

theorem Ledger.apply {action : Action} (L : Ledger t) (h : t.apply self env action = .ok t') : Ledger t' := by
  cases action with
  | create issuer maximumSupply => exact L.create h
  | issue to_ quantity memo => exact L.issue h
  | issuefixed to_ supply memo =>
    obtain ⟨st, -, h⟩ := bind_ok h
    replace h := rest_ok h
    obtain ⟨quantity, -, h⟩ := bind_ok h
    exact L.issue h
  | setmaxsupply issuer maximumSupply => exact L.setmaxsupply h
  | retire quantity memo => exact L.retire h
  | transfer from_ to_ quantity memo => exact L.transfer h
  | openRow owner symbol ramPayer => exact L.openRow h
  | closeRow owner symbol => exact L.closeRow h

theorem Ledger.step (L : Ledger t) (a : ActionEnv × Action) : Ledger (t.step self a) := by
  unfold Token.step
  cases h : t.apply self a.1 a.2 with
  | ok t' => exact L.apply h
  | error e => exact L

theorem Ledger.run (self : AccountName) (actions : List (ActionEnv × Action)) : Ledger (run self actions) :=
  List.foldlRecOn actions (Token.step self) Ledger.init (fun _ L a _ => L.step a)

/-- **Over every sequence of actions the balances of a symbol add up to its supply**, which is between 0 and the maximum; a
balance is not negative and has the precision of the `stat` row, and without a `stat` row there is none. -/
theorem run_ledger (self : AccountName) (actions : List (ActionEnv × Action)) (code : Nat) :
    (∀ st, (run self actions).stat.lookup code = some st → (run self actions).circulating code = st.supply.amount ∧
      0 ≤ st.supply.amount ∧ st.supply.amount ≤ st.maxSupply.amount) ∧
    (∀ owner a, (run self actions).accounts.lookup (owner, code) = some a → 0 ≤ a.amount ∧
      ∃ st, (run self actions).stat.lookup code = some st ∧ a.symbol.precision = st.supply.symbol.precision) := by
  have L := Ledger.run self actions
  refine ⟨fun st hst => ?_, fun owner a ha => ?_⟩
  · obtain ⟨heq, hmax, -⟩ := L.balanced code st hst
    exact ⟨heq, heq ▸ L.sound.circulating_nonneg code, hmax⟩
  · obtain ⟨hpos, st, hst, hsym⟩ := L.sound owner code a ha
    exact ⟨hpos, st, hst, congrArg Symbol.precision hsym⟩

/-! ## A token that is in use -/

/-- A token that was created and issued: its ledger agrees, and its supply is within the range of an amount. -/
structure Issued (core : Symbol) (t : Token) : Prop where
  ledger : t.Ledger
  valid : core.isValid = true
  stat : ∃ st, t.stat.lookup core.code = some st ∧ core = st.supply.symbol ∧ st.maxSupply.amount ≤ maxAmount

theorem Issued.transfer {from_ to_ : AccountName} (I : t.Issued core)
    (h : t.transfer env from_ to_ quantity memo = .ok t') : t'.Issued core where
  ledger := I.ledger.transfer h
  valid := I.valid
  stat := by
    rw [transfer_stat h]
    exact I.stat

theorem Issued.issue {to_ : AccountName} (I : t.Issued core)
    (h : t.issue env to_ quantity memo = .ok t') : t'.Issued core where
  ledger := I.ledger.issue h
  valid := I.valid
  stat := by
    obtain ⟨st, hst, -, -, -, -, hadd⟩ := issue_ok h
    obtain rfl := addBalance_ok hadd
    obtain ⟨st', hst', hce, hmax⟩ := I.stat
    show ∃ st'', (t.stat.insert quantity.symbol.code _).lookup core.code = some st'' ∧ _
    rw [lookup_insert_ite]
    by_cases hco : core.code = quantity.symbol.code
    · rw [if_pos hco]
      rw [hco, hst, Option.some.injEq] at hst'
      subst hst'
      exact ⟨_, rfl, hce, hmax⟩
    · rw [if_neg hco]
      exact ⟨st', hst', hce, hmax⟩

theorem issue_balance_ne (h : t.issue env to_ quantity memo = .ok t')
    {owner : AccountName} (hown : owner ≠ to_) (code : Nat) : t'.balance owner code = t.balance owner code := by
  obtain ⟨st, -, rfl, -, -, -, hadd⟩ := issue_ok h
  obtain rfl := addBalance_ok hadd
  rw [balance_setBalance, if_neg (by simp [hown])]
  rfl

theorem Issued.balance_le (I : t.Issued core) (owner : AccountName) : t.balance owner core.code ≤ maxAmount := by
  obtain ⟨st, hst, -, hmax⟩ := I.stat
  have hle := I.ledger.sound.balance_le_circulating owner core.code
  obtain ⟨heq, hsup, -⟩ := I.ledger.balanced _ st hst
  omega

end Token
end TheChannel

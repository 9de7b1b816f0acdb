import TheChannel.RamPurchase
/-!
# RamCost — what the purchased bytes cost

A row of `usersram` keeps what its bytes cost. A purchase adds its net payment, and a sale, a transfer or a burn takes the bytes'
part of the cost, rounded down. No part of a payment is lost in the roundings: it is in a row, was returned or burned
(`cost_basis`).
-/
namespace TheChannel
namespace RamMarket
open Fault

variable {quotient : Quotient} {core : Symbol} {env : RamEnv} {s s' : RamMarket} {held : Int} {events events' : List RamEvent}
  {o : AccountName} {row : UserResourcesRam}

section

variable (quotient : Quotient) (core : Symbol)

def paidBy (s _ : RamMarket) : Action → Int
  | .buyram _ _ quant => s.netPayment core quant.amount
  | _ => 0

def returnedBy (s s' : RamMarket) : Action → Int
  | .sellram account _ => s'.token.balance account core.code - s.token.balance account core.code
  | _ => 0

def sumOver (amount : RamMarket → RamMarket → Action → Int) : RamMarket × List RamEvent → List (RamEnv × Action) → Int
  | _, [] => 0
  | r, a :: actions => (match r.1.apply quotient core a.1 a.2 with
    | .ok r' => amount r.1 r'.1 a.2
    | .error _ => 0) + sumOver amount (step quotient core r a) actions

end

def Priced (s : RamMarket) : Prop := ∀ owner, s.purchased owner = 0 → s.costOf owner = 0

theorem Priced.same (P : Priced s) (h : s'.usersram = s.usersram) : s'.totalCost = s.totalCost ∧ Priced s' := by
  unfold totalCost Priced purchased costOf
  rw [h]
  exact ⟨rfl, P⟩

theorem Priced.booked {q : Int} (P : Priced s) (h : s'.usersram = s.usersram.insert o row) (ham : row.quantity.amount = s.costOf o + q)
    (hz : row.ramBytes = 0 → row.quantity.amount = 0) : s'.totalCost = s.totalCost + q ∧ Priced s' := by
  refine ⟨by rw [totalCost_insert h]; omega, fun a => ?_⟩
  have hP := P a
  unfold purchased costOf at *
  rw [h, RowMap.lookup_insert_ite]
  split_ifs
  · exact hz
  · exact hP

theorem refund_all {cost n b : Int} (hb : 0 < b) (h : n - b = 0) : cost - (cost * b).tdiv n = 0 := by
  rw [show n = b by omega, Int.mul_tdiv_cancel _ hb.ne', Int.sub_self]

section

variable (B : Books core held s events) (P : Priced s)
include B P

theorem ramtransfer_cost {from_ to_ : AccountName} {bytes : Int} {memo : String}
    (h : s.ramtransfer core env from_ to_ bytes memo = .ok (s', events')) :
    s'.totalCost = s.totalCost - costBurned events' ∧ Priced s' := by
  obtain ⟨s1, row, row', refund, rfl, hpos, hrow, hle, href, hby, hqua, -, hca⟩ := ramtransfer_ok h
  obtain ⟨hc1, P1⟩ := P.same (updateRamSupply_other s env.slot).1
  have debit : ∀ s2 : RamMarket, s2.usersram = (s.updateRamSupply env.slot).usersram.insert from_ row' →
      s2.totalCost = _ ∧ Priced s2 := fun s2 huse => P1.booked huse (by rw [hqua, costOf_of_lookup hrow]; rfl)
        (by rw [hby, hqua, href]; exact refund_all hpos)
  rcases hca with ⟨rfl, hs'⟩ | ⟨rfl, s2, s3, row2, hs2, hb2, ha2, -, rfl, rfl⟩
  · obtain ⟨hc, P'⟩ := debit s' (by rw [hs'])
    rw [hc, hc1]
    exact ⟨by simp [costBurned, Int.sub_eq_add_neg], P'⟩
  · obtain ⟨hc, P2⟩ := debit s2 (by rw [hs2])
    have hp : 0 ≤ s2.purchased to_ := by
      rw [purchased_insert (by rw [hs2])]
      split
      · omega
      · exact ((B.updateRamSupply env.slot).purchased_le to_).1
    obtain ⟨hc2, P'⟩ : totalCost { s2 with usersram := s2.usersram.insert to_ row2 } = _ ∧ Priced _ :=
      P2.booked rfl ha2 (by omega)
    exact ⟨hc2.trans (by rw [hc, hc1]; simp [costBurned]), P'⟩

theorem apply_cost {a : Action} (h : s.apply quotient core env a = .ok (s', events')) :
    s'.totalCost + returnedBy core s s' a + costBurned events' = s.totalCost + paidBy core s s' a ∧ Priced s' := by
  have B1 := B.updateRamSupply env.slot
  obtain ⟨huse, -, htok⟩ := updateRamSupply_other s env.slot
  obtain ⟨hc1, P1⟩ := P.same huse
  have of : ∀ {s1 : RamMarket} (q : Int), s1.totalCost = s.totalCost → s'.totalCost = s1.totalCost + q ∧ Priced s' →
      q + returnedBy core s s' a + costBurned events' = paidBy core s s' a →
      s'.totalCost + returnedBy core s s' a + costBurned events' = s.totalCost + paidBy core s s' a ∧ Priced s' :=
    fun q hc h hq => ⟨by omega, h.2⟩
  have kept : s'.usersram = s.usersram → returnedBy core s s' a + costBurned events' = paidBy core s s' a →
      s'.totalCost + returnedBy core s s' a + costBurned events' = s.totalCost + paidBy core s s' a ∧ Priced s' :=
    fun hu hq => ⟨by have := (P.same hu).1; omega, (P.same hu).2⟩
  cases a with
  | newaccount name =>
    obtain ⟨h1, rfl⟩ := silent_ok_iff.1 h
    replace h1 := rest_ok h1
    obtain ⟨hn, h1⟩ := check_ok h1
    cases h1
    have hn := Option.isNone_iff_eq_none.1 hn
    exact of 0 rfl (P.booked rfl (by unfold costOf; rw [hn]; rfl) fun _ => rfl) rfl
  | setram maxRamSize =>
    obtain ⟨h1, rfl⟩ := silent_ok_iff.1 h
    iterate 4 replace h1 := rest_ok h1
    cases h1
    exact kept rfl rfl
  | setramrate bytesPerBlock =>
    obtain ⟨h1, rfl⟩ := silent_ok_iff.1 h
    replace h1 := rest_ok h1
    cases h1
    exact kept huse rfl
  | updateRamSupply =>
    cases h
    exact kept huse rfl
  | setramoption price cap fee =>
    obtain ⟨h1, rfl⟩ := silent_ok_iff.1 h
    iterate 5 replace h1 := rest_ok h1
    cases h1
    exact kept rfl rfl
  | ramlimitset account ramlimit =>
    obtain ⟨h1, rfl⟩ := silent_ok_iff.1 h
    iterate 3 replace h1 := rest_ok h1
    cases h1
    exact of 0 rfl (P.booked rfl ((ensureUsersram_amount ..).trans (Int.add_zero _).symm) fun hz =>
      (ensureUsersram_amount ..).trans (P _ ((ensureUsersram_ramBytes ..).symm.trans hz))) rfl
  | buyram payer receiver quant =>
    obtain ⟨h1, rfl⟩ := silent_ok_iff.1 h
    obtain ⟨s1, bytes, fee, row, token, rfl, hpos, -, -, ⟨-, rfl, -⟩, -, hby, hqua, -, rfl⟩ := buyram_ok h1
    have hp := B1.purchased_le receiver
    refine of _ hc1 (P1.booked rfl (by rw [hqua]) (by omega)) ?_
    simp [returnedBy, costBurned, paidBy, netPayment, ramFee, config, updateRamSupply_ramConfig]
  | sellram account bytes =>
    obtain ⟨h1, rfl⟩ := silent_ok_iff.1 h
    obtain ⟨s1, row, row', refund, token, memo, rfl, hpos, hrow, hle, -, href, hby, hqua, ht, rfl⟩ := sellram_ok h1
    have hbal := Token.transfer_balance ht account
    rw [if_pos rfl, if_neg (Token.transfer_ok ht).1.symm, href, (B1.rows account row hrow).1, htok] at hbal
    refine of _ hc1 (P1.booked rfl (by rw [hqua, costOf_of_lookup hrow]; rfl)
      (by rw [hby, hqua, href]; exact refund_all hpos)) ?_
    simp [returnedBy, costBurned, paidBy, hbal, href]
  | buyramsys payer receiver quant =>
    obtain ⟨s1, q, out, quote, token, rfl, -, -, -, rfl, -, rfl⟩ := buyramsys_ok h
    exact kept huse rfl
  | sellramsys account bytes =>
    obtain ⟨s1, out, quote, token, rfl, -, -, -, rfl, -, -, rfl⟩ := sellramsys_ok h
    exact kept huse rfl
  | ramtransfer from_ to_ bytes memo => exact of _ rfl (ramtransfer_cost B P h) (by simp [paidBy, returnedBy])
  | ramburn owner bytes memo => exact of _ rfl (ramtransfer_cost B P (rest_ok h)) (by simp [paidBy, returnedBy])

end

theorem sumOver_cost (quotient : Quotient) : ∀ (actions : List (RamEnv × Action)) (r : RamMarket × List RamEvent),
    Books core held r.1 r.2 → Priced r.1 → let r' := actions.foldl (step quotient core) r
    Priced r'.1 ∧ r'.1.totalCost + sumOver quotient core (returnedBy core) r actions + costBurned r'.2 =
      r.1.totalCost + costBurned r.2 + sumOver quotient core (paidBy core) r actions
  | [], r, _, P => ⟨P, by simp [sumOver]⟩
  | a :: actions, r, B, P => by
    simp only [List.foldl_cons, sumOver, step]
    cases h : r.1.apply quotient core a.1 a.2 with
    | error e => simpa using sumOver_cost quotient actions r B P
    | ok r' =>
      obtain ⟨hc, P'⟩ := apply_cost B P h
      obtain ⟨Pn, ih⟩ := sumOver_cost quotient actions (r'.1, r.2 ++ r'.2) (B.apply h) P'
      have happ : costBurned (r.2 ++ r'.2) = costBurned r.2 + costBurned r'.2 := by simp [costBurned]
      refine ⟨Pn, ?_⟩
      dsimp only at *
      omega

/-- **The cost basis**, over every sequence of actions after `init`: the cost of the purchased bytes, what sales returned and the
cost of burned bytes are what the purchases paid; no account has a negative cost, or one without bytes; and the sale of all its
bytes returns all of it. -/
theorem cost_basis (quotient : Quotient) (supply : Int) {token : Token} (I : token.Issued core) (actions : List (RamEnv × Action)) :
    let start := (afterInit core supply token, [])
    let r := run quotient core supply token actions
    r.1.totalCost + sumOver quotient core (returnedBy core) start actions + costBurned r.2 =
      sumOver quotient core (paidBy core) start actions ∧
    ∀ owner row, r.1.usersram.lookup owner = some row → 0 ≤ row.quantity.amount ∧ (row.ramBytes = 0 → row.quantity.amount = 0) ∧
      ∀ env s', r.1.sellram env owner row.ramBytes = .ok s' →
        s'.token.balance owner core.code = r.1.token.balance owner core.code + row.quantity.amount := by
  have B := Books.run quotient supply I actions
  obtain ⟨P, hsum⟩ := sumOver_cost quotient actions (afterInit core supply token, []) (Books.run quotient supply I [])
    (fun _ _ => rfl)
  refine ⟨hsum.trans (Int.zero_add _), fun owner row hrow => ?_⟩
  obtain ⟨hsym, hn, hle⟩ := B.rows owner row hrow
  refine ⟨hn.trans hle, fun hz => ?_, fun env s' h => ?_⟩
  · rw [← costOf_of_lookup hrow]
    refine P owner ?_
    change (run quotient core supply token actions).1.purchased owner = 0
    unfold purchased
    rw [hrow]
    exact hz
  · obtain ⟨huse, -, htok⟩ := updateRamSupply_other (run quotient core supply token actions).1 env.slot
    obtain ⟨s1, row1, row', refund, token', memo, rfl, hpos, hrow1, -, -, rfl, -, -, ht, rfl⟩ := sellram_ok h
    cases (huse ▸ hrow1).symm.trans hrow
    have hbal := Token.transfer_balance ht owner
    rw [if_pos rfl, if_neg (Token.transfer_ok ht).1.symm, hsym, htok, Int.mul_tdiv_cancel _ hpos.ne'] at hbal
    exact hbal.trans (Int.sub_zero _)

def sampleHolding : List (RamEnv × Action) :=
  [.buyram sampleBuyer sampleBuyer ⟨2500, sampleCore⟩, .ramtransfer sampleBuyer sampleTrader 40 "", .sellram sampleBuyer 30,
    .ramburn sampleTrader 10 ""].map (sampleRamEnv, ·)

theorem cost_basis_sampleHolding : let start := (afterInit sampleCore (10 ^ 13) sampleToken, [])
    let r := run exactQuotient sampleCore (10 ^ 13) sampleToken sampleHolding
    r.1.totalCost = 1448 ∧ sumOver exactQuotient sampleCore (returnedBy sampleCore) start sampleHolding = 602 ∧
      costBurned r.2 = 200 ∧ sumOver exactQuotient sampleCore (paidBy sampleCore) start sampleHolding = 1448 + 602 + 200 := by
  intro start r
  have h := (cost_basis exactQuotient (10 ^ 13) sampleToken_issued sampleHolding).1
  have hcost : r.1.totalCost = 1448 := by decide +kernel
  have hret : sumOver exactQuotient sampleCore (returnedBy sampleCore) start sampleHolding = 602 := by decide +kernel
  have hburn : costBurned r.2 = 200 := by decide +kernel
  exact ⟨hcost, hret, hburn, by rw [← h, hcost, hret, hburn]⟩

end RamMarket
end TheChannel

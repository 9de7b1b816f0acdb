import TheChannel.RamLedger
/-!
# RamSolvency — what `ra.ram` owes

`total_ram_stake` less the cost of all purchased bytes is what the conversions took in, less what they paid out, and the cost
of burned bytes. So the stake covers the cost just when the conversions paid out no more than that, and then every account
can sell what it bought for what it cost. It does so throughout a run just when every `sellramsys` finds reserves that give no
more than the stake exceeds the cost by. A purchase at the fixed price takes bytes from the market and leaves the other
reserve: the conversions pay out more than they took in (`stake_below_cost`).
-/
namespace TheChannel
namespace RamMarket
variable {quotient : Quotient} {core : Symbol} {env : RamEnv} {s s' : RamMarket} {owner account payer receiver o : AccountName}
  {bytes held : Int} {quant : Asset} {memo : String} {events events' : List RamEvent} {row row' : UserResourcesRam}

def totalCost (s : RamMarket) : Int := RowMap.total (fun _ row => row.quantity.amount) s.usersram

def paidIn (events : List RamEvent) : Int :=
  (events.map fun
    | .boughtSys amount => amount
    | .soldSys _ => 0
    | .burned _ => 0).sum

def paidOut (events : List RamEvent) : Int :=
  (events.map fun
    | .boughtSys _ => 0
    | .soldSys amount => amount
    | .burned _ => 0).sum

def costBurned (events : List RamEvent) : Int :=
  (events.map fun
    | .boughtSys _ => 0
    | .soldSys _ => 0
    | .burned cost => cost).sum

def surplus (events : List RamEvent) : Int := paidIn events - paidOut events + costBurned events

theorem surplus_append (l l' : List RamEvent) : surplus (l ++ l') = surplus l + surplus l' := by
  simp only [surplus, paidIn, paidOut, costBurned, List.map_append, List.sum_append]
  ring

@[simp] theorem surplus_boughtSys (q : Int) : surplus [.boughtSys q] = q := by simp [surplus, paidIn, paidOut, costBurned]

@[simp] theorem surplus_soldSys (q : Int) : surplus [.soldSys q] = -q := by simp [surplus, paidIn, paidOut, costBurned]

@[simp] theorem surplus_burned (c : Int) : surplus [.burned c] = c := by simp [surplus, paidIn, paidOut, costBurned]

/-- **The stake covers the cost** of all purchased bytes. -/
def Covered (s : RamMarket) : Prop := s.totalCost ≤ s.totalRamStake

/-- Do the reserves give a `sellramsys` no more than the stake exceeds the cost of the purchased bytes by? -/
def saleFits (quotient : Quotient) (env : RamEnv) (s : RamMarket) : Action → Bool
  | .sellramsys _ bytes =>
    let s := s.updateRamSupply env.slot
    decide (bancorOutput quotient s.base.amount s.quote.amount bytes ≤ s.totalRamStake - s.totalCost)
  | _ => true

/-- **The books of `ra.ram`**; `held` is what it has besides the stake. -/
structure Books (core : Symbol) (held : Int) (s : RamMarket) (events : List RamEvent) : Prop where
  stake : s.totalRamStake - s.totalCost = surplus events
  rows : ∀ owner row, s.usersram.lookup owner = some row →
    row.quantity.symbol = core ∧ 0 ≤ row.ramBytes ∧ row.ramBytes ≤ row.quantity.amount
  issued : s.token.Issued core
  balance : s.token.balance ramAccount core.code = held + s.totalRamStake

theorem totalCost_insert {r : UserResourcesRam} (h : s'.usersram = s.usersram.insert o r) :
    s'.totalCost = s.totalCost - s.costOf o + r.quantity.amount := by
  unfold totalCost costOf
  rw [h, RowMap.total_insert]
  cases s.usersram.lookup o <;> rfl

theorem costOf_of_lookup (h : s.usersram.lookup owner = some row) : s.costOf owner = row.quantity.amount := by
  unfold costOf
  rw [h]
  rfl

theorem Books.purchased_le (B : Books core held s events) (owner : AccountName) :
    0 ≤ s.purchased owner ∧ s.purchased owner ≤ s.costOf owner := by
  unfold purchased costOf
  cases hrow : s.usersram.lookup owner with
  | none => exact ⟨le_rfl, le_rfl⟩
  | some row => exact (B.rows owner row hrow).2

theorem refund_bounds {cost n b : Int} (hb : 0 < b) (hbn : b ≤ n) (hn : n ≤ cost) :
    b ≤ (cost * b).tdiv n ∧ n - b ≤ cost - (cost * b).tdiv n := by
  rw [Int.tdiv_eq_ediv_of_nonneg (mul_nonneg (by omega) hb.le)]
  constructor
  · refine Int.le_ediv_of_mul_le (by omega) ?_
    nlinarith
  · have : cost * b / n ≤ cost - n + b := by
      refine Int.ediv_le_of_le_mul (by omega) ?_
      nlinarith [mul_nonneg (sub_nonneg.2 hn) (sub_nonneg.2 hbn)]
    omega

theorem Settled.refl (core : Symbol) (t : Token) : Settled core t t 0 := ⟨rfl, (Int.add_zero _).symm, id⟩

theorem Settled.issued {t t' : Token} {amount : Int} (h : Settled core t t' amount) (I : t.Issued core) : t'.Issued core where
  ledger := h.ledger I.ledger
  valid := I.valid
  stat := by
    rw [h.stat]
    exact I.stat

/-! ## The actions keep the books -/

theorem updateRamSupply_other (s : RamMarket) (slot : UInt32) :
    (s.updateRamSupply slot).usersram = s.usersram ∧ (s.updateRamSupply slot).totalRamStake = s.totalRamStake ∧
      (s.updateRamSupply slot).token = s.token := by
  unfold updateRamSupply
  split
  · exact ⟨rfl, rfl, rfl⟩
  · exact ⟨rfl, rfl, rfl⟩

section

variable (B : Books core held s events)

include B

theorem Books.same (huse : s'.usersram = s.usersram)
    (hs : s'.totalRamStake = s.totalRamStake) (htok : s'.token = s.token) : Books core held s' events where
  stake := by
    unfold totalCost
    rw [hs, huse]
    exact B.stake
  rows := huse ▸ B.rows
  issued := htok ▸ B.issued
  balance := by rw [htok, hs, B.balance]

theorem Books.updateRamSupply (slot : UInt32) :
    Books core held (s.updateRamSupply slot) events := by
  obtain ⟨huse, hs, htok⟩ := updateRamSupply_other s slot
  exact B.same huse hs htok

theorem Books.booked {d q : Int} (hset : Settled core s.token s'.token d) (hst : s'.totalRamStake = s.totalRamStake + d)
    (h' : s'.usersram = s.usersram.insert o row) (hsym : row.quantity.symbol = core)
    (ham : row.quantity.amount = s.costOf o + q) (hn : 0 ≤ row.ramBytes) (hle : row.ramBytes ≤ row.quantity.amount)
    (hsur : surplus events' + q = surplus events + d) : Books core held s' events' := by
  have hs := B.stake
  have hbal := hset.balance
  rw [B.balance] at hbal
  refine ⟨?_, fun a r hr => ?_, hset.issued B.issued, by omega⟩
  · rw [totalCost_insert h', ham, hst]
    omega
  · rw [h'] at hr
    rcases RowMap.lookup_insert_some hr with ⟨-, rfl⟩ | ⟨-, hr⟩
    · exact ⟨hsym, hn, hle⟩
    · exact B.rows a r hr

theorem Books.buyram (h : s.buyram core env payer receiver quant = .ok s') :
    Books core held s' events := by
  obtain ⟨s1, bytes, fee, row, token, rfl, hpos, -, hle, -, -, hb, hqua, hset, rfl⟩ := buyram_ok h
  have B1 := B.updateRamSupply env.slot
  have hp := B1.purchased_le receiver
  exact B1.booked hset rfl rfl (by rw [hqua]) (by rw [hqua]) (by omega) (by rw [hqua, hb]; dsimp only; omega) rfl

theorem Books.sellram (h : s.sellram env account bytes = .ok s') : Books core held s' events := by
  obtain ⟨s1, row, row', refund, token, memo, rfl, hpos, hrow, hle, -, href, hby, hqua, ht, rfl⟩ := sellram_ok h
  have B1 := B.updateRamSupply env.slot
  obtain ⟨hsym, hn, hco⟩ := B1.rows account row hrow
  obtain ⟨hb, hr⟩ := refund_bounds hpos hle hco
  have hset := Settled.transfer ht (show refund.symbol = core by rw [href]; exact hsym)
  rw [if_neg (Token.transfer_ok ht).1, if_pos rfl, Int.zero_sub] at hset
  have ham : refund.amount = (row.quantity.amount * bytes).tdiv row.ramBytes := by rw [href]
  exact B1.booked hset rfl rfl (by rw [hqua]; exact hsym) (by rw [hqua, costOf_of_lookup hrow]; rfl) (by omega)
    (by rw [hqua, hby]; dsimp only; omega) rfl

theorem Books.settled {d : Int} (hset : Settled core s.token s'.token d) (huse : s'.usersram = s.usersram)
    (hst : s'.totalRamStake = s.totalRamStake + d) (hsur : surplus events' = d) : Books core held s' (events ++ events') := by
  have hs := B.stake
  have hbal := hset.balance
  rw [B.balance] at hbal
  refine ⟨?_, huse ▸ B.rows, hset.issued B.issued, by omega⟩
  rw [surplus_append, hsur, ← hs, hst, totalCost, huse, ← totalCost]
  omega

theorem Books.buyramsys
    (h : s.buyramsys quotient core env payer receiver quant = .ok (s', events')) : Books core held s' (events ++ events') := by
  obtain ⟨s1, q, out, quote, token, rfl, -, -, -, rfl, hset, rfl⟩ := buyramsys_ok h
  exact (B.updateRamSupply env.slot).settled hset rfl rfl (surplus_boughtSys ..)

theorem Books.sellramsys
    (h : s.sellramsys quotient core env account bytes = .ok (s', events')) : Books core held s' (events ++ events') := by
  obtain ⟨s1, out, quote, token, rfl, -, -, -, rfl, -, hset, rfl⟩ := sellramsys_ok h
  exact (B.updateRamSupply env.slot).settled hset rfl rfl (surplus_soldSys ..)

theorem Books.ramtransfer {from_ to_ : AccountName}
    (h : s.ramtransfer core env from_ to_ bytes memo = .ok (s', events')) : Books core held s' (events ++ events') := by
  obtain ⟨s1, row, row', refund, hs1, hpos, hrow, hle, href, hby, hqua, -, hca⟩ := ramtransfer_ok h
  have B1 : Books core held s1 events := hs1 ▸ B.updateRamSupply env.slot
  obtain ⟨hsym, hn, hco⟩ := B1.rows from_ row hrow
  obtain ⟨hb, hr⟩ := refund_bounds hpos hle hco
  have ham : refund.amount = (row.quantity.amount * bytes).tdiv row.ramBytes := by rw [href]
  -- the debit, as if the cost were burned
  have debit : ∀ {s2 : RamMarket}, s2.token = s1.token → s2.totalRamStake = s1.totalRamStake →
      s2.usersram = s1.usersram.insert from_ row' → Books core held s2 (events ++ [.burned refund.amount]) :=
    fun htok hst huse =>
      B1.booked (htok ▸ .refl ..) (hst.trans (Int.add_zero _).symm) huse (by rw [hqua]; exact hsym)
        (by rw [hqua, costOf_of_lookup hrow]; rfl) (by omega) (by rw [hqua, hby]; dsimp only; omega)
        (by rw [surplus_append, surplus_burned]; omega)
  rcases hca with ⟨rfl, rfl⟩ | ⟨rfl, s2, s3, row2, hs2, hb2, ha2, hsym2, rfl, rfl⟩
  · exact debit rfl rfl rfl
  · have B2 : Books core held s2 _ := debit (by rw [hs2]) (by rw [hs2]) (by rw [hs2])
    have hp := B2.purchased_le to_
    refine B2.booked (.refl ..) (Int.add_zero _).symm rfl ?_ ha2 (by omega) (by omega) ?_
    · rw [hsym2, href]
      exact hsym
    · rw [List.append_nil, surplus_append, surplus_burned, Int.add_zero]

theorem Books.row_keeps (hb : row.ramBytes = s.purchased owner)
    (hc : row.quantity = ⟨s.costOf owner, core⟩) (h' : s'.usersram = s.usersram.insert owner row)
    (hs : s'.totalRamStake = s.totalRamStake) (htok : s'.token = s.token) : Books core held s' events := by
  have hp := B.purchased_le owner
  exact B.booked (htok ▸ .refl ..) (hs.trans (Int.add_zero _).symm) h' (by rw [hc]) (by rw [hc, Int.add_zero]) (by omega)
    (by rw [hc, hb]; exact hp.2) rfl

theorem Books.apply {a : Action} (h : s.apply quotient core env a = .ok (s', events')) :
    Books core held s' (events ++ events') := by
  have mapped : ∀ x : Result RamMarket, x.map (·, []) = .ok (s', events') → (∀ s1, x = .ok s1 → Books core held s1 events) →
      Books core held s' (events ++ events') := by
    intro x hx hall
    obtain ⟨s1, h1, hx⟩ := map_ok_iff.1 hx
    cases hx
    rw [List.append_nil]
    exact hall s' h1
  cases a with
  | newaccount name =>
    refine mapped _ h fun _ h1 => ?_
    replace h1 := rest_ok h1
    obtain ⟨hn, h1⟩ := check_ok h1
    cases h1
    have hn := Option.isNone_iff_eq_none.1 hn
    refine B.row_keeps ?_ ?_ rfl rfl rfl
    · unfold purchased
      rw [hn]
      rfl
    · unfold costOf
      rw [hn]
      rfl
  | setram maxRamSize =>
    refine mapped _ h fun _ h1 => ?_
    iterate 4 replace h1 := rest_ok h1
    cases h1
    exact B.same rfl rfl rfl
  | setramrate bytesPerBlock =>
    refine mapped _ h fun _ h1 => ?_
    replace h1 := rest_ok h1
    cases h1
    exact (B.updateRamSupply env.slot).same rfl rfl rfl
  | updateRamSupply =>
    cases h
    rw [List.append_nil]
    exact B.updateRamSupply env.slot
  | setramoption price cap fee =>
    refine mapped _ h fun _ h1 => ?_
    iterate 5 replace h1 := rest_ok h1
    cases h1
    exact B.same rfl rfl rfl
  | ramlimitset account ramlimit =>
    refine mapped _ h fun _ h1 => ?_
    iterate 3 replace h1 := rest_ok h1
    cases h1
    refine B.row_keeps ?_ ?_ rfl rfl rfl
    · exact ensureUsersram_ramBytes ..
    · unfold ensureUsersram costOf
      cases hrow : s.usersram.lookup account with
      | none => rfl
      | some row => exact congrArg (Asset.mk _) (B.rows account row hrow).1
  | buyram payer receiver quant => exact mapped _ h fun _ h1 => B.buyram h1
  | sellram account bytes => exact mapped _ h fun _ h1 => B.sellram h1
  | buyramsys payer receiver quant => exact B.buyramsys h
  | sellramsys account bytes => exact B.sellramsys h
  | ramtransfer from_ to_ bytes memo => exact B.ramtransfer h
  | ramburn owner bytes memo =>
    replace h := rest_ok h
    exact B.ramtransfer h

theorem Books.ramtransfer_surplus {from_ to_ : AccountName}
    (h : s.ramtransfer core env from_ to_ bytes memo = .ok (s', events')) : 0 ≤ surplus events' := by
  obtain ⟨s1, row, row', refund, hs1, hpos, hrow, hle, href, -, -, -, hca⟩ := ramtransfer_ok h
  have B1 : Books core held s1 events := hs1 ▸ B.updateRamSupply env.slot
  rcases hca with ⟨rfl, -⟩ | ⟨rfl, -⟩
  · have hb := (refund_bounds hpos hle (B1.rows from_ row hrow).2.2).1
    rw [surplus_burned, href]
    exact hpos.le.trans hb
  · exact le_rfl

/-- One step: only a sale through the market can end the cover, and just when it gives more than the stake exceeds the cost by. -/
theorem Books.covered_iff {a : Action} (hc : s.Covered) (h : s.apply quotient core env a = .ok (s', events')) :
    s'.Covered ↔ s.saleFits quotient env a = true := by
  unfold Covered at hc ⊢
  have hst := B.stake
  have hst' := (B.apply h).stake
  rw [surplus_append] at hst'
  have keeps : 0 ≤ surplus events' → s.saleFits quotient env a = true →
      (s'.totalCost ≤ s'.totalRamStake ↔ s.saleFits quotient env a = true) :=
    fun hn hf => iff_of_true (by omega) hf
  have mapped : ∀ x : Result RamMarket, x.map (·, []) = .ok (s', events') → 0 ≤ surplus events' := by
    intro x hx
    obtain ⟨s1, -, hx⟩ := map_ok_iff.1 hx
    cases hx
    exact le_rfl
  cases a with
  | newaccount name => exact keeps (mapped _ h) rfl
  | setram maxRamSize => exact keeps (mapped _ h) rfl
  | setramrate bytesPerBlock => exact keeps (mapped _ h) rfl
  | updateRamSupply =>
    cases h
    exact keeps le_rfl rfl
  | setramoption price cap fee => exact keeps (mapped _ h) rfl
  | ramlimitset account ramlimit => exact keeps (mapped _ h) rfl
  | buyram payer receiver quant => exact keeps (mapped _ h) rfl
  | sellram account bytes => exact keeps (mapped _ h) rfl
  | buyramsys payer receiver quant =>
    obtain ⟨s1, q, out, quote, token, -, hq, -, -, rfl, -⟩ := buyramsys_ok h
    exact keeps (by rw [surplus_boughtSys]; exact hq.le) rfl
  | sellramsys account bytes =>
    obtain ⟨s1, out, quote, token, hs1, -, -, -, rfl, hout, -⟩ := sellramsys_ok h
    have hst1 := (B.updateRamSupply env.slot).stake
    rw [surplus_soldSys] at hst'
    unfold saleFits
    dsimp only
    rw [decide_eq_true_iff, ← hs1, ← hout, hs1]
    omega
  | ramtransfer from_ to_ bytes memo => exact keeps (B.ramtransfer_surplus h) rfl
  | ramburn owner bytes memo => exact keeps (B.ramtransfer_surplus (rest_ok h)) rfl

end

theorem Books.run (quotient : Quotient) (supply : Int) {token : Token} (I : token.Issued core) (actions : List (RamEnv × Action)) :
    Books core (token.balance ramAccount core.code) (run quotient core supply token actions).1
      (run quotient core supply token actions).2 := by
  refine List.foldlRecOn (motive := fun r => Books core (token.balance ramAccount core.code) r.1 r.2)
    (b := (RamMarket.afterInit core supply token, [])) actions (RamMarket.step quotient core)
    ⟨rfl, fun owner row h => (by cases h), I, (Int.add_zero _).symm⟩ (fun r B a _ => ?_)
  unfold RamMarket.step
  cases h : r.1.apply quotient core a.1 a.2 with
  | ok r' => exact B.apply h
  | error e => exact B

theorem run_concat (quotient : Quotient) (core : Symbol) (supply : Int) (token : Token) (actions : List (RamEnv × Action))
    (a : RamEnv × Action) :
    run quotient core supply token (actions ++ [a]) = step quotient core (run quotient core supply token actions) a :=
  List.foldl_concat ..

theorem run_covered_iff (quotient : Quotient) (supply : Int) {token : Token} (I : token.Issued core)
    (actions : List (RamEnv × Action)) : let after (done : List (RamEnv × Action)) := (run quotient core supply token done).1
    (∀ done, done <+: actions → (after done).Covered) ↔ ∀ done a, done ++ [a] <+: actions →
      ((after done).apply quotient core a.1 a.2).isOk = true → (after done).saleFits quotient a.1 a.2 = true := by
  intro after
  have hstep : ∀ done a, after (done ++ [a]) = (step quotient core (run quotient core supply token done) a).1 :=
    fun done a => congrArg Prod.fst (run_concat quotient core supply token done a)
  refine ⟨fun hall done a hpre hok => ?_, fun hall done => ?_⟩
  · have hlater := hall _ hpre
    rw [hstep, RamMarket.step] at hlater
    cases happ : (after done).apply quotient core a.1 a.2 with
    | error e =>
      rw [happ] at hok
      cases hok
    | ok r =>
      rw [happ] at hlater
      exact ((Books.run quotient supply I done).covered_iff (hall _ ((List.prefix_append _ _).trans hpre)) happ).1 hlater
  · induction done using List.reverseRecOn with
    | nil => exact fun _ => le_refl (0 : Int)
    | append_singleton done a ih =>
      intro hpre
      have hc := ih ((List.prefix_append _ _).trans hpre)
      have hfit := hall done a hpre
      rw [hstep, RamMarket.step]
      cases happ : (after done).apply quotient core a.1 a.2 with
      | error e => exact hc
      | ok r =>
        rw [happ] at hfit
        exact ((Books.run quotient supply I done).covered_iff hc happ).2 (hfit rfl)

/-! ## Selling what was bought -/

theorem Books.cost_le (B : Books core held s events) (hh : 0 ≤ held) (hs : s.totalCost ≤ s.totalRamStake)
    (hrow : s.usersram.lookup owner = some row) :
    row.quantity.amount ≤ s.totalRamStake ∧ row.quantity.amount ≤ s.token.balance ramAccount core.code ∧
      row.quantity.amount ≤ Asset.maxAmount := by
  have hone := RowMap.weigh_le_total (t := s.usersram) (w := fun _ row => row.quantity.amount)
    (fun a r hr => (B.rows a r hr).2.1.trans (B.rows a r hr).2.2) owner
  rw [hrow, RowMap.weigh_some] at hone
  change _ ≤ s.totalCost at hone
  have hmax := B.issued.balance_le ramAccount
  have hbal := B.balance
  exact ⟨by omega, by omega, by omega⟩

theorem debit_all (hrow : s.usersram.lookup owner = some row) (hpos : 0 < row.ramBytes) (hn : 0 ≤ row.quantity.amount)
    (hmax : row.quantity.amount ≤ Asset.maxAmount) (hval : row.quantity.symbol.isValid = true) :
    s.debitPurchasedRam owner row.ramBytes = .ok ({ s with
      usersram := s.usersram.insert owner { row with
        ramBytes := row.ramBytes - row.ramBytes
        quantity := ⟨row.quantity.amount - row.quantity.amount, row.quantity.symbol⟩ } }, row.quantity) := by
  have hco : (row.quantity.amount * row.ramBytes).tdiv row.ramBytes = row.quantity.amount :=
    Int.mul_tdiv_cancel _ hpos.ne'
  have hr : Asset.maxAmount ≤ int64Max := by decide
  unfold debitPurchasedRam
  rw [hrow]
  dsimp only
  rw [check_bind (decide_eq_true le_rfl), hco, check_bind (decide_eq_true (hmax.trans hr)),
    Asset.make_ok_iff.2 ⟨decide_eq_true ⟨by omega, hmax⟩, hval, rfl⟩, ok_bind,
    Asset.sub_ok_iff.2 ⟨rfl, ⟨by omega, by omega⟩, rfl⟩, ok_bind]

theorem reduceRam_accepted (hpos : 0 < bytes) (hle : bytes ≤ s.quota owner) :
    s.reduceRam owner bytes = .ok { s with userResources := s.userResources.insert owner (s.quota owner - bytes) } := by
  unfold reduceRam
  rw [check_bind (decide_eq_true hpos)]
  unfold quota at hle ⊢
  cases hrow : s.userResources.lookup owner with
  | none =>
    rw [hrow] at hle
    exact absurd hle (not_le.2 hpos)
  | some b =>
    rw [hrow, Option.getD_some] at hle
    dsimp only
    rw [check_bind (decide_eq_true hle)]
    rfl

theorem Books.sell_all (B : Books core held s events) (L : Ledger s) (hh : 0 ≤ held)
    (hso : s.totalCost ≤ s.totalRamStake) (hrow : s.usersram.lookup account = some row) (hpos : 0 < row.ramBytes)
    (hne : account ≠ ramAccount) (ha : env.hasAuth account = true) (hacc : env.isAccount account = true) :
    ∃ s', s.sellram env account row.ramBytes = .ok s' ∧ s'.costOf account = 0 ∧
      s'.token.balance account core.code = s.token.balance account core.code + row.quantity.amount := by
  have B1 := B.updateRamSupply env.slot
  have L1 := L.updateRamSupply env.slot
  obtain ⟨huse, hsa, htok⟩ := updateRamSupply_other s env.slot
  rw [← htok]
  rw [← huse] at hrow
  have hs1 : (s.updateRamSupply env.slot).totalCost ≤ (s.updateRamSupply env.slot).totalRamStake := by
    unfold totalCost at hso ⊢
    rwa [huse, hsa]
  have hs : ∀ s1 : RamMarket, s.updateRamSupply env.slot = s1 → s.sellram env account row.ramBytes =
      (env.requireAuth account >>= fun _ => check (decide (0 < row.ramBytes)) "must sell a positive amount" >>= fun _ =>
        s1.debitPurchasedRam account row.ramBytes >>= fun r =>
        check (decide (0 < r.2.amount)) "token amount received from selling ram is too low" >>= fun _ =>
        r.1.reduceRam account row.ramBytes >>= fun s =>
        check (decide (0 ≤ s.totalRamStake - r.2.amount)) "error, attempt to unstake more tokens than previously staked" >>= fun _ =>
        (((s.addBase row.ramBytes).release row.ramBytes).addStake (-r.2.amount)).pay env.isAccount ramAccount account r.2
          "sell ram") := by
    rintro s1 rfl
    rfl
  have hs := hs _ rfl
  generalize s.updateRamSupply env.slot = s1 at B1 L1 hrow hs1 hs ⊢
  obtain ⟨hsym, -, hco⟩ := B1.rows account row hrow
  obtain ⟨hle, hbal, hmax⟩ := B1.cost_le hh hs1 hrow
  obtain ⟨st, hst, hss, hsm⟩ := B1.issued.stat
  have hq := (L1.purchased account).2
  rw [purchased_of_lookup hrow] at hq
  have hval : row.quantity.symbol.isValid = true := hsym ▸ B1.issued.valid
  rw [← hsym] at hst hss hbal
  obtain ⟨token, hpay⟩ : ∃ token, s1.token.transfer ⟨fun a => a == ramAccount, env.isAccount⟩ ramAccount account row.quantity
      "sell ram" = .ok token := B1.issued.ledger.transfer_accepted hst hss hsm hne.symm (beq_self_eq_true _) hacc
    (Bool.and_eq_true_iff.2 ⟨decide_eq_true ⟨by omega, hmax⟩, hval⟩) (by omega) (by decide +kernel) hbal
  refine ⟨{ s1 with
    base := ⟨s1.base.amount + row.ramBytes, s1.base.symbol⟩
    totalRamBytesReserved := (s1.release row.ramBytes).totalRamBytesReserved
    totalRamStake := s1.totalRamStake + -row.quantity.amount
    usersram := s1.usersram.insert account { row with
      ramBytes := row.ramBytes - row.ramBytes
      quantity := ⟨row.quantity.amount - row.quantity.amount, row.quantity.symbol⟩ }
    userResources := s1.userResources.insert account (s1.quota account - row.ramBytes)
    token := token }, ?_, ?_, ?_⟩
  · rw [hs]
    refine requireAuth_bind_ok_iff.2 ⟨ha, ?_⟩
    rw [check_bind (decide_eq_true hpos), debit_all hrow hpos (by omega) hmax hval, ok_bind,
      check_bind (decide_eq_true (by dsimp only; omega)), reduceRam_accepted hpos (by exact hq), ok_bind,
      check_bind (decide_eq_true (by dsimp only; omega))]
    exact bind_ok_iff.2 ⟨token, hpay, rfl⟩
  · unfold costOf
    rw [AList.lookup_insert]
    exact Int.sub_self _
  · have hb := Token.transfer_balance hpay account
    rw [if_pos rfl, if_neg hne, hsym] at hb
    rw [hb, Int.sub_zero]

/-- **When `ra.ram` is solvent**, over every sequence of actions after `init` and whatever the conversions give: the stake
covers the cost of all purchased bytes just when the conversions paid out no more than they took in and was burned. It does so
throughout just when every accepted `sellramsys` finds reserves that give no more than the stake then exceeds the cost by, so
always if there is none. While it does, every account but `ra.ram` can sell all its purchased bytes for what they cost. -/
theorem run_solvent_iff (quotient : Quotient) (core : Symbol) (supply : Int) (token : Token) (I : token.Issued core)
    (actions : List (RamEnv × Action)) : let r := run quotient core supply token actions
    let after (done : List (RamEnv × Action)) := (run quotient core supply token done).1
    (r.1.Covered ↔ paidOut r.2 ≤ paidIn r.2 + costBurned r.2) ∧
    ((∀ done, done <+: actions → (after done).Covered) ↔ ∀ done a, done ++ [a] <+: actions →
      ((after done).apply quotient core a.1 a.2).isOk = true → (after done).saleFits quotient a.1 a.2 = true) ∧
    (r.1.Covered → ∀ (env : RamEnv) account row, env.hasAuth account = true → env.isAccount account = true → account ≠ ramAccount →
      r.1.usersram.lookup account = some row → 0 < row.ramBytes →
      ∃ s', r.1.sellram env account row.ramBytes = .ok s' ∧ s'.costOf account = 0 ∧
        s'.token.balance account core.code = r.1.token.balance account core.code + row.quantity.amount) := by
  intro r after
  have B := Books.run quotient supply I actions
  have L := Ledger.run quotient core supply token actions
  have hh := I.ledger.sound.balance_nonneg ramAccount core.code
  have hst : r.1.totalRamStake - r.1.totalCost = paidIn r.2 - paidOut r.2 + costBurned r.2 := B.stake
  have hcov : r.1.Covered ↔ r.1.totalCost ≤ r.1.totalRamStake := Iff.rfl
  refine ⟨by rw [hcov]; omega, run_covered_iff quotient supply I actions, fun hs env account row ha hacc hne hrow hpos => ?_⟩
  exact B.sell_all L hh hs hrow hpos hne ha hacc

/-! ## More paid out than taken in -/

def sampleCore : Symbol := ⟨16722, 4⟩

def sampleBuyer : AccountName := stringToName ['b', 'u', 'y', 'e', 'r']
def sampleTrader : AccountName := stringToName ['t', 'r', 'a', 'd', 'e', 'r']

def sampleRamEnv : RamEnv := ⟨⟨fun _ => true, fun _ => true⟩, 0, 0⟩

def sampleToken : Token :=
  Token.run (stringToName ['r', 'a', '.', 't', 'o', 'k', 'e', 'n'])
    ([.create systemAccountName ⟨10 ^ 14, sampleCore⟩, .issue systemAccountName ⟨10 ^ 13, sampleCore⟩ "",
      .transfer systemAccountName sampleTrader ⟨2 * 10 ^ 9, sampleCore⟩ "",
      .transfer systemAccountName sampleBuyer ⟨2500, sampleCore⟩ ""].map (fun a => (sampleRamEnv.toActionEnv, a)))

def sampleTrade : List (RamEnv × Action) :=
  [.buyramsys sampleTrader sampleTrader ⟨2 * 10 ^ 9, sampleCore⟩, .buyram sampleBuyer sampleBuyer ⟨2500, sampleCore⟩,
    .sellramsys sampleTrader 11405484462].map (fun a => (sampleRamEnv, a))

theorem sampleToken_issued : sampleToken.Issued sampleCore where
  ledger := Token.Ledger.run _ _
  valid := by decide
  stat := ⟨⟨⟨10 ^ 13, sampleCore⟩, ⟨10 ^ 14, sampleCore⟩, systemAccountName⟩, by decide +kernel, rfl, by decide⟩

theorem run_solvent_iff_sampleTrade : let r := run exactQuotient sampleCore (10 ^ 13) sampleToken sampleTrade
    ¬ paidOut r.2 ≤ paidIn r.2 + costBurned r.2 ∧ ¬ r.1.Covered := by
  intro r
  have hf : ¬ paidOut r.2 ≤ paidIn r.2 + costBurned r.2 := by decide +kernel
  exact ⟨hf, fun h => hf
    ((run_solvent_iff exactQuotient sampleCore (10 ^ 13) sampleToken sampleToken_issued sampleTrade).1.1 h)⟩

/-- **With exact conversions the stake falls below the cost, and the buyer cannot sell what it bought.** -/
theorem stake_below_cost : let r := run exactQuotient sampleCore (10 ^ 13) sampleToken sampleTrade
    r.1.totalRamStake = 2247 ∧ r.1.totalCost = 2250 ∧ (r.1.sellram sampleRamEnv sampleBuyer 112).map (fun _ => ()) =
      .error (.thrown .eosioAssertMessage "error, attempt to unstake more tokens than previously staked") := by
  decide +kernel

end RamMarket
end TheChannel

import TheChannel.BandwidthSpec
/-!
# PowerupMarket — what the market owes and what is left of it

For each kind of bandwidth the utilization is the weight of the outstanding orders and within the weight of the market, and
the reserve account has what is not sold, besides what others order for it or delegate to it (`Books`). The check that
enough is left adds two `int64_t`: an order with a sum beyond the range is accepted if the reserve account has other weight
(`utilization_negative`). So the books are right as long as no accepted order has such a sum (`run_market`).
-/
namespace TheChannel
open RowMap PowerupStateResource List

def MarketEvent.fits : MarketEvent → Bool
  | .configured => true
  | .sold _ utilization amount => decide (utilization + amount < 2 ^ 63)

namespace PowerupStateResource
variable {pricing : Pricing} {now time : UInt32} {m : PowerupStateResource}

theorem Shrinking.later (S : Shrinking m time) (h : time ≤ now) : Shrinking m now :=
  { S with
    started := UInt32.le_trans S.started h
    falling := fun later hl => S.falling later (UInt32.le_trans h hl) }

theorem updateWeight_delta {delta : Int} (S : Shrinking m time) (ht : time ≤ now) (hdel : 0 ≤ delta)
    (hle : delta ≤ m.weight) :
    (m.updateWeight now delta).2 = delta + ((m.updateWeight now delta).1.weight - m.weight) := by
  have hold := S.weight_range
  have hnew := (S.updateWeight ht delta).weight_range
  have hm := S.weight_le ht delta
  have heq : (m.updateWeight now delta).2 = toInt64 (delta + ((m.updateWeight now delta).1.weight - m.weight)) := rfl
  rw [heq, toInt64_eq (by omega) (by omega)]

theorem Shrinking.processed {delta : Int} (S : Shrinking m time) (ht : time ≤ now) (hdel : 0 ≤ delta)
    (hu : delta ≤ m.utilization) (hle : m.utilization ≤ m.weight) {r : PowerupStateResource × Int}
    (hr : r = ((m.updateUtilization pricing now).free delta).updateWeight now delta) :
    Shrinking r.1 now ∧ r.1.utilization = m.utilization - delta ∧ m.weight ≤ r.1.weight ∧
      r.2 = delta + (r.1.weight - m.weight) := by
  have hra := S.weight_range
  obtain ⟨adjusted, timestamp, hut⟩ := updateUtilization_eq pricing now m
  have hf : (m.updateUtilization pricing now).free delta =
      { m with utilization := m.utilization - delta, adjustedUtilization := adjusted, utilizationTimestamp := timestamp } := by
    rw [hut]
    unfold free
    rw [toInt64_eq (by dsimp only; omega) (by dsimp only; omega)]
  rw [hf] at hr
  have S' := S.congr (m.utilization - delta) adjusted timestamp
  subst hr
  refine ⟨S'.updateWeight ht delta, rfl, S'.weight_le ht delta, ?_⟩
  exact updateWeight_delta S' ht hdel (by dsimp only; omega)

theorem sell_ok {frac : Int} {r : PowerupStateResource × Int × Int} (hw : 0 ≤ m.weight ∧ m.weight < 2 ^ 63)
    (hu : 0 ≤ m.utilization ∧ m.utilization ≤ m.weight) (hfr : 0 ≤ frac ∧ frac ≤ powerupFrac)
    (h : m.sell pricing frac = .ok r) :
    0 ≤ r.2.1 ∧ r.2.1 ≤ m.weight ∧
      (m.utilization + r.2.1 < 2 ^ 63 → m.utilization + r.2.1 ≤ m.weight ∧
        r.1 = { m with utilization := m.utilization + r.2.1 }) := by
  unfold sell at h
  by_cases hz : frac = 0
  · rw [if_pos hz] at h
    cases h
    refine ⟨le_rfl, hw.1, fun _ => ⟨by simpa using hu.2, ?_⟩⟩
    simp
  · rw [if_neg hz] at h
    have hn : 0 ≤ frac * m.weight := Int.mul_nonneg hfr.1 hw.1
    have hp : 0 ≤ frac * m.weight / powerupFrac ∧ frac * m.weight / powerupFrac ≤ m.weight := by
      refine ⟨Int.ediv_nonneg hn (by decide), Int.ediv_le_of_le_mul (by decide) ?_⟩
      rw [Int.mul_comm]
      exact Int.mul_le_mul_of_nonneg_left hfr.2 hw.1
    rw [Int.tdiv_eq_ediv_of_nonneg hn, toInt64_eq (x := frac * m.weight / powerupFrac) (by omega) (by omega)] at h
    replace h := rest_ok h
    obtain ⟨he, h⟩ := check_ok h
    replace h := rest_ok h
    cases h
    refine ⟨hp.1, hp.2, fun hf => ?_⟩
    dsimp only at hf ⊢
    rw [toInt64_eq (by omega) hf] at he ⊢
    exact ⟨of_decide_eq_true he, rfl⟩

theorem configured {core : Symbol} {args : PowerupConfigResource} {found : Bool} {m' : PowerupStateResource}
    {r q : PowerupStateResource × Int} (hold : if found then Shrinking m time ∧ time ≤ now else m.weight = 0)
    (hr : r = m.refresh pricing now found) (h : r.1.configure core now args = .ok m') (hq : q = m'.updateWeight now r.2) :
    Shrinking q.1 now ∧ q.1.utilization = m.utilization ∧ q.2 = q.1.weight - m.weight := by
  obtain ⟨C, hst, hw, hu⟩ := configure_ok h
  have S : Shrinking q.1 now := hq ▸ C.updateWeight (UInt32.le_of_eq hst) r.2
  have hra := S.weight_range
  have hdel : q.2 = toInt64 (r.2 + (q.1.weight - r.1.weight)) := by
    rw [hq, ← hw]
    rfl
  have hs : q.1.utilization = r.1.utilization := by
    rw [hq, ← hu]
    rfl
  cases found with
  | false =>
    rw [if_neg Bool.false_ne_true] at hold
    rw [refresh, if_neg Bool.false_ne_true] at hr
    subst hr
    refine ⟨S, hs, ?_⟩
    rw [hdel]
    dsimp only
    rw [toInt64_eq (by omega) (by omega), Int.zero_add]
  | true =>
    rw [if_pos rfl] at hold
    obtain ⟨Sold, ht⟩ := hold
    obtain ⟨adjusted, timestamp, heq⟩ := updateUtilization_eq pricing now m
    have S' := Sold.congr m.utilization adjusted timestamp
    have hf := updateWeight_delta S' ht (le_refl 0) S'.weight_range.1
    rw [refresh, if_pos rfl, heq] at hr
    rw [← hr, Int.zero_add] at hf
    dsimp only at hf
    have hwas := Sold.weight_range
    refine ⟨S, ?_, ?_⟩
    · rw [hs, hr]
      rfl
    · rw [hdel, toInt64_eq (by omega) (by omega)]
      omega

end PowerupStateResource

namespace Staking
open PowerupStateResource (Shrinking)

variable {pricing : Pricing} {core : Symbol} {env : StakeEnv} {s s' : Staking} {time days : UInt32} {events : List MarketEvent}
  {from_ receiver payer user : AccountName} {p : Processed} {state : PowerupState} {netDelta cpuDelta maxPayment : Asset}
  {transfer : Bool} {maxItems : UInt16} {args : PowerupConfig} {netFrac cpuFrac : Int} {action : Action} {a : StakeEnv × Action}

def capacity (s : Staking) (kind : Bandwidth) : Int :=
  match s.powerupState with
  | none => 0
  | some state => (state.resource kind).weight

def utilization (s : Staking) (kind : Bandwidth) : Int :=
  match s.powerupState with
  | none => 0
  | some state => (state.resource kind).utilization

def anyone (_ : AccountName) : Bool := true

/-- **The books of the market**, when no later time is before `time`. -/
structure Books (s : Staking) (time : UInt32) : Prop where
  checked : Checked s
  orders : ∀ kind id o, s.orders.lookup id = some o → 0 ≤ o.weight kind
  used : ∀ kind, s.utilization kind = s.ordered kind anyone
  within : ∀ kind, s.utilization kind ≤ s.capacity kind
  reserve : ∀ kind, s.weight kind reserveAccount = s.capacity kind - s.utilization kind +
    s.ordered kind (· == reserveAccount) + s.delegated kind (·.2 == reserveAccount)
  market : ∀ state, s.powerupState = some state → ∀ kind, Shrinking (state.resource kind) time

theorem Books.later (B : Books s time) {now : UInt32} (h : time ≤ now) : Books s now :=
  { B with market := fun state hs kind => (B.market state hs kind).later h }

theorem Books.capacity_range (B : Books s time) (kind : Bandwidth) : 0 ≤ s.capacity kind ∧ s.capacity kind < 2 ^ 63 := by
  unfold capacity
  cases h : s.powerupState with
  | none => exact ⟨le_rfl, by norm_num⟩
  | some state => exact (B.market state h kind).weight_range

theorem Books.ordered_nonneg (B : Books s time) (kind : Bandwidth) : 0 ≤ s.ordered kind anyone :=
  total_nonneg (fun id o ho => B.orders kind id o ho)

theorem Books.ordersFit (B : Books s time) : OrdersFit s := by
  intro kind id o ho
  have hone := weigh_le_total (t := s.orders) (w := fun _ o => o.weight kind) (fun id o ho => B.orders kind id o ho) id
  rw [ho, weigh_some] at hone
  change _ ≤ s.ordered kind anyone at hone
  have hn := B.orders kind id o ho
  have hu := B.used kind
  have hw := B.within kind
  have hr := B.capacity_range kind
  exact ⟨by omega, by omega⟩

/-! ## The queue -/

theorem expireOrders_delta : ∀ {n : Nat} {s} {net cpu : Int} {r}, Checked s → OrdersFit s →
    (∀ kind id o, s.orders.lookup id = some o → 0 ≤ o.weight kind) →
    (∀ kind : Bandwidth, 0 ≤ kind.pick net cpu ∧ kind.pick net cpu + s.ordered kind anyone < 2 ^ 63) →
    expireOrders core env n s net cpu = .ok r → ∀ kind : Bandwidth, kind.pick net cpu ≤ kind.pick r.2.1 r.2.2 ∧
      kind.pick r.2.1 r.2.2 + r.1.ordered kind anyone = kind.pick net cpu + s.ordered kind anyone
  | 0, s, net, cpu, r, C, O, hn, hf, h => by
    cases h
    exact fun _ => ⟨le_rfl, rfl⟩
  | n + 1, s, net, cpu, r, C, O, hn, hf, h => by
    rcases expireOrders_succ h with rfl | ⟨e, s1, hl, had, h⟩
    · exact fun _ => ⟨le_rfl, rfl⟩
    · obtain ⟨hfr, C1, -⟩ := adjustResources_expired C O hl had
      have hord : s1.orders = s.orders := by rw [hfr]
      have hsub := lookup_erase_sub (i := e.1) hord
      have hera : ∀ kind, Staking.ordered { s1 with orders := s1.orders.erase e.1 } kind anyone =
          s.ordered kind anyone - e.2.weight kind := fun kind => by
        rw [ordered_erase (r := { s1 with orders := s1.orders.erase e.1 }) hl kind anyone (by rw [← hord])]
        rfl
      -- a partial sum of the weights is within the sum of all
      have hsum : ∀ kind : Bandwidth, kind.pick (toInt64 (net + e.2.netWeight)) (toInt64 (cpu + e.2.cpuWeight)) =
          kind.pick net cpu + e.2.weight kind := fun kind => by
        have hr : 0 ≤ Staking.ordered { s1 with orders := s1.orders.erase e.1 } kind anyone :=
          total_nonneg (fun id o ho => hn kind id o (hsub id o ho))
        rw [hera] at hr
        have hpos := hn kind e.1 e.2 hl
        obtain ⟨hlow, hh⟩ := hf kind
        cases kind <;> exact toInt64_eq (by simp only [Bandwidth.pick, PowerupOrder.weight] at *; omega)
          (by simp only [Bandwidth.pick, PowerupOrder.weight] at *; omega)
      have ih := expireOrders_delta (s := { s1 with orders := s1.orders.erase e.1 }) C1
        (fun kind id o ho => O kind id o (hsub id o ho)) (fun kind id o ho => hn kind id o (hsub id o ho))
        (fun kind => by
          have hpos := hn kind e.1 e.2 hl
          have hold := hf kind
          rw [hsum, hera]
          omega) h
      intro kind
      have hpos := hn kind e.1 e.2 hl
      have hstep := ih kind
      rw [hsum, hera] at hstep
      omega

theorem capacity_some (h : s.powerupState = some state) (kind : Bandwidth) :
    s.capacity kind = (state.resource kind).weight := by
  unfold capacity
  rw [h]

theorem utilization_some (h : s.powerupState = some state) (kind : Bandwidth) :
    s.utilization kind = (state.resource kind).utilization := by
  unfold utilization
  rw [h]

theorem Books.processed {state : PowerupState} {n : Nat} (B : Books s time) (hst : s.powerupState = some state)
    (ht : time ≤ env.now) (h : s.processPowerupQueue pricing core env state n = .ok p) :
    p.tables = { s with userres := p.tables.userres, orders := p.tables.orders } ∧ Checked p.tables ∧
      (∀ id o, p.tables.orders.lookup id = some o → s.orders.lookup id = some o) ∧
      (∀ kind a, p.tables.weight kind a - p.tables.ordered kind (· == a) = s.weight kind a - s.ordered kind (· == a)) ∧
      ∀ kind, Shrinking (p.state.resource kind) env.now ∧
        (p.state.resource kind).utilization = p.tables.ordered kind anyone ∧
        (p.state.resource kind).utilization ≤ (state.resource kind).utilization ∧
        (state.resource kind).weight ≤ (p.state.resource kind).weight ∧
        kind.pick p.netDelta p.cpuDelta = (p.state.resource kind).weight - (p.state.resource kind).utilization -
          ((state.resource kind).weight - (state.resource kind).utilization) := by
  obtain ⟨r, hexp, h⟩ := bind_ok h
  cases h
  obtain ⟨hf, C, hsub, hs⟩ := expireOrders_ok B.checked B.ordersFit hexp
  refine ⟨hf, C, hsub, hs, fun kind => ?_⟩
  have hu : ∀ kind, (state.resource kind).utilization = s.ordered kind anyone := fun kind => by
    rw [← utilization_some hst, B.used kind]
  have hw : ∀ kind, (state.resource kind).utilization ≤ (state.resource kind).weight := fun kind => by
    rw [← utilization_some hst, ← capacity_some hst]
    exact B.within kind
  have hra : ∀ kind, (state.resource kind).weight < 2 ^ 63 := fun kind => (B.market state hst kind).weight_range.2
  have hdel := expireOrders_delta B.checked B.ordersFit B.orders (fun kind => by
    have h1 := hu kind
    have h2 := hw kind
    have h3 := hra kind
    have hz : kind.pick 0 0 = (0 : Int) := by cases kind <;> rfl
    rw [hz]
    omega) hexp kind
  have hr : 0 ≤ r.1.ordered kind anyone := total_nonneg fun id o ho => B.orders kind id o (hsub id o ho)
  have hk := hu kind
  have key : ∀ (m : PowerupStateResource) (delta : Int) q, m = state.resource kind → delta = kind.pick r.2.1 r.2.2 →
      q = ((m.updateUtilization pricing env.now).free delta).updateWeight env.now delta →
      Shrinking q.1 env.now ∧ q.1.utilization = r.1.ordered kind anyone ∧ q.1.utilization ≤ m.utilization ∧
        m.weight ≤ q.1.weight ∧ q.2 = q.1.weight - q.1.utilization - (m.weight - m.utilization) := by
    rintro m delta q rfl rfl hq
    have hz : kind.pick 0 0 = (0 : Int) := by cases kind <;> rfl
    rw [hz] at hdel
    obtain ⟨S, hut, hg, heq⟩ := (B.market state hst kind).processed ht hdel.1 (by omega) (hw kind) hq
    refine ⟨S, by omega, by omega, hg, by omega⟩
  cases kind with
  | net => exact key state.net r.2.1 _ rfl rfl rfl
  | cpu => exact key state.cpu r.2.2 _ rfl rfl rfl

/-! ## The actions keep the books -/

/-- The books after an action that does not shrink the market. -/
def Grown (s s' : Staking) (time : UInt32) : Prop := Books s' time ∧ ∀ kind, s.capacity kind ≤ s'.capacity kind

theorem Books.staked (B : Books s time) (hs : s'.powerupState = s.powerupState) (hor : s'.orders = s.orders)
    (C : Checked s') (hw : ∀ kind, s'.weight kind reserveAccount - s'.delegated kind (·.2 == reserveAccount) =
      s.weight kind reserveAccount - s.delegated kind (·.2 == reserveAccount)) : Grown s s' time := by
  have hu : ∀ kind, s'.utilization kind = s.utilization kind := fun kind => by unfold utilization; rw [hs]
  have hcap : ∀ kind, s'.capacity kind = s.capacity kind := fun kind => by unfold capacity; rw [hs]
  have hord : ∀ kind p, s'.ordered kind p = s.ordered kind p := fun kind p => by unfold ordered; rw [hor]
  refine ⟨⟨C, ?_, fun kind => ?_, fun kind => ?_, fun kind => ?_, ?_⟩, fun kind => (hcap kind).ge⟩
  · rw [hor]
    exact B.orders
  · rw [hu, hord]
    exact B.used kind
  · rw [hu, hcap]
    exact B.within kind
  · have hold := B.reserve kind
    have hnew := hw kind
    rw [hu, hcap, hord]
    omega
  · rw [hs]
    exact B.market

theorem Books.changebw (B : Books s time)
    (h : s.changebw core env from_ receiver netDelta cpuDelta transfer = .ok s') : Grown s s' time := by
  obtain ⟨who, -, -, hdel, C, hor, hst, hw, -, -⟩ := changebw_tables B.checked h
  refine B.staked hst hor C fun kind => ?_
  rw [hw, hdel]
  by_cases hr : reserveAccount = receiver
  · simp [hr]
  · simp [hr, Ne.symm hr]

theorem Books.refund {owner : AccountName} (B : Books s time) (h : s.refund env owner = .ok s') : Grown s s' time := by
  replace h := rest_ok h
  split at h
  · cases h
  rename_i req hr
  replace h := rest_ok h
  obtain ⟨amount, -, h⟩ := bind_ok h
  rw [(pay_ok h).1]
  exact B.staked rfl rfl B.checked fun _ => rfl

theorem Books.adjusted {net cpu : Int} (hC : Checked s) (hdel : ∀ kind : Bandwidth, IsInt64 (kind.pick net cpu))
    (hord : ∀ kind id o, s.orders.lookup id = some o → 0 ≤ o.weight kind)
    (hm : ∀ kind, Shrinking (state.resource kind) time)
    (hu : ∀ kind, (state.resource kind).utilization = s.ordered kind anyone)
    (hwi : ∀ kind, (state.resource kind).utilization ≤ (state.resource kind).weight)
    (hres : ∀ kind, s.weight kind reserveAccount + kind.pick net cpu = (state.resource kind).weight -
      (state.resource kind).utilization + s.ordered kind (· == reserveAccount) + s.delegated kind (·.2 == reserveAccount))
    (h : s.adjustResources core env reserveAccount net cpu true = .ok s') :
    Books { s' with powerupState := some state } time := by
  obtain ⟨hf, C', hw⟩ := adjustResources_ok hC hdel h
  refine ⟨C', ?_, fun kind => ?_, hwi, fun kind => ?_, fun state' hs' kind => ?_⟩
  · rw [hf]
    exact hord
  · rw [hf]
    exact hu kind
  · have hnew := hw kind reserveAccount
    rw [if_pos rfl, hres kind] at hnew
    rw [hf] at hnew ⊢
    exact hnew
  · cases hs'
    exact hm kind

theorem powerupexec_ok (h : s.powerupexec pricing core env user maxItems = .ok s') :
    ∃ state p s1, s.powerupState = some state ∧ s.processPowerupQueue pricing core env state maxItems.toNat = .ok p ∧
      p.tables.adjustResources core env reserveAccount p.netDelta p.cpuDelta true = .ok s1 ∧
      s' = { s1 with powerupState := some p.state } := by
  replace h := rest_ok h
  split at h
  · cases h
  rename_i state hs
  obtain ⟨p, hp, h⟩ := bind_ok h
  obtain ⟨s1, had, h⟩ := bind_ok h
  cases h
  exact ⟨state, p, s1, hs, hp, had, rfl⟩

theorem Books.powerupexec (B : Books s time) (ht : time ≤ env.now)
    (h : s.powerupexec pricing core env user maxItems = .ok s') : Grown s s' env.now := by
  obtain ⟨state, p, s1, hst, hp, had, rfl⟩ := powerupexec_ok h
  obtain ⟨hf, C, hsub, hs, hm⟩ := B.processed hst ht hp
  have hr : ∀ kind, 0 ≤ (p.state.resource kind).utilization := fun kind => by
    rw [(hm kind).2.1]
    exact total_nonneg fun id o ho => B.orders kind id o (hsub id o ho)
  refine ⟨Books.adjusted C (fun kind => ?_) (fun kind id o ho => B.orders kind id o (hsub id o ho))
    (fun kind => (hm kind).1) (fun kind => (hm kind).2.1) (fun kind => ?_) (fun kind => ?_) had, fun kind => ?_⟩
  all_goals
    obtain ⟨S, hu, hut, hg, hd⟩ := hm kind
    have hw := B.within kind
    have hres := B.reserve kind
    have hs := hs kind reserveAccount
    have hcap := S.weight_range
    have hn := hr kind
    have hdel : p.tables.delegated kind (·.2 == reserveAccount) = s.delegated kind (·.2 == reserveAccount) := by
      rw [hf]; rfl
    rw [capacity_some hst, utilization_some hst] at hw hres
  · exact ⟨by omega, by omega⟩
  · omega
  · rw [hdel]
    omega
  · rwa [capacity_some hst, capacity_some rfl]

theorem cfgpowerup_ok (h : s.cfgpowerup pricing core env args = .ok (s', events)) :
    ∃ (fresh q : Bandwidth → PowerupStateResource × Int) (days : UInt32) (fee : Asset) (s1 : Staking),
      (∀ kind, fresh kind = ((s.powerupState.getD {}).resource kind).refresh pricing env.now s.powerupState.isSome) ∧
      (∀ kind : Bandwidth, ∃ m, (fresh kind).1.configure core env.now (kind.pick args.net args.cpu) = .ok m ∧
        q kind = m.updateWeight env.now (fresh kind).2) ∧
      (∀ kind, (q kind).1.utilization ≤ (q kind).1.weight) ∧
      s.adjustResources core env reserveAccount (q .net).2 (q .cpu).2 true = .ok s1 ∧
      s' = { s1 with powerupState := some ⟨(q .net).1.capAdjusted, (q .cpu).1.capAdjusted, days, fee⟩ } ∧
      events = [.configured] := by
  iterate 2 replace h := rest_ok h
  obtain ⟨fee, -, h⟩ := bind_ok h
  iterate 3 replace h := rest_ok h
  obtain ⟨netState, hnet, h⟩ := bind_ok h
  obtain ⟨cpuState, hcpu, h⟩ := bind_ok h
  obtain ⟨hn, h⟩ := check_ok h
  obtain ⟨hcp, h⟩ := check_ok h
  obtain ⟨s1, had, h⟩ := bind_ok h
  cases h
  refine ⟨fun kind => ((s.powerupState.getD {}).resource kind).refresh pricing env.now s.powerupState.isSome,
    fun kind => (kind.pick netState cpuState).updateWeight env.now
      (((s.powerupState.getD {}).resource kind).refresh pricing env.now s.powerupState.isSome).2,
    _, fee, s1, fun _ => rfl, fun kind => ⟨kind.pick netState cpuState, ?_, rfl⟩, fun kind => ?_, had, rfl, rfl⟩
  · cases kind with
    | net => exact hnet
    | cpu => exact hcpu
  · cases kind with
    | net => exact of_decide_eq_true hn
    | cpu => exact of_decide_eq_true hcp

theorem Books.cfgpowerup (B : Books s time) (ht : time ≤ env.now)
    (h : s.cfgpowerup pricing core env args = .ok (s', events)) : Books s' env.now := by
  obtain ⟨fresh, q, days, fee, s1, hfr, hcn, hf, had, rfl, -⟩ := cfgpowerup_ok h
  have hold : ∀ kind, ∃ m, (s.powerupState.getD {}).resource kind = m ∧ s.capacity kind = m.weight ∧
      s.utilization kind = m.utilization ∧
      if s.powerupState.isSome then Shrinking m time ∧ time ≤ env.now else m.weight = 0 := by
    intro kind
    unfold capacity utilization
    cases hst : s.powerupState with
    | none => cases kind <;> exact ⟨_, rfl, rfl, rfl, rfl⟩
    | some state => exact ⟨_, rfl, rfl, rfl, B.market state hst kind, ht⟩
  have hco : ∀ kind, Shrinking (q kind).1 env.now ∧ (q kind).1.utilization = s.utilization kind ∧
      (q kind).2 = (q kind).1.weight - s.capacity kind := fun kind => by
    obtain ⟨m, rfl, hc, hu, hs⟩ := hold kind
    obtain ⟨m', hm, hq⟩ := hcn kind
    rw [hc, hu]
    exact configured hs (hfr kind) hm hq
  have hp : ∀ kind : Bandwidth, kind.pick (q .net).2 (q .cpu).2 = (q kind).2 := fun kind => by cases kind <;> rfl
  have hr : ∀ kind, PowerupState.resource kind ⟨(q .net).1.capAdjusted, (q .cpu).1.capAdjusted, days, fee⟩ =
      (q kind).1.capAdjusted := fun kind => by cases kind <;> rfl
  refine Books.adjusted B.checked (fun kind => ?_) B.orders (fun kind => ?_) (fun kind => ?_) (fun kind => ?_)
    (fun kind => ?_) had
  · obtain ⟨m, -, hq⟩ := hcn kind
    rw [hp, hq]
    exact toInt64_range _
  · rw [hr]
    exact (hco kind).1.congr _ _ _
  · rw [hr, ← B.used kind]
    exact (hco kind).2.1
  · rw [hr]
    exact hf kind
  · -- what the configuration frees is the difference of what is left
    have hres := B.reserve kind
    obtain ⟨-, hs, hdel⟩ := hco kind
    have hw : (q kind).1.capAdjusted.weight = (q kind).1.weight := rfl
    have hut : (q kind).1.capAdjusted.utilization = (q kind).1.utilization := rfl
    rw [hr, hp, hw, hut]
    omega

/-! ## A sale -/

theorem lt_foldr_max : ∀ (l : List (Sigma fun _ : Nat => PowerupOrder)), ∀ e ∈ l, e.1 < l.foldr (fun e n => max (e.1 + 1) n) 0
  | [], _, h => by cases h
  | a :: l, e, h => by
    rw [foldr_cons]
    rcases mem_cons.1 h with rfl | h
    · omega
    · have := lt_foldr_max l e h
      omega

theorem lookup_availablePrimaryKey (s : Staking) : s.orders.lookup s.availablePrimaryKey = none := by
  cases h : s.orders.lookup s.availablePrimaryKey with
  | none => rfl
  | some o =>
    have hmem := mem_entries_iff (e := ⟨s.availablePrimaryKey, o⟩).2 h
    exact absurd (lt_foldr_max _ _ hmem) (lt_irrefl _)

theorem ordered_insert {o : PowerupOrder} (h : s'.orders = s.orders.insert s.availablePrimaryKey o) (kind : Bandwidth)
    (p : AccountName → Bool) : s'.ordered kind p = s.ordered kind p + if p o.owner then o.weight kind else 0 := by
  unfold ordered
  rw [h, total_insert, lookup_availablePrimaryKey, weigh_none, Int.sub_zero]

theorem powerup_ok (h : s.powerup pricing core env payer receiver days netFrac cpuFrac maxPayment = .ok (s', events)) :
    ∃ state p net cpu fee s1, s.powerupState = some state ∧
      (∀ kind : Bandwidth, 0 ≤ kind.pick netFrac cpuFrac ∧ kind.pick netFrac cpuFrac ≤ powerupFrac) ∧
      s.processPowerupQueue pricing core env state 2 = .ok p ∧
      (∀ kind, (p.state.resource kind).sell pricing (kind.pick netFrac cpuFrac) = .ok (kind.pick net cpu)) ∧
      placeOrder core env p payer receiver days net.2.1 cpu.2.1 fee = .ok s1 ∧
      s' = { s1 with powerupState := some { p.state with net := net.1, cpu := cpu.1 } } ∧
      events = [.sold .net p.state.net.utilization net.2.1, .sold .cpu p.state.cpu.utilization cpu.2.1] := by
  replace h := rest_ok h
  split at h
  · cases h
  rename_i state hs
  iterate 2 replace h := rest_ok h
  obtain ⟨hnet, h⟩ := check_ok h
  obtain ⟨hcpu, h⟩ := check_ok h
  obtain ⟨hnet', h⟩ := check_ok h
  obtain ⟨hcpu', h⟩ := check_ok h
  obtain ⟨p, hpr, h⟩ := bind_ok h
  obtain ⟨net, hset, h⟩ := bind_ok h
  obtain ⟨cpu, hsel, h⟩ := bind_ok h
  iterate 3 replace h := rest_ok h
  obtain ⟨s1, hp, h⟩ := bind_ok h
  cases h
  refine ⟨state, p, net, cpu, _, s1, hs, fun kind => ?_, hpr, fun kind => ?_, hp, rfl, rfl⟩
  · cases kind
    · exact ⟨of_decide_eq_true hnet, of_decide_eq_true hnet'⟩
    · exact ⟨of_decide_eq_true hcpu, of_decide_eq_true hcpu'⟩
  · cases kind
    · exact hset
    · exact hsel

theorem placeOrder_ok {netAmount cpuAmount : Int} {fee : Asset}
    (h : placeOrder core env p payer receiver days netAmount cpuAmount fee = .ok s') :
    ∃ (o : PowerupOrder) (s1 s2 : Staking), o.owner = receiver ∧ o.netWeight = netAmount ∧ o.cpuWeight = cpuAmount ∧
      adjustResources core env { p.tables with orders := p.tables.orders.insert p.tables.availablePrimaryKey o } receiver
        netAmount cpuAmount true = .ok s1 ∧
      s1.adjustResources core env reserveAccount (toInt64 (p.netDelta - netAmount)) (toInt64 (p.cpuDelta - cpuAmount)) true =
        .ok s2 ∧
      s' = { s2 with token := s'.token } ∧ ∃ memo, s2.pay env payer feesAccount fee memo = .ok s' := by
  obtain ⟨s1, hrec, h⟩ := bind_ok h
  obtain ⟨s2, hres, h⟩ := bind_ok h
  exact ⟨_, s1, s2, rfl, rfl, rfl, hrec, hres, (pay_ok h).1, _, h⟩

theorem Books.powerup (B : Books s time) (ht : time ≤ env.now) (hf : ∀ e ∈ events, e.fits = true)
    (h : s.powerup pricing core env payer receiver days netFrac cpuFrac maxPayment = .ok (s', events)) :
    Grown s s' env.now := by
  obtain ⟨state, p, net, cpu, fee, s1, hst, hfr, hpr, hsell, hpl, rfl, rfl⟩ := powerup_ok h
  obtain ⟨o, s2, s3, hown, hn, hcp, hrec, hres, hp, -⟩ := placeOrder_ok hpl
  obtain ⟨hfa, C, hsub, hsl, hm⟩ := B.processed hst ht hpr
  have hu : ∀ kind, 0 ≤ (p.state.resource kind).utilization ∧
      (p.state.resource kind).utilization ≤ (p.state.resource kind).weight := fun kind => by
    obtain ⟨-, heq, hut, hg, -⟩ := hm kind
    have hwi := B.within kind
    rw [capacity_some hst, utilization_some hst] at hwi
    refine ⟨?_, by omega⟩
    rw [heq]
    exact total_nonneg fun id o ho => B.orders kind id o (hsub id o ho)
  have hpi : ∀ kind : Bandwidth, kind.pick net.2.1 cpu.2.1 = o.weight kind := fun kind => by
    cases kind
    · exact hn.symm
    · exact hcp.symm
  -- for both kinds: the amount of the order, and the resource after the sale
  have hs : ∀ kind, 0 ≤ o.weight kind ∧ o.weight kind ≤ (p.state.resource kind).weight ∧
      (p.state.resource kind).utilization + o.weight kind ≤ (p.state.resource kind).weight ∧
      PowerupState.resource kind { p.state with net := net.1, cpu := cpu.1 } =
        { p.state.resource kind with utilization := (p.state.resource kind).utilization + o.weight kind } := fun kind => by
    rw [← hpi]
    obtain ⟨hlow, hh, he⟩ := sell_ok (hm kind).1.weight_range (hu kind) (hfr kind) (hsell kind)
    cases kind with
    | net =>
      obtain ⟨hle, heq⟩ := he (of_decide_eq_true (hf _ (mem_cons_self ..)))
      exact ⟨hlow, hh, hle, heq⟩
    | cpu =>
      obtain ⟨hle, heq⟩ := he (of_decide_eq_true (hf _ (mem_cons_of_mem _ (mem_cons_self ..))))
      exact ⟨hlow, hh, hle, heq⟩
  have hC : Checked { p.tables with orders := p.tables.orders.insert p.tables.availablePrimaryKey o } := C
  obtain ⟨hf2, C2, hw2⟩ := adjustResources_ok hC (fun kind => by
    have hcap := (hm kind).1.weight_range
    have hk := hs kind
    rw [hpi]
    exact ⟨by omega, by omega⟩) hrec
  have hor : s2.orders = p.tables.orders.insert p.tables.availablePrimaryKey o := by rw [hf2]
  have hord := ordered_insert hor
  have hdel : ∀ kind q, s2.delegated kind q = s.delegated kind q := fun kind q => by rw [hf2, hfa]; rfl
  have hd : ∀ kind : Bandwidth, kind.pick (toInt64 (p.netDelta - net.2.1)) (toInt64 (p.cpuDelta - cpu.2.1)) =
      kind.pick p.netDelta p.cpuDelta - o.weight kind := fun kind => by
    obtain ⟨S, heq, hut, hg, hd⟩ := hm kind
    have hk := hs kind
    have hcap := S.weight_range
    have hra := hu kind
    have hwi := B.within kind
    rw [capacity_some hst, utilization_some hst] at hwi
    rw [← hpi] at hk ⊢
    cases kind <;> exact toInt64_eq (by simp only [Bandwidth.pick] at *; omega) (by simp only [Bandwidth.pick] at *; omega)
  have hb : Books { s3 with powerupState := some { p.state with net := net.1, cpu := cpu.1 } } env.now := by
    refine Books.adjusted C2 (fun kind => ?_) (fun kind id o' ho' => ?_) (fun kind => ?_) (fun kind => ?_) (fun kind => ?_)
      (fun kind => ?_) hres
    · cases kind <;> exact toInt64_range _
    · rw [hor] at ho'
      rcases lookup_insert_some ho' with ⟨-, rfl⟩ | ⟨-, ho'⟩
      · exact (hs kind).1
      · exact B.orders kind id o' (hsub id o' ho')
    · rw [(hs kind).2.2.2]
      exact (hm kind).1.congr _ _ _
    · rw [(hs kind).2.2.2, hord kind anyone, ← (hm kind).2.1]
      rfl
    · rw [(hs kind).2.2.2]
      exact (hs kind).2.2.1
    · have hold := B.reserve kind
      have hfr := (hm kind).2.2.2.2
      have hsl := hsl kind reserveAccount
      have hnew := hw2 kind reserveAccount
      rw [capacity_some hst, utilization_some hst] at hold
      rw [(hs kind).2.2.2, hd, hord, hdel, hnew, hpi, hown]
      have hw : Staking.weight { p.tables with orders := p.tables.orders.insert p.tables.availablePrimaryKey o } kind
        reserveAccount = p.tables.weight kind reserveAccount := rfl
      rw [hw]
      by_cases hr : reserveAccount = receiver
      · simp only [hr, BEq.rfl, if_true] at *
        omega
      · simp only [hr, Ne.symm hr, beq_iff_eq, if_false] at *
        omega
  rw [hp]
  refine ⟨And.left (hb.staked rfl rfl hb.checked fun _ => rfl), fun kind => ?_⟩
  rw [capacity_some hst, capacity_some rfl, (hs kind).2.2.2]
  exact (hm kind).2.2.2.1

theorem Books.apply (B : Books s time) (ht : time ≤ env.now) (hf : ∀ e ∈ events, e.fits = true)
    (h : s.apply pricing core env action = .ok (s', events)) :
    Books s' env.now ∧ (MarketEvent.configured ∉ events → ∀ kind, s.capacity kind ≤ s'.capacity kind) := by
  have later : Grown s s' time → Grown s s' env.now := fun G => ⟨G.1.later ht, G.2⟩
  have grown : Grown s s' env.now → Books s' env.now ∧
      (MarketEvent.configured ∉ events → ∀ kind, s.capacity kind ≤ s'.capacity kind) := fun G => ⟨G.1, fun _ => G.2⟩
  cases action with
  | delegatebw from_ receiver net cpu transfer =>
    obtain ⟨hok, rfl⟩ := silent_ok_iff.1 h
    exact grown (later (B.changebw (delegatebw_ok hok).2.2.2.2))
  | undelegatebw from_ receiver net cpu =>
    obtain ⟨hok, rfl⟩ := silent_ok_iff.1 h
    exact grown (later (B.changebw (undelegatebw_ok hok).2.2.2.2.2))
  | refund owner =>
    obtain ⟨hok, rfl⟩ := silent_ok_iff.1 h
    exact grown (later (B.refund hok))
  | cfgpowerup args =>
    obtain ⟨fresh, q, days, fee, s1, -, -, -, -, -, rfl⟩ := cfgpowerup_ok h
    exact ⟨B.cfgpowerup ht h, fun hno => absurd (mem_singleton.2 rfl) hno⟩
  | powerupexec user maxItems =>
    obtain ⟨hok, rfl⟩ := silent_ok_iff.1 h
    exact grown (B.powerupexec ht hok)
  | powerup payer receiver days net cpu maxPayment => exact grown (B.powerup ht hf h)

/-! ## Runs -/

variable (actions : List (StakeEnv × Action))

theorem foldl_step : ∀ r : Staking × List MarketEvent,
    actions.foldl (step pricing core) r = ((r.1.run pricing core actions).1, r.2 ++ (r.1.run pricing core actions).2) := by
  induction actions with
  | nil =>
    intro r
    simp [run]
  | cons a actions ih =>
    intro r
    unfold run
    rw [foldl_cons, foldl_cons, ih (step pricing core r a), ih (step pricing core (r.1, []) a)]
    unfold step
    cases r.1.apply pricing core a.1 a.2 with
    | ok r' => simp
    | error e => simp

theorem run_cons_ok {r : Staking × List MarketEvent} (h : s.apply pricing core a.1 a.2 = .ok r) :
    s.run pricing core (a :: actions) = ((r.1.run pricing core actions).1, r.2 ++ (r.1.run pricing core actions).2) := by
  have hstep : step pricing core (s, []) a = (r.1, r.2) := by
    unfold step
    rw [h]
    rfl
  rw [run, foldl_cons, hstep, foldl_step]

theorem run_cons_error {e : Fault}
    (h : s.apply pricing core a.1 a.2 = .error e) : s.run pricing core (a :: actions) = s.run pricing core actions := by
  have hstep : step pricing core (s, []) a = (s, []) := by
    unfold step
    rw [h]
  rw [run, foldl_cons, hstep]
  rfl

theorem run_append (s : Staking) (before after : List (StakeEnv × Action)) :
    s.run pricing core (before ++ after) = (((s.run pricing core before).1.run pricing core after).1,
      (s.run pricing core before).2 ++ ((s.run pricing core before).1.run pricing core after).2) := by
  unfold run
  rw [foldl_append, foldl_step]
  rfl

theorem Books.run : ∀ {actions} {s} {time later}, Books s time →
    (time :: actions.map (·.1.now) ++ [later]).Pairwise (· ≤ ·) → (∀ e ∈ (s.run pricing core actions).2, e.fits = true) →
    Books (s.run pricing core actions).1 later ∧ (MarketEvent.configured ∉ (s.run pricing core actions).2 →
      ∀ kind, s.capacity kind ≤ (s.run pricing core actions).1.capacity kind)
  | [], s, time, later, B, ht, _ => ⟨B.later (by simpa using ht), fun _ _ => le_rfl⟩
  | a :: actions, s, time, later, B, ht, hf => by
    have hn : time ≤ a.1.now := (pairwise_cons.1 ht).1 _ (by simp)
    have hr := (pairwise_cons.1 ht).2
    cases happ : s.apply pricing core a.1 a.2 with
    | error e =>
      rw [run_cons_error actions happ] at hf ⊢
      exact Books.run (B.later hn) hr hf
    | ok r =>
      rw [run_cons_ok actions happ] at hf ⊢
      obtain ⟨B1, hg1⟩ := B.apply hn (fun e he => hf e (mem_append_left _ he)) happ
      obtain ⟨B2, hg2⟩ := Books.run B1 hr fun e he => hf e (mem_append_right _ he)
      refine ⟨B2, fun hno kind => ?_⟩
      exact (hg1 (fun he => hno (mem_append_left _ he)) kind).trans (hg2 (fun he => hno (mem_append_right _ he)) kind)

def lastTime : UInt32 := UInt32.ofNat (2 ^ 32 - 1)

/-- Tables without a market: the reserve account has what is delegated to it. -/
structure Unopened (s : Staking) : Prop where
  state : s.powerupState = none
  orders : s.orders = ∅
  checked : Checked s
  reserve : ∀ kind, s.weight kind reserveAccount = s.delegated kind (·.2 == reserveAccount)

theorem Unopened.books (U : Unopened s) : Books s 0 := by
  have hord : ∀ kind p, s.ordered kind p = 0 := fun kind p => by
    unfold ordered
    rw [U.orders, total_empty]
  have hu : ∀ kind, s.utilization kind = 0 := fun kind => by
    unfold utilization
    rw [U.state]
  have hcap : ∀ kind, s.capacity kind = 0 := fun kind => by
    unfold capacity
    rw [U.state]
  refine ⟨U.checked, fun kind id o ho => ?_, fun kind => ?_, fun kind => ?_, fun kind => ?_, fun state hs => ?_⟩
  · rw [U.orders] at ho
    cases ho
  · rw [hu, hord]
  · rw [hu, hcap]
  · rw [hu, hcap, hord, U.reserve kind]
    ring
  · rw [U.state] at hs
    cases hs

/-- **The powerup market.** Over every sequence of actions at times that do not decrease, if no accepted order has a sum
beyond an `int64_t`: the utilization is the weight of the outstanding orders, not negative and within the weight; the reserve
account has what is not sold besides what is ordered for it or delegated to it; the ratio is between the target and the
initial ratio; and the weight does not decrease while nothing is configured. -/
theorem run_market (pricing : Pricing) (core : Symbol) (s : Staking) (U : Unopened s) (actions : List (StakeEnv × Action))
    (htimes : (actions.map (·.1.now)).Pairwise (· ≤ ·)) (hfits : ∀ e ∈ (s.run pricing core actions).2, e.fits = true)
    (state : PowerupState) (hstate : (s.run pricing core actions).1.powerupState = some state) (kind : Bandwidth) :
    (state.resource kind).utilization = (s.run pricing core actions).1.ordered kind anyone ∧
    0 ≤ (state.resource kind).utilization ∧ (state.resource kind).utilization ≤ (state.resource kind).weight ∧
    (s.run pricing core actions).1.weight kind reserveAccount =
      (state.resource kind).weight - (state.resource kind).utilization +
        (s.run pricing core actions).1.ordered kind (· == reserveAccount) +
        (s.run pricing core actions).1.delegated kind (·.2 == reserveAccount) ∧
    (state.resource kind).targetWeightRatio ≤ (state.resource kind).weightRatio ∧
    (state.resource kind).weightRatio ≤ (state.resource kind).initialWeightRatio ∧
    ∀ before between, actions = before ++ between →
      MarketEvent.configured ∉ ((s.run pricing core before).1.run pricing core between).2 →
      ∀ earlier, (s.run pricing core before).1.powerupState = some earlier →
        (earlier.resource kind).weight ≤ (state.resource kind).weight := by
  have hall : ∀ time : UInt32, (0 : UInt32) ≤ time ∧ time ≤ lastTime := fun time => by
    have hlt := time.toNat_lt
    constructor <;> rw [UInt32.le_iff_toNat_le]
    · exact Nat.zero_le _
    · exact Nat.le_of_lt_succ hlt
  have hend : ∀ {l : List UInt32}, l.Pairwise (· ≤ ·) → (l ++ [lastTime]).Pairwise (· ≤ ·) := fun hl =>
    pairwise_append.2 ⟨hl, pairwise_singleton .., fun time _ later hl => mem_singleton.1 hl ▸ (hall time).2⟩
  have B := (U.books.run (hend (pairwise_cons.2 ⟨fun time _ => (hall time).1, htimes⟩)) hfits).1
  have hu := B.used kind
  have hw := B.within kind
  have hres := B.reserve kind
  have hn := B.ordered_nonneg kind
  have S := B.market state hstate kind
  rw [utilization_some hstate] at hu hw hres
  rw [capacity_some hstate] at hw hres
  refine ⟨hu, by omega, hw, hres, S.ratio_ge, S.ratio_le, ?_⟩
  rintro before between rfl hno earlier hea
  rw [run_append] at hfits
  rw [map_append, pairwise_append] at htimes
  -- the books between the two parts, at the time of the next action
  have key : ∀ time : UInt32, (∀ a ∈ before, a.1.now ≤ time) →
      (time :: between.map (·.1.now)).Pairwise (· ≤ ·) → (earlier.resource kind).weight ≤ (state.resource kind).weight := by
    intro time hb hbe
    have B₁ : Books (s.run pricing core before).1 time := (U.books.run (by
      rw [cons_append, pairwise_cons, pairwise_append]
      refine ⟨fun time _ => (hall time).1, htimes.1, pairwise_singleton .., fun t ht later hl => ?_⟩
      obtain ⟨a, ha, rfl⟩ := mem_map.1 ht
      exact mem_singleton.1 hl ▸ hb a ha) (fun e he => hfits e (mem_append_left _ he))).1
    have hg := (B₁.run (hend hbe) (fun e he => hfits e (mem_append_right _ he))).2 hno kind
    rw [run_append] at hstate
    rwa [capacity_some hea, capacity_some hstate] at hg
  cases between with
  | nil => exact key lastTime (fun a _ => (hall _).2) (pairwise_singleton ..)
  | cons b between =>
    refine key b.1.now (fun a ha => ?_) (pairwise_cons.2 ⟨fun time hti => ?_, htimes.2.1⟩)
    · exact htimes.2.2 _ (mem_map_of_mem ha) _ (mem_map_of_mem (mem_cons_self ..))
    · rcases mem_cons.1 hti with rfl | hti
      · exact UInt32.le_refl _
      · exact (pairwise_cons.1 htimes.2.1).1 _ hti

/-! ## A sum beyond the range -/

def flatFee (m : PowerupStateResource) (increase : Int) : Int :=
  let end_ := toInt64 (m.utilization + increase)
  let held := if m.utilization < m.adjustedUtilization then min increase (m.adjustedUtilization - m.utilization) else 0
  let start := max m.utilization m.adjustedUtilization
  let above := if start < end_ then end_ - start else 0
  (m.maxPrice.amount * held + m.minPrice.amount * above + m.weight - 1) / m.weight

def flatPricing : Pricing := ⟨fun diff _ _ => diff, flatFee⟩

def sampleCoin : Symbol := ⟨16722, 4⟩

def sampleUser : AccountName := stringToName ['u', 's', 'e', 'r']

def sampleStakeEnv (seconds : Nat) : StakeEnv :=
  ⟨⟨fun _ => true, fun _ => true⟩, seconds * 1000000, true, fun _ => .ok (), fun _ => .ok ()⟩

def sampleTables : Staking where
  delband := ∅
  userres := ∅
  refunds := ∅
  voters := ∅
  powerupState := none
  orders := ∅
  token := Token.run (stringToName ['r', 'a', '.', 't', 'o', 'k', 'e', 'n'])
    ([.create sampleUser ⟨10 ^ 14, sampleCoin⟩, .issue sampleUser ⟨10 ^ 13, sampleCoin⟩ ""].map
      (fun a => ((sampleStakeEnv 0).toActionEnv, a)))

def sampleConfig (assumedStakeWeight : Int) : PowerupConfig :=
  let resource : PowerupConfigResource := ⟨some (10 ^ 13), some (10 ^ 13), some assumedStakeWeight, none, some (.finite 1),
    none, some ⟨1000, sampleCoin⟩, some ⟨1000, sampleCoin⟩⟩
  ⟨resource, resource, some 1, some ⟨1, sampleCoin⟩⟩

def sampleOrders : List (StakeEnv × Action) :=
  -- the first configuration writes the row of `ra.reserv`: an asset of 2^62 or more cannot be made for a new one
  [(sampleStakeEnv 1000, .cfgpowerup (sampleConfig 1000)), (sampleStakeEnv 1000, .cfgpowerup (sampleConfig (74 * 10 ^ 15))),
    (sampleStakeEnv 1000, .powerup sampleUser sampleUser 1 (4 * 10 ^ 14) 0 ⟨1000, sampleCoin⟩),
    (sampleStakeEnv 44200, .powerup sampleUser sampleUser 1 (55 * 10 ^ 13) 0 ⟨1000, sampleCoin⟩)]

theorem sampleTables_unopened : Unopened sampleTables where
  state := rfl
  orders := rfl
  checked := fun _ _ _ h => by cases h
  reserve := fun _ => rfl

def sampleOrdersEnd : List (StakeEnv × Action) :=
  sampleOrders ++ [(sampleStakeEnv 87400, .powerup sampleUser reserveAccount 1 (10 ^ 15) 0 ⟨1000, sampleCoin⟩)]

theorem run_market_sampleOrders :
    ∃ state, (sampleTables.run flatPricing sampleCoin sampleOrders).1.powerupState = some state ∧
      (state.resource .net).utilization = 95 * 99 * 74 * 10 ^ 13 ∧
      (state.resource .net).utilization ≤ (state.resource .net).weight := by
  have hs : ((sampleTables.run flatPricing sampleCoin sampleOrders).1.powerupState.map
      (fun state => (state.resource .net).utilization)) = some (95 * 99 * 74 * 10 ^ 13) := by decide +kernel
  obtain ⟨state, hst, hu⟩ := Option.map_eq_some_iff.1 hs
  exact ⟨state, hst, hu, (run_market flatPricing sampleCoin sampleTables sampleTables_unopened sampleOrders
    (by decide +kernel) (by decide +kernel) state hst .net).2.2.1⟩

/-- **The order of everything is accepted while more than half is sold, and the utilization becomes negative.** -/
theorem utilization_negative : (sampleTables.run flatPricing sampleCoin sampleOrdersEnd).1.powerupState.map
      (fun state => (state.resource .net).utilization) = some (155 * 99 * 74 * 10 ^ 13 - 2 ^ 64) ∧
    155 * 99 * 74 * 10 ^ 13 - 2 ^ 64 < (0 : Int) := by
  decide +kernel

end Staking
end TheChannel

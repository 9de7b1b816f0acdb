import TheChannel.Contract
/-!
# PowerupWeights — one resource of the powerup market

The part of `powerup.cpp` that is about one `powerup_state_resource`: `update_weight`, `update_utilization`, the sale of a
fraction and the update of the configuration. What the source computes with doubles, the decay of the adjusted utilization
and the fee, is a parameter (`Pricing`). Times are the `uint32_t` seconds of `time_point_sec`; differences of them wrap around.

From the configuration on, the ratio falls from the initial to the target ratio and the weight grows (`Shrinking`).
-/
namespace TheChannel

def powerupFrac : Int := 10 ^ 15

/-- The values of a `double` as far as the checks of a configuration see them. -/
inductive Double
  | finite (value : ℚ)
  | infinity (negative : Bool)
  | nan
  deriving DecidableEq

def Double.oneLe : Double → Bool
  | finite value => decide (1 ≤ value)
  | infinity negative => !negative
  | nan => false

structure PowerupConfigResource where
  currentWeightRatio : Option Int
  targetWeightRatio : Option Int
  assumedStakeWeight : Option Int
  targetTimestamp : Option UInt32
  exponent : Option Double
  decaySecs : Option UInt32
  minPrice : Option Asset
  maxPrice : Option Asset

def defaultAsset : Asset := ⟨0, ⟨0, 0⟩⟩

structure PowerupStateResource where
  weight : Int := 0
  weightRatio : Int := 0
  assumedStakeWeight : Int := 0
  initialWeightRatio : Int := powerupFrac
  targetWeightRatio : Int := powerupFrac / 100
  initialTimestamp : UInt32 := 0
  targetTimestamp : UInt32 := 0
  exponent : Double := .finite 2
  decaySecs : UInt32 := 86400
  minPrice : Asset := defaultAsset
  maxPrice : Asset := defaultAsset
  utilization : Int := 0
  adjustedUtilization : Int := 0
  utilizationTimestamp : UInt32 := 0

/-- What is computed with doubles: the part of a difference that is left after some seconds, and the fee of an increase. -/
structure Pricing where
  decayed : Int → UInt32 → UInt32 → Int
  fee : PowerupStateResource → Int → Int

def orDefault {α : Type} (arg : Option α) (hasDefault : Bool) (default : α) (msg : String) : Result α :=
  match arg with
  | some a => .ok a
  | none => check hasDefault msg >>= fun _ => .ok default

namespace PowerupStateResource
variable (pricing : Pricing) (core : Symbol) (now : UInt32) (m : PowerupStateResource) {m' : PowerupStateResource}
  {later time : UInt32}

def ratioAt : Int :=
  if m.targetTimestamp ≤ now then m.targetWeightRatio
  else toInt64 (m.initialWeightRatio + ((m.targetWeightRatio - m.initialWeightRatio) * (now - m.initialTimestamp).toNat).tdiv
    (m.targetTimestamp - m.initialTimestamp).toNat)

def weightOf (assumedStakeWeight ratio : Int) : Int :=
  toInt64 ((assumedStakeWeight * powerupFrac).tdiv ratio - assumedStakeWeight)

def updateWeight (deltaAvailable : Int) : PowerupStateResource × Int :=
  let newWeight := weightOf m.assumedStakeWeight (m.ratioAt now)
  ({ m with weightRatio := m.ratioAt now, weight := newWeight }, toInt64 (deltaAvailable + (newWeight - m.weight)))

def updateUtilization : PowerupStateResource :=
  if now ≤ m.utilizationTimestamp then m
  else if m.adjustedUtilization ≤ m.utilization then
    { m with adjustedUtilization := m.utilization, utilizationTimestamp := now }
  else
    let diff := m.adjustedUtilization - m.utilization
    let delta := max 0 (min diff (pricing.decayed diff (now - m.utilizationTimestamp) m.decaySecs))
    { m with adjustedUtilization := m.utilization + delta, utilizationTimestamp := now }

def free (delta : Int) : PowerupStateResource := { m with utilization := toInt64 (m.utilization - delta) }

/-- The resource at the begin of `cfgpowerup`, with the amount that becomes available. -/
def refresh (found : Bool) : PowerupStateResource × Int :=
  if found then (m.updateUtilization pricing now).updateWeight now 0 else ({ m with utilizationTimestamp := now }, 0)

def capAdjusted : PowerupStateResource := { m with adjustedUtilization := min m.adjustedUtilization m.weight }

def calcPowerupFee (utilizationIncrease : Int) : Int :=
  if utilizationIncrease ≤ 0 then 0 else pricing.fee m utilizationIncrease

/-- `process` of `powerup`: the resource, the amount and the fee. -/
def sell (frac : Int) : Result (PowerupStateResource × Int × Int) :=
  if frac = 0 then .ok (m, 0, 0)
  else
    let amount := toInt64 ((frac * m.weight).tdiv powerupFrac)
    check (decide (m.weight ≠ 0)) "market doesn't have resources available" >>= fun _ =>
    check (decide (toInt64 (m.utilization + amount) ≤ m.weight)) "market doesn't have enough resources available" >>= fun _ =>
    check (decide (0 < m.calcPowerupFee pricing amount))
      "calculated fee is below minimum; try powering up with more resources" >>= fun _ =>
    .ok ({ m with utilization := toInt64 (m.utilization + amount) }, amount, m.calcPowerupFee pricing amount)

def chooseTimestamp (args : PowerupConfigResource) (current target : Int) : Result UInt32 :=
  if current = target then .ok now
  else
    orDefault args.targetTimestamp (m.targetTimestamp != 0) m.targetTimestamp
      "target_timestamp does not have a default value" >>= fun timestamp =>
    check (decide (now < timestamp)) "target_timestamp must be in the future" >>= fun _ =>
    .ok timestamp

def configure (args : PowerupConfigResource) : Result PowerupStateResource :=
  let current := args.currentWeightRatio.getD (if m.weightRatio ≠ 0 then m.weightRatio else m.initialWeightRatio)
  let target := args.targetWeightRatio.getD m.targetWeightRatio
  orDefault args.assumedStakeWeight (decide (m.assumedStakeWeight ≠ 0)) m.assumedStakeWeight
    "assumed_stake_weight does not have a default value" >>= fun assumed =>
  m.chooseTimestamp now args current target >>= fun timestamp =>
  let exponent := args.exponent.getD m.exponent
  let decaySecs := args.decaySecs.getD m.decaySecs
  orDefault args.maxPrice (m.maxPrice != defaultAsset) m.maxPrice "max_price does not have a default value" >>= fun maxPrice =>
  let minPrice := args.minPrice.getD (if m.minPrice = defaultAsset then ⟨0, maxPrice.symbol⟩ else m.minPrice)
  check (decide (0 < current)) "current_weight_ratio is too small" >>= fun _ =>
  check (decide (current ≤ powerupFrac)) "current_weight_ratio is too large" >>= fun _ =>
  check (decide (0 < target)) "target_weight_ratio is too small" >>= fun _ =>
  check (decide (target ≤ current)) "weight can't grow over time" >>= fun _ =>
  check (decide (1 ≤ assumed)) "assumed_stake_weight must be at least 1; a much larger value is recommended" >>= fun _ =>
  check (decide ((assumed * powerupFrac).tdiv target ≤ 2 ^ 63 - 1))
    "assumed_stake_weight/target_weight_ratio is too large" >>= fun _ =>
  check exponent.oneLe "exponent must be >= 1" >>= fun _ =>
  check (decide (1 ≤ decaySecs)) "decay_secs must be >= 1" >>= fun _ =>
  check (maxPrice.symbol == core) "max_price doesn't match core symbol" >>= fun _ =>
  check (decide (0 < maxPrice.amount)) "max_price must be positive" >>= fun _ =>
  check (minPrice.symbol == core) "min_price doesn't match core symbol" >>= fun _ =>
  check (decide (0 ≤ minPrice.amount)) "min_price must be non-negative" >>= fun _ =>
  check (decide (minPrice.amount ≤ maxPrice.amount)) "min_price cannot exceed max_price" >>= fun _ =>
  check (exponent != .finite 1 || minPrice.amount == maxPrice.amount)
    "min_price and max_price must be the same if the exponent is 1" >>= fun _ =>
  .ok { m with
    assumedStakeWeight := assumed
    initialWeightRatio := current
    targetWeightRatio := target
    initialTimestamp := now
    targetTimestamp := timestamp
    exponent := exponent
    decaySecs := decaySecs
    minPrice := minPrice
    maxPrice := maxPrice }

/-! ## The ratio falls -/

/-- The configuration of a resource, as the checks of `cfgpowerup` leave it. -/
structure Configured : Prop where
  target_pos : 0 < m.targetWeightRatio
  target_le : m.targetWeightRatio ≤ m.initialWeightRatio
  initial_le : m.initialWeightRatio ≤ powerupFrac
  assumed : 1 ≤ m.assumedStakeWeight
  fits : m.assumedStakeWeight * powerupFrac / m.targetWeightRatio ≤ 2 ^ 63 - 1

variable {pricing core now m}

theorem part_bounds {d : Int} {k n : Nat} (hd : 0 ≤ d) (hk : k ≤ n) : 0 ≤ d * k / n ∧ d * k / n ≤ d := by
  constructor
  · positivity
  · have hle : d * k ≤ d * n := Int.mul_le_mul_of_nonneg_left (by exact_mod_cast hk) hd
    by_cases hn : n = 0
    · subst hn
      simpa using hd
    · exact Int.ediv_le_of_le_mul (by omega) hle

theorem ratioAt_of_lt (C : m.Configured) (hs : m.initialTimestamp ≤ now) (hno : now < m.targetTimestamp) :
    m.ratioAt now = m.initialWeightRatio - (m.initialWeightRatio - m.targetWeightRatio) *
      (now.toNat - m.initialTimestamp.toNat : Nat) / (m.targetTimestamp.toNat - m.initialTimestamp.toNat : Nat) := by
  have hf : m.initialWeightRatio ≤ 10 ^ 15 := C.initial_le
  obtain ⟨ht, hle⟩ := And.intro C.target_pos C.target_le
  rw [UInt32.le_iff_toNat_le] at hs
  have hlt := UInt32.lt_iff_toNat_lt.1 hno
  obtain ⟨hlow, hh⟩ := part_bounds (k := now.toNat - m.initialTimestamp.toNat)
    (n := m.targetTimestamp.toNat - m.initialTimestamp.toNat) (Int.sub_nonneg_of_le C.target_le) (by omega)
  have hneg : m.targetWeightRatio - m.initialWeightRatio = -(m.initialWeightRatio - m.targetWeightRatio) := by omega
  have hn : 0 ≤ (m.initialWeightRatio - m.targetWeightRatio) * (now.toNat - m.initialTimestamp.toNat : Nat) :=
    Int.mul_nonneg (by omega) (by omega)
  unfold ratioAt
  rw [if_neg (UInt32.not_le.2 hno), UInt32.toNat_sub_of_le _ _ (UInt32.le_iff_toNat_le.2 hs),
    UInt32.toNat_sub_of_le _ _ (UInt32.le_iff_toNat_le.2 (by omega)), hneg, Int.neg_mul, Int.neg_tdiv,
    Int.tdiv_eq_ediv_of_nonneg hn, ← Int.sub_eq_add_neg, toInt64_eq (by omega) (by omega)]

theorem ratioAt_bounds (C : m.Configured) (hs : m.initialTimestamp ≤ now) :
    m.targetWeightRatio ≤ m.ratioAt now ∧ m.ratioAt now ≤ m.initialWeightRatio := by
  by_cases hn : m.targetTimestamp ≤ now
  · unfold ratioAt
    rw [if_pos hn]
    exact ⟨le_rfl, C.target_le⟩
  · rw [UInt32.not_le] at hn
    rw [ratioAt_of_lt C hs hn]
    have hlt := UInt32.lt_iff_toNat_lt.1 hn
    obtain ⟨hlow, hh⟩ := part_bounds (k := now.toNat - m.initialTimestamp.toNat)
      (n := m.targetTimestamp.toNat - m.initialTimestamp.toNat) (Int.sub_nonneg_of_le C.target_le) (by omega)
    omega

theorem ratioAt_antitone (C : m.Configured) (hs : m.initialTimestamp ≤ now) (hl : now ≤ later) :
    m.ratioAt later ≤ m.ratioAt now := by
  have hs' : m.initialTimestamp ≤ later := UInt32.le_trans hs hl
  by_cases hend : m.targetTimestamp ≤ later
  · have hb := (ratioAt_bounds C hs).1
    unfold ratioAt at hb ⊢
    rwa [if_pos hend]
  · rw [UInt32.not_le] at hend
    rw [ratioAt_of_lt C hs' hend, ratioAt_of_lt C hs (UInt32.lt_of_le_of_lt hl hend)]
    rw [UInt32.le_iff_toNat_le] at hl
    have hm : (m.initialWeightRatio - m.targetWeightRatio) * (now.toNat - m.initialTimestamp.toNat : Nat) ≤
        (m.initialWeightRatio - m.targetWeightRatio) * (later.toNat - m.initialTimestamp.toNat : Nat) :=
      Int.mul_le_mul_of_nonneg_left (by omega) (Int.sub_nonneg_of_le C.target_le)
    have hdiv := Int.ediv_le_ediv (c := (m.targetTimestamp.toNat - m.initialTimestamp.toNat : Nat))
      (by rw [UInt32.lt_iff_toNat_lt] at hend; rw [UInt32.le_iff_toNat_le] at hs'; omega) hm
    omega

/-! ## The weight grows -/

theorem ediv_anti {x ratio ratio' : Int} (hx : 0 ≤ x) (hpos : 0 < ratio') (hle : ratio' ≤ ratio) : x / ratio ≤ x / ratio' := by
  apply Int.le_ediv_of_mul_le hpos
  calc x / ratio * ratio' ≤ x / ratio * ratio := Int.mul_le_mul_of_nonneg_left hle (Int.ediv_nonneg hx (by omega))
    _ ≤ x := Int.ediv_mul_le x (by omega)

theorem weightOf_eq (C : m.Configured) {ratio : Int} (hlow : m.targetWeightRatio ≤ ratio) (hh : ratio ≤ powerupFrac) :
    weightOf m.assumedStakeWeight ratio = m.assumedStakeWeight * powerupFrac / ratio - m.assumedStakeWeight ∧
      m.assumedStakeWeight ≤ m.assumedStakeWeight * powerupFrac / ratio ∧
      m.assumedStakeWeight * powerupFrac / ratio ≤ 2 ^ 63 - 1 := by
  obtain ⟨has, ht⟩ := And.intro C.assumed C.target_pos
  have hfr : 0 ≤ m.assumedStakeWeight * powerupFrac := Int.mul_nonneg (by omega) (by decide)
  have hge : m.assumedStakeWeight ≤ m.assumedStakeWeight * powerupFrac / ratio :=
    Int.le_ediv_of_mul_le (by omega) (Int.mul_le_mul_of_nonneg_left hh (by omega))
  have hle : m.assumedStakeWeight * powerupFrac / ratio ≤ m.assumedStakeWeight * powerupFrac / m.targetWeightRatio :=
    ediv_anti hfr ht hlow
  have hf := C.fits
  refine ⟨?_, hge, by omega⟩
  unfold weightOf
  rw [Int.tdiv_eq_ediv_of_nonneg hfr, toInt64_eq (by omega) (by omega)]

/-- A resource between two configurations, when no later time is before `time`. -/
structure Shrinking (m : PowerupStateResource) (time : UInt32) : Prop extends Configured m where
  started : m.initialTimestamp ≤ time
  ratio_ge : m.targetWeightRatio ≤ m.weightRatio
  ratio_le : m.weightRatio ≤ m.initialWeightRatio
  weight_eq : m.weight = weightOf m.assumedStakeWeight m.weightRatio
  falling : ∀ later, time ≤ later → m.ratioAt later ≤ m.weightRatio

theorem Shrinking.weight_range (S : Shrinking m time) : 0 ≤ m.weight ∧ m.weight < 2 ^ 63 := by
  obtain ⟨heq, hge, hle⟩ := weightOf_eq S.toConfigured S.ratio_ge (S.ratio_le.trans S.initial_le)
  have has := S.assumed
  rw [S.weight_eq, heq]
  omega

theorem Configured.updateWeight (C : m.Configured) (hs : m.initialTimestamp ≤ now) (delta : Int) :
    Shrinking (m.updateWeight now delta).1 now where
  toConfigured := ⟨C.target_pos, C.target_le, C.initial_le, C.assumed, C.fits⟩
  started := hs
  ratio_ge := (ratioAt_bounds C hs).1
  ratio_le := (ratioAt_bounds C hs).2
  weight_eq := rfl
  falling := by
    intro later hl
    show m.ratioAt later ≤ m.ratioAt now
    exact ratioAt_antitone C hs hl

theorem Shrinking.weight_le (S : Shrinking m time) (ht : time ≤ now) (delta : Int) :
    m.weight ≤ (m.updateWeight now delta).1.weight := by
  have hs := UInt32.le_trans S.started ht
  have hf := S.falling now ht
  obtain ⟨hlow, hh⟩ := ratioAt_bounds S.toConfigured hs
  obtain ⟨heq, -, -⟩ := weightOf_eq S.toConfigured S.ratio_ge (S.ratio_le.trans S.initial_le)
  obtain ⟨heq', -, -⟩ := weightOf_eq S.toConfigured hlow (hh.trans S.initial_le)
  have hpos := S.target_pos
  have has := S.assumed
  have hfr : 0 ≤ m.assumedStakeWeight * powerupFrac := Int.mul_nonneg (by omega) (by decide)
  have hdiv : m.assumedStakeWeight * powerupFrac / m.weightRatio ≤ m.assumedStakeWeight * powerupFrac / m.ratioAt now :=
    ediv_anti hfr (by omega) hf
  have hnew : (m.updateWeight now delta).1.weight = weightOf m.assumedStakeWeight (m.ratioAt now) := rfl
  rw [S.weight_eq, hnew, heq, heq']
  omega

theorem Shrinking.updateWeight {time : UInt32} (S : Shrinking m time) (ht : time ≤ now) (delta : Int) :
    Shrinking (m.updateWeight now delta).1 now :=
  S.toConfigured.updateWeight (UInt32.le_trans S.started ht) delta

theorem Shrinking.congr (S : Shrinking m time) (utilization adjusted : Int) (timestamp : UInt32) :
    Shrinking { m with utilization := utilization, adjustedUtilization := adjusted, utilizationTimestamp := timestamp } time where
  toConfigured := ⟨S.target_pos, S.target_le, S.initial_le, S.assumed, S.fits⟩
  started := S.started
  ratio_ge := S.ratio_ge
  ratio_le := S.ratio_le
  weight_eq := S.weight_eq
  falling := S.falling

theorem updateUtilization_eq (pricing : Pricing) (now : UInt32) (m : PowerupStateResource) :
    ∃ adjusted timestamp, m.updateUtilization pricing now =
      { m with adjustedUtilization := adjusted, utilizationTimestamp := timestamp } := by
  unfold updateUtilization
  by_cases hn : now ≤ m.utilizationTimestamp
  · exact ⟨_, _, if_pos hn⟩
  · rw [if_neg hn]
    by_cases had : m.adjustedUtilization ≤ m.utilization
    · exact ⟨_, _, if_pos had⟩
    · exact ⟨_, _, if_neg had⟩

theorem configure_ok {args : PowerupConfigResource} (h : m.configure core now args = .ok m') :
    m'.Configured ∧ m'.initialTimestamp = now ∧ m'.weight = m.weight ∧ m'.utilization = m.utilization := by
  obtain ⟨assumed, -, h⟩ := bind_ok h
  obtain ⟨timestamp, -, h⟩ := bind_ok h
  obtain ⟨maxPrice, -, h⟩ := bind_ok h
  simp only [check_bind_ok_iff, decide_eq_true_eq] at h
  obtain ⟨-, hfr, hpos, hle, has, hf, -, -, -, -, -, -, -, -, h⟩ := h
  cases h
  rw [Int.tdiv_eq_ediv_of_nonneg (Int.mul_nonneg (by omega) (by decide))] at hf
  exact ⟨⟨hpos, hle, hfr, has, hf⟩, rfl, rfl, rfl⟩

end PowerupStateResource
end TheChannel

import Mathlib.Logic.Function.Basic
import TheChannel.Fault
/-!
# ResourceUsage — what accounts have used and can still use

`resource_limits.cpp`: the usage of an account is a moving average over a window of slots, kept with
`rate_limiting_precision`. Net and cpu are handled alike: `Resource` is what the configuration and the state hold of one
of them. No account is greylisted while a block is applied, so the virtual limit is the elastic one.
-/
namespace TheChannel
open List

def ratePrecision : Nat := 1000 * 1000

def maxUint64 : Nat := 2 ^ 64 - 1

def maxInt64 : Nat := 2 ^ 63 - 1

def divideCeil (num den : Nat) : Nat := num / den + (if num % den > 0 then 1 else 0)

theorem divideCeil_le (num den : Nat) : divideCeil num den ≤ num := by
  unfold divideCeil
  rcases Nat.eq_zero_or_pos den with rfl | hd
  · rw [Nat.div_zero, Nat.mod_zero]
    split <;> omega
  · have hdm := Nat.div_add_mod num den
    have hle : num / den ≤ den * (num / den) := Nat.le_mul_of_pos_left _ hd
    split <;> omega

theorem divideCeil_mono {a b : Nat} (h : a ≤ b) (den : Nat) : divideCeil a den ≤ divideCeil b den := by
  unfold divideCeil
  rcases Nat.eq_zero_or_pos den with rfl | hd
  · rw [Nat.div_zero, Nat.div_zero, Nat.mod_zero, Nat.mod_zero]
    split <;> split <;> omega
  · have ha := Nat.div_add_mod a den
    have hb := Nat.div_add_mod b den
    have hbl := Nat.mod_lt b hd
    have hdiv : a / den ≤ b / den := Nat.div_le_div_right h
    rcases Nat.lt_or_eq_of_le hdiv with hlt | heq
    · split <;> split <;> omega
    · rw [heq] at ha
      rw [heq]
      split <;> split <;> omega

variable {n d : Nat} {f : Nat → AccountUsage → Result AccountUsage}

theorem divideCeil_le_of_le_mul {m : Nat} (hd : 0 < d) (h : n ≤ d * m) : divideCeil n d ≤ m := by
  refine Nat.le_trans (divideCeil_mono h d) ?_
  unfold divideCeil
  rw [Nat.mul_div_cancel_left m hd, Nat.mul_mod_right]
  exact Nat.le_refl _

theorem le_mul_divideCeil (hd : 0 < d) : n ≤ d * divideCeil n d := by
  unfold divideCeil
  have hdm := Nat.div_add_mod n d
  have hlt := Nat.mod_lt n hd
  split
  · rw [Nat.mul_add]
    omega
  · rw [Nat.mul_add]
    omega

/-! ## The moving average -/

/-- `exponential_moving_average_accumulator`. The average never is above what was consumed. -/
structure UsageAccumulator where
  lastOrdinal : Nat
  valueEx : Nat
  consumed : Nat
  covered : valueEx ≤ ratePrecision * consumed

namespace UsageAccumulator
variable (a : UsageAccumulator) {units ordinal windowSize : Nat}

def zero : UsageAccumulator := ⟨0, 0, 0, Nat.zero_le _⟩

/-- `value_ex * decay`, or zero after a whole window. -/
def decayedValue (ordinal windowSize : Nat) : Result Nat :=
  if ordinal < a.lastOrdinal + windowSize then
    eosAssert (windowSize - (ordinal - a.lastOrdinal) == 0 ||
        decide (a.valueEx ≤ maxUint64 / (windowSize - (ordinal - a.lastOrdinal)))) .rateLimitingStateInconsistent
      "Usage exceeds maximum value representable after extending for precision" >>= fun _ =>
    .ok (a.valueEx * (windowSize - (ordinal - a.lastOrdinal)) / windowSize)
  else .ok 0

def average (ordinal valueEx : Nat) : UsageAccumulator :=
  ⟨ordinal, valueEx, divideCeil valueEx ratePrecision, le_mul_divideCeil (by decide)⟩

def settle (ordinal windowSize : Nat) : Result UsageAccumulator :=
  if a.lastOrdinal = ordinal then .ok a
  else
    eosAssert (a.lastOrdinal < ordinal) .resourceLimit "new ordinal cannot be less than the previous ordinal" >>= fun _ =>
    a.decayedValue ordinal windowSize >>= fun valueEx =>
    .ok (average ordinal valueEx)

def contribution (units windowSize : Nat) : Nat := divideCeil (units * ratePrecision) windowSize

def bump (units windowSize : Nat) : UsageAccumulator :=
  ⟨a.lastOrdinal, a.valueEx + contribution units windowSize, a.consumed + units, by
    have hcov := a.covered
    have hle : contribution units windowSize ≤ units * ratePrecision := divideCeil_le ..
    rw [Nat.mul_add, Nat.mul_comm ratePrecision units]
    omega⟩

def checkAdd (units windowSize : Nat) : Result Unit :=
  eosAssert (units ≤ maxUint64 / ratePrecision) .rateLimitingStateInconsistent
    "Usage exceeds maximum value representable after extending for precision" >>= fun _ =>
  eosAssert (units ≤ maxUint64 - a.consumed) .rateLimitingStateInconsistent
    "Overflow in tracked usage when adding usage!" >>= fun _ =>
  eosAssert (contribution units windowSize ≤ maxUint64) .rateLimitingStateInconsistent
    "Casting a higher bit integer value ${v} to a lower bit integer value which cannot contain the value, valid range is [${min}, ${max}]" >>= fun _ =>
  eosAssert (contribution units windowSize ≤ maxUint64 - a.valueEx) .rateLimitingStateInconsistent
    "Overflow in accumulated value when adding usage!"

def add (units ordinal windowSize : Nat) : Result UsageAccumulator :=
  a.checkAdd units windowSize >>= fun _ =>
  a.settle ordinal windowSize >>= fun d =>
  .ok (d.bump units windowSize)

variable {a} {d r : UsageAccumulator}

theorem checkAdd_ok_iff : a.checkAdd units windowSize = .ok () ↔
    units ≤ maxUint64 / ratePrecision ∧ units ≤ maxUint64 - a.consumed ∧ contribution units windowSize ≤ maxUint64 ∧
      contribution units windowSize ≤ maxUint64 - a.valueEx := by
  unfold checkAdd
  rw [unit_bind_ok_iff, unit_bind_ok_iff, unit_bind_ok_iff, eosAssert_ok_iff, eosAssert_ok_iff, eosAssert_ok_iff,
    eosAssert_ok_iff]
  simp only [decide_eq_true_eq]

theorem contribution_zero (windowSize : Nat) : contribution 0 windowSize = 0 := by
  unfold contribution divideCeil
  simp

theorem add_zero : a.add 0 ordinal windowSize = a.settle ordinal windowSize := by
  have hch : a.checkAdd 0 windowSize = .ok () := by
    rw [checkAdd_ok_iff, contribution_zero]
    exact ⟨Nat.zero_le _, Nat.zero_le _, Nat.zero_le _, Nat.zero_le _⟩
  unfold add
  rw [hch, ok_bind]
  cases a.settle ordinal windowSize with
  | error e => rfl
  | ok d => exact congrArg Except.ok (by unfold bump; cases d; simp [contribution_zero])

theorem settle_le (h : a.settle ordinal windowSize = .ok d) :
    d.lastOrdinal = ordinal ∧ d.valueEx ≤ a.valueEx ∧ d.consumed ≤ a.consumed := by
  unfold settle at h
  split at h
  · cases h
    exact ⟨by assumption, Nat.le_refl _, Nat.le_refl _⟩
  · replace h := rest_ok h
    obtain ⟨v, hv, h⟩ := bind_ok h
    cases h
    have hle : v ≤ a.valueEx := by
      unfold decayedValue at hv
      split at hv
      · replace hv := rest_ok hv
        cases hv
        refine Nat.div_le_of_le_mul ?_
        rw [Nat.mul_comm windowSize]
        exact Nat.mul_le_mul_left _ (Nat.sub_le ..)
      · cases hv
        exact Nat.zero_le _
    exact ⟨rfl, hle, divideCeil_le_of_le_mul (by decide) (Nat.le_trans hle a.covered)⟩

theorem settle_self (h : a.lastOrdinal = ordinal) : a.settle ordinal windowSize = .ok a := if_pos h

theorem add_settled (hd : a.settle ordinal windowSize = .ok d) (hr : a.add units ordinal windowSize = .ok r) :
    d.add units ordinal windowSize = .ok r := by
  obtain ⟨hch, hr⟩ := unit_ok hr
  rw [hd, ok_bind] at hr
  obtain ⟨hord, hval, hco⟩ := settle_le hd
  obtain ⟨h1, h2, h3, h4⟩ := checkAdd_ok_iff.1 hch
  unfold add
  rw [checkAdd_ok_iff.2 ⟨h1, by omega, h3, by omega⟩, ok_bind, settle_self hord, ok_bind]
  exact hr

theorem failsOnly_add {P : Fault → Prop} (hr : ∀ msg, P (.thrown .rateLimitingStateInconsistent msg))
    (hl : ∀ msg, P (.thrown .resourceLimit msg)) : FailsOnly P (a.add units ordinal windowSize) := by
  have hch : FailsOnly P (a.checkAdd units windowSize) :=
    (failsOnly_eosAssert (hr _) _).bind fun _ _ => (failsOnly_eosAssert (hr _) _).bind fun _ _ =>
      (failsOnly_eosAssert (hr _) _).bind fun _ _ => failsOnly_eosAssert (hr _) _
  have hset : FailsOnly P (a.settle ordinal windowSize) := by
    unfold settle decayedValue
    split
    · exact failsOnly_ok a
    · refine (failsOnly_eosAssert (hl _) _).bind fun _ _ => FailsOnly.bind ?_ fun _ _ => failsOnly_ok _
      split
      · exact (failsOnly_eosAssert (hr _) _).bind fun _ _ => failsOnly_ok _
      · exact failsOnly_ok _
  exact hch.bind fun _ _ => hset.bind fun _ _ => failsOnly_ok _

theorem add_valueEx_le (h : a.add units ordinal windowSize = .ok r) :
    r.valueEx ≤ a.valueEx + contribution units windowSize := by
  replace h := rest_ok h
  obtain ⟨d, hd, h⟩ := bind_ok h
  cases h
  exact Nat.add_le_add_right (settle_le hd).2.1 _

theorem contribution_mul_le (units windowSize : Nat) :
    contribution units windowSize * windowSize ≤ units * ratePrecision + (windowSize - 1) := by
  unfold contribution divideCeil
  have hdm := Nat.div_add_mod (units * ratePrecision) windowSize
  rw [Nat.add_mul, Nat.mul_comm (_ / _)]
  split
  · omega
  · omega

end UsageAccumulator

/-! ## What an account can still use -/

structure Resource where
  window : Nat -- `account_*_usage_average_window`
  max : Nat -- `*_limit_parameters.max`
  virtualLimit : Nat
  totalWeight : Nat
  pendingUsage : Nat
  deriving DecidableEq

def downgradeCast (v : Nat) : Result Int :=
  eosAssert (v ≤ maxInt64) .rateLimitingStateInconsistent
    "Casting a higher bit integer value ${v} to a lower bit integer value which cannot contain the value, valid range is [${min}, ${max}]" >>= fun _ =>
  .ok (v : Int)

namespace Resource
variable (r : Resource) {i weight : Int} {u u' : UsageAccumulator}

def blockLimit : Nat := (r.max + 2 ^ 64 - r.pendingUsage) % 2 ^ 64

def maxUserUse (weight : Int) : Nat :=
  r.window * r.virtualLimit % 2 ^ 128 * weight.toNat % 2 ^ 128 / r.totalWeight

/-- `available` of `get_account_net_limit_ex` and `get_account_cpu_limit_ex`; -1 is no limit. -/
def accountLimit (weight : Int) (usage : UsageAccumulator) : Result Int :=
  if weight < 0 || r.totalWeight == 0 then .ok (-1)
  else
    downgradeCast (r.maxUserUse weight - divideCeil (usage.valueEx * r.window) ratePrecision) >>= fun available =>
    downgradeCast (divideCeil (usage.valueEx * r.window) ratePrecision) >>= fun _ =>
    downgradeCast (r.maxUserUse weight) >>= fun _ =>
    .ok available

def checkUsage (weight : Int) (usage : UsageAccumulator) (exc : Exc) (msg : String) : Result Unit :=
  if 0 ≤ weight && 0 < r.totalWeight then
    eosAssert (usage.valueEx * r.window / ratePrecision ≤ r.maxUserUse weight) exc msg
  else .ok ()

variable {r}

theorem downgradeCast_ok_iff {v : Nat} : downgradeCast v = .ok i ↔ v ≤ maxInt64 ∧ i = v := by
  unfold downgradeCast
  rw [unit_bind_ok_iff, eosAssert_ok_iff, decide_eq_true_eq]
  exact and_congr_right fun _ => ⟨fun h => by cases h; rfl, fun h => by rw [h]⟩

theorem accountLimit_mono (hle : u'.valueEx ≤ u.valueEx)
    (h : r.accountLimit weight u = .ok i) : ∃ i', r.accountLimit weight u' = .ok i' ∧ i ≤ i' ∧ (i < 0 ↔ i' < 0) := by
  unfold accountLimit at h ⊢
  split at h
  · rename_i hw
    cases h
    exact ⟨-1, if_pos hw, Int.le_refl _, Iff.rfl⟩
  · rename_i hw
    obtain ⟨x, hx, h⟩ := bind_ok h
    obtain ⟨y, hy, h⟩ := bind_ok h
    obtain ⟨z, hz, h⟩ := bind_ok h
    cases h
    obtain ⟨-, rfl⟩ := downgradeCast_ok_iff.1 hx
    obtain ⟨hy, -⟩ := downgradeCast_ok_iff.1 hy
    obtain ⟨hz, -⟩ := downgradeCast_ok_iff.1 hz
    have hu : divideCeil (u'.valueEx * r.window) ratePrecision ≤ divideCeil (u.valueEx * r.window) ratePrecision :=
      divideCeil_mono (Nat.mul_le_mul_right _ hle) _
    rw [if_neg hw, downgradeCast_ok_iff.2 ⟨by omega, rfl⟩, ok_bind, downgradeCast_ok_iff.2 ⟨by omega, rfl⟩, ok_bind,
      downgradeCast_ok_iff.2 ⟨hz, rfl⟩, ok_bind]
    refine ⟨_, rfl, by omega, by omega⟩

/-- **The account has a limit and at least `x` is reported as available.** Nothing is available also when the usage is
above the limit, where not even 0 can be charged. -/
def Reports (r : Resource) (weight : Int) (usage : UsageAccumulator) (x : Nat) : Prop :=
  ∃ available, r.accountLimit weight usage = .ok available ∧ 0 ≤ available ∧ (x : Int) ≤ available ∧
    (0 < x ∨ divideCeil (usage.valueEx * r.window) ratePrecision ≤ r.maxUserUse weight)

/-- **What is reported as available can be charged.** The report rounds the usage up and the charge rounds it down, which
pays for the rounding of the contribution as long as the window is not above the precision. -/
theorem checkUsage_of_reports {x slot : Nat} (hwin : r.window ≤ ratePrecision)
    (hr : r.Reports weight u x) (hadd : u.add x slot r.window = .ok u') (exc : Exc) (msg : String) :
    r.checkUsage weight u' exc msg = .ok () := by
  obtain ⟨available, hl, hpos, hle, hx⟩ := hr
  unfold accountLimit at hl
  split at hl
  · cases hl
    omega
  · obtain ⟨i, hi, hl⟩ := bind_ok hl
    iterate 2 obtain ⟨-, -, hl⟩ := bind_ok hl
    cases hl
    obtain ⟨-, rfl⟩ := downgradeCast_ok_iff.1 hi
    unfold checkUsage
    split
    · rw [eosAssert_ok_iff, decide_eq_true_eq]
      have hu : u'.valueEx * r.window ≤
          ratePrecision * (divideCeil (u.valueEx * r.window) ratePrecision + x) + (r.window - 1) := calc
        _ ≤ (u.valueEx + UsageAccumulator.contribution x r.window) * r.window :=
          Nat.mul_le_mul_right _ (UsageAccumulator.add_valueEx_le hadd)
        _ ≤ u.valueEx * r.window + (x * ratePrecision + (r.window - 1)) := by
          rw [Nat.add_mul]
          exact Nat.add_le_add_left (UsageAccumulator.contribution_mul_le ..) _
        _ ≤ _ := by
          have := le_mul_divideCeil (n := u.valueEx * r.window) (show 0 < ratePrecision by decide)
          rw [Nat.mul_add, Nat.mul_comm x]
          omega
      have hdiv : u'.valueEx * r.window / ratePrecision ≤ divideCeil (u.valueEx * r.window) ratePrecision + x := by
        refine Nat.lt_succ_iff.1 (Nat.div_lt_of_lt_mul (Nat.lt_of_le_of_lt hu ?_))
        have hp : 0 < ratePrecision := by decide
        rw [Nat.mul_succ]
        omega
      omega
    · rfl

end Resource

/-! ## The usage of accounts -/

structure AccountUsage where
  net : UsageAccumulator
  cpu : UsageAccumulator

/-- The `resource_usage_object` of each account; an account without one is as one that has used nothing. -/
abbrev Usages := Nat → AccountUsage

def updateEach (f : Nat → AccountUsage → Result AccountUsage) : List Nat → Usages → Result Usages
  | [], u => .ok u
  | a :: as, u => f a (u a) >>= fun x => updateEach f as (Function.update u a x)

theorem updateEach_ok_iff : ∀ {as} {u u'}, as.Nodup →
    (updateEach f as u = .ok u' ↔ (∀ a ∈ as, f a (u a) = .ok (u' a)) ∧ ∀ a, a ∉ as → u' a = u a)
  | [], u, u', _ => by
    unfold updateEach
    refine ⟨fun h => ?_, fun ⟨_, h⟩ => by rw [funext (fun a => h a not_mem_nil)]⟩
    cases h
    exact ⟨fun a ha => absurd ha not_mem_nil, fun _ _ => rfl⟩
  | a :: as, u, u', hn => by
    obtain ⟨hnot, hn⟩ := nodup_cons.1 hn
    unfold updateEach
    rw [bind_ok_iff]
    constructor
    · rintro ⟨x, hx, h⟩
      obtain ⟨h1, h2⟩ := (updateEach_ok_iff hn).1 h
      have ha : u' a = x := (h2 a hnot).trans (Function.update_self ..)
      refine ⟨fun b hb => ?_, fun b hb => ?_⟩
      · rcases mem_cons.1 hb with rfl | hb
        · rw [hx, ha]
        · have := h1 b hb
          rwa [Function.update_of_ne (fun heq : b = a => hnot (heq ▸ hb))] at this
      · obtain ⟨hne, hb⟩ := not_or.1 (fun hor => hb (mem_cons.2 hor))
        rw [h2 b hb, Function.update_of_ne hne]
    · rintro ⟨h1, h2⟩
      refine ⟨u' a, h1 a (mem_cons_self ..), (updateEach_ok_iff hn).2 ⟨fun b hb => ?_, fun b hb => ?_⟩⟩
      · rw [Function.update_of_ne (fun heq : b = a => hnot (heq ▸ hb))]
        exact h1 b (mem_cons_of_mem _ hb)
      · by_cases hba : b = a
        · rw [hba, Function.update_self]
        · rw [Function.update_of_ne hba]
          exact h2 b fun hmem => (mem_cons.1 hmem).elim hba hb

theorem failsOnly_updateEach {P : Fault → Prop} : ∀ {as} {u},
    as.Nodup → (∀ a ∈ as, FailsOnly P (f a (u a))) → FailsOnly P (updateEach f as u)
  | [], u, _, _ => failsOnly_ok u
  | a :: as, u, hn, h => by
    obtain ⟨hnot, hn⟩ := nodup_cons.1 hn
    refine (h a mem_cons_self).bind fun x _ => failsOnly_updateEach hn fun b hb => ?_
    rw [Function.update_of_ne (fun heq : b = a => hnot (heq ▸ hb))]
    exact h b (mem_cons_of_mem _ hb)

end TheChannel

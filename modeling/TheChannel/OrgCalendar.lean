import TheChannel.OrgBackpay
/-!
# OrgCalendar — the end of a period

`period_end_unix` counts the days of the civil calendar and cuts the seconds to a `uint32_t`, while `check_period` accepts years
up to 3000. It is the first second after the month exactly up to January 2106 (`period_ends`); the next month ends in 1970 again
(`february_2106_closed`).
-/
namespace TheChannel
namespace Org

def isLeapYear (year : Nat) : Bool := year % 4 == 0 && (year % 100 != 0 || year % 400 == 0)

def daysInMonth (year month : Nat) : Nat :=
  if month = 2 then (if isLeapYear year then 29 else 28)
  else if month = 4 ∨ month = 6 ∨ month = 9 ∨ month = 11 then 30 else 31

def daysOfMonths : Nat → Nat
  | 0 => 0
  | n + 1 => daysOfMonths n + daysInMonth (1970 + n / 12) (n % 12 + 1)

def monthNumber (period : Nat) : Nat := (period / 100 - 1970) * 12 + period % 100

def monthEnd (period : Nat) : Nat := daysOfMonths (monthNumber period) * 86400

variable {period : Nat}

theorem daysOfMonths_strictMono : StrictMono daysOfMonths := by
  refine strictMono_nat_of_lt_succ fun n => ?_
  have hpos : 0 < daysInMonth (1970 + n / 12) (n % 12 + 1) := by
    unfold daysInMonth
    split_ifs <;> decide
  exact Nat.lt_add_of_pos_right hpos

theorem daysFromCivil_next {year month : Nat} (hy : 0 < year) (hm : 0 < month) (hle : month ≤ 12) :
    daysFromCivil (if month = 12 then year + 1 else year) (if month = 12 then 1 else month + 1) 1 =
      daysFromCivil year month 1 + daysInMonth year month := by
  unfold daysFromCivil daysInMonth isLeapYear
  interval_cases month <;> simp <;> (try split_ifs) <;> omega

theorem daysFromCivil_month (n : Nat) : daysFromCivil (1970 + n / 12) (n % 12 + 1) 1 = daysOfMonths n := by
  induction n with
  | zero => decide
  | succ n ih =>
    have hnext : _ = daysFromCivil (1970 + n / 12) (n % 12 + 1) 1 + _ := daysFromCivil_next (by omega) (by omega) (by omega)
    rw [ih] at hnext
    rw [daysOfMonths, Nat.cast_add, ← hnext]
    by_cases h : n % 12 + 1 = 12
    · rw [if_pos h, if_pos h, show (n + 1) / 12 = n / 12 + 1 by omega, show (n + 1) % 12 = 0 by omega, Nat.add_assoc]
    · rw [if_neg h, if_neg h, show (n + 1) / 12 = n / 12 by omega, show (n + 1) % 12 = n % 12 + 1 by omega]

theorem unixFromYmd_month (n : Nat) : unixFromYmd (1970 + n / 12) (n % 12 + 1) 1 = daysOfMonths n * 86400 % 2 ^ 32 := by
  rw [unixFromYmd, daysFromCivil_month, secondsPerDay]
  omega

theorem checkPeriod_ok_iff : checkPeriod period = .ok () ↔
    (1970 ≤ period / 100 ∧ period / 100 ≤ 3000) ∧ 1 ≤ period % 100 ∧ period % 100 ≤ 12 := by
  unfold checkPeriod
  rw [check_bind_ok_iff, check_ok_iff, decide_eq_true_eq, decide_eq_true_eq]

theorem periodEndUnix_eq (h : checkPeriod period = .ok ()) : periodEndUnix period = monthEnd period % 2 ^ 32 := by
  obtain ⟨hy, hm⟩ := checkPeriod_ok_iff.1 h
  rw [monthEnd, ← unixFromYmd_month, periodEndUnix]
  unfold monthNumber
  split
  · congr 1 <;> omega
  · congr 1 <;> omega

theorem monthEnd_lt {earlier : Nat} (he : checkPeriod earlier = .ok ()) (h : checkPeriod period = .ok ()) :
    monthEnd earlier < monthEnd period ↔ earlier < period := by
  rw [checkPeriod_ok_iff] at he h
  unfold monthEnd
  rw [Nat.mul_lt_mul_right (by decide), daysOfMonths_strictMono.lt_iff_lt]
  unfold monthNumber
  omega

/-- **The calendar.** A period that `check_period` accepts ends with the first second after its month, later than every earlier
period, and is closed only when its month is over, exactly if it is not later than January 2106. -/
theorem period_ends (period : Nat) (h : checkPeriod period = .ok ()) :
    (periodEndUnix period = monthEnd period ∧
      (∀ earlier, checkPeriod earlier = .ok () → earlier < period → periodEndUnix earlier < periodEndUnix period) ∧
      ∀ env s s', closeperiod env s period = .ok s' → monthEnd period ≤ env.now / 1000000) ↔ period ≤ 210601 := by
  -- the last month that ends before the seconds are cut
  have hfits : ∀ {p}, checkPeriod p = .ok () → (monthEnd p < 2 ^ 32 ↔ p ≤ 210601) := by
    intro p hp
    have hlast : monthEnd 210601 < 2 ^ 32 ∧ 2 ^ 32 ≤ monthEnd 210602 := by decide +kernel
    have hlt := monthEnd_lt hp (show checkPeriod 210602 = .ok () by decide)
    have hle := monthEnd_lt (show checkPeriod 210601 = .ok () by decide) hp
    omega
  have heq : ∀ {p}, checkPeriod p = .ok () → p ≤ 210601 → periodEndUnix p = monthEnd p := fun hp hle =>
    (periodEndUnix_eq hp).trans (Nat.mod_eq_of_lt ((hfits hp).2 hle))
  refine ⟨fun hends => (hfits h).1 ?_, fun hle => ⟨heq h hle, fun earlier he hlt => ?_, fun env s s' hok => ?_⟩⟩
  · rw [← hends.1, periodEndUnix_eq h]
    exact Nat.mod_lt _ (by decide)
  · rw [heq h hle, heq he (hlt.le.trans hle)]
    exact (monthEnd_lt he h).2 hlt
  · obtain ⟨-, -, hok⟩ := bind_ok hok
    obtain ⟨c, -, hok⟩ := bind_ok hok
    obtain ⟨hnow, -⟩ := check_ok hok
    rw [decide_eq_true_eq, heq h hle, secondsPerDay, secSinceEpoch] at hnow
    have hmod := Nat.mod_le (env.now / 1000000) (2 ^ 32)
    omega

theorem period_ends_202602 : periodEndUnix 202602 = monthEnd 202602 := ((period_ends 202602 (by decide)).2 (by decide)).1

/-- **February 2106 ends in January 1970**: it ends before the month before it, and is closed 80 years early. -/
theorem february_2106_closed : checkPeriod 210602 = .ok () ∧ periodEndUnix 210602 ≠ monthEnd 210602 ∧
    periodEndUnix 210602 < periodEndUnix 210601 ∧
    (closeperiod ⟨⟨fun _ => false, fun _ => false⟩, 1772323200000000, fun _ => true⟩
      { empty with config := some ⟨1, ⟨16722, 4⟩, 3, 3, 1, 1⟩ } 210602).map periods = .ok [210602] := by
  decide +kernel

end Org
end TheChannel

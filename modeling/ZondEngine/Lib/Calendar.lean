import Mathlib.Tactic.IntervalCases

/-!
# The Gregorian calendar, by months

The calendar as its rules give it, with months numbered through from March of the year 0. `monthStart` is the closed
form for the days before a month (`monthStart_succ`), and months tile the days (`eq_of_mem_month`).
-/

namespace Zond.Calendar

/-! ## The rules -/

variable (year : Int)

def IsLeap : Prop := year % 4 = 0 ∧ (year % 100 ≠ 0 ∨ year % 400 = 0)

instance (year : Int) : Decidable (IsLeap year) := inferInstanceAs (Decidable (_ ∧ _))

def daysInMonth (month : Nat) : Nat :=
  match month with
  | 2 => if IsLeap year then 29 else 28
  | 4 | 6 | 9 | 11 => 30
  | 1 | 3 | 5 | 7 | 8 | 10 | 12 => 31
  | _ => 0

def IsDate (month day : Nat) : Prop := 1 ≤ day ∧ day ≤ daysInMonth year month

instance (year : Int) (month day : Nat) : Decidable (IsDate year month day) := inferInstanceAs (Decidable (_ ∧ _))

theorem daysInMonth_le (month : Nat) : daysInMonth year month ≤ 31 := by
  unfold daysInMonth
  split
  · split <;> decide
  all_goals decide

/-! ## Months, numbered through -/

def yearStart (yearOfEra : Int) : Int := yearOfEra * 365 + yearOfEra / 4 - yearOfEra / 100

def marchStart : Int := year / 400 * 146097 + yearStart (year % 400)

variable (m : Int)

def monthStart : Int := marchStart (m / 12) + (153 * (m % 12) + 2) / 5

def yearOf : Int := (m + 2) / 12

def monthOf : Nat := ((m + 2) % 12).toNat + 1

def monthLength : Int := daysInMonth (yearOf m) (monthOf m)

theorem month_bounds : 1 ≤ monthOf m ∧ monthOf m ≤ 12 := by
  unfold monthOf
  omega

theorem marchStart_succ : marchStart (year + 1) = marchStart year + 365 + if IsLeap (year + 1) then 1 else 0 := by
  unfold marchStart
  have hera : year = 400 * (year / 400) + year % 400 := by omega
  have hlow : 0 ≤ year % 400 := by omega
  have hhigh : year % 400 < 400 := by omega
  generalize year / 400 = era at hera ⊢
  generalize year % 400 = y at hera hlow hhigh ⊢
  subst hera
  by_cases hlast : y = 399
  · -- the last year of an era has the leap day of the four hundredth
    subst hlast
    have hleap : IsLeap (400 * era + 399 + 1) := ⟨by omega, .inr (by omega)⟩
    have hnext : (400 * era + 399 + 1) / 400 = era + 1 := by omega
    have hfirst : (400 * era + 399 + 1) % 400 = 0 := by omega
    rw [if_pos hleap, hnext, hfirst]
    simp only [yearStart]
    omega
  · have hsame : (400 * era + y + 1) / 400 = era := by omega
    have hnext : (400 * era + y + 1) % 400 = y + 1 := by omega
    have hleap : IsLeap (400 * era + y + 1) ↔ (y + 1) % 4 = 0 ∧ (y + 1) % 100 ≠ 0 := by
      unfold IsLeap
      omega
    simp only [hleap, yearStart]
    split <;> omega

theorem monthStart_eq {index : Int} (hlow : 0 ≤ index) (hhigh : index < 12) :
    monthStart (12 * year + index) = marchStart year + (153 * index + 2) / 5 := by
  have hyear : (12 * year + index) / 12 = year := by omega
  have hindex : (12 * year + index) % 12 = index := by omega
  rw [monthStart, hyear, hindex]

theorem monthLength_eq {index : Int} (hlow : 0 ≤ index) (hhigh : index < 11) :
    monthLength (12 * year + index) = (153 * (index + 1) + 2) / 5 - (153 * index + 2) / 5 := by
  have hmonth : monthOf (12 * year + index) = if index < 10 then index.toNat + 3 else index.toNat - 9 := by
    unfold monthOf
    split <;> omega
  rw [monthLength, hmonth]
  interval_cases index <;> simp [daysInMonth]

theorem monthLength_february : monthLength (12 * year + 11) = 28 + if IsLeap (year + 1) then 1 else 0 := by
  have hmonth : monthOf (12 * year + 11) = 2 := by
    unfold monthOf
    omega
  have hyear : yearOf (12 * year + 11) = year + 1 := by
    unfold yearOf
    omega
  rw [monthLength, hmonth, hyear, daysInMonth]
  split <;> rfl

/-- **A month starts when the one before it is through.** -/
theorem monthStart_succ : monthStart (m + 1) = monthStart m + monthLength m := by
  have hsplit : m = 12 * (m / 12) + m % 12 := by omega
  have hlow : 0 ≤ m % 12 := by omega
  have hhigh : m % 12 < 12 := by omega
  generalize m / 12 = year at hsplit
  generalize m % 12 = index at hsplit hlow hhigh
  subst hsplit
  rw [monthStart_eq year hlow hhigh]
  by_cases hlast : index = 11
  · subst hlast
    have hnext : 12 * year + 11 + 1 = 12 * (year + 1) + 0 := by omega
    rw [hnext, monthStart_eq _ le_rfl (by omega), monthLength_february, marchStart_succ]
    omega
  · rw [add_assoc, monthStart_eq year (by omega) (by omega), monthLength_eq year hlow (by omega)]
    omega

theorem monthLength_pos : 0 < monthLength m := by
  have hbounds := month_bounds m
  unfold monthLength
  generalize monthOf m = month at hbounds ⊢
  obtain ⟨hlow, hhigh⟩ := hbounds
  interval_cases month <;> simp only [daysInMonth] <;> first | decide | (split <;> decide)

theorem monthStart_strictMono {m n : Int} (h : m < n) : monthStart m < monthStart n := by
  obtain ⟨k, rfl⟩ := Int.le.dest h
  induction k with
  | zero => have := monthStart_succ m; have := monthLength_pos m; simp; omega
  | succ k ih =>
    have hnext := monthStart_succ (m + 1 + k)
    have hpos := monthLength_pos (m + 1 + k)
    push_cast
    rw [← add_assoc]
    omega

theorem yearOf_monthOf {month : Nat} (h : 1 ≤ month ∧ month ≤ 12) :
    yearOf (12 * year + month - 3) = year ∧ monthOf (12 * year + month - 3) = month := by
  unfold yearOf monthOf
  omega

theorem IsDate.month_bounds {year : Int} {month day : Nat} (h : IsDate year month day) : 1 ≤ month ∧ month ≤ 12 := by
  by_contra hnot
  have hnone : daysInMonth year month = 0 := by
    unfold daysInMonth
    split <;> omega
  have hday := h.1.trans h.2
  omega

theorem IsDate.mem_month {year : Int} {month day : Nat} (h : IsDate year month day) :
    monthStart (12 * year + month - 3) + day - 1 < monthStart (12 * year + month - 3 + 1) := by
  obtain ⟨hyearOf, hmonthOf⟩ := yearOf_monthOf year h.month_bounds
  rw [monthStart_succ, monthLength, hyearOf, hmonthOf]
  have hday := h.2
  omega

theorem number_yearOf_monthOf : 12 * yearOf m + monthOf m - 3 = m := by
  unfold yearOf monthOf
  omega

theorem monthStart_mono {m n : Int} (h : m ≤ n) : monthStart m ≤ monthStart n := by
  rcases Int.lt_or_eq_of_le h with hlt | rfl
  · exact (monthStart_strictMono hlt).le
  · exact le_rfl

theorem month_le_of_le {m n a b : Int} (hab : a ≤ b) (ha : monthStart m ≤ a) (hb : b < monthStart (n + 1)) : m ≤ n := by
  by_contra hnot
  have hmono : monthStart (n + 1) ≤ monthStart m := monthStart_mono (by omega)
  omega

theorem eq_of_mem_month {m n a : Int} (hm : monthStart m ≤ a) (hm' : a < monthStart (m + 1)) (hn : monthStart n ≤ a)
    (hn' : a < monthStart (n + 1)) : m = n :=
  Int.le_antisymm (month_le_of_le le_rfl hm hn') (month_le_of_le le_rfl hn hm')

end Zond.Calendar

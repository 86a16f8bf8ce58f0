import ZondEngine.Lib.Calendar

/-!
# Dates and day numbers

`civil_from_days` and `days_from_civil` of `format/time.rs`, in closed form over years that start in March and eras of
four hundred years. They read days as the calendar has them (`civilFromDays_spec`, `daysFromCivil_eq`), so they are
inverse on its dates.
-/

namespace Zond.Format

open Zond.Calendar

/-! ## Days and dates -/

variable (days : Int)

/-- The date of a day counted from the Unix epoch. Only the shifted count can be negative, and is divided downwards. -/
def civilFromDays : Int × Nat × Nat :=
  let shifted := days + 719468
  let era := shifted / 146097
  let dayOfEra := shifted % 146097
  let yearOfEra := (dayOfEra - dayOfEra / 1460 + dayOfEra / 36524 - dayOfEra / 146096) / 365
  let dayOfYear := dayOfEra - (365 * yearOfEra + yearOfEra / 4 - yearOfEra / 100)
  let monthIndex := (5 * dayOfYear + 2) / 153
  let day := (dayOfYear - (153 * monthIndex + 2) / 5 + 1).toNat
  let month := (if monthIndex < 10 then monthIndex + 3 else monthIndex - 9).toNat
  let year := yearOfEra + era * 400 + if month ≤ 2 then 1 else 0
  (year, month, day)

def checked (n : Int) : Option Int := if -2 ^ 63 ≤ n ∧ n < 2 ^ 63 then some n else none

def daysFromCivil (year : Int) (month day : Nat) : Option Int :=
  let year := year - if month ≤ 2 then 1 else 0
  let era := year / 400
  let yearOfEra := year % 400
  let dayOfYear := (153 * ((month : Int) + if month > 2 then -3 else 9) + 2) / 5 + day - 1
  let dayOfEra := yearOfEra * 365 + yearOfEra / 4 - yearOfEra / 100 + dayOfYear
  (checked (era * 146097)).bind fun n => (checked (n + dayOfEra)).bind fun n => checked (n - 719468)

/-! ## Years of an era -/

theorem div_eq {n k q : Int} (hk : 0 < k) (hlow : k * q ≤ n) (hhigh : n < k * (q + 1)) : n / k = q := by
  apply Int.le_antisymm
  · exact Int.lt_add_one_iff.mp (Int.ediv_lt_of_lt_mul hk (by rwa [mul_comm]))
  · exact Int.le_ediv_of_mul_le hk (by rwa [mul_comm])

structure EraDay (dayOfEra century four year day : Int) : Prop where
  sum : dayOfEra = 36524 * century + 1461 * four + 365 * year + day
  century_low : 0 ≤ century
  century_high : century < 4
  four_low : 0 ≤ four
  four_high : four < 25
  year_low : 0 ≤ year
  year_high : year < 4
  day_low : 0 ≤ day
  day_high : day < 365 ∨ day = 365 ∧ year = 3 ∧ (four < 24 ∨ century = 3)

theorem exists_eraDay {dayOfEra : Int} (hlow : 0 ≤ dayOfEra) (hhigh : dayOfEra < 146097) :
    ∃ century four year day, EraDay dayOfEra century four year day := by
  by_cases hlast : dayOfEra = 146096
  · exact ⟨3, 24, 3, 365, by constructor <;> omega⟩
  · by_cases hleap : dayOfEra % 36524 % 1461 = 1460
    · exact ⟨dayOfEra / 36524, dayOfEra % 36524 / 1461, 3, 365, by constructor <;> omega⟩
    · exact ⟨dayOfEra / 36524, dayOfEra % 36524 / 1461, dayOfEra % 36524 % 1461 / 365,
        dayOfEra % 36524 % 1461 % 365, by constructor <;> omega⟩

theorem yearStart_of_digits (century : Int) {four year : Int} (hfour : 0 ≤ four ∧ four < 25)
    (hyear : 0 ≤ year ∧ year < 4) :
    yearStart (100 * century + 4 * four + year) = 36524 * century + 1461 * four + 365 * year := by
  have hfours : (100 * century + 4 * four + year) / 4 = 25 * century + four := div_eq (by decide) (by omega) (by omega)
  have hcenturies : (100 * century + 4 * four + year) / 100 = century := div_eq (by decide) (by omega) (by omega)
  rw [yearStart, hfours, hcenturies]
  omega

namespace EraDay

variable {dayOfEra century four year day : Int}

theorem centuries (h : EraDay dayOfEra century four year day) : dayOfEra / 36524 - dayOfEra / 146096 = century := by
  obtain ⟨hsum, hc0, hc, hf0, hf, hy0, hy, hd0, hd⟩ := h
  by_cases hlast : dayOfEra = 146096
  · have hwhole : century = 3 := by omega
    rw [hlast, hwhole]
    decide
  · have hq : dayOfEra / 36524 = century := div_eq (by decide) (by omega) (by omega)
    have hz : dayOfEra / 146096 = 0 := div_eq (by decide) (by omega) (by omega)
    rw [hq, hz, Int.sub_zero]

theorem yearOfEra_eq (h : EraDay dayOfEra century four year day) :
    (dayOfEra - dayOfEra / 1460 + dayOfEra / 36524 - dayOfEra / 146096) / 365 = 100 * century + 4 * four + year := by
  have hcenturies := h.centuries
  obtain ⟨hsum, hc0, hc, hf0, hf, hy0, hy, hd0, hd⟩ := h
  have hsub : dayOfEra - dayOfEra / 1460 + dayOfEra / 36524 - dayOfEra / 146096 =
      dayOfEra - dayOfEra / 1460 + century := by omega
  -- the days over of the years before may make up one more four
  by_cases hmore : 24 * century + four + 365 * year + day < 1460
  · have hq : dayOfEra / 1460 = 25 * century + four := div_eq (by decide) (by omega) (by omega)
    rw [hq]
    exact div_eq (by decide) (by omega) (by omega)
  · have hq : dayOfEra / 1460 = 25 * century + four + 1 := div_eq (by decide) (by omega) (by omega)
    rw [hq]
    exact div_eq (by decide) (by omega) (by omega)

theorem lt_next (h : EraDay dayOfEra century four year day) (hlast : 100 * century + 4 * four + year ≠ 399) :
    dayOfEra < yearStart (100 * century + 4 * four + year + 1) := by
  obtain ⟨hsum, hc0, hc, hf0, hf, hy0, hy, hd0, hd⟩ := h
  by_cases hyear : year < 3
  · rw [add_assoc, yearStart_of_digits _ ⟨hf0, hf⟩ ⟨by omega, by omega⟩]
    omega
  · by_cases hfour : four < 24
    · have hnext : 100 * century + 4 * four + year + 1 = 100 * century + 4 * (four + 1) + 0 := by omega
      rw [hnext, yearStart_of_digits _ ⟨by omega, by omega⟩ (by decide)]
      omega
    · have hnext : 100 * century + 4 * four + year + 1 = 100 * (century + 1) + 4 * 0 + 0 := by omega
      rw [hnext, yearStart_of_digits _ (by decide) (by decide)]
      omega

end EraDay

theorem year_spec (shifted : Int) {era dayOfEra year : Int} (hera : era = shifted / 146097)
    (hdayOfEra : dayOfEra = shifted % 146097)
    (hyear : year = (dayOfEra - dayOfEra / 1460 + dayOfEra / 36524 - dayOfEra / 146096) / 365) :
    marchStart (400 * era + year) = 146097 * era + yearStart year ∧ yearStart year ≤ dayOfEra ∧
      dayOfEra ≤ yearStart year + 365 ∧ shifted < marchStart (400 * era + year + 1) := by
  have hsplit : shifted = 146097 * era + dayOfEra := by omega
  have hlow : 0 ≤ dayOfEra := by omega
  have hhigh : dayOfEra < 146097 := by omega
  clear hera hdayOfEra
  obtain ⟨century, four, y, day, hday⟩ := exists_eraDay hlow hhigh
  rw [hday.yearOfEra_eq] at hyear
  have hnext := hday.lt_next
  obtain ⟨hsum, hc0, hc, hf0, hf, hy0, hy, hd0, hd⟩ := hday
  have hstart := yearStart_of_digits century ⟨hf0, hf⟩ ⟨hy0, hy⟩
  rw [← hyear] at hstart hnext
  have hyear0 : 0 ≤ year := by omega
  have hyear400 : year < 400 := by omega
  have heras : (400 * era + year) / 400 = era := div_eq (by decide) (by omega) (by omega)
  have hyears : (400 * era + year) % 400 = year := by omega
  refine ⟨by rw [marchStart, heras, hyears, mul_comm], by omega, by omega, ?_⟩
  by_cases hlast : year = 399
  · have heras : (400 * era + year + 1) / 400 = era + 1 := div_eq (by decide) (by omega) (by omega)
    have hyears : (400 * era + year + 1) % 400 = 0 := by omega
    rw [marchStart, heras, hyears, show yearStart 0 = 0 from rfl]
    omega
  · have heras : (400 * era + year + 1) / 400 = era := div_eq (by decide) (by omega) (by omega)
    have hyears : (400 * era + year + 1) % 400 = year + 1 := by omega
    have hlt := hnext hlast
    rw [marchStart, heras, hyears]
    omega

theorem monthIndex_spec {dayOfYear index : Int} (hlow : 0 ≤ dayOfYear) (hindex : index = (5 * dayOfYear + 2) / 153) :
    0 ≤ index ∧ (153 * index + 2) / 5 ≤ dayOfYear ∧ dayOfYear < (153 * (index + 1) + 2) / 5 := by
  omega

/-- **A day number is read as the month the day lies in, and its place there.** -/
theorem civilFromDays_spec : ∃ m, monthStart m ≤ days + 719468 ∧ days + 719468 < monthStart (m + 1) ∧
    civilFromDays days = (yearOf m, monthOf m, (days + 719468 - monthStart m + 1).toNat) := by
  unfold civilFromDays
  dsimp only
  generalize days + 719468 = shifted
  have hsplit : shifted = 146097 * (shifted / 146097) + shifted % 146097 := by omega
  generalize hera : shifted / 146097 = era at hsplit ⊢
  generalize hdayOfEra : shifted % 146097 = dayOfEra at hsplit ⊢
  generalize hyear : (dayOfEra - dayOfEra / 1460 + dayOfEra / 36524 - dayOfEra / 146096) / 365 = year
  obtain ⟨hmarch, hstart, hend, hnext⟩ := year_spec shifted hera.symm hdayOfEra.symm hyear.symm
  have hdayOfYear : dayOfEra - (365 * year + year / 4 - year / 100) = dayOfEra - yearStart year := by
    rw [yearStart, mul_comm]
  rw [hdayOfYear]
  generalize hday : dayOfEra - yearStart year = dayOfYear
  generalize hindex : (5 * dayOfYear + 2) / 153 = index
  obtain ⟨hi0, hfirst, hlast⟩ := monthIndex_spec (by omega) hindex.symm
  have hi : index < 12 := by omega
  have hm := monthStart_eq (400 * era + year) hi0 hi
  refine ⟨12 * (400 * era + year) + index, by omega, ?_, ?_⟩
  · by_cases hfebruary : index = 11
    · have hyearEnd : 12 * (400 * era + year) + index + 1 = 12 * (400 * era + year + 1) + 0 := by omega
      rw [hyearEnd, monthStart_eq _ le_rfl (by decide)]
      omega
    · rw [add_assoc, monthStart_eq _ (by omega) (by omega)]
      omega
  · have hmonth : (if index < 10 then index + 3 else index - 9).toNat = monthOf (12 * (400 * era + year) + index) := by
      unfold monthOf
      split <;> omega
    have hyearOf : (year + era * 400 + if monthOf (12 * (400 * era + year) + index) ≤ 2 then 1 else 0) =
        yearOf (12 * (400 * era + year) + index) := by
      unfold monthOf yearOf
      split <;> omega
    have hplace : dayOfYear - (153 * index + 2) / 5 = shifted - monthStart (12 * (400 * era + year) + index) := by omega
    rw [hmonth, hyearOf, hplace]

theorem isDate_civilFromDays : IsDate (civilFromDays days).1 (civilFromDays days).2.1 (civilFromDays days).2.2 := by
  obtain ⟨m, hlow, hhigh, hcivil⟩ := civilFromDays_spec days
  have hlength : monthStart (m + 1) = monthStart m + daysInMonth (yearOf m) (monthOf m) := monthStart_succ m
  rw [hcivil]
  dsimp only [IsDate]
  omega

theorem checked_of_lt {n : Int} (hlow : -10 ^ 18 ≤ n) (hhigh : n ≤ 10 ^ 18) : checked n = some n :=
  if_pos ⟨by omega, by omega⟩

def dayNumber (year : Int) (month day : Nat) : Int := monthStart (12 * year + month - 3) + day - 1 - 719468

/-- **A date is read as the number of its day.** -/
theorem daysFromCivil_eq {year : Int} {month day : Nat} (hyear : 0 ≤ year ∧ year < 10000)
    (hmonth : 1 ≤ month ∧ month ≤ 12) (hday : day < 100) :
    daysFromCivil year month day = some (dayNumber year month day) := by
  unfold daysFromCivil dayNumber
  dsimp only
  generalize hmarch : (year - if month ≤ 2 then 1 else 0) = marchYear
  generalize hindex : (month : Int) + (if month > 2 then -3 else 9) = index
  have hnumber : 12 * year + month - 3 = 12 * marchYear + index := by
    rw [← hmarch, ← hindex]
    split <;> split <;> omega
  have hi : 0 ≤ index ∧ index < 12 := by
    rw [← hindex]
    split <;> omega
  have hy : -1 ≤ marchYear ∧ marchYear < 10000 := by
    rw [← hmarch]
    split <;> omega
  have hstart := monthStart_eq marchYear hi.1 hi.2
  rw [marchStart, yearStart] at hstart
  rw [hnumber, hstart]
  rw [checked_of_lt (by omega) (by omega), Option.bind_some, checked_of_lt (by omega) (by omega), Option.bind_some,
    checked_of_lt (by omega) (by omega), Option.some.injEq]
  omega

theorem civilFromDays_of_isDate {year : Int} {month day : Nat} (h : IsDate year month day) :
    civilFromDays (dayNumber year month day) = (year, month, day) := by
  obtain ⟨m, hlow, hhigh, hcivil⟩ := civilFromDays_spec (dayNumber year month day)
  obtain ⟨hyearOf, hmonthOf⟩ := yearOf_monthOf year h.month_bounds
  have hmonth := h.mem_month
  have hpos := h.1
  have hnumber : dayNumber year month day + 719468 = monthStart (12 * year + month - 3) + day - 1 := by
    unfold dayNumber
    omega
  rw [hnumber] at hlow hhigh hcivil
  obtain rfl : 12 * year + month - 3 = m := eq_of_mem_month (by omega) (by omega) hlow hhigh
  rw [hcivil, hyearOf, hmonthOf]
  congr 2
  omega

theorem dayNumber_civilFromDays :
    dayNumber (civilFromDays days).1 (civilFromDays days).2.1 (civilFromDays days).2.2 = days := by
  obtain ⟨m, hlow, hhigh, hcivil⟩ := civilFromDays_spec days
  rw [hcivil]
  dsimp only [dayNumber]
  rw [number_yearOf_monthOf]
  omega

theorem dayNumber_bounds {year : Int} {month day : Nat} (hyear : 0 ≤ year ∧ year < 10000) (h : IsDate year month day) :
    -719528 ≤ dayNumber year month day ∧ dayNumber year month day < 2932897 := by
  have hbounds := h.month_bounds
  have hmonth := h.mem_month
  have hpos := h.1
  have hfirst : monthStart (-2) ≤ monthStart (12 * year + month - 3) := monthStart_mono (by omega)
  have hlast : monthStart (12 * year + month - 3 + 1) ≤ monthStart 119998 := monthStart_mono (by omega)
  rw [show monthStart (-2) = -60 by decide] at hfirst
  rw [show monthStart 119998 = 3652365 by decide] at hlast
  unfold dayNumber
  omega

theorem year_bounds {days : Int} (h : -719528 ≤ days ∧ days < 2932897) :
    0 ≤ (civilFromDays days).1 ∧ (civilFromDays days).1 < 10000 := by
  obtain ⟨m, hlow, hhigh, hcivil⟩ := civilFromDays_spec days
  have hfirst : -2 ≤ m :=
    month_le_of_le (show (-60 : Int) ≤ days + 719468 by omega) (by decide) hhigh
  have hlast : m ≤ 119997 :=
    month_le_of_le (show days + 719468 ≤ (3652364 : Int) by omega) hlow (by decide)
  rw [hcivil]
  dsimp only [yearOf]
  omega

theorem civilFromDays_lt {days days' : Int} (h : days < days') :
    let date := civilFromDays days
    let date' := civilFromDays days'
    date.1 < date'.1 ∨ date.1 = date'.1 ∧ (date.2.1 < date'.2.1 ∨ date.2.1 = date'.2.1 ∧ date.2.2 < date'.2.2) := by
  obtain ⟨m, hlow, hhigh, hcivil⟩ := civilFromDays_spec days
  obtain ⟨m', hlow', hhigh', hcivil'⟩ := civilFromDays_spec days'
  have hle : m ≤ m' := month_le_of_le (by omega) hlow hhigh'
  rw [hcivil, hcivil']
  dsimp only [yearOf, monthOf]
  rcases Int.lt_or_eq_of_le hle with hlt | rfl
  · omega
  · omega

end Zond.Format

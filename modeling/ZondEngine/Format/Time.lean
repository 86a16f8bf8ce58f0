import Mathlib.Data.Prod.Lex
import ZondEngine.Format.Civil
import ZondEngine.Lib.FixedWidth
import ZondEngine.Model.Time

/-!
# Timestamps

`format/time.rs`: moments as RFC 3339 timestamps in UTC, and back.

* `rfc3339_sound`: a moment the format can express is read back to the microsecond, timestamps sort as the moments do,
  and of the dates one can write exactly those of the calendar are read.
-/

namespace Zond.Format

open Zond.Calendar List

/-! ## Writing a moment -/

def SECS_PER_DAY : Int := 86400

def MIN_SECS : Int := -62167219200

def MAX_SECS : Int := 253402300799

def saturatingSecs (duration : Duration) : Int := min (duration / 10 ^ 9 : Nat) (2 ^ 63 - 1)

variable (time : SystemTime)

/-- Whole seconds since the epoch, and nanoseconds past them. -/
def epochParts : Int × Nat :=
  if 0 ≤ time then (saturatingSecs time.toNat, time.toNat % 10 ^ 9)
  else
    let before := (-time).toNat
    if before % 10 ^ 9 = 0 then (-saturatingSecs before, 0)
    else (-saturatingSecs before - 1, 10 ^ 9 - before % 10 ^ 9)

structure Civil where
  year : Int
  (month day hour minute second : Nat)

def civilParts (secs : Int) : Civil :=
  let days := secs / SECS_PER_DAY
  let timeOfDay := (secs % SECS_PER_DAY).toNat
  let date := civilFromDays days
  ⟨date.1, date.2.1, date.2.2, timeOfDay / 3600, timeOfDay % 3600 / 60, timeOfDay % 60⟩

def dateText (year month day : Nat) : Text := padded 4 year ++ ('-' :: (padded 2 month ++ ('-' :: padded 2 day)))

def clockText (hour minute second : Nat) : Text :=
  padded 2 hour ++ (':' :: (padded 2 minute ++ (':' :: padded 2 second)))

/-- Writes a moment. -/
def rfc3339 : Text :=
  let parts := epochParts time
  let civil := civilParts (max MIN_SECS (min parts.1 MAX_SECS))
  dateText civil.year.toNat civil.month civil.day ++
    ('T' :: (clockText civil.hour civil.minute civil.second ++ ('.' :: (padded 6 (parts.2 / 1000) ++ ['Z']))))

/-! ## Reading a timestamp -/

def field (text : Text) (width : Nat) : Option Nat :=
  if text.length ≠ width ∨ ¬ text.all Char.isDigit then none else (Text.parseUnsigned (2 ^ 32) text).toOption

def readDate (date : Text) : Option (Int × Nat × Nat) :=
  match Text.splitn 3 '-' date with
  | [year, month, day] =>
    (field year 4).bind fun year => (field month 2).bind fun month => (field day 2).map fun day => (year, month, day)
  | _ => none

def readFraction (digits : Text) : Option Nat :=
  if digits.isEmpty ∨ ¬ digits.all Char.isDigit then none
  else some ((List.range 9).foldl (fun scaled i => scaled * 10 + (digits[i]?.elim 0 fun c => c.toNat - '0'.toNat)) 0)

def readClock (rest : Text) : Option (Int × Nat) :=
  let parts := (Text.splitOnce '.' rest).elim (rest, none) fun parts => (parts.1, some parts.2)
  match Text.splitn 3 ':' parts.1 with
  | [hour, minute, second] =>
    (field hour 2).bind fun hour => (field minute 2).bind fun minute => (field second 2).bind fun second =>
      if hour > 23 ∨ minute > 59 ∨ second > 60 then none
      else
        (parts.2.elim (some 0) readFraction).map fun nanos => (hour * 3600 + minute * 60 + min second 59, nanos)
  | _ => none

def moment (date : Int × Nat × Nat) (clock : Int × Nat) : Option SystemTime :=
  (daysFromCivil date.1 date.2.1 date.2.2).bind fun days =>
    if civilFromDays days ≠ date then none
    else
      (checked (days * SECS_PER_DAY)).bind fun secs => (checked (secs + clock.1)).bind fun secs =>
        if MIN_SECS ≤ secs ∧ secs ≤ MAX_SECS then
          some
            (if 0 ≤ secs then (secs.toNat * 10 ^ 9 + clock.2 : Nat)
            else -((secs.natAbs * 10 ^ 9 : Nat) : Int) + clock.2)
        else none

/-- Reads a moment. -/
def parseRfc3339 (text : Text) : Option SystemTime :=
  let text := Text.trim text
  ((Text.stripSuffix ['Z'] text).or (Text.stripSuffix ['z'] text)).bind fun body =>
    (Text.splitOnceAny ['T', 't'] body).bind fun parts =>
      (readDate parts.1).bind fun date => (readClock parts.2).bind fun clock => moment date clock

/-! ## Fields -/

theorem notMem_padded {c : Char} (hc : c.isDigit = false) (width n : Nat) : c ∉ padded width n := fun h => by
  rw [isDigit_of_mem_padded h] at hc
  cases hc

theorem field_padded {width n : Nat} (hwidth : 0 < width) (hn : n < 10 ^ width) (hword : n < 2 ^ 32) :
    field (padded width n) width = some n := by
  have hlength := length_padded hwidth hn
  have hne : padded width n ≠ [] := fun hnil => by
    rw [hnil] at hlength
    exact hwidth.ne hlength
  have hdigits : ∀ c ∈ padded width n, c.isDigit = true := fun c hc => isDigit_of_mem_padded hc
  rw [field, if_neg (by simpa [hlength] using hdigits), Text.toOption_parseUnsigned (by decide) hne hdigits,
    ofDigitChars_padded, if_pos hword]

variable {year month day : Nat}

theorem readDate_dateText (hyear : year < 10 ^ 4) (hmonth : month < 10 ^ 2)
    (hday : day < 10 ^ 2) : readDate (dateText year month day) = some ((year : Int), month, day) := by
  rw [readDate, dateText, Text.splitn_append_cons (notMem_padded rfl 4 year),
    Text.splitn_append_cons (notMem_padded rfl 2 month), Text.splitn]
  dsimp only
  rw [field_padded (by decide) hyear (by omega), field_padded (by decide) hmonth (by omega),
    field_padded (by decide) hday (by omega)]
  rfl

theorem readFraction_padded {micros : Nat} (h : micros < 10 ^ 6) :
    readFraction (padded 6 micros) = some (micros * 1000) := by
  have hlength := length_padded (by decide) h
  have hdigits : ∀ c ∈ padded 6 micros, c.isDigit = true := fun c hc => isDigit_of_mem_padded hc
  have hvalue := ofDigitChars_padded 6 micros
  generalize padded 6 micros = digits at hlength hdigits hvalue
  obtain ⟨a, b, c, d, e, f, rfl⟩ : ∃ a b c d e f, digits = [a, b, c, d, e, f] := by
    match digits, hlength with
    | [a, b, c, d, e, f], _ => exact ⟨a, b, c, d, e, f, rfl⟩
  rw [readFraction, if_neg (by simpa using hdigits), ← hvalue, Option.some.injEq]
  simp only [range_succ, range_zero, nil_append, foldl_append, foldl_cons, foldl_nil,
    Nat.ofDigitChars_cons, Nat.ofDigitChars_nil]
  simp
  omega

theorem readClock_clockText {hour minute second micros : Nat} (hhour : hour < 24) (hminute : minute < 60)
    (hsecond : second < 60) (hmicros : micros < 10 ^ 6) :
    readClock (clockText hour minute second ++ ('.' :: padded 6 micros)) =
      some (((hour * 3600 + minute * 60 + second : Nat) : Int), micros * 1000) := by
  have hdot : '.' ∉ clockText hour minute second := by
    simp [clockText, notMem_padded]
  rw [readClock, Text.splitOnce_append_cons hdot, Option.elim_some, clockText,
    Text.splitn_append_cons (notMem_padded rfl 2 hour), Text.splitn_append_cons (notMem_padded rfl 2 minute),
    Text.splitn]
  dsimp only
  rw [field_padded (by decide) (by omega) (by omega), field_padded (by decide) (by omega) (by omega),
    field_padded (by decide) (by omega) (by omega), Option.bind_some, Option.bind_some, Option.bind_some,
    if_neg (by omega), Option.elim_some, readFraction_padded hmicros, Option.map_some,
    min_eq_left (by omega)]
  norm_cast

theorem readClock_lt {rest : Text} {clock : Int × Nat} (h : readClock rest = some clock) :
    0 ≤ clock.1 ∧ clock.1 < SECS_PER_DAY := by
  unfold readClock at h
  dsimp only at h
  split at h
  · obtain ⟨hour, -, h⟩ := Option.bind_eq_some_iff.mp h
    obtain ⟨minute, -, h⟩ := Option.bind_eq_some_iff.mp h
    obtain ⟨second, -, h⟩ := Option.bind_eq_some_iff.mp h
    split at h
    · cases h
    next hin =>
      obtain ⟨nanos, -, rfl⟩ := Option.map_eq_some_iff.mp h
      dsimp only [SECS_PER_DAY]
      omega
  · cases h

/-! ## The date and the rest -/

def clockOf (rest : Text) : Option (Int × Nat) :=
  ((Text.stripSuffix ['Z'] (Text.trimEnd rest)).or (Text.stripSuffix ['z'] (Text.trimEnd rest))).bind readClock

theorem stripSuffix_append_cons {mark sep : Char} (hne : sep ≠ mark) (a b : Text) :
    Text.stripSuffix [mark] (a ++ sep :: b) = (Text.stripSuffix [mark] b).map (a ++ sep :: ·) := by
  apply Option.ext
  intro body
  rw [Text.stripSuffix_eq_some_iff, Option.map_eq_some_iff]
  constructor
  · intro h
    rcases eq_nil_or_concat' b with rfl | ⟨front, last, rfl⟩
    · exact absurd (append_inj' h rfl).2 (by simpa using hne)
    · have hends : (a ++ sep :: front) ++ [last] = body ++ [mark] := by simpa using h
      obtain ⟨hfront, hlast⟩ := append_inj' hends rfl
      refine ⟨front, ?_, hfront⟩
      rw [hlast, Text.stripSuffix_eq_some_iff]
  · rintro ⟨front, hfront, rfl⟩
    rw [Text.stripSuffix_eq_some_iff] at hfront
    rw [hfront, append_assoc, cons_append]

theorem isDigit_of_mem_dateText {c : Char} (h : c ∈ dateText year month day) : c.isDigit = true ∨ c = '-' := by
  simp only [dateText, mem_append, mem_cons] at h
  rcases h with h | h | h | h | h
  · exact .inl (isDigit_of_mem_padded h)
  · exact .inr h
  · exact .inl (isDigit_of_mem_padded h)
  · exact .inr h
  · exact .inl (isDigit_of_mem_padded h)

theorem trim_dated (hyear : year < 10 ^ 4) {sep : Char} (hsep : Text.isWhitespace sep = false) (rest : Text) :
    Text.trim (dateText year month day ++ sep :: rest) = dateText year month day ++ sep :: Text.trimEnd rest := by
  have hfront : (dateText year month day ++ sep :: rest).dropWhile Text.isWhitespace =
      dateText year month day ++ sep :: rest := by
    have hlength := length_padded (by decide) hyear
    cases hfirst : padded 4 year with
    | nil =>
      rw [hfirst] at hlength
      cases hlength
    | cons c digits =>
      have hdigit : c.isDigit = true := isDigit_of_mem_padded (hfirst ▸ mem_cons_self)
      rw [dateText, hfirst]
      exact dropWhile_cons_of_neg (by simp [Text.isWhitespace_of_isDigit hdigit])
  rw [Text.trim, hfront, Text.trimEnd_append_cons hsep]

theorem parse_dated (hyear : year < 10 ^ 4) (hmonth : month < 10 ^ 2) (hday : day < 10 ^ 2)
    {sep : Char} (hsep : sep ∈ ['T', 't']) (rest : Text) : parseRfc3339 (dateText year month day ++ sep :: rest) =
      (clockOf rest).bind (moment ((year : Int), month, day)) := by
  have hsep' : sep = 'T' ∨ sep = 't' := by simpa using hsep
  have hspace : Text.isWhitespace sep = false := by rcases hsep' with rfl | rfl <;> decide
  have hZ : sep ≠ 'Z' ∧ sep ≠ 'z' := by rcases hsep' with rfl | rfl <;> decide
  have hdate : ∀ c ∈ dateText year month day, c ∉ ['T', 't'] := by
    intro c hc hT
    have hT' : c = 'T' ∨ c = 't' := by simpa using hT
    rcases isDigit_of_mem_dateText hc with hdigit | rfl
    · rcases hT' with rfl | rfl <;> cases hdigit
    · rcases hT' with h | h <;> cases h
  rw [parseRfc3339, trim_dated hyear hspace]
  rw [stripSuffix_append_cons hZ.1, stripSuffix_append_cons hZ.2, clockOf]
  generalize Text.stripSuffix ['z'] (Text.trimEnd rest) = lower
  rw [← Option.map_or, Option.bind_map, Option.bind_assoc]
  congr 1
  funext body
  rw [Function.comp_apply, Text.splitOnceAny_append_cons hdate hsep, Option.bind_some,
    readDate_dateText hyear hmonth hday, Option.bind_some]

/-! ## Moments -/

theorem moment_of_isDate {year : Int} {month day : Nat} (hyear : 0 ≤ year ∧ year < 10000) (h : IsDate year month day)
    {clock : Int × Nat} (hclock : 0 ≤ clock.1 ∧ clock.1 < SECS_PER_DAY) : moment (year, month, day) clock =
      some ((dayNumber year month day * SECS_PER_DAY + clock.1) * 10 ^ 9 + clock.2) := by
  have hday : day < 100 := h.2.trans_lt (lt_of_le_of_lt (daysInMonth_le year month) (by decide))
  obtain ⟨hlow, hhigh⟩ := dayNumber_bounds hyear h
  unfold SECS_PER_DAY at hclock
  unfold moment SECS_PER_DAY
  rw [daysFromCivil_eq hyear h.month_bounds hday, Option.bind_some, civilFromDays_of_isDate h,
    if_neg fun hne => hne rfl]
  generalize dayNumber year month day = days at hlow hhigh
  rw [checked_of_lt (by omega) (by omega), Option.bind_some, checked_of_lt (by omega) (by omega), Option.bind_some,
    if_pos ⟨by unfold MIN_SECS; omega, by unfold MAX_SECS; omega⟩, Option.some.injEq]
  split
  next hpast => rw [Nat.cast_add, Nat.cast_mul, Int.toNat_of_nonneg hpast]; rfl
  next hbefore => rw [Nat.cast_mul, Int.ofNat_natAbs_of_nonpos (by omega), ← Int.neg_mul, Int.neg_neg]; rfl

theorem moment_of_not_isDate {year : Int} {month day : Nat} (h : ¬ IsDate year month day) (clock : Int × Nat) :
    moment (year, month, day) clock = none := by
  unfold moment
  cases hdays : daysFromCivil year month day with
  | none => rfl
  | some days =>
    rw [Option.bind_some, if_pos]
    intro hcivil
    have hdate := isDate_civilFromDays days
    rw [hcivil] at hdate
    exact h hdate

theorem isSome_moment_iff {year : Int} {month day : Nat} (hyear : 0 ≤ year ∧ year < 10000) {clock : Int × Nat}
    (hclock : 0 ≤ clock.1 ∧ clock.1 < SECS_PER_DAY) :
    (moment (year, month, day) clock).isSome = true ↔ IsDate year month day := by
  by_cases h : IsDate year month day
  · simp [moment_of_isDate hyear h hclock, h]
  · simp [moment_of_not_isDate h, h]

/-! ## Timestamps -/

def Expressible : Prop := MIN_SECS * 10 ^ 9 ≤ time ∧ time < (MAX_SECS + 1) * 10 ^ 9

theorem Expressible.bounds {time : Int} (h : Expressible time) :
    -62167219200 * 10 ^ 9 ≤ time ∧ time < 253402300800 * 10 ^ 9 := h

theorem epochParts_eq {time : Int} (h : Expressible time) :
    epochParts time = (time / 10 ^ 9, (time % 10 ^ 9).toNat) := by
  obtain ⟨hlow, hhigh⟩ := h.bounds
  unfold epochParts saturatingSecs
  split
  next hpast =>
    have hpast : 0 ≤ time := hpast
    rw [Prod.mk.injEq]
    omega
  next hbefore =>
    have hbefore : ¬ 0 ≤ time := hbefore
    dsimp only
    split <;> rw [Prod.mk.injEq] <;> omega

variable (micros : Int)

def stamp : Text :=
  let civil := civilParts (micros / 10 ^ 6)
  dateText civil.year.toNat civil.month civil.day ++
    ('T' :: (clockText civil.hour civil.minute civil.second ++ ('.' :: (padded 6 (micros % 10 ^ 6).toNat ++ ['Z']))))

theorem rfc3339_eq {time : Int} (h : Expressible time) : rfc3339 time = stamp (time / 1000) := by
  have hsecs : max MIN_SECS (min (time / 10 ^ 9) MAX_SECS) = time / 1000 / 10 ^ 6 := by
    obtain ⟨hlow, hhigh⟩ := h.bounds
    unfold MIN_SECS MAX_SECS
    omega
  have hmicros : (time % 10 ^ 9).toNat / 1000 = (time / 1000 % 10 ^ 6).toNat := by omega
  rw [rfc3339, epochParts_eq h]
  rw [hsecs, hmicros, stamp]

def dateOf (days : Int) : Text :=
  dateText (civilFromDays days).1.toNat (civilFromDays days).2.1 (civilFromDays days).2.2

def timeOf (micros : Nat) : Text :=
  'T' :: (clockText (micros / 10 ^ 6 / 3600) (micros / 10 ^ 6 % 3600 / 60) (micros / 10 ^ 6 % 60) ++
    ('.' :: (padded 6 (micros % 10 ^ 6) ++ ['Z'])))

def MICROS_PER_DAY : Int := 86400000000

theorem stamp_eq : stamp micros = dateOf (micros / MICROS_PER_DAY) ++ timeOf (micros % MICROS_PER_DAY).toNat := by
  have hdays : micros / 10 ^ 6 / 86400 = micros / 86400000000 := by omega
  have htime : (micros / 10 ^ 6 % 86400).toNat = (micros % 86400000000).toNat / 10 ^ 6 := by omega
  have hmicros : (micros % 10 ^ 6).toNat = (micros % 86400000000).toNat % 10 ^ 6 := by omega
  simp only [stamp, civilParts, SECS_PER_DAY, dateOf, timeOf, MICROS_PER_DAY, hdays, htime, hmicros]

def DayInRange (days : Int) : Prop := -719528 ≤ days ∧ days < 2932897

theorem fields_lt {days : Int} (h : DayInRange days) : (civilFromDays days).1.toNat < 10 ^ 4 ∧
    (civilFromDays days).2.1 < 10 ^ 2 ∧ (civilFromDays days).2.2 < 10 ^ 2 := by
  have hdate := isDate_civilFromDays days
  have hmonth := hdate.month_bounds
  have hday := hdate.2.trans (daysInMonth_le _ _)
  have hyear := year_bounds h
  omega

theorem keepsOrder_dateOf : KeepsOrder DayInRange dateOf := by
  have hrest : KeepsOrder (fun date : ℕ ×ₗ ℕ => (ofLex date).1 < 10 ^ 2 ∧ (ofLex date).2 < 10 ^ 2) fun date =>
      '-' :: (padded 2 (ofLex date).1 ++ ('-' :: padded 2 (ofLex date).2)) := by
    refine ((keepsOrder_padded 2 (by decide)).seq ((keepsOrder_padded 2 (by decide)).cons '-')
      (fun _ h => h.1) (fun _ h => h.2) fun a b _ _ hab => ?_).cons '-'
    exact Prod.Lex.lt_iff.mp hab
  refine (keepsOrder_padded 4 (by decide)).seq hrest (p := fun days => (civilFromDays days).1.toNat)
    (q := fun days => toLex (civilFromDays days).2) (fun days h => (fields_lt h).1) (fun days h => (fields_lt h).2)
    fun a b ha hb hab => ?_
  have hyear := year_bounds ha
  have hlt := civilFromDays_lt hab
  dsimp only at hlt
  rw [Prod.Lex.lt_iff]
  dsimp only [ofLex_toLex]
  omega

theorem keepsOrder_timeOf : KeepsOrder (· < 86400000000) timeOf := by
  have htwo := keepsOrder_padded 2 (by decide)
  have hminute : KeepsOrder (· < 3600) fun secs => ':' :: (padded 2 (secs / 60) ++ (':' :: padded 2 (secs % 60))) :=
    (htwo.seq (htwo.cons ':') (fun secs h => by omega) (fun secs h => by omega) fun a b _ _ hab => by omega).cons ':'
  have hclock : KeepsOrder (· < 86400) fun secs =>
      padded 2 (secs / 3600) ++ (':' :: (padded 2 (secs % 3600 / 60) ++ (':' :: padded 2 (secs % 3600 % 60)))) :=
    htwo.seq hminute (q := (· % 3600)) (fun secs h => by omega) (fun secs h => by omega) fun a b _ _ hab => by omega
  have hsixth := ((keepsOrder_padded 6 (by decide)).append ['Z']).cons '.'
  have hwhole := (hclock.seq hsixth (p := (· / 10 ^ 6)) (q := (· % 10 ^ 6)) (R := (· < 86400000000))
    (fun micros h => by omega) (fun micros h => by omega) fun a b _ _ hab => by omega).cons 'T'
  have heq : timeOf = fun micros => 'T' :: (padded 2 (micros / 10 ^ 6 / 3600) ++
      (':' :: (padded 2 (micros / 10 ^ 6 % 3600 / 60) ++ (':' :: padded 2 (micros / 10 ^ 6 % 3600 % 60)))) ++
        ('.' :: (padded 6 (micros % 10 ^ 6) ++ ['Z']))) := by
    funext micros
    rw [timeOf, clockText, Nat.mod_mod_of_dvd _ (by decide : 60 ∣ 3600)]
  rw [heq]
  exact hwhole

theorem clockOf_timeOf {micros : Nat} (h : micros < 86400000000) {rest : Text} (hrest : timeOf micros = 'T' :: rest) :
    clockOf rest = some (((micros / 10 ^ 6 : Nat) : Int), micros % 10 ^ 6 * 1000) := by
  obtain rfl : clockText (micros / 10 ^ 6 / 3600) (micros / 10 ^ 6 % 3600 / 60) (micros / 10 ^ 6 % 60) ++
      ('.' :: (padded 6 (micros % 10 ^ 6) ++ ['Z'])) = rest := (List.cons.inj hrest).2
  have hstrip : ∀ x y : Text,
      Text.stripSuffix ['Z'] (Text.trimEnd (x ++ ('.' :: (y ++ ['Z'])))) = some (x ++ '.' :: y) := by
    intro x y
    have hassoc : x ++ ('.' :: (y ++ ['Z'])) = (x ++ '.' :: y) ++ ['Z'] := by simp
    rw [hassoc, Text.trimEnd_of_last (by decide), Text.stripSuffix_eq_some_iff]
  rw [clockOf, hstrip, Option.some_or, Option.bind_some,
    readClock_clockText (by omega) (by omega) (by omega) (by omega), Option.some.injEq, Prod.mk.injEq]
  exact ⟨by omega, rfl⟩

def InRange : Prop := -719528 * MICROS_PER_DAY ≤ micros ∧ micros < 2932897 * MICROS_PER_DAY

theorem dayInRange {micros : Int} (h : InRange micros) : DayInRange (micros / MICROS_PER_DAY) := by
  unfold InRange MICROS_PER_DAY at h
  unfold DayInRange MICROS_PER_DAY
  omega

theorem micros_lt : (micros % MICROS_PER_DAY).toNat < 86400000000 := by
  unfold MICROS_PER_DAY
  omega

theorem parse_stamp {micros : Int} (h : InRange micros) : parseRfc3339 (stamp micros) = some (micros * 1000) := by
  have hday := dayInRange h
  obtain ⟨hy, hm, hd⟩ := fields_lt hday
  have hyear := year_bounds hday
  have hclock := clockOf_timeOf (micros_lt micros) rfl
  rw [stamp_eq, dateOf, timeOf, parse_dated hy hm hd mem_cons_self, hclock, Option.bind_some,
    Int.toNat_of_nonneg hyear.1, moment_of_isDate hyear (isDate_civilFromDays _), dayNumber_civilFromDays]
  · have hsum : ((micros / 86400000000 * 86400 + ((micros % 86400000000).toNat / 10 ^ 6 : Nat)) * 10 ^ 9 +
        ((micros % 86400000000).toNat % 10 ^ 6 * 1000 : Nat) : Int) = micros * 1000 := by omega
    exact congrArg some hsum
  · unfold SECS_PER_DAY MICROS_PER_DAY
    omega

theorem keepsOrder_stamp : KeepsOrder InRange stamp := by
  have hwhole := keepsOrder_dateOf.seq keepsOrder_timeOf (p := (· / MICROS_PER_DAY))
    (q := fun micros => (micros % MICROS_PER_DAY).toNat) (R := InRange) (fun _ h => dayInRange h)
    (fun micros _ => micros_lt micros) fun a b _ _ hab => by
      unfold MICROS_PER_DAY
      omega
  rw [show stamp = fun micros => dateOf (micros / MICROS_PER_DAY) ++ timeOf (micros % MICROS_PER_DAY).toNat from
    funext stamp_eq]
  exact hwhole

theorem Expressible.inRange {time : Int} (h : Expressible time) : InRange (time / 1000) := by
  obtain ⟨hlow, hhigh⟩ := h.bounds
  unfold InRange MICROS_PER_DAY
  omega

/-- **Timestamps.** A moment of the years 0 to 9999 is read back to the microsecond, and what is
written as a date is read exactly when the calendar has it. -/
theorem rfc3339_sound : (∀ time, Expressible time → parseRfc3339 (rfc3339 time) = some (time / 1000 * 1000)) ∧
    (∀ time time', Expressible time → Expressible time' → time ≤ time' → rfc3339 time ≤ rfc3339 time') ∧
    ∀ year month day : Nat, year < 10 ^ 4 → month < 10 ^ 2 → day < 10 ^ 2 → ∀ sep ∈ ['T', 't'], ∀ rest : Text,
      ((parseRfc3339 (dateText year month day ++ sep :: rest)).isSome ↔
        IsDate year month day ∧ (parseRfc3339 (dateText 2000 1 1 ++ sep :: rest)).isSome) := by
  refine ⟨fun time h => ?_, fun time time' h h' hle => ?_, fun year month day hyear hmonth hday sep hsep rest => ?_⟩
  · rw [rfc3339_eq h, parse_stamp h.inRange]
  · rw [rfc3339_eq h, rfc3339_eq h']
    rcases Int.lt_or_eq_of_le (Int.ediv_le_ediv (show (0 : Int) < 1000 by decide) hle) with hlt | heq
    · exact le_of_lt (keepsOrder_stamp.lt _ _ h.inRange h'.inRange hlt)
    · rw [heq]
  · rw [parse_dated hyear hmonth hday hsep, parse_dated (by decide) (by decide) (by decide) hsep]
    cases hclock : clockOf rest with
    | none => simp
    | some clock =>
      have hlt : 0 ≤ clock.1 ∧ clock.1 < SECS_PER_DAY := by
        obtain ⟨body, -, hread⟩ := Option.bind_eq_some_iff.mp hclock
        exact readClock_lt hread
      have hdate : IsDate (2000 : Nat) 1 1 := by decide
      rw [Option.bind_some, Option.bind_some, isSome_moment_iff (by omega) hlt, isSome_moment_iff (by decide) hlt]
      exact (and_iff_left hdate).symm

/-- A quarter of a second and a nanosecond before the epoch, and a leap day of a year without one. -/
theorem rfc3339_sound_borrowing : Expressible (-250000001) ∧ Expressible 0 ∧
    parseRfc3339 (rfc3339 (-250000001)) = some (-250001000) ∧ rfc3339 (-250000001) ≤ rfc3339 0 ∧
    ¬ (parseRfc3339 (dateText 2023 2 29 ++ 'T' :: "12:00:00Z")).isSome := by
  have hbefore : Expressible (-250000001) := ⟨by decide, by decide⟩
  have hepoch : Expressible 0 := ⟨by decide, by decide⟩
  obtain ⟨hread, hsort, hdate⟩ := rfc3339_sound
  refine ⟨hbefore, hepoch, hread _ hbefore, hsort _ _ hbefore hepoch (by decide), ?_⟩
  rw [hdate 2023 2 29 (by decide) (by decide) (by decide) 'T' (by decide)]
  exact fun h => absurd h.1 (by decide)

end Zond.Format

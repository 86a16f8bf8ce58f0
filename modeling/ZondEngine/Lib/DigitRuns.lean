import ZondEngine.Lib.Utf8

/-!
# Runs of digits

The number a run of ASCII digits spells (`number`), compared without being computed (`compare_stripped`).
-/

namespace Zond.DigitRuns

open List

open Utf8 (Bytes)

def AllDigits (run : Bytes) : Prop := ∀ b ∈ run, 48 ≤ b.toNat ∧ b.toNat ≤ 57

def numberFrom (n : ℕ) (run : Bytes) : ℕ := run.foldl (fun n b => 10 * n + (b.toNat - 48)) n

def number (run : Bytes) : ℕ := numberFrom 0 run

def stripped (run : Bytes) : Bytes := run.dropWhile (· == 48)

section Numbers

variable {a b : Bytes} {x : UInt8}

theorem allDigits_cons : AllDigits (x :: a) ↔ (48 ≤ x.toNat ∧ x.toNat ≤ 57) ∧ AllDigits a := forall_mem_cons

theorem numberFrom_eq (run : Bytes) : ∀ n, numberFrom n run = n * 10 ^ run.length + number run := by
  unfold number
  induction run with
  | nil => intro n; simp [numberFrom]
  | cons b run ih =>
    intro n
    show numberFrom (10 * n + (b.toNat - 48)) run = n * 10 ^ (run.length + 1) + numberFrom (10 * 0 + (b.toNat - 48)) run
    rw [ih, ih (10 * 0 + (b.toNat - 48)), pow_succ]
    ring

theorem number_cons (x : UInt8) (run : Bytes) : number (x :: run) = (x.toNat - 48) * 10 ^ run.length + number run := by
  show numberFrom (10 * 0 + (x.toNat - 48)) run = _
  rw [numberFrom_eq, Nat.mul_zero, Nat.zero_add]

theorem number_lt (h : AllDigits a) : number a < 10 ^ a.length := by
  induction a with
  | nil => simp [number, numberFrom]
  | cons x a ih =>
    obtain ⟨hx, ha⟩ := allDigits_cons.mp h
    have hlt := ih ha
    have hdigit : (x.toNat - 48) * 10 ^ a.length ≤ 9 * 10 ^ a.length := Nat.mul_le_mul_right _ (by omega)
    rw [number_cons, length_cons, pow_succ]
    omega

/-- **Runs of one length are ordered as their numbers.** -/
theorem compare_of_length_eq : ∀ {a b : Bytes}, AllDigits a → AllDigits b → a.length = b.length →
    compare a b = compare (number a) (number b)
  | [], [], _, _, _ => rfl
  | [], _ :: _, _, _, hlen => nomatch hlen
  | _ :: _, [], _, _, hlen => nomatch hlen
  | x :: a, y :: b, ha, hb, hlen => by
    obtain ⟨hx, ha⟩ := allDigits_cons.mp ha
    obtain ⟨hy, hb⟩ := allDigits_cons.mp hb
    have hlen : a.length = b.length := Nat.succ.inj hlen
    have hna := number_lt ha
    have hnb := number_lt hb
    rw [List.compare_cons_cons, compare_of_length_eq ha hb hlen, number_cons, number_cons, ← hlen]
    rw [← hlen] at hnb
    rcases Nat.lt_trichotomy x.toNat y.toNat with hlt | heq | hlt
    · -- The first difference decides, since what follows is less than one of its steps.
      have hstep : (x.toNat - 48 + 1) * 10 ^ a.length ≤ (y.toNat - 48) * 10 ^ a.length :=
        Nat.mul_le_mul_right _ (by omega)
      rw [Nat.add_mul, Nat.one_mul] at hstep
      have hbyte : compare x y = .lt := Std.compare_eq_lt.mpr (UInt8.lt_iff_toNat_lt.mpr hlt)
      rw [hbyte, compare_lt_iff_lt.mpr (by omega : _ < (y.toNat - 48) * 10 ^ a.length + number b)]
      rfl
    · have hbyte : compare x y = .eq := Std.LawfulEqCmp.compare_eq_iff_eq.mpr (UInt8.toNat_inj.mp heq)
      rw [hbyte, heq]
      show compare (number a) (number b) = _
      rw [Nat.compare_eq_ite_lt, Nat.compare_eq_ite_lt]
      simp only [Nat.add_lt_add_iff_left]
    · have hstep : (y.toNat - 48 + 1) * 10 ^ a.length ≤ (x.toNat - 48) * 10 ^ a.length :=
        Nat.mul_le_mul_right _ (by omega)
      rw [Nat.add_mul, Nat.one_mul] at hstep
      have hbyte : compare x y = .gt := Std.compare_eq_gt.mpr (UInt8.lt_iff_toNat_lt.mpr hlt)
      rw [hbyte, compare_gt_iff_gt.mpr (by omega : _ > (y.toNat - 48) * 10 ^ a.length + number b)]
      rfl

end Numbers

section Stripping

variable {a b : Bytes}

theorem allDigits_stripped (h : AllDigits a) : AllDigits (stripped a) :=
  fun x hx => h x ((dropWhile_suffix _).subset hx)

theorem number_stripped (run : Bytes) : number (stripped run) = number run := by
  induction run with
  | nil => rfl
  | cons x run ih =>
    unfold stripped at ih ⊢
    by_cases hx : (x == 48) = true
    · rw [dropWhile_cons_of_pos (p := (· == 48)) hx, ih, number_cons, beq_iff_eq.mp hx]
      simp
    · rw [dropWhile_cons_of_neg (p := (· == 48)) hx]

theorem number_lt_of_length_lt (ha : AllDigits a) (hb : AllDigits b) (hlen : a.length < (stripped b).length) :
    number a < number b := by
  have hna := number_lt ha
  rw [← number_stripped b]
  cases hs : stripped b with
  | nil => simp [hs] at hlen
  | cons y rest =>
    have hy : y.toNat ≠ 48 := by
      have hkept : b.dropWhile (· == 48) = y :: rest := hs
      have hhead := dropWhile_get_zero_not (· == 48) b (by rw [hkept]; exact Nat.succ_pos _)
      intro heq
      have hzero : y = 48 := UInt8.toNat_inj.mp heq
      simp [hkept, hzero] at hhead
    have hdigit := allDigits_stripped hb
    rw [hs] at hdigit hlen
    have hge := (allDigits_cons.mp hdigit).1
    have hpow : 10 ^ a.length ≤ 10 ^ rest.length := Nat.pow_le_pow_right (by omega) (Nat.le_of_lt_succ hlen)
    have hfirst : 1 * 10 ^ rest.length ≤ (y.toNat - 48) * 10 ^ rest.length := Nat.mul_le_mul_right _ (by omega)
    rw [number_cons]
    omega

/-- **Numbers of any length are compared by their lengths and then digit by digit**, without leading zeros. -/
theorem compare_stripped (ha : AllDigits a) (hb : AllDigits b) :
    (compare (stripped a).length (stripped b).length).then (compare (stripped a) (stripped b)) =
      compare (number a) (number b) := by
  rcases Nat.lt_trichotomy (stripped a).length (stripped b).length with hlt | heq | hlt
  · have hnumber := number_lt_of_length_lt (allDigits_stripped ha) hb hlt
    rw [number_stripped] at hnumber
    rw [compare_lt_iff_lt.mpr hlt, compare_lt_iff_lt.mpr hnumber]
    rfl
  · rw [compare_eq_iff_eq.mpr heq, ← number_stripped a, ← number_stripped b]
    exact compare_of_length_eq (allDigits_stripped ha) (allDigits_stripped hb) heq
  · have hnumber := number_lt_of_length_lt (allDigits_stripped hb) ha hlt
    rw [number_stripped] at hnumber
    rw [compare_gt_iff_gt.mpr hlt, compare_gt_iff_gt.mpr hnumber]
    rfl

end Stripping

section Texts

variable {text : Text}

theorem encode_digits (h : ∀ c ∈ text, c.isDigit = true) :
    Utf8.encode text = text.map fun c => UInt8.ofNat c.toNat := by
  unfold Utf8.encode
  induction text with
  | nil => rfl
  | cons c text ih =>
    have hc := Text.toNat_of_isDigit (h c mem_cons_self)
    rw [flatMap_cons, Utf8.encodeChar_of_lt (by omega), ih fun d hd => h d (mem_cons_of_mem _ hd)]
    rfl

theorem toNat_ofNat_digit {c : Char} (h : c.isDigit = true) : (UInt8.ofNat c.toNat).toNat = c.toNat := by
  have hc := Text.toNat_of_isDigit h
  exact UInt8.toNat_ofNat_of_lt' (by show _ < 256; omega)

theorem allDigits_encode (h : ∀ c ∈ text, c.isDigit = true) : AllDigits (Utf8.encode text) := by
  rw [encode_digits h]
  intro b hb
  obtain ⟨c, hc, rfl⟩ := mem_map.mp hb
  rw [toNat_ofNat_digit (h c hc)]
  exact Text.toNat_of_isDigit (h c hc)

theorem length_encode_digits (h : ∀ c ∈ text, c.isDigit = true) : (Utf8.encode text).length = text.length := by
  rw [encode_digits h, length_map]

theorem number_encode (h : ∀ c ∈ text, c.isDigit = true) : number (Utf8.encode text) = Nat.ofDigitChars 10 text 0 := by
  rw [encode_digits h, number]
  unfold numberFrom Nat.ofDigitChars
  rw [foldl_map]
  refine foldl_ext _ _ 0 fun n c hc => ?_
  rw [toNat_ofNat_digit (h c hc)]
  rfl

end Texts

end Zond.DigitRuns

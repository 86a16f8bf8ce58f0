import Mathlib.Data.Nat.Digits.Defs
import Mathlib.Data.List.DropRight

/-!
# Texts

A text is the list of its characters. Splitting, trimming, and unsigned numbers in decimal: what is written for a number
is read back as the number (`parseUnsigned_decimal`).
-/

namespace Zond

open List

abbrev Text := List Char

instance Text.lawfulBEq : LawfulBEq Text := inferInstance

instance Text.coeString : Coe String Text := ⟨String.toList⟩

namespace Text

def isWhitespace (c : Char) : Bool :=
  let n := c.toNat
  (9 ≤ n && n ≤ 13) || n == 0x20 || n == 0x85 || n == 0xA0 || n == 0x1680 || (0x2000 ≤ n && n ≤ 0x200A) ||
    n == 0x2028 || n == 0x2029 || n == 0x202F || n == 0x205F || n == 0x3000

variable (text : Text)

def splitWhitespace : List Text := (text.splitOnP isWhitespace).filter fun word => !word.isEmpty

def trimEnd : Text := (text.reverse.dropWhile isWhitespace).reverse

def trim : Text := trimEnd (text.dropWhile isWhitespace)

theorem trimEnd_isPrefix : trimEnd text <+: text := by
  rw [← reverse_suffix, trimEnd, reverse_reverse]
  exact dropWhile_suffix _

theorem trim_eq_self {text : Text} (h : ∀ c ∈ text, isWhitespace c = false) : trim text = text := by
  have hkeep : ∀ {text : Text}, (∀ c ∈ text, isWhitespace c = false) → text.dropWhile isWhitespace = text := by
    intro text h
    refine dropWhile_eq_self_iff.mpr fun hl => ?_
    simp [h _ (getElem_mem hl)]
  rw [trim, hkeep h, trimEnd, hkeep (by simpa using h), reverse_reverse]

theorem trim_trim : trim (trim text) = trim text := by
  have hstart : (trim text).dropWhile isWhitespace = trim text := by
    obtain ⟨rest, hrest⟩ := trimEnd_isPrefix (text.dropWhile isWhitespace)
    have hfirst := head?_dropWhile_not isWhitespace text
    unfold trim
    cases hkept : trimEnd (text.dropWhile isWhitespace) with
    | nil => rfl
    | cons c kept =>
      rw [hkept] at hrest
      rw [← hrest] at hfirst
      exact dropWhile_cons_of_neg (Bool.eq_false_iff.mp hfirst)
  rw [trim, hstart, trim, trimEnd, trimEnd, reverse_reverse, dropWhile_idempotent]

variable {c : Char}

theorem trimEnd_concat (h : isWhitespace c = true) (text : Text) : trimEnd (text ++ [c]) = trimEnd text := by
  rw [trimEnd, trimEnd, reverse_concat, dropWhile_cons_of_pos h]

theorem trimEnd_of_last (h : isWhitespace c = false) (text : Text) : trimEnd (text ++ [c]) = text ++ [c] := by
  rw [trimEnd, reverse_concat, dropWhile_cons_of_neg (by simp [h]), reverse_cons, reverse_reverse]

theorem trimEnd_append_cons (h : isWhitespace c = false) (a b : Text) :
    trimEnd (a ++ c :: b) = a ++ c :: trimEnd b := by
  have hstop : (c :: a.reverse).dropWhile isWhitespace = c :: a.reverse := dropWhile_cons_of_neg (by simp [h])
  rw [trimEnd, trimEnd, reverse_append, reverse_cons, append_assoc, singleton_append, dropWhile_append, hstop]
  split
  next hall => simp [isEmpty_iff.mp hall]
  next => simp

def splitOnce (c : Char) (text : Text) : Option (Text × Text) :=
  if c ∈ text then some (text.takeWhile (· != c), (text.dropWhile (· != c)).tail) else none

def rsplitOnce (c : Char) (text : Text) : Option (Text × Text) :=
  (splitOnce c text.reverse).map fun parts => (parts.2.reverse, parts.1.reverse)

section Splitting

variable {a b x y : Text}

theorem splitOnce_append_of_mem (h : splitOnce c a = some (x, y)) : splitOnce c (a ++ b) = some (x, y ++ b) := by
  unfold splitOnce at h ⊢
  split at h
  next hmem =>
    obtain ⟨rfl, rfl⟩ := Prod.mk.inj (Option.some.inj h)
    -- The separator stops both scans inside the first text.
    have hstop : ¬ ∀ d ∈ a, (d != c) = true := fun hall => by simpa using hall c hmem
    have hdrop : a.dropWhile (· != c) ≠ [] := fun hnil => hstop (dropWhile_eq_nil_iff.mp hnil)
    rw [if_pos (mem_append_left b hmem), takeWhile_append, if_neg, dropWhile_append, if_neg]
    · rw [tail_append_of_ne_nil hdrop]
    · simpa using hdrop
    · intro hlen
      exact hstop (takeWhile_eq_self_iff.mp ((takeWhile_sublist _).eq_of_length hlen))
  next => cases h

theorem splitOnce_append_of_notMem (h : c ∉ a) :
    splitOnce c (a ++ b) = (splitOnce c b).map fun parts => (a ++ parts.1, parts.2) := by
  have hall : ∀ d ∈ a, (d != c) = true := fun d hd => by
    simp only [bne_iff_ne]
    rintro rfl
    exact h hd
  unfold splitOnce
  simp only [mem_append, h, false_or]
  split
  · rw [takeWhile_append_of_pos hall, dropWhile_append_of_pos hall]
    rfl
  · rfl

theorem eq_of_splitOnce (h : splitOnce c a = some (x, y)) : a = x ++ c :: y := by
  unfold splitOnce at h
  split at h
  next hmem =>
    obtain ⟨rfl, rfl⟩ := Prod.mk.inj (Option.some.inj h)
    have hdrop : a.dropWhile (· != c) ≠ [] := fun hnil => by
      simpa using dropWhile_eq_nil_iff.mp hnil c hmem
    have hhead : (a.dropWhile (· != c)).head hdrop = c := by
      simpa using head_dropWhile_not (· != c) hdrop
    have hcons : a.dropWhile (· != c) = c :: (a.dropWhile (· != c)).tail := by
      rw [← cons_head_tail hdrop, hhead, tail_cons]
    rw [← hcons, takeWhile_append_dropWhile]
  next => cases h

theorem splitOnce_eq_none_iff : splitOnce c a = none ↔ c ∉ a := by
  unfold splitOnce
  split <;> simp [*]

theorem rsplitOnce_append_of_mem (h : rsplitOnce c b = some (x, y)) : rsplitOnce c (a ++ b) = some (a ++ x, y) := by
  unfold rsplitOnce at h ⊢
  obtain ⟨⟨after, before⟩, hsplit, hparts⟩ := Option.map_eq_some_iff.mp h
  obtain ⟨rfl, rfl⟩ := Prod.mk.inj hparts
  rw [reverse_append, splitOnce_append_of_mem hsplit]
  simp

theorem rsplitOnce_append_of_notMem (h : c ∉ b) :
    rsplitOnce c (a ++ b) = (rsplitOnce c a).map fun parts => (parts.1, parts.2 ++ b) := by
  unfold rsplitOnce
  rw [reverse_append, splitOnce_append_of_notMem (by simpa using h)]
  simp [Function.comp_def]

theorem eq_of_rsplitOnce (h : rsplitOnce c a = some (x, y)) : a = x ++ c :: y := by
  obtain ⟨⟨after, before⟩, hsplit, hparts⟩ := Option.map_eq_some_iff.mp h
  obtain ⟨rfl, rfl⟩ := Prod.mk.inj hparts
  rw [← reverse_reverse a, eq_of_splitOnce hsplit]
  simp

theorem rsplitOnce_eq_none_iff : rsplitOnce c a = none ↔ c ∉ a := by
  unfold rsplitOnce
  rw [Option.map_eq_none_iff, splitOnce_eq_none_iff, mem_reverse]

theorem notMem_of_splitOnce (h : splitOnce c a = some (x, y)) : c ∉ x := by
  unfold splitOnce at h
  split at h
  · obtain ⟨rfl, rfl⟩ := Prod.mk.inj (Option.some.inj h)
    intro hmem
    simpa using mem_takeWhile_imp hmem
  · cases h

theorem notMem_of_rsplitOnce (h : rsplitOnce c a = some (x, y)) : c ∉ y := by
  obtain ⟨parts, hsplit, hparts⟩ := Option.map_eq_some_iff.mp h
  obtain ⟨rfl, rfl⟩ := Prod.mk.inj hparts
  rw [mem_reverse]
  exact notMem_of_splitOnce hsplit

theorem splitOnce_append_cons (h : c ∉ a) : splitOnce c (a ++ c :: b) = some (a, b) := by
  rw [splitOnce_append_of_notMem h]
  simp [splitOnce]

def splitOnceAny (cs : List Char) (text : Text) : Option (Text × Text) :=
  if text.any cs.contains then some (text.takeWhile (!cs.contains ·), (text.dropWhile (!cs.contains ·)).tail) else none

theorem splitOnceAny_append_cons {cs : List Char} (h : ∀ d ∈ a, d ∉ cs) (hc : c ∈ cs) :
    splitOnceAny cs (a ++ c :: b) = some (a, b) := by
  have hall : ∀ d ∈ a, (!cs.contains d) = true := by simpa using h
  rw [splitOnceAny, if_pos, takeWhile_append_of_pos hall, dropWhile_append_of_pos hall]
  · simp [hc]
  · simp [hc]

def splitn : Nat → Char → Text → List Text
  | 0, _, _ => []
  | 1, _, text => [text]
  | n + 2, c, text =>
    match splitOnce c text with
    | none => [text]
    | some parts => parts.1 :: splitn (n + 1) c parts.2

theorem splitn_append_cons {n : Nat} (h : c ∉ a) : splitn (n + 2) c (a ++ c :: b) = a :: splitn (n + 1) c b := by
  rw [splitn, splitOnce_append_cons h]

theorem forall_mem_intercalate {P : Char → Prop} (hc : P c) : ∀ {labels : List Text},
    (∀ d ∈ intercalate [c] labels, P d) ↔ ∀ label ∈ labels, ∀ d ∈ label, P d
  | [] => by simp
  | [label] => by simp
  | label :: next :: labels => by
    have ih := @forall_mem_intercalate P hc (next :: labels)
    simp only [intercalate_cons_cons, mem_append, or_imp, forall_and, forall_mem_cons] at ih ⊢
    rw [ih]
    simp [hc]

theorem splitOnP_intercalate {p : Char → Bool} (hc : p c = true) : ∀ {labels : List Text}, labels ≠ [] →
    (∀ label ∈ labels, ∀ d ∈ label, p d = false) → (intercalate [c] labels).splitOnP p = labels
  | [label], _, h => by simpa using splitOnP_eq_singleton (h label mem_cons_self)
  | label :: next :: labels, _, h => by
    obtain ⟨hlabel, hrest⟩ := forall_mem_cons.mp h
    rw [intercalate_cons_cons, append_assoc, singleton_append, splitOnP_append_cons_of_forall_mem hlabel _ hc,
      splitOnP_intercalate hc (cons_ne_nil _ _) hrest]

def stripSuffix (suffix text : Text) : Option Text :=
  if suffix.isSuffixOf text then some (text.take (text.length - suffix.length)) else none

theorem stripSuffix_eq_some_iff : stripSuffix x a = some b ↔ a = b ++ x := by
  unfold stripSuffix
  constructor
  · intro h
    split at h
    next hsuffix =>
      obtain ⟨before, rfl⟩ := isSuffixOf_iff_suffix.mp hsuffix
      obtain rfl : before = b := by simpa using h
      rfl
    next => cases h
  · rintro rfl
    simp

end Splitting

def eqIgnoreAsciiCase (a b : Text) : Bool := a.map Char.toLower == b.map Char.toLower

theorem toNat_of_isDigit (h : c.isDigit = true) : 48 ≤ c.toNat ∧ c.toNat ≤ 57 := by
  simp only [Char.isDigit, Bool.and_eq_true, decide_eq_true_eq] at h
  exact ⟨h.1, h.2⟩

theorem toLower_of_isDigit (h : c.isDigit = true) : c.toLower = c := by
  have hbounds := toNat_of_isDigit h
  refine dif_neg ?_
  intro hupper
  have : 65 ≤ c.toNat := hupper.1
  omega

theorem isWhitespace_of_isDigit (h : c.isDigit = true) : isWhitespace c = false := by
  have hbounds := toNat_of_isDigit h
  simp only [isWhitespace, Bool.or_eq_false_iff, Bool.and_eq_false_iff, beq_eq_false_iff_ne, decide_eq_false_iff_not]
  omega

theorem splitWhitespace_eq_singleton {text : Text} (hne : text ≠ []) (h : ∀ c ∈ text, isWhitespace c = false) :
    splitWhitespace text = [text] := by
  rw [splitWhitespace, splitOnP_eq_singleton h]
  cases text with
  | nil => exact absurd rfl hne
  | cons c text => rfl

theorem bind_eq_ok {ε α β : Type} {value : Except ε α} {next : α → Except ε β} {result : β}
    (h : value >>= next = .ok result) : ∃ a, value = .ok a ∧ next a = .ok result := by
  cases value with
  | error error => cases h
  | ok a => exact ⟨a, rfl, h⟩

/-! ## Decimal numbers -/

inductive IntErrorKind where
  | empty | invalidDigit | posOverflow
deriving DecidableEq, Repr

def digitsFrom (bound value : Nat) : Text → Except IntErrorKind Nat
  | [] => .ok value
  | c :: text =>
    if c.isDigit then
      if 10 * value + (c.toNat - '0'.toNat) < bound then digitsFrom bound (10 * value + (c.toNat - '0'.toNat)) text
      else .error .posOverflow
    else .error .invalidDigit

def parseUnsigned (bound : Nat) (text : Text) : Except IntErrorKind Nat :=
  match text with
  | [] => .error .empty
  | ['+'] => .error .invalidDigit
  | ['-'] => .error .invalidDigit
  | '+' :: digits => digitsFrom bound 0 digits
  | _ => digitsFrom bound 0 text

def decimal (n : Nat) : Text := Nat.toDigits 10 n

theorem isDigit_of_mem_decimal {n : Nat} {c : Char} (h : c ∈ decimal n) : c.isDigit = true :=
  Nat.isDigit_of_mem_toDigits (by decide) (by decide) h

theorem decimal_ne_nil (n : Nat) : decimal n ≠ [] := Nat.toDigits_ne_nil

theorem le_ofDigitChars (text : Text) : ∀ value : Nat, value ≤ Nat.ofDigitChars 10 text value := by
  induction text with
  | nil => exact fun value => le_rfl
  | cons c text ih =>
    intro value
    have hstep := ih (10 * value + (c.toNat - '0'.toNat))
    rw [Nat.ofDigitChars_cons]
    omega

theorem digitsFrom_eq (bound : Nat) (text : Text) : ∀ value : Nat, (∀ c ∈ text, c.isDigit = true) →
    Nat.ofDigitChars 10 text value < bound → digitsFrom bound value text = .ok (Nat.ofDigitChars 10 text value) := by
  induction text with
  | nil => exact fun value _ _ => rfl
  | cons c text ih =>
    intro value hdigits hlt
    rw [Nat.ofDigitChars_cons] at hlt ⊢
    have hnext := le_ofDigitChars text (10 * value + (c.toNat - '0'.toNat))
    rw [digitsFrom, if_pos (hdigits c mem_cons_self), if_pos (by omega)]
    exact ih _ (fun d hd => hdigits d (mem_cons_of_mem _ hd)) hlt

theorem digitsFrom_eq_error (bound : Nat) (text : Text) : ∀ value : Nat, (∀ c ∈ text, c.isDigit = true) →
    value < bound → bound ≤ Nat.ofDigitChars 10 text value → digitsFrom bound value text = .error .posOverflow := by
  induction text with
  | nil =>
    intro value _ hlt hge
    exact absurd hge (Nat.not_le_of_lt hlt)
  | cons c text ih =>
    intro value hdigits _ hge
    rw [digitsFrom, if_pos (hdigits c mem_cons_self)]
    split
    next hlt => exact ih _ (fun d hd => hdigits d (mem_cons_of_mem _ hd)) hlt hge
    next => rfl

theorem parseUnsigned_of_digit {bound : Nat} {c : Char} {text : Text} (h : c.isDigit = true) :
    parseUnsigned bound (c :: text) = digitsFrom bound 0 (c :: text) := by
  unfold parseUnsigned
  split
  · rename_i heq
    cases heq
  · rename_i heq
    cases heq
    cases h
  · rename_i heq
    cases heq
    cases h
  · rename_i heq
    cases heq
    cases h
  · rfl

theorem toOption_parseUnsigned {bound : Nat} (hbound : 0 < bound) {text : Text} (hne : text ≠ [])
    (hdigits : ∀ c ∈ text, c.isDigit = true) : (parseUnsigned bound text).toOption =
      if Nat.ofDigitChars 10 text 0 < bound then some (Nat.ofDigitChars 10 text 0) else none := by
  cases text with
  | nil => exact absurd rfl hne
  | cons c text =>
    rw [parseUnsigned_of_digit (hdigits c mem_cons_self)]
    split
    next hlt => rw [digitsFrom_eq bound _ 0 hdigits hlt]; rfl
    next hge => rw [digitsFrom_eq_error bound _ 0 hdigits hbound (Nat.le_of_not_lt hge)]; rfl

/-- **A number is read back from its decimal writing.** -/
theorem parseUnsigned_decimal {bound n : Nat} (h : n < bound) : parseUnsigned bound (decimal n) = .ok n := by
  have hvalue : Nat.ofDigitChars 10 (decimal n) 0 = n := Nat.ofDigitChars_toDigits (by decide) (by decide)
  have hdigits : ∀ c ∈ decimal n, c.isDigit = true := fun c hc => isDigit_of_mem_decimal hc
  have hread := digitsFrom_eq bound (decimal n) 0 hdigits (by rwa [hvalue])
  rw [hvalue] at hread
  cases htext : decimal n with
  | nil => exact absurd htext (decimal_ne_nil n)
  | cons c text =>
    rw [htext] at hread hdigits
    rw [parseUnsigned_of_digit (hdigits c mem_cons_self), hread]

end Text

end Zond

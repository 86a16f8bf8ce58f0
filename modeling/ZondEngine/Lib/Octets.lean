import ZondEngine.Lib.Delimited
import ZondEngine.Lib.Text

/-!
# Octets and their digits

A number as its octets, the most significant first: octets of the right count are the number's exactly when their value
is the number (`exists_octets`). An octet as its two hexadecimal digits (`nibbles_iff`).
-/

namespace Zond.Octets

open List Text

/-! ## Octets -/

/-- The octets of a number, the most significant first. -/
def octets (width address : ℕ) : List UInt8 := (littleEndian width address).reverse

/-- The number octets are. -/
def fromOctets (octets : List UInt8) : ℕ := octets.foldl (fun value octet => 256 * value + octet.toNat) 0

theorem fromOctets_lt (bytes : List UInt8) : fromOctets bytes < 256 ^ bytes.length := by
  rw [fromOctets, ← foldr_reverse, ← length_reverse]
  induction bytes.reverse with
  | nil => simp
  | cons b bytes ih =>
    have hb := b.toNat_lt
    simp only [foldr_cons, length_cons, pow_succ]
    omega

theorem fromOctets_eq_iff {width n : ℕ} (hn : n < 256 ^ width) {bytes : List UInt8} (hlen : bytes.length = width) :
    fromOctets bytes = n ↔ bytes = octets width n := by
  rw [fromOctets, ← foldr_reverse, octets, ← reverse_eq_iff]
  rw [← length_reverse] at hlen
  generalize bytes.reverse = low at hlen
  -- from the low byte on
  induction low generalizing width n with
  | nil =>
    subst hlen
    simp at hn
    simp [hn, littleEndian]
  | cons b low ih =>
    subst hlen
    have hb := b.toNat_lt
    have hhigh := ih (n := n / 256) (Nat.div_lt_of_lt_mul (by rw [length_cons, pow_succ] at hn; omega)) rfl
    rw [foldr_cons, length_cons, littleEndian, cons.injEq, ← hhigh, ← UInt8.toNat_inj, UInt8.toNat_ofNat']
    omega

/-- Bytes in their order are the address of exactly one byte list. -/
theorem exists_octets {width bits : ℕ} (hbits : 2 ^ bits = 256 ^ width) {ip : Fin (2 ^ bits)} {P : List UInt8 → Prop}
    (hP : ∀ bytes, P bytes → bytes.length = width) :
    (∃ bytes, P bytes ∧ Fin.ofNat (2 ^ bits) (fromOctets bytes) = ip) ↔ P (octets width ip) := by
  have hip : ip.val < 256 ^ width := hbits ▸ ip.isLt
  have hbytes {bytes : List UInt8} (h : bytes.length = width) :
      Fin.ofNat (2 ^ bits) (fromOctets bytes) = ip ↔ bytes = octets width ip := by
    have hlt := fromOctets_lt bytes
    rw [h, ← hbits] at hlt
    rw [← fromOctets_eq_iff hip h, Fin.ext_iff, Fin.val_ofNat, Nat.mod_eq_of_lt hlt]
  constructor
  · rintro ⟨bytes, h, hbytes'⟩
    rwa [← (hbytes (hP _ h)).mp hbytes']
  · intro h
    exact ⟨_, h, (hbytes (hP _ h)).mpr rfl⟩

/-! ## Digits -/

/-- `{:x}` -/
def lowerHex (byte : UInt8) : Text := Nat.toDigits 16 byte.toNat

/-- `to_digit(16)` -/
def toDigit (c : Char) : Option UInt8 :=
  if c.isDigit then some (.ofNat (c.toNat - 48))
  else if 97 ≤ c.toNat ∧ c.toNat ≤ 102 then some (.ofNat (c.toNat - 87))
  else if 65 ≤ c.toNat ∧ c.toNat ≤ 70 then some (.ofNat (c.toNat - 55))
  else none

theorem toDigit_eq_some_iff {c : Char} {nibble : UInt8} (hlower : c.toLower = c) :
    toDigit c = some nibble ↔ nibble < 16 ∧ c = Nat.digitChar nibble.toNat := by
  constructor
  · intro h
    have hascii : ∀ n : Fin 128, (Char.ofNat n).toLower = Char.ofNat n →
      ∀ nibble ∈ toDigit (Char.ofNat n), nibble < 16 ∧ Char.ofNat n = Nat.digitChar nibble.toNat := by decide +kernel
    have hlt : c.toNat < 128 := by
      have hdigit := @toNat_of_isDigit c
      grind [toDigit]
    specialize hascii ⟨c.toNat, hlt⟩
    rw [Char.ofNat_toNat] at hascii
    exact hascii hlower nibble h
  · rintro ⟨hlt, rfl⟩
    have hdigits : ∀ d : Fin 16, toDigit (Nat.digitChar d) = some (.ofNat d) := by decide
    simpa using hdigits ⟨nibble.toNat, hlt⟩

theorem lowerHex_of_lt {nibble : UInt8} (h : nibble < 16) : lowerHex nibble = [Nat.digitChar nibble.toNat] :=
  Nat.toDigits_of_lt_base h

theorem nibbles_iff {high low byte : UInt8} :
    low < 16 ∧ high < 16 ∧ (high <<< 4) ||| low = byte ↔ low = byte &&& 0x0F ∧ high = byte >>> 4 := by
  constructor
  · rintro ⟨hlow, hhigh, rfl⟩
    have hsplit : ∀ high low : Fin 16, UInt8.ofNat low = (UInt8.ofNat high <<< 4 ||| UInt8.ofNat low) &&& 0x0F ∧
      UInt8.ofNat high = (UInt8.ofNat high <<< 4 ||| UInt8.ofNat low) >>> 4 := by decide
    simpa using hsplit ⟨high.toNat, hhigh⟩ ⟨low.toNat, hlow⟩
  · rintro ⟨rfl, rfl⟩
    have hjoin : ∀ n : Fin 256, UInt8.ofNat n &&& 0x0F < 16 ∧ UInt8.ofNat n >>> 4 < 16 ∧
      (UInt8.ofNat n >>> 4) <<< 4 ||| (UInt8.ofNat n &&& 0x0F) = UInt8.ofNat n := by decide +kernel
    simpa using hjoin ⟨byte.toNat, byte.toNat_lt⟩

theorem mapM_eq_some_iff {f : α → Option β} {g : β → α} : ∀ {xs : List α} {ys : List β},
    (∀ x ∈ xs, ∀ y, f x = some y ↔ x = g y) → (xs.mapM f = some ys ↔ xs = ys.map g)
  | [], ys, _ => by cases ys <;> simp
  | x :: xs, ys, h => by
    have ih := @mapM_eq_some_iff _ _ f g xs
    cases ys <;> simp_all [Option.bind_eq_some_iff]

end Zond.Octets

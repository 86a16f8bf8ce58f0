import Mathlib.Logic.Function.Iterate

/-!
# The checksum of an SCTP packet

`crc32c` of `protocols/craft.rs` takes a byte at a time from a table. Beside it stands the checksum it is named for,
which shifts the message out bit by bit (`bitwise`).
-/

namespace Zond.Craft

open BitVec

def reduce (crc : BitVec 32) : BitVec 32 := if crc &&& 1 ≠ 0 then (crc >>> 1) ^^^ 0x82F63B78 else crc >>> 1

def CRC32C_TABLE : Vector (BitVec 32) 256 := Vector.ofFn fun byte => reduce^[8] (BitVec.ofNat 32 byte)

def word (byte : UInt8) : BitVec 32 := byte.toBitVec.setWidth 32

theorem octet_lt (x : BitVec 32) : (x &&& 0xFF).toNat < 256 := by
  rw [toNat_and]
  exact Nat.lt_of_le_of_lt Nat.and_le_right (by decide)

def update (crc : BitVec 32) (byte : UInt8) : BitVec 32 :=
  have := octet_lt (crc ^^^ word byte)
  (crc >>> 8) ^^^ CRC32C_TABLE[((crc ^^^ word byte) &&& 0xFF).toNat]

/-- The checksum, bit by bit. -/
def crc32c (data : List UInt8) : BitVec 32 := ~~~ data.foldl update (~~~ 0)

/-! ## Bit by bit -/

def CASTAGNOLI : BitVec 32 := 0x1EDC6F41

/-- One bit: the remainder is reflected, so its lowest bit leaves, and the polynomial is reflected too. -/
def shift (crc : BitVec 32) : BitVec 32 := (crc >>> 1) ^^^ if crc.getLsbD 0 then CASTAGNOLI.reverse else 0

def bitwise (data : List UInt8) : BitVec 32 :=
  ~~~ data.foldl (fun crc byte => shift^[8] (crc ^^^ word byte)) (BitVec.allOnes 32)

theorem reduce_eq_shift : reduce = shift := by
  funext crc
  have hlow : crc &&& 1 ≠ 0 ↔ crc.getLsbD 0 = true := by
    rw [show (1 : BitVec 32) = 1#32 from rfl, and_one_eq_setWidth_ofBool_getLsbD]
    cases crc.getLsbD 0 <;> decide
  have hreflected : CASTAGNOLI.reverse = 0x82F63B78 := by decide +kernel
  simp only [reduce, shift, hreflected, hlow]
  split <;> simp

/-- A shift is linear. -/
theorem shift_xor (x y : BitVec 32) : shift (x ^^^ y) = shift x ^^^ shift y := by
  apply eq_of_getLsbD_eq
  intro i hi
  simp only [shift, getLsbD_xor, getLsbD_ushiftRight]
  cases x.getLsbD 0 <;> cases y.getLsbD 0 <;> simp <;> grind

theorem iterate_shift_xor (n : ℕ) (x y : BitVec 32) : shift^[n] (x ^^^ y) = shift^[n] x ^^^ shift^[n] y := by
  induction n generalizing x y with
  | zero => rfl
  | succ n ih => simp only [Function.iterate_succ_apply, shift_xor, ih]

/-- What has its low bits clear only moves down. -/
theorem iterate_shift_of_clear {x : BitVec 32} : ∀ {n : ℕ}, (∀ i < n, x.getLsbD i = false) → shift^[n] x = x >>> n
  | 0, _ => by simp
  | n + 1, h => by
    have hlow : (x >>> n).getLsbD 0 = false := by simpa using h n (Nat.lt_succ_self n)
    rw [Function.iterate_succ_apply', iterate_shift_of_clear fun i hi => h i (Nat.lt_succ_of_lt hi), shift, hlow]
    simp [shiftRight_add]

/-- Eight shifts: the low byte leaves its remainder, and the rest moves down. -/
theorem shift_byte (x : BitVec 32) : shift^[8] x = (x >>> 8) ^^^ shift^[8] (x &&& 0xFF) := by
  have hmask (i : ℕ) : (0xFF : BitVec 32).getLsbD i = decide (i < 8) := by
    rw [show (0xFF : BitVec 32) = (BitVec.allOnes 8).setWidth 32 from rfl, getLsbD_setWidth,
      getLsbD_allOnes]
    by_cases hi : i < 8 <;> simp [hi]
    omega
  have hsplit : x = ((x >>> 8) <<< 8) ^^^ (x &&& 0xFF) := by
    apply eq_of_getLsbD_eq
    intro i hi
    simp only [getLsbD_xor, getLsbD_and, getLsbD_shiftLeft, getLsbD_ushiftRight, hmask, hi]
    by_cases h : i < 8
    · simp [h]
    · simp [h, Nat.add_sub_cancel' (Nat.le_of_not_lt h)]
  have hdown : shift^[8] ((x >>> 8) <<< 8) = x >>> 8 := by
    rw [iterate_shift_of_clear fun i hi => by simp [hi]]
    apply eq_of_getLsbD_eq
    intro i hi
    by_cases h : 8 + i < 32
    · simp [h]
    · simp [getLsbD_of_ge x (8 + i) (by omega)]
  calc shift^[8] x = shift^[8] (((x >>> 8) <<< 8) ^^^ (x &&& 0xFF)) := congrArg _ hsplit
    _ = (x >>> 8) ^^^ shift^[8] (x &&& 0xFF) := by rw [iterate_shift_xor, hdown]

theorem update_eq (crc : BitVec 32) (byte : UInt8) : update crc byte = shift^[8] (crc ^^^ word byte) := by
  have hword : (crc ^^^ word byte) >>> 8 = crc >>> 8 := by
    apply eq_of_getLsbD_eq
    intro i hi
    simp [word]
  rw [shift_byte, hword, update, CRC32C_TABLE, Vector.getElem_ofFn, ofNat_toNat, setWidth_eq, reduce_eq_shift]

/-- **The table gives the bitwise checksum**, and each of its entries is the remainder of its index. -/
theorem crc32c_eq_bitwise (data : List UInt8) : crc32c data = bitwise data ∧
    ∀ byte : Fin 256, CRC32C_TABLE[byte] = shift^[8] (BitVec.ofNat 32 byte) := by
  constructor
  · simp only [crc32c, bitwise, ← update_eq]
    rfl
  · intro byte
    rw [← reduce_eq_shift]
    exact Vector.getElem_ofFn _

example : crc32c [49, 50, 51, 52, 53, 54, 55, 56, 57] = 0xE3069283 := by decide +kernel

end Zond.Craft

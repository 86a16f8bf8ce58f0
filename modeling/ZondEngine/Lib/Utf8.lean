import ZondEngine.Lib.Text

/-!
# Texts as bytes

A text in UTF-8 (`encode`) and the text bytes spell, if they spell one (`decode`); the two are inverse (`decode_encode`,
`encode_of_decode`).
-/

namespace Zond.Utf8

open List

abbrev Bytes := List UInt8

def encode (text : Text) : Bytes := text.flatMap String.utf8EncodeChar

def decodeFirst (bytes : Bytes) : Option Char := bytes.toByteArray.utf8DecodeChar? 0

def decodeFuel : Nat → Bytes → Option Text
  | _, [] => some []
  | 0, _ :: _ => none
  | fuel + 1, b :: bytes => do
    let c ← decodeFirst (b :: bytes)
    let text ← decodeFuel fuel ((b :: bytes).drop c.utf8Size)
    return c :: text

def decode (bytes : Bytes) : Option Text := decodeFuel bytes.length bytes

theorem encode_nil : encode [] = [] := rfl

theorem encode_cons (c : Char) (text : Text) : encode (c :: text) = String.utf8EncodeChar c ++ encode text := rfl

theorem encode_append (s t : Text) : encode (s ++ t) = encode s ++ encode t := flatMap_append

theorem decodeFirst_append (c : Char) (bytes : Bytes) : decodeFirst (String.utf8EncodeChar c ++ bytes) = some c := by
  rw [decodeFirst, toByteArray_append]
  exact ByteArray.utf8DecodeChar?_utf8EncodeChar_append

theorem eq_append_of_decodeFirst {bytes : Bytes} {c : Char} (h : decodeFirst bytes = some c) :
    bytes = String.utf8EncodeChar c ++ bytes.drop c.utf8Size := by
  obtain ⟨rest, hrest⟩ := ByteArray.exists_of_utf8DecodeChar?_eq_some h
  have hdata := congrArg (fun b : ByteArray => b.data.toList) hrest
  simp only [ByteArray.data_append, data_toByteArray, Array.toList_append] at hdata
  have hlist : bytes = String.utf8EncodeChar c ++ rest.data.toList := hdata
  rw [hlist, drop_left' (String.length_utf8EncodeChar c)]

theorem encode_of_decodeFuel : ∀ {fuel : Nat} {bytes : Bytes} {text : Text}, decodeFuel fuel bytes = some text →
    encode text = bytes
  | _, [], text, h => by
    rw [decodeFuel] at h
    cases h
    rfl
  | 0, _ :: _, text, h => by cases h
  | fuel + 1, b :: bytes, text, h => by
    simp only [decodeFuel, Option.bind_eq_bind, Option.bind_eq_some_iff] at h
    obtain ⟨c, hc, rest, hrest, htext⟩ := h
    cases htext
    rw [encode_cons, encode_of_decodeFuel hrest, ← eq_append_of_decodeFirst hc]

theorem encode_of_decode {bytes : Bytes} {text : Text} (h : decode bytes = some text) : encode text = bytes :=
  encode_of_decodeFuel h

theorem decodeFuel_encode (text : Text) : ∀ {fuel : Nat}, (encode text).length ≤ fuel →
    decodeFuel fuel (encode text) = some text := by
  induction text with
  | nil =>
    intro fuel _
    cases fuel <;> rfl
  | cons c text ih =>
    intro fuel hfuel
    have hlen := String.length_utf8EncodeChar c
    have hpos := Char.utf8Size_pos c
    rw [encode_cons, length_append] at hfuel
    cases fuel with
    | zero => omega
    | succ fuel =>
      have hfirst := decodeFirst_append c (encode text)
      rw [encode_cons]
      cases hbytes : String.utf8EncodeChar c ++ encode text with
      | nil => exact absurd (append_eq_nil_iff.mp hbytes).1 String.utf8EncodeChar_ne_nil
      | cons b bytes =>
        rw [hbytes] at hfirst
        simp only [decodeFuel, hfirst, Option.bind_eq_bind, Option.bind_some]
        rw [← hbytes, drop_left' hlen, ih (by omega)]
        rfl

/-- **A text is decoded from its encoding.** -/
theorem decode_encode (text : Text) : decode (encode text) = some text := decodeFuel_encode text le_rfl

/-- **Where the text of some bytes starts, so do the bytes**: no encoding of a character is part of another. -/
theorem isPrefix_of_encode : ∀ {s t : Text}, encode s <+: encode t → s <+: t
  | [], t, _ => nil_prefix
  | c :: s, [], h => by
    rw [encode_nil, prefix_nil, encode_cons] at h
    exact absurd (append_eq_nil_iff.mp h).1 String.utf8EncodeChar_ne_nil
  | c :: s, d :: t, h => by
    obtain ⟨rest, hrest⟩ := h
    rw [encode_cons, encode_cons, append_assoc] at hrest
    have hfirst := decodeFirst_append c (encode s ++ rest)
    rw [hrest, decodeFirst_append] at hfirst
    cases hfirst
    have htail := append_cancel_left hrest
    exact prefix_cons_inj c |>.mpr (isPrefix_of_encode ⟨rest, htail⟩)

/-! ## ASCII -/

theorem encodeChar_of_lt {c : Char} (h : c.toNat < 128) : String.utf8EncodeChar c = [UInt8.ofNat c.toNat] := by
  have : c.val.toNat ≤ 127 := Nat.le_of_lt_succ h
  simp only [String.utf8EncodeChar, this, if_true]
  rfl

theorem ge_of_mem_encodeChar {c : Char} (h : ¬ c.toNat < 128) {b : UInt8} (hb : b ∈ String.utf8EncodeChar c) :
    128 ≤ b := by
  have hbig : ¬ c.val.toNat ≤ 127 := fun hle => h (Nat.lt_succ_of_le hle)
  simp only [String.utf8EncodeChar, hbig, if_false] at hb
  rw [UInt8.le_iff_toNat_le, show (128 : UInt8).toNat = 128 from rfl]
  split at hb
  · simp only [mem_cons, not_mem_nil, or_false] at hb
    rcases hb with rfl | rfl <;> · rw [UInt8.toNat_ofNat']; omega
  · split at hb
    · simp only [mem_cons, not_mem_nil, or_false] at hb
      rcases hb with rfl | rfl | rfl <;> · rw [UInt8.toNat_ofNat']; omega
    · simp only [mem_cons, not_mem_nil, or_false] at hb
      rcases hb with rfl | rfl | rfl | rfl <;> · rw [UInt8.toNat_ofNat']; omega

theorem mem_encode_ascii {a : Char} (ha : a.toNat < 128) {text : Text} (h : UInt8.ofNat a.toNat ∈ encode text) :
    a ∈ text := by
  obtain ⟨c, hc, hb⟩ := mem_flatMap.mp h
  have hval : (UInt8.ofNat a.toNat).toNat = a.toNat := UInt8.toNat_ofNat_of_lt' (by show _ < 256; omega)
  by_cases hsmall : c.toNat < 128
  · rw [encodeChar_of_lt hsmall, mem_singleton, ← UInt8.toNat_inj, hval,
      UInt8.toNat_ofNat_of_lt' (by show _ < 256; omega)] at hb
    rwa [Char.toNat_inj.mp hb]
  · have hge := UInt8.le_iff_toNat_le.mp (ge_of_mem_encodeChar hsmall hb)
    rw [hval, show (128 : UInt8).toNat = 128 from rfl] at hge
    omega

theorem getLast?_encode {a : Char} (ha : a.toNat < 128) (text : Text) :
    (encode text).getLast? = some (UInt8.ofNat a.toNat) ↔ text.getLast? = some a := by
  rcases eq_nil_or_concat text with rfl | ⟨front, c, rfl⟩
  · simp [encode]
  have hlast : (encode (front ++ [c])).getLast? = (String.utf8EncodeChar c).getLast? := by
    rw [encode_append, encode_cons, encode_nil, append_nil, getLast?_append_of_ne_nil _ String.utf8EncodeChar_ne_nil]
  rw [concat_eq_append, hlast, getLast?_concat, Option.some.injEq]
  constructor
  · intro h
    have hmem : UInt8.ofNat a.toNat ∈ encode [c] := by
      rw [encode_cons, encode_nil, append_nil]
      exact mem_of_getLast? h
    exact (mem_singleton.mp (mem_encode_ascii ha hmem)).symm
  · rintro rfl
    rw [encodeChar_of_lt ha]
    rfl

end Zond.Utf8

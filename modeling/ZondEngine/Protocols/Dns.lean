import ZondEngine.Lib.Octets
import ZondEngine.Model.Ip.Range

/-!
# Reverse names

`reverse_pointer_name` and `address_from_pointer_name` of `protocols/dns.rs`: up to the case of its letters and trailing
dots, a name is read as an address exactly when it is the name written for that address.
-/

namespace Zond.Dns

open List Text Ip Octets

/-! ## Writing and reading -/

def IPV4_ARPA_SUFFIX : Text := ".in-addr.arpa"

def IPV6_ARPA_SUFFIX : Text := ".ip6.arpa"

def IPV6_NIBBLES : ℕ := 32

/-- The name an address is looked up under. -/
def reversePointerName : IpAddr → Text
  | .v4 ip => intercalate ['.'] ((octets 4 ip).reverse.map fun octet => decimal octet.toNat) ++ IPV4_ARPA_SUFFIX
  | .v6 ip =>
    let name := (octets 16 ip).reverse.flatMap fun byte =>
      lowerHex (byte &&& 0x0F) ++ '.' :: lowerHex (byte >>> 4) ++ ['.']
    name.dropLast ++ IPV6_ARPA_SUFFIX

def octet (label : Text) : Option UInt8 := do
  let value ← (parseUnsigned 256 label).toOption
  if label = decimal value then some (.ofNat value) else none

def parseIpv4Pointer (labels : Text) : Option IpAddr :=
  match labels.splitOn '.' with
  | [d, c, b, a] => do
    let octets ← [a, b, c, d].mapM octet
    some (.v4 (Fin.ofNat _ (fromOctets octets)))
  | _ => none

def hexNibble : Text → Option UInt8
  | [c] => toDigit c
  | _ => none

/-- `rchunks(2)` of a list that is given from its end. -/
def rchunks : List Text → List (Text × Text)
  | high :: low :: labels => (low, high) :: rchunks labels
  | [] | [_] => []

def readByte (pair : Text × Text) : Option UInt8 := do
  let low ← hexNibble pair.1
  let high ← hexNibble pair.2
  some ((high <<< 4) ||| low)

def parseIpv6Pointer (labels : Text) : Option IpAddr :=
  let labels := labels.splitOn '.'
  if labels.length ≠ IPV6_NIBBLES then none
  else do
    let octets ← (rchunks labels.reverse).mapM readByte
    some (.v6 (Fin.ofNat _ (fromOctets octets)))

def normalise (name : Text) : Text := (name.rdropWhile (· == '.')).map Char.toLower

/-- The address such a name stands for. -/
def addressFromPointerName (name : Text) : Option IpAddr :=
  let name := normalise name
  match stripSuffix IPV4_ARPA_SUFFIX name with
  | some labels => parseIpv4Pointer labels
  | none =>
    match stripSuffix IPV6_ARPA_SUFFIX name with
    | some labels => parseIpv6Pointer labels
    | none => none

/-! ## Labels -/

theorem octet_eq_some_iff {label : Text} {value : UInt8} : octet label = some value ↔ label = decimal value.toNat := by
  constructor
  · intro h
    obtain ⟨n, hn, h⟩ := Option.bind_eq_some_iff.mp h
    obtain ⟨rfl, rfl⟩ : label = decimal n ∧ UInt8.ofNat n = value := by simpa using h
    -- what `parse` accepts is below the bound
    rw [toOption_parseUnsigned (by decide) (decimal_ne_nil n) fun c => isDigit_of_mem_decimal,
      Option.ite_none_right_eq_some, Option.some.injEq] at hn
    rw [UInt8.toNat_ofNat', Nat.mod_eq_of_lt (by omega)]
  · rintro rfl
    simp [octet, parseUnsigned_decimal value.toNat_lt, Except.toOption]

theorem hexNibble_eq_some_iff {label : Text} {nibble : UInt8} (hlower : ∀ c ∈ label, c.toLower = c) :
    hexNibble label = some nibble ↔ nibble < 16 ∧ label = lowerHex nibble := by
  rw [and_congr_right fun h => by rw [lowerHex_of_lt h]]
  match label with
  | [] | _ :: _ :: _ => simp [hexNibble]
  | [c] =>
    rw [hexNibble, toDigit_eq_some_iff (hlower c mem_cons_self)]
    simp

theorem readByte_eq_some_iff {pair : Text × Text} {byte : UInt8} (hlow : ∀ c ∈ pair.1, c.toLower = c)
    (hhigh : ∀ c ∈ pair.2, c.toLower = c) :
    readByte pair = some byte ↔ pair = (lowerHex (byte &&& 0x0F), lowerHex (byte >>> 4)) := by
  simp only [readByte, Option.bind_eq_bind, Option.bind_eq_some_iff, hexNibble_eq_some_iff hlow,
    hexNibble_eq_some_iff hhigh,
    Option.some.injEq, Prod.ext_iff]
  constructor
  · rintro ⟨low, ⟨hlow, hlow'⟩, high, ⟨hhigh, hhigh'⟩, hbyte⟩
    obtain ⟨rfl, rfl⟩ := nibbles_iff.mp ⟨hlow, hhigh, hbyte⟩
    exact ⟨hlow', hhigh'⟩
  · rintro ⟨hlow', hhigh'⟩
    obtain ⟨hlow, hhigh, hbyte⟩ := nibbles_iff.mpr ⟨rfl, rfl⟩
    exact ⟨_, ⟨hlow, hlow'⟩, _, ⟨hhigh, hhigh'⟩, hbyte⟩

/-! ## Names -/

theorem toLower_toLower (c : Char) : c.toLower.toLower = c.toLower := by
  by_cases h : c.val ≥ 'A'.val ∧ c.val ≤ 'Z'.val
  · have hlow : c.toLower = ⟨c.val + ('a'.val - 'A'.val), _⟩ := dif_pos h
    refine dif_neg ?_
    rw [hlow]
    clear hlow
    grind
  · have hsame : c.toLower = c := dif_neg h
    rw [hsame, hsame]

def Lower (text : Text) : Prop := ∀ c ∈ text, c.toLower = c

theorem lower_intercalate {labels : List Text} : Lower (intercalate ['.'] labels) ↔ ∀ label ∈ labels, Lower label :=
  forall_mem_intercalate (by decide)

theorem splitOn_eq_iff {text : Text} {labels : List Text} (hne : labels ≠ []) (hdot : ∀ label ∈ labels, '.' ∉ label) :
    text.splitOn '.' = labels ↔ text = intercalate ['.'] labels := by
  constructor
  · rintro rfl
    exact (intercalate_splitOn '.').symm
  · rintro rfl
    exact splitOn_intercalate '.' hdot hne

theorem suffix_ne {a b : Text} : a ++ IPV4_ARPA_SUFFIX ≠ b ++ IPV6_ARPA_SUFFIX := by
  intro h
  rw [← take_append_drop 4 IPV4_ARPA_SUFFIX, ← append_assoc] at h
  exact absurd (append_inj' h rfl).2 (by decide)

theorem notMem_decimal (n : ℕ) : '.' ∉ decimal n := fun h => absurd (isDigit_of_mem_decimal h) (by decide)

theorem parseIpv4Pointer_eq_some_iff {labels : Text} {ip : Ipv4Addr} : parseIpv4Pointer labels = some (.v4 ip) ↔
    labels = intercalate ['.'] ((octets 4 ip).reverse.map fun octet => decimal octet.toNat) := by
  rw [← splitOn_eq_iff (by simp [octets, littleEndian]) (by simp [notMem_decimal]), parseIpv4Pointer]
  split
  next d c b a heq =>
    have hread := @exists_octets 4 32 rfl ip (fun bytes => [a, b, c, d] = bytes.map fun octet => decimal octet.toNat)
      fun bytes h => by simpa using (congrArg length h).symm
    simp only [Option.bind_eq_bind, Option.bind_eq_some_iff, Option.some.injEq, IpAddr.v4.injEq,
      mapM_eq_some_iff fun _ _ _ => octet_eq_some_iff, hread]
    rw [heq, map_reverse, ← reverse_eq_iff]
    rfl
  next hfour =>
    simp only [reduceCtorEq, false_iff]
    exact hfour _ _ _ _

theorem mem_of_mem_rchunks : ∀ {labels : List Text} {pair : Text × Text}, pair ∈ rchunks labels →
    pair.1 ∈ labels ∧ pair.2 ∈ labels
  | high :: low :: labels, pair, h => by
    have ih := @mem_of_mem_rchunks labels pair
    simp only [rchunks] at h
    grind

theorem length_rchunks : ∀ labels : List Text, (rchunks labels).length = labels.length / 2
  | [] => rfl
  | [_] => by simp [rchunks]
  | high :: low :: labels => by
    rw [rchunks, length_cons, length_rchunks labels, length_cons, length_cons]
    omega

theorem rchunks_eq_iff (low high : UInt8 → Text) : ∀ {labels : List Text} {bytes : List UInt8},
    labels.length = 2 * bytes.length →
    (rchunks labels = bytes.map (fun byte => (low byte, high byte)) ↔
      labels = bytes.flatMap fun byte => [high byte, low byte])
  | [], [], _ => by simp [rchunks]
  | x :: y :: labels, byte :: bytes, hlen => by
    have ih := @rchunks_eq_iff low high labels bytes (by simp at hlen; omega)
    simp [rchunks, ih]
    tauto
  | [_], [], h | [_], _ :: _, h => by simp at h; try omega

/-- The labels of an IPv6 address, the low nibble first. -/
def nibbles (ip : Ipv6Addr) : List Text :=
  (octets 16 ip).reverse.flatMap fun byte => [lowerHex (byte &&& 0x0F), lowerHex (byte >>> 4)]

theorem exists_digitChar {ip : Ipv6Addr} {label : Text} (h : label ∈ nibbles ip) :
    ∃ d : Fin 16, label = [Nat.digitChar d] := by
  simp only [nibbles, mem_flatMap, mem_cons, not_mem_nil, or_false] at h
  obtain ⟨byte, -, h⟩ := h
  obtain ⟨hlow, hhigh, -⟩ := nibbles_iff.mpr ⟨rfl, @rfl _ (byte >>> 4)⟩
  rcases h with rfl | rfl
  · exact ⟨⟨_, hlow⟩, lowerHex_of_lt hlow⟩
  · exact ⟨⟨_, hhigh⟩, lowerHex_of_lt hhigh⟩

theorem dropLast_flatMap : ∀ labels : List Text, (labels.flatMap (· ++ ['.'])).dropLast = intercalate ['.'] labels
  | [] => rfl
  | [label] => by simp
  | label :: next :: labels => by
    rw [flatMap_cons, dropLast_append_of_ne_nil (by simp), dropLast_flatMap (next :: labels), intercalate_cons_cons]

theorem parseIpv6Pointer_eq_some_iff {labels : Text} {ip : Ipv6Addr} (hlower : Lower labels) :
    parseIpv6Pointer labels = some (.v6 ip) ↔ labels = intercalate ['.'] (nibbles ip) := by
  have hdots : ∀ label ∈ nibbles ip, '.' ∉ label := by
    intro label hlabel
    obtain ⟨d, rfl⟩ := exists_digitChar hlabel
    clear hlabel
    revert d
    decide
  have hcount : (nibbles ip).length = IPV6_NIBBLES := by simp [nibbles, octets, littleEndian, IPV6_NIBBLES]
  rw [← splitOn_eq_iff (ne_nil_of_length_pos (by rw [hcount]; decide)) hdots, parseIpv6Pointer]
  rw [← @intercalate_splitOn _ labels _ _ '.', lower_intercalate] at hlower
  generalize labels.splitOn '.' = labels at *
  by_cases hlen : labels.length = IPV6_NIBBLES
  · have hread := @exists_octets 16 128 rfl ip (fun bytes => rchunks labels.reverse =
      bytes.map fun byte => (lowerHex (byte &&& 0x0F), lowerHex (byte >>> 4))) fun bytes h => by
        have h := congrArg length h
        rw [length_rchunks, length_reverse, length_map, hlen] at h
        exact h.symm
    have hbytes : ∀ pair ∈ rchunks labels.reverse, ∀ byte, readByte pair = some byte ↔
        pair = (lowerHex (byte &&& 0x0F), lowerHex (byte >>> 4)) := by
      intro pair hpair byte
      obtain ⟨hlow, hhigh⟩ := mem_of_mem_rchunks hpair
      exact readByte_eq_some_iff (hlower _ (mem_reverse.mp hlow)) (hlower _ (mem_reverse.mp hhigh))
    simp only [ne_eq, hlen, not_true_eq_false, if_false, Option.bind_eq_bind, Option.bind_eq_some_iff,
      Option.some.injEq,
      IpAddr.v6.injEq, mapM_eq_some_iff hbytes, hread]
    rw [rchunks_eq_iff _ _ (by simp [hlen, octets, length_littleEndian, IPV6_NIBBLES]), nibbles, flatMap_reverse,
      reverse_eq_iff]
    rfl
  · simp only [ne_eq, hlen, not_false_eq_true, if_true, reduceCtorEq, false_iff]
    rintro rfl
    exact hlen hcount

theorem reversePointerName_v6 (ip : Ipv6Addr) :
    reversePointerName (.v6 ip) = intercalate ['.'] (nibbles ip) ++ IPV6_ARPA_SUFFIX := by
  rw [← dropLast_flatMap, nibbles, flatMap_assoc]
  simp [reversePointerName]

theorem lower_reversePointerName : ∀ ip : IpAddr, Lower (reversePointerName ip)
  | .v4 ip => by
    refine forall_mem_append.mpr ⟨lower_intercalate.mpr fun label hlabel c hc => ?_, map_inj_left.mp rfl⟩
    obtain ⟨octet, -, rfl⟩ := mem_map.mp hlabel
    exact toLower_of_isDigit (isDigit_of_mem_decimal hc)
  | .v6 ip => by
    rw [reversePointerName_v6]
    refine forall_mem_append.mpr ⟨lower_intercalate.mpr fun label hlabel => ?_, map_inj_left.mp rfl⟩
    obtain ⟨d, rfl⟩ := exists_digitChar hlabel
    have hdigits : ∀ n ∈ range 16, (Nat.digitChar n).toLower = Nat.digitChar n := map_inj_left.mp rfl
    exact forall_mem_singleton.mpr (hdigits d (mem_range.mpr d.isLt))

theorem normalise_reversePointerName (ip : IpAddr) : normalise (reversePointerName ip) = reversePointerName ip := by
  have hlast : ∃ front, reversePointerName ip = front ++ ['a'] := by
    cases ip with
    | v4 ip => exact ⟨_, (append_assoc _ (IPV4_ARPA_SUFFIX.take 12) _).symm⟩
    | v6 ip => exact ⟨_, (append_assoc _ (IPV6_ARPA_SUFFIX.take 8) _).symm⟩
  have hlower := map_congr_left (lower_reversePointerName ip)
  obtain ⟨front, hfront⟩ := hlast
  rw [normalise, hfront, rdropWhile_concat_neg _ _ _ (by decide), ← hfront, hlower, map_id']

theorem addressFromPointerName_eq_some_iff (name : Text) (ip : IpAddr) :
    addressFromPointerName name = some ip ↔ normalise name = reversePointerName ip := by
  have hlower : Lower (normalise name) := by
    intro c hc
    obtain ⟨d, -, rfl⟩ := mem_map.mp hc
    exact toLower_toLower d
  rw [addressFromPointerName]
  generalize normalise name = name at *
  cases h4 : stripSuffix IPV4_ARPA_SUFFIX name with
  | some labels =>
    obtain rfl := stripSuffix_eq_some_iff.mp h4
    cases ip with
    | v4 ip =>
      rw [reversePointerName, append_left_inj]
      exact parseIpv4Pointer_eq_some_iff
    | v6 ip =>
      refine iff_of_false ?_ suffix_ne
      simp only [parseIpv4Pointer]
      split <;> simp [Option.bind_eq_some_iff]
  | none =>
    cases h6 : stripSuffix IPV6_ARPA_SUFFIX name with
    | some labels =>
      obtain rfl := stripSuffix_eq_some_iff.mp h6
      cases ip with
      | v4 ip =>
        refine iff_of_false ?_ suffix_ne.symm
        simp [parseIpv6Pointer, Option.bind_eq_some_iff]
      | v6 ip =>
        rw [reversePointerName_v6, append_left_inj]
        exact parseIpv6Pointer_eq_some_iff fun c hc => hlower c (mem_append_left _ hc)
    | none =>
      refine iff_of_false nofun fun h => ?_
      cases ip with
      | v4 ip => exact absurd (stripSuffix_eq_some_iff.mpr h) (by simp [h4])
      | v6 ip => exact absurd (stripSuffix_eq_some_iff.mpr (h.trans (reversePointerName_v6 ip))) (by simp [h6])

/-- **Reverse names and addresses correspond.** -/
theorem addressFromPointerName_iff (ip : IpAddr) :
    (∀ name, addressFromPointerName name = some ip ↔ normalise name = reversePointerName ip) ∧
    addressFromPointerName (reversePointerName ip) = some ip :=
  ⟨(addressFromPointerName_eq_some_iff · ip),
    (addressFromPointerName_eq_some_iff _ ip).mpr (normalise_reversePointerName ip)⟩

end Zond.Dns

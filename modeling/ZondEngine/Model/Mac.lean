import ZondEngine.Lib.Octets
import ZondEngine.Lib.Word

/-!
# Hardware addresses

`model/mac.rs`: a hardware address, how it is written and read (`MacAddr.parse_display`), and who made the hardware.
Only the table of the `mac_oui` crate is left open.
-/

namespace Zond

open List Octets

/-- An address of 48 bits, the first octet the most significant. -/
abbrev MacAddr : Type := Fin (2 ^ 48)

namespace MacAddr

variable (mac : MacAddr)

def octets : List UInt8 := Octets.octets 6 mac

/-- The second bit of the first octet marks an address no manufacturer was allocated. -/
def isLocallyAdministered : Bool := (octets mac).headD 0 &&& 0b00000010 != 0

/-- `{:02x}` -/
def paddedHex (octet : UInt8) : Text := (lowerHex octet).leftpad 2 '0'

def display : Text := intercalate [':'] ((octets mac).map paddedHex)

/-- `u8::from_str_radix` in base 16, of a part that has to be two bytes long; a sign may stand first. -/
def readOctet (part : Text) : Option UInt8 :=
  if (part.map Char.utf8Size).sum ≠ 2 then none
  else match part with
    | ['+', low] => toDigit low
    | [high, low] => do return 16 * (← toDigit high) + (← toDigit low)
    | _ => none

/-- The octets may stand between colons or hyphens. -/
def parse (text : Text) : Option MacAddr := do
  let octets ← ((Text.trim text).splitOnP fun c => c == ':' || c == '-').mapM readOctet
  if octets.length = 6 then some (Fin.ofNat _ (fromOctets octets)) else none

theorem paddedHex_spec (octet : UInt8) : readOctet (paddedHex octet) = some octet ∧
    ∀ c ∈ paddedHex octet, (c == ':' || c == '-') = false ∧ Text.isWhitespace c = false := by
  have hall : ∀ n ∈ range 256, readOctet (paddedHex (.ofNat n)) = some (.ofNat n) ∧
      (paddedHex (.ofNat n)).all fun c => !(c == ':' || c == '-') && !Text.isWhitespace c := by
    decide +kernel
  simpa using hall octet.toNat (mem_range.mpr octet.toNat_lt)

/-- **An address is read back as it was written.** -/
@[simp]
theorem parse_display : parse (display mac) = some mac := by
  have hchars : ∀ part ∈ (octets mac).map paddedHex, ∀ c ∈ part,
      (c == ':' || c == '-') = false ∧ Text.isWhitespace c = false := by
    intro part hpart
    obtain ⟨octet, -, rfl⟩ := mem_map.mp hpart
    exact (paddedHex_spec octet).2
  have htrim : Text.trim (display mac) = display mac :=
    Text.trim_eq_self ((Text.forall_mem_intercalate (by decide)).mpr fun part hpart c hc => (hchars part hpart c hc).2)
  have hlength : (octets mac).length = 6 := by simp [octets, Octets.octets, length_littleEndian]
  have hsplit : (display mac).splitOnP (fun c => c == ':' || c == '-') = (octets mac).map paddedHex :=
    Text.splitOnP_intercalate rfl (ne_nil_of_length_pos (by simp [hlength])) fun part hpart c hc =>
      (hchars part hpart c hc).1
  have hread : ((octets mac).map paddedHex).mapM readOctet = some (octets mac) := by
    have hsome : readOctet ∘ paddedHex = fun octet => pure (id octet) := funext fun octet => (paddedHex_spec octet).1
    rw [mapM_map, hsome, mapM_pure, map_id]
    rfl
  have hvalue : fromOctets (octets mac) = mac := (fromOctets_eq_iff mac.isLt hlength).mpr rfl
  simp [parse, htrim, hsplit, hread, hlength, hvalue]

end MacAddr

/-- The table of the `mac_oui` crate: the company an address, as it is written, is allocated to. -/
structure Oui where
  lookupByMac : Text → Option Text

/-- Who made the hardware; no one for an address that was assigned locally. -/
def Oui.vendor (t : Oui) (mac : MacAddr) : Option Text :=
  if mac.isLocallyAdministered then none else t.lookupByMac mac.display

end Zond

import ZondEngine.Lib.Octets
import ZondEngine.Lib.Word

/-!
# Addresses as the standard library reads them

The parser behind `Ipv4Addr::from_str` and `Ipv6Addr::from_str`: a reader takes what it can from the front of a text,
and an address is read where nothing is left.
-/

namespace Zond.NetAddr

open List Octets

/-- What was read of a text, and the rest of it. -/
abbrev Reader (α : Type) := Text → Option (α × Text)

/-- `to_digit` -/
def digit (radix : Nat) (c : Char) : Option Nat := ((toDigit c).map UInt8.toNat).filter (· < radix)

/-- All digits that follow, at most so many, as a number below the bound; zeros may only lead where that is allowed. -/
def readNumber (radix maxDigits : Nat) (allowZeroPrefix : Bool) (bound : Nat) : Reader Nat := fun text =>
  let digits := text.takeWhile fun c => (digit radix c).isSome
  let value := (digits.filterMap (digit radix)).foldl (fun value d => radix * value + d) 0
  if digits = [] || digits.length > maxDigits ||
      !allowZeroPrefix && digits.head? == some '0' && digits.length > 1 then none
  else if value < bound then some (value, text.drop digits.length)
  else none

/-- Reads behind the separator, which the first of several values goes without. -/
def readSeparator {α : Type} (separator : Char) (first : Bool) (inner : Reader α) : Reader α := fun text =>
  if first then inner text
  else match text with
    | [] => none
    | c :: rest => if c = separator then inner rest else none

/-- Four numbers of up to three digits, between dots. -/
def readIpv4Addr : Reader Nat := fun text => do
  let octet := readNumber 10 3 false 256
  let (a, text) ← octet text
  let (b, text) ← readSeparator '.' false octet text
  let (c, text) ← readSeparator '.' false octet text
  let (d, text) ← readSeparator '.' false octet text
  return (256 * (256 * (256 * a + b) + c) + d, text)

/-- Up to so many groups between colons, whether an IPv4 address stood for the last two, and the rest. -/
def readGroups : Nat → Bool → Text → List Nat × Bool × Text
  | 0, _, text => ([], false, text)
  | left + 1, first, text =>
    match if left = 0 then none else readSeparator ':' first readIpv4Addr text with
    | some (ip, rest) => ([ip / 65536, ip % 65536], true, rest)
    | none =>
      match readSeparator ':' first (readNumber 16 4 true 65536) text with
      | none => ([], false, text)
      | some (group, rest) =>
        let (groups, ipv4, rest) := readGroups left false rest
        (group :: groups, ipv4, rest)

/-- Eight groups, or fewer around one `::` that stands for at least one. -/
def readIpv6Addr : Reader (List Nat) := fun text =>
  let (head, ipv4, rest) := readGroups 8 true text
  if head.length = 8 then some (head, rest)
  else if ipv4 then none
  else match rest with
    | ':' :: ':' :: rest =>
      let (tail, _, rest) := readGroups (8 - (head.length + 1)) true rest
      some (head ++ replicate (8 - tail.length - head.length) 0 ++ tail, rest)
    | _ => none

/-- What a reader makes of a whole text. -/
def parseWith {α : Type} (inner : Reader α) (text : Text) : Option α :=
  (inner text).bind fun (value, rest) => if rest = [] then some value else none

def parseIpv4Addr (text : Text) : Option (Fin (2 ^ 32)) := (parseWith readIpv4Addr text).map (Fin.ofNat _)

def parseIpv6Addr (text : Text) : Option (Fin (2 ^ 128)) :=
  (parseWith readIpv6Addr text).map fun groups =>
    Fin.ofNat _ (groups.foldl (fun value group => 65536 * value + group) 0)

example : parseIpv4Addr "192.0.2.1" = some 0xc0000201 ∧ parseIpv4Addr "192.0.02.1" = none := by
  decide +kernel

example : parseIpv6Addr "2001:db8::192.0.2.1" = some 0x20010db80000000000000000c0000201 ∧
    parseIpv6Addr "1:2:3:4:5:6:7::8" = none := by
  decide +kernel

end Zond.NetAddr

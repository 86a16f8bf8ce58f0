import ZondEngine.Lib.NetAddr
import ZondEngine.Model.Exclusion

/-!
# Addresses, as a person writes them

The grammar of `model/parse/ip.rs` and `IpRange::from_str`. Keywords and interfaces are looked up by functions of the
caller.
-/

namespace Zond.Parse

open Zond.Ip Zond.Text Zond.NetAddr

/-- `IpAddr::from_str` -/
def parseIpAddr (text : Text) : Option IpAddr := (parseIpv4Addr text).map .v4 <|> (parseIpv6Addr text).map .v6

def okOr {ε α : Type} (value : Option α) (error : ε) : Except ε α := value.elim (.error error) .ok

/-! ## Ranges -/

def octet (part : Text) : Option UInt8 :=
  if part.length > 1 && part.head? == some '0' then none
  else if !(part.all fun c => c.isDigit) then none
  else (parseUnsigned (2 ^ 8) part).toOption.map UInt8.ofNat

/-- The end of a range, which may leave out the first octets. -/
def expandV4End (start : Ipv4Addr) (endText : Text) : Option Ipv4Addr :=
  match parseIpv4Addr endText with
  | some full => some full
  | none => do
    let suffix ← (endText.splitOn '.').mapM octet
    if suffix.isEmpty || suffix.length > 4 then none
    else return Fin.ofNat _ (Octets.fromOctets ((Octets.octets 4 start).take (4 - suffix.length) ++ suffix))

/-- A block, a range, or one address. -/
def rangeFromStr (text : Text) : Except IpError IpRange :=
  let text := trim text
  match splitOnce '/' text with
  | some (ipText, prefixText) => do
    let ip ← okOr (parseIpAddr ipText) .addrParse
    let prefixLen ← (parseUnsigned (2 ^ 8) prefixText).mapError .prefixParse
    okOr (cidrRange ip prefixLen) (.invalidPrefix prefixLen)
  | none =>
    match splitOnce '-' text with
    | some (startText, endText) =>
      match parseIpv4Addr startText with
      | some start => do
        let stop ← okOr (expandV4End start endText) (.invalidFormat text)
        return .v4 (← Ipv4Range.new start stop)
      | none =>
        match parseIpv6Addr startText with
        | some start => do
          let stop ← okOr (parseIpv6Addr endText) .addrParse
          return .v6 (← Ipv6Range.new start stop)
        | none => .error (.invalidFormat text)
    | none =>
      match parseIpAddr text with
      | some (.v4 a) => .ok (.v4 (.single a))
      | some (.v6 a) => .ok (.v6 (.single a))
      | none => .error .addrParse

/-! ## Expressions -/

inductive Keyword where
  | lan
  deriving DecidableEq

namespace Keyword

def ALL : List Keyword := [lan]

def asStr : Keyword → Text
  | lan => ['l', 'a', 'n']

def fromToken (token : Text) : Option Keyword := ALL.find? fun keyword => eqIgnoreAsciiCase (trim token) keyword.asStr

end Keyword

inductive IpParseError where
  | invalidPrefix (prefixLen : Nat)
  | invalidRange (start stop : IpAddr)
  | malformed (text : Text)
  | keywordUnresolved (keyword reason : Text)
  | emptySet
  | zoneOnUnscopedTarget (text : Text)
  | unknownInterface (name : Text)
  deriving DecidableEq

abbrev ResolverFn := Keyword → IpSet → IpSet × Except IpParseError Unit

abbrev ZoneResolverFn := Text → Option UInt32

def mapRangeError (original : Text) : IpError → IpParseError
  | .invalidRange start stop => .invalidRange start stop
  | .invalidPrefix prefixLen => .invalidPrefix prefixLen
  | _ => .malformed original

variable (text : Text)

def parseRange : Except IpParseError IpRange :=
  (rangeFromStr text).mapError fun error =>
    match error with
    | .invalidFormat _ | .addrParse | .prefixParse _ => .malformed text
    | other => mapRangeError text other

/-- A block: an address and how many of its bits are fixed. -/
def parseCidr : Except IpParseError IpRange := do
  let (ipText, prefixText) ← okOr (splitOnce '/' text) (.malformed text)
  let ip ← okOr (parseIpAddr ipText) (.malformed text)
  let prefixLen ← (parseUnsigned (2 ^ 32) prefixText).mapError fun _ => .malformed text
  if prefixLen < 2 ^ 8 then okOr (cidrRange ip prefixLen) (mapRangeError text (.invalidPrefix prefixLen))
  else .error (.invalidPrefix prefixLen)

/-- An address with its link behind a percent sign. -/
def parseScoped (original address zone : Text) (zones : Option ZoneResolverFn) : Except IpParseError IpRange := do
  if zone.isEmpty then throw (.malformed original)
  match ← (rangeFromStr address).mapError fun _ => .malformed original with
  | .v4 _ => throw (.zoneOnUnscopedTarget original)
  | .v6 v6 =>
    if !v6.isLinkLocal then throw (.zoneOnUnscopedTarget original)
    let lookup ← okOr zones (.unknownInterface zone)
    let index ← okOr ((lookup zone).filter (· != 0)) (.unknownInterface zone)
    return .v6 (← (Ipv6Range.scopedTo v6.startAddr v6.endAddr (some index)).mapError (mapRangeError original))

def asHosts : IpRange → IpRange
  | .v6 v6 => v6.spelledIpv4.elim (.v6 v6) .v4
  | .v4 v4 => .v4 v4

def toCanonical : IpAddr → IpAddr
  | .v6 a => (toIpv4Mapped a).elim (.v6 a) .v4
  | .v4 a => .v4 a

variable (set : IpSet)

def inserting : Except IpParseError IpRange → IpSet × Except IpParseError Unit
  | .ok range => (set.insertRange range, .ok ())
  | .error error => (set, .error error)

/-- Adds the addresses an expression names. -/
def insertExpression (resolver : Option ResolverFn)
    (zones : Option ZoneResolverFn) : IpSet × Except IpParseError Unit :=
  let text := trim text
  match splitOnce '%' text with
  | some (address, zone) => inserting set (parseScoped text address zone zones)
  | none =>
    if '/' ∈ text then inserting set (asHosts <$> parseCidr text)
    else if '-' ∈ text then inserting set (asHosts <$> parseRange text)
    else match Keyword.fromToken text with
      | some keyword =>
        match resolver with
        | none => (set, .error (.keywordUnresolved keyword.asStr "no resolver was supplied to expand it"))
        | some resolve => resolve keyword set
      | none =>
        match parseIpAddr text with
        | some ip => (set.insert (toCanonical ip), .ok ())
        | none => (set, .error (.malformed text))

end Zond.Parse

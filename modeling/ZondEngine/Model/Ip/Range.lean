import ZondEngine.Lib.Cuts
import ZondEngine.Lib.Text

/-!
# Address ranges

Closed ranges of IPv4 and IPv6 addresses, as `model/ip/range.rs` has them. An IPv6 range may carry a zone, never zero,
and a range is never empty: both are fields. IPv4 ranges are one group, IPv6 ranges a group per zone.
-/

namespace Zond.Ip

open Zond.Ranges

abbrev Ipv4Addr : Type := Fin (2 ^ 32)

abbrev Ipv6Addr : Type := Fin (2 ^ 128)

inductive IpAddr where
  | v4 (addr : Ipv4Addr)
  | v6 (addr : Ipv6Addr)
  deriving DecidableEq

abbrev Zone : Type := Option UInt32

theorem unzoned_ne_zero : (none : Zone) ≠ some 0 := nofun

inductive IpError where
  | invalidRange (start stop : IpAddr)
  | invalidPrefix (prefixLen : Nat)
  | addrParse
  | invalidFormat (text : Text)
  | prefixParse (source : Text.IntErrorKind)
  deriving DecidableEq

structure Ipv4Range where
  (startAddr endAddr : Ipv4Addr)
  start_le_end : startAddr ≤ endAddr
  deriving DecidableEq

namespace Ipv4Range

def new (start stop : Ipv4Addr) : Except IpError Ipv4Range :=
  if h : start ≤ stop then .ok ⟨start, stop, h⟩ else .error (.invalidRange (.v4 start) (.v4 stop))

def single (addr : Ipv4Addr) : Ipv4Range := ⟨addr, addr, le_rfl⟩

variable (r : Ipv4Range)

def extendEndTo (stop : Ipv4Addr) : Ipv4Range :=
  if h : r.endAddr < stop then ⟨r.startAddr, stop, r.start_le_end.trans h.le⟩ else r

def contains (ip : Ipv4Addr) : Bool := decide (r.startAddr ≤ ip) && decide (ip ≤ r.endAddr)

def len : Nat := r.endAddr.val - r.startAddr.val + 1

def iter : List IpAddr := (List.range' r.startAddr r.len).map fun n => .v4 (Fin.ofNat _ n)

end Ipv4Range

/-- A range on one link, or on none. -/
structure Ipv6Range where
  (startAddr endAddr : Ipv6Addr)
  zone : Zone
  start_le_end : startAddr ≤ endAddr
  zone_ne_zero : zone ≠ some 0
  deriving DecidableEq

namespace Ipv6Range

theorem filter_ne_zero (zone : Zone) : zone.filter (· != 0) ≠ some 0 := by
  intro h
  have := (Option.filter_eq_some_iff.mp h).2
  simp at this

def scopedTo (start stop : Ipv6Addr) (zone : Zone) : Except IpError Ipv6Range :=
  if h : start ≤ stop then .ok ⟨start, stop, zone.filter (· != 0), h, filter_ne_zero zone⟩
  else .error (.invalidRange (.v6 start) (.v6 stop))

def new (start stop : Ipv6Addr) : Except IpError Ipv6Range := scopedTo start stop none

def single (addr : Ipv6Addr) : Ipv6Range := ⟨addr, addr, none, le_rfl, unzoned_ne_zero⟩

variable (r : Ipv6Range)

def extendEndTo (stop : Ipv6Addr) : Ipv6Range :=
  if h : r.endAddr < stop then ⟨r.startAddr, stop, r.zone, r.start_le_end.trans h.le, r.zone_ne_zero⟩ else r

def contains (ip : Ipv6Addr) : Bool := decide (r.startAddr ≤ ip) && decide (ip ≤ r.endAddr)

def len : Nat := Word.satAdd 128 (r.endAddr.val - r.startAddr.val) 1

def iter : List IpAddr :=
  (List.range' r.startAddr (r.endAddr.val - r.startAddr.val + 1)).map fun n => .v6 (Fin.ofNat _ n)

end Ipv6Range

inductive IpRange where
  | v4 (r : Ipv4Range)
  | v6 (r : Ipv6Range)
  deriving DecidableEq

namespace IpRange

def startAddr : IpRange → IpAddr
  | v4 r => .v4 r.startAddr
  | v6 r => .v6 r.startAddr

def endAddr : IpRange → IpAddr
  | v4 r => .v4 r.endAddr
  | v6 r => .v6 r.endAddr

def contains : IpRange → IpAddr → Bool
  | v4 r, .v4 ip => r.contains ip
  | v6 r, .v6 ip => r.contains ip
  | _, _ => false

def len : IpRange → Nat
  | v4 r => r.len
  | v6 r => r.len

def iter : IpRange → List IpAddr
  | v4 r => r.iter
  | v6 r => r.iter

def zone : IpRange → Zone
  | v4 _ => none
  | v6 r => r.zone

end IpRange

def zoneKey : Zone → Nat
  | none => 0
  | some z => z.toNat + 1

theorem zoneKey_inj {a b : Zone} : zoneKey a = zoneKey b ↔ a = b := by
  cases a <;> cases b <;> simp [zoneKey, UInt32.toNat_inj]

/-! ## Ranges of one family as ranges of numbers -/

instance : Joinable Ipv4Range where
  width := 32
  group _ := 0
  lo r := r.startAddr
  hi r := r.endAddr
  extendTo r s := r.extendEndTo s.endAddr
  lo_le_hi r := r.start_le_end
  hi_le_top r := Word.lt_pow_iff_le_top.mp r.endAddr.isLt
  group_extendTo _ _ := rfl
  lo_extendTo r s := by
    unfold Ipv4Range.extendEndTo
    split <;> rfl
  hi_extendTo r s := by
    unfold Ipv4Range.extendEndTo
    split
    next h => exact (Nat.max_eq_right (Nat.le_of_lt h)).symm
    next h => exact (Nat.max_eq_left (Nat.le_of_not_lt h)).symm
  eq_of_bounds := by
    rintro ⟨_, _, _⟩ ⟨_, _, _⟩ - hlo hhi
    cases Fin.ext hlo
    cases Fin.ext hhi
    rfl

instance : Joinable Ipv6Range where
  width := 128
  group r := zoneKey r.zone
  lo r := r.startAddr
  hi r := r.endAddr
  extendTo r s := r.extendEndTo s.endAddr
  lo_le_hi r := r.start_le_end
  hi_le_top r := Word.lt_pow_iff_le_top.mp r.endAddr.isLt
  group_extendTo r s := by
    unfold Ipv6Range.extendEndTo
    split <;> rfl
  lo_extendTo r s := by
    unfold Ipv6Range.extendEndTo
    split <;> rfl
  hi_extendTo r s := by
    unfold Ipv6Range.extendEndTo
    split
    next h => exact (Nat.max_eq_right (Nat.le_of_lt h)).symm
    next h => exact (Nat.max_eq_left (Nat.le_of_not_lt h)).symm
  eq_of_bounds := by
    rintro ⟨_, _, _, _, _⟩ ⟨_, _, _, _, _⟩ hg hlo hhi
    cases Fin.ext hlo
    cases Fin.ext hhi
    cases zoneKey_inj.mp hg
    rfl

theorem ofNat_of_le {w a b : Nat} (hab : a ≤ b) (hb : b < 2 ^ w) : (Fin.ofNat (2 ^ w) a).val = a ∧
    (Fin.ofNat (2 ^ w) b).val = b ∧ Fin.ofNat (2 ^ w) a ≤ Fin.ofNat (2 ^ w) b := by
  have ha : (Fin.ofNat (2 ^ w) a).val = a := Nat.mod_eq_of_lt (hab.trans_lt hb)
  have hb : (Fin.ofNat (2 ^ w) b).val = b := Nat.mod_eq_of_lt hb
  exact ⟨ha, hb, by rwa [Fin.le_def, ha, hb]⟩

namespace Ipv4Range

def bounds (r : Ipv4Range) : Interval 128 where
  lo := r.startAddr
  hi := r.endAddr
  lo_le_hi := r.start_le_end
  hi_le_top := by
    have := r.endAddr.isLt
    unfold Word.top
    omega

def rebuild (r : Ipv4Range) (start stop : Nat) : Ipv4Range :=
  match new (Fin.ofNat _ start) (Fin.ofNat _ stop) with
  | .ok part => part
  | .error _ => r

/-- `rebuild` as a step that can fail: a bound may not fit its word, or the two may be no range. -/
def rebuildChecked (_r : Ipv4Range) (start stop : Nat) : Option Ipv4Range :=
  if start < 2 ^ 32 ∧ stop < 2 ^ 32 then (new (Fin.ofNat _ start) (Fin.ofNat _ stop)).toOption else none

theorem contains_iff {r : Ipv4Range} {ip : Ipv4Addr} : r.contains ip = true ↔ Inside r (0, ip.val) := by
  simp only [contains, Bool.and_eq_true, decide_eq_true_eq, Inside, Fin.le_def]
  exact ⟨fun h => ⟨rfl, h⟩, fun h => h.2⟩

theorem rebuild_eq {r : Ipv4Range} {a b : Nat} (hab : a ≤ b) (hb : b ≤ hi r) :
    lo (r.rebuild a b) = a ∧ hi (r.rebuild a b) = b := by
  obtain ⟨ha, hb, hle⟩ := ofNat_of_le hab (hb.trans_lt r.endAddr.isLt)
  rw [rebuild, new, dif_pos hle]
  exact ⟨ha, hb⟩

theorem rebuildChecked_eq {r : Ipv4Range} {a b : Nat} (hab : a ≤ b) (hb : b ≤ hi r) :
    r.rebuildChecked a b = some (r.rebuild a b) := by
  have hlt : b < 2 ^ 32 := hb.trans_lt r.endAddr.isLt
  rw [rebuildChecked, rebuild, if_pos ⟨by omega, hlt⟩, new, dif_pos (ofNat_of_le hab hlt).2.2]
  rfl

theorem rebuilds : Rebuilds rebuild where
  group_eq _ _ _ := rfl
  lo_eq _ hab hb := (rebuild_eq hab hb).1
  hi_eq _ hab hb := (rebuild_eq hab hb).2

end Ipv4Range

namespace Ipv6Range

variable (r : Ipv6Range)

def bounds : Interval 128 where
  lo := r.startAddr
  hi := r.endAddr
  lo_le_hi := r.start_le_end
  hi_le_top := Word.lt_pow_iff_le_top.mp r.endAddr.isLt

def rebuild (start stop : Nat) : Ipv6Range :=
  match scopedTo (Fin.ofNat _ start) (Fin.ofNat _ stop) r.zone with
  | .ok part => part
  | .error _ => r

@[inherit_doc Ipv4Range.rebuildChecked]
def rebuildChecked (start stop : Nat) : Option Ipv6Range :=
  if start < 2 ^ 128 ∧ stop < 2 ^ 128 then (scopedTo (Fin.ofNat _ start) (Fin.ofNat _ stop) r.zone).toOption
  else none

theorem contains_iff {r : Ipv6Range} {ip : Ipv6Addr} : r.contains ip = true ↔ lo r ≤ ip.val ∧ ip.val ≤ hi r := by
  simp only [contains, Bool.and_eq_true, decide_eq_true_eq, Fin.le_def]
  exact Iff.rfl

theorem zone_filter : r.zone.filter (· != 0) = r.zone := by
  have := r.zone_ne_zero
  cases h : r.zone with
  | none => rfl
  | some z => simp_all [Option.filter]

theorem rebuild_eq {r : Ipv6Range} {a b : Nat} (hab : a ≤ b) (hb : b ≤ hi r) :
    (r.rebuild a b).zone = r.zone ∧ lo (r.rebuild a b) = a ∧ hi (r.rebuild a b) = b := by
  obtain ⟨ha, hb, hle⟩ := ofNat_of_le hab (hb.trans_lt r.endAddr.isLt)
  rw [rebuild, scopedTo, dif_pos hle]
  exact ⟨r.zone_filter, ha, hb⟩

theorem rebuildChecked_eq {r : Ipv6Range} {a b : Nat} (hab : a ≤ b) (hb : b ≤ hi r) :
    r.rebuildChecked a b = some (r.rebuild a b) := by
  have hlt : b < 2 ^ 128 := hb.trans_lt r.endAddr.isLt
  rw [rebuildChecked, rebuild, if_pos ⟨by omega, hlt⟩, scopedTo, dif_pos (ofNat_of_le hab hlt).2.2]
  rfl

theorem rebuilds : Rebuilds rebuild where
  group_eq _ hab hb := congrArg zoneKey (rebuild_eq hab hb).1
  lo_eq _ hab hb := (rebuild_eq hab hb).2.1
  hi_eq _ hab hb := (rebuild_eq hab hb).2.2

end Ipv6Range

/-! ## Prefixes and scopes -/

def hostBits (width prefixLen : Nat) : Nat := if prefixLen < width then (2 ^ width - 1) >>> prefixLen else 0

theorem hostBits_lt (width prefixLen : Nat) : hostBits width prefixLen < 2 ^ width := by
  have hpos := Nat.two_pow_pos width
  unfold hostBits
  split
  · have : (2 ^ width - 1) >>> prefixLen ≤ 2 ^ width - 1 := by
      rw [Nat.shiftRight_eq_div_pow]
      exact Nat.div_le_self _ _
    omega
  · exact hpos

variable (width addr prefixLen : Nat)

def networkOf : Nat := addr &&& ((2 ^ width - 1) ^^^ hostBits width prefixLen)

def broadcastOf : Nat := addr ||| hostBits width prefixLen

theorem networkOf_le : networkOf width addr prefixLen ≤ addr := Nat.and_le_left

theorem le_broadcastOf : addr ≤ broadcastOf width addr prefixLen := Nat.left_le_or

theorem broadcastOf_lt {width addr : Nat} (prefixLen : Nat) (h : addr < 2 ^ width) :
    broadcastOf width addr prefixLen < 2 ^ width := Nat.or_lt_two_pow h (hostBits_lt width prefixLen)

/-- The addresses that share a network's first bits. -/
def cidrRange (ip : IpAddr) (prefixLen : Nat) : Option IpRange :=
  match ip with
  | .v4 a => if prefixLen > 32 then none else
      some (.v4 ⟨⟨networkOf 32 a.val prefixLen, (networkOf_le ..).trans_lt a.isLt⟩,
        ⟨broadcastOf 32 a.val prefixLen, broadcastOf_lt prefixLen a.isLt⟩,
        (networkOf_le ..).trans (le_broadcastOf ..)⟩)
  | .v6 a => if prefixLen > 128 then none else
      some (.v6 ⟨⟨networkOf 128 a.val prefixLen, (networkOf_le ..).trans_lt a.isLt⟩,
        ⟨broadcastOf 128 a.val prefixLen, broadcastOf_lt prefixLen a.isLt⟩, none,
        (networkOf_le ..).trans (le_broadcastOf ..), unzoned_ne_zero⟩)

example : cidrRange (.v4 0xC0000205) 24 = some (.v4 ⟨0xC0000200, 0xC00002FF, by decide⟩) := by decide

def linkLocalFirst : Nat := 0xfe80 <<< 112

def linkLocalLast : Nat := (0xfebf <<< 112) ||| (1 <<< 112 - 1)

def Ipv6Range.coversLinkLocal (r : Ipv6Range) : Bool :=
  decide (r.startAddr.val ≤ linkLocalLast) && decide (linkLocalFirst ≤ r.endAddr.val)

def Ipv6Range.isLinkLocal (r : Ipv6Range) : Bool :=
  decide (linkLocalFirst ≤ r.startAddr.val) && decide (r.endAddr.val ≤ linkLocalLast)

/-- Whether a range needs a zone and has none. -/
def Ipv6Range.isAmbiguous (r : Ipv6Range) : Bool := r.zone.isNone && r.coversLinkLocal

namespace IpAddr

def isIpv4 : IpAddr → Bool
  | v4 _ => true
  | v6 _ => false

def le : IpAddr → IpAddr → Bool
  | v4 a, v4 b => decide (a ≤ b)
  | v4 _, v6 _ => true
  | v6 _, v4 _ => false
  | v6 a, v6 b => decide (a ≤ b)

def isLoopback : IpAddr → Bool
  | v4 a => a.val >>> 24 == 127
  | v6 a => a.val == 1

end IpAddr

def Ipv6Addr.isUnicastLinkLocal (a : Ipv6Addr) : Bool := a.val >>> 118 == 0xfe80 >>> 6

end Zond.Ip

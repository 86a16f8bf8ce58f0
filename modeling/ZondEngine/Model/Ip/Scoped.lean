import Mathlib.Data.List.Lex
import Mathlib.Data.Char
import Mathlib.Data.Prod.Lex
import Mathlib.Data.Sum.Order
import ZondEngine.Model.Ip.Range

/-!
# Addresses and the link they are on

The order on addresses (`model/ip.rs`), and an address with the interface it is valid on (`model/ip/scoped.rs`). `Key`
is an address as far as its identity goes: an interface is its index once that is known, and until then its name.
-/

namespace Zond.Ip

/-! ## The order on addresses -/

namespace IpAddr

def key : IpAddr → ℕ ×ₗ ℕ
  | v4 addr => toLex (0, addr.val)
  | v6 addr => toLex (1, addr.val)

theorem key_injective : Function.Injective key := by
  intro a b h
  cases a <;> cases b <;> obtain ⟨hfamily, hvalue⟩ := Prod.mk.inj (toLex.injective h)
  · rw [Fin.ext hvalue]
  · cases hfamily
  · cases hfamily
  · rw [Fin.ext hvalue]

instance : LinearOrder IpAddr := LinearOrder.lift' key key_injective

def isLinkLocal : IpAddr → Bool
  | v4 addr => addr.val / 2 ^ 16 == 0xa9fe
  | v6 addr => addr.val / 2 ^ 118 == 0x3fa

def needsZone : IpAddr → Bool
  | v4 _ => false
  | v6 addr => addr.val / 2 ^ 118 == 0x3fa

end IpAddr

variable (addr : Ipv6Addr)

def isGlobalUnicast : Bool :=
  let first := addr.val / 2 ^ 120
  decide (0x20 ≤ first) && decide (first ≤ 0x3f)

def isUniqueLocal : Bool := addr.val / 2 ^ 121 == 0x7e

def isGloballyScoped : Bool := isGlobalUnicast addr || isUniqueLocal addr

end Zond.Ip

/-! ## Zones -/

namespace Zond.Scoped

/-- The interface an address is scoped to. An index of zero is a failed lookup, so no zone has it. -/
structure Zone where
  index : Option UInt32
  name : Text
  index_ne_zero : index ≠ some 0
  deriving DecidableEq

namespace Zone

abbrev Identity : Type := Lex (Text ⊕ ℕ)

def identity (zone : Zone) : Identity :=
  match zone.index with
  | some index => toLex (.inr index.toNat)
  | none => toLex (.inl zone.name)

end Zone

end Zond.Scoped

/-! ## Scoped addresses -/

namespace Zond

open Ip (IpAddr)
open Scoped (Zone)

structure ScopedIp where
  addr : IpAddr
  zone : Option Zone
  deriving DecidableEq

namespace ScopedIp

def unscoped (addr : IpAddr) : ScopedIp := ⟨addr, none⟩

def scopedTo (addr : IpAddr) (zone : Zone) : ScopedIp := ⟨addr, if addr.needsZone then some zone else none⟩

abbrev Key : Type := IpAddr ×ₗ WithBot Zone.Identity

def key (ip : ScopedIp) : Key := toLex (ip.addr, ip.zone.elim ⊥ fun zone => zone.identity)

end ScopedIp

end Zond

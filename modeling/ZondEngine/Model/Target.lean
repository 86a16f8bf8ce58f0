import ZondEngine.Model.Ip.Count
import ZondEngine.Model.Ip.Lookup
import ZondEngine.Model.Port

/-!
# Targets

`model/target.rs`: a `TargetSet` pairs every address of a merged set with every port of a port set, and the order of
`TargetMap.iter` is what numbers a plan.
-/

namespace Zond.Plan

open Zond.Ip Zond.Port List

inductive TargetError where
  | capacityOverflow
  deriving DecidableEq

structure Target where
  ip : IpAddr
  port : UInt16
  protocol : Protocol
  deriving DecidableEq

structure PlannedTarget where
  position : Nat
  target : Target
  deriving DecidableEq

def numbered (targets : List Target) : List PlannedTarget :=
  targets.zipIdx.map fun planned => ⟨planned.2, planned.1⟩

theorem mem_numbered {targets : List Target} {planned : PlannedTarget} :
    planned ∈ numbered targets ↔ targets[planned.position]? = some planned.target := by
  obtain ⟨position, target⟩ := planned
  simp only [numbered, mem_map, PlannedTarget.mk.injEq]
  constructor
  · rintro ⟨⟨t, n⟩, hmem, rfl, rfl⟩
    exact mem_zipIdx_iff_getElem?.mp hmem
  · intro hat
    exact ⟨(target, position), mem_zipIdx_iff_getElem?.mpr hat, rfl, rfl⟩

theorem positions_numbered (targets : List Target) :
    (numbered targets).map (·.position) = List.range targets.length := by
  rw [numbered, map_map, range_eq_range']
  exact zipIdx_map_snd 0 targets

structure TargetSet where
  ips : IpSet
  ports : PortSet
  v4_clean : ips.v4Dirty = false
  v6_clean : ips.v6Dirty = false

namespace TargetSet

def new (ips : IpSet) (ports : PortSet) : TargetSet :=
  ⟨ips.canonicalize, ports, ips.v4Dirty_canonicalize, ips.v6Dirty_canonicalize⟩

variable (s : TargetSet)

def totalTargets : Except TargetError Nat :=
  (Word.checkedMul 128 s.ips.len s.ports.len).elim (.error .capacityOverflow) .ok

def atAddress (ports : List (UInt16 × Protocol)) (ip : IpAddr) : List Target :=
  ports.map fun port => ⟨ip, port.1, port.2⟩

/-- Every port of every address. -/
def iter : List Target := s.ips.iter.flatMap (atAddress s.ports.toVec)

def isEmpty : Bool := s.ips.isEmpty || s.ports.isEmpty

theorem length_iter : s.iter.length = s.ips.iter.length * s.ports.toVec.length := by
  rw [iter, length_flatMap]
  simp [atAddress]

theorem totalTargets_eq (hports : s.ports.isEmpty = false) (hfit : s.iter.length < 2 ^ 64) :
    s.totalTargets = .ok s.iter.length := by
  have hpos : 0 < s.ports.toVec.length := by
    apply length_pos_iff.mpr
    intro hnil
    rw [(PortSet.isEmpty_iff s.ports).mpr hnil] at hports
    cases hports
  have hips : s.ips.iter.length ≤ s.iter.length := by
    rw [length_iter]
    exact Nat.le_mul_of_pos_right _ hpos
  have hlen : s.ips.len = s.ips.iter.length := by
    rw [IpSet.length_iter]
    apply IpSet.len_eq
    rw [← IpSet.length_iter]
    omega
  rw [totalTargets, hlen, ← PortSet.length_toVec, Word.checkedMul, ← length_iter, if_pos (by omega)]
  rfl

theorem merged_ips : s.ips.merged = s.ips := by
  rw [IpSet.merged, s.v4_clean, s.v6_clean]
  rfl

end TargetSet

structure TargetMap where
  units : List TargetSet

namespace TargetMap

variable (map : TargetMap)

def grossTargets : Except TargetError Nat :=
  map.units.foldlM (fun total unit => do
    let unitTotal ← unit.totalTargets
    (Word.checkedAdd 128 total unitTotal).elim (.error .capacityOverflow) .ok) 0

/-- The targets of every unit in turn. -/
def iter : List Target := map.units.flatMap TargetSet.iter

def tuples : Set ((IpAddr × Zone) × UInt16 × Protocol) :=
  {x | ∃ unit ∈ map.units, x.1 ∈ unit.ips.pairs ∧ x.2 ∈ unit.ports.iter}

theorem mem_iter {target : Target} :
    target ∈ map.iter ↔ ∃ zone, ((target.ip, zone), target.port, target.protocol) ∈ map.tuples := by
  obtain ⟨ip, port, protocol⟩ := target
  simp only [iter, mem_flatMap, TargetSet.iter, TargetSet.atAddress, mem_map, Target.mk.injEq, tuples,
    Set.mem_ofPred_eq]
  constructor
  · rintro ⟨unit, hunit, ip', hip, ⟨port', protocol'⟩, hport, rfl, rfl, rfl⟩
    obtain ⟨zone, hzone⟩ := IpSet.mem_iter.mp hip
    exact ⟨zone, unit, hunit, hzone, hport⟩
  · rintro ⟨zone, unit, hunit, hzone, hport⟩
    exact ⟨unit, hunit, ip, IpSet.mem_iter.mpr ⟨zone, hzone⟩, (port, protocol), hport, rfl, rfl, rfl⟩

theorem grossTargets_eq (hports : ∀ unit ∈ map.units, unit.ports.isEmpty = false)
    (hfit : map.iter.length < 2 ^ 64) : map.grossTargets = .ok map.iter.length := by
  have hfold : ∀ (units : List TargetSet) (total : Nat), (∀ unit ∈ units, unit.ports.isEmpty = false) →
      total + (units.flatMap TargetSet.iter).length < 2 ^ 64 →
      units.foldlM (fun total unit => do
        let unitTotal ← unit.totalTargets
        (Word.checkedAdd 128 total unitTotal).elim (.error .capacityOverflow) .ok) total =
      .ok (total + (units.flatMap TargetSet.iter).length) := by
    intro units
    induction units with
    | nil =>
      intro total _ _
      rfl
    | cons unit units ih =>
      intro total hports hfit
      rw [flatMap_cons, length_append] at hfit ⊢
      rw [foldlM_cons, unit.totalTargets_eq (hports unit mem_cons_self) (by omega)]
      have hadd : Word.checkedAdd 128 total unit.iter.length = some (total + unit.iter.length) := if_pos (by omega)
      have hrest := ih (total + unit.iter.length) (fun u hu => hports u (mem_cons_of_mem unit hu)) (by omega)
      simp only [bind, Except.bind, hadd, Option.elim_some]
      rwa [Nat.add_assoc] at hrest
  have := hfold map.units 0 hports (by rw [Nat.zero_add]; exact hfit)
  rwa [Nat.zero_add] at this

end TargetMap

end Zond.Plan

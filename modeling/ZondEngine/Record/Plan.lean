import ZondEngine.Model.PortText
import ZondEngine.Model.TargetIndex

/-!
# What a plan is in a file

`PlanRecord` of `record.rs`: the units of a plan in their order, each its ranges and the specification of its ports. It
comes back as the plan it was taken of (`plan_reads_back`).
-/

namespace Zond.Plan

open Zond.Ip Zond.Port

/-! ## Ranges -/

structure RangeRecord where
  (start stop : IpAddr)
  zone : Option UInt32
  deriving DecidableEq

namespace RangeRecord

def of (range : IpRange) : RangeRecord := ⟨range.startAddr, range.endAddr, range.zone⟩

def rebuild (record : RangeRecord) : Option IpRange :=
  match record.start, record.stop with
  | .v4 start, .v4 stop => (Ipv4Range.new start stop).toOption.map .v4
  | .v6 start, .v6 stop => (Ipv6Range.scopedTo start stop record.zone).toOption.map .v6
  | _, _ => none

theorem rebuild_of (range : IpRange) : (of range).rebuild = some range := by
  cases range with
  | v4 r =>
    obtain ⟨start, stop, hle⟩ := r
    simp [of, rebuild, IpRange.startAddr, IpRange.endAddr, Ipv4Range.new, hle, Except.toOption]
  | v6 r =>
    obtain ⟨start, stop, zone, hle, hzone⟩ := r
    have hkept : zone.filter (· != 0) = zone := by
      cases zone with
      | none => rfl
      | some index => simpa using hzone
    simp [of, rebuild, IpRange.startAddr, IpRange.endAddr, IpRange.zone, Ipv6Range.scopedTo, hle, hkept,
      Except.toOption]

end RangeRecord

def recordedRanges (ips : IpSet) : List RangeRecord := (Positions.rangesOf ips).map RangeRecord.of

def replayRanges (ips : IpSet) (ranges : List RangeRecord) : IpSet :=
  (ranges.filterMap RangeRecord.rebuild).foldl IpSet.insertRange ips

/-! ## Plans -/

structure UnitRecord where
  ranges : List RangeRecord
  spec : Text
  deriving DecidableEq

namespace UnitRecord

def of (unit : TargetSet) : UnitRecord := ⟨recordedRanges unit.ips, unit.ports.toText⟩

def portSet (record : UnitRecord) : PortSet := (PortSet.tryFrom record.spec).toOption.getD .new

def rebuild (record : UnitRecord) : TargetSet := .new (replayRanges .new record.ranges) record.portSet

end UnitRecord

structure PlanRecord where
  units : List UnitRecord
  deriving DecidableEq

namespace PlanRecord

def ofAddresses (addresses : IpSet) : PlanRecord := ⟨[⟨recordedRanges addresses, []⟩]⟩

def ofTargets (plan : TargetMap) : PlanRecord := ⟨plan.units.map UnitRecord.of⟩

def addresses (record : PlanRecord) : IpSet :=
  (record.units.foldl (fun ips unit => replayRanges ips unit.ranges) .new).canonicalize

def targets (record : PlanRecord) : TargetMap := ⟨record.units.map UnitRecord.rebuild⟩

end PlanRecord

/-! ## Reading a plan back -/

theorem pairs_rangesOf (s : IpSet) : {x | ∃ r ∈ Positions.rangesOf s, x ∈ r.pairs} = s.pairs := by
  rw [IpSet.pairs_eq_union]
  ext x
  simp [Positions.rangesOf, or_and_right, exists_or]

theorem pairs_replayRanges (s : IpSet) : (replayRanges .new (recordedRanges s)).pairs = s.pairs := by
  have hread : (recordedRanges s).filterMap RangeRecord.rebuild = Positions.rangesOf s := by
    rw [recordedRanges, List.filterMap_map]
    simp [RangeRecord.rebuild_of]
  rw [replayRanges, hread, IpSet.pairs_foldl IpSet.pairs_insertRange, pairs_rangesOf]
  have hempty : IpSet.new.pairs = ∅ := IpSet.pairs_eq_empty_iff.mpr rfl
  rw [hempty, Set.empty_union]

theorem canonicalize_eq {s t : IpSet} (hv4 : s.v4Dirty = false) (hv6 : s.v6Dirty = false) (h : t.pairs = s.pairs) :
    t.canonicalize = s := by
  have hheld := IpSet.pairs_eq_iff.mp (t.pairs_canonicalize.trans h)
  obtain ⟨v4, v6, v4Dirty, v6Dirty, v4_merged, v6_merged⟩ := s
  subst hv4 hv6
  have h4 : t.canonicalize.v4 = v4 := t.canonical_mergedV4.ext (v4_merged rfl) hheld.1
  have h6 : t.canonicalize.v6 = v6 := t.canonical_mergedV6.ext (v6_merged rfl) hheld.2
  subst h4 h6
  rfl

theorem UnitRecord.rebuild_of (unit : TargetSet) : (UnitRecord.of unit).rebuild = unit := by
  obtain ⟨ips, ports, hv4, hv6⟩ := unit
  have hips : (replayRanges .new (recordedRanges ips)).canonicalize = ips :=
    canonicalize_eq hv4 hv6 (pairs_replayRanges ips)
  have hports : (UnitRecord.of ⟨ips, ports, hv4, hv6⟩).portSet = ports := by
    simp [portSet, of, PortSet.tryFrom_toText, Except.toOption]
  simp only [rebuild, hports, TargetSet.new, TargetSet.mk.injEq, and_true]
  exact hips

/-- **A plan read back numbers the same targets**, as its record reads back as the plan, and that
of a set as a set equal to it. -/
theorem plan_reads_back (p : TargetMap) (s : IpSet) : (PlanRecord.ofTargets p).targets = p ∧
      (∀ position : Nat, (PlanRecord.ofTargets p).targets.iter[position]? = p.iter[position]?) ∧
      (PlanRecord.ofAddresses s).addresses.eq s = true := by
  have hplan : (PlanRecord.ofTargets p).targets = p := by
    simp [PlanRecord.ofTargets, PlanRecord.targets, Function.comp_def, UnitRecord.rebuild_of]
  refine ⟨hplan, fun position => by rw [hplan], ?_⟩
  rw [IpSet.eq_iff, PlanRecord.addresses, IpSet.pairs_canonicalize]
  exact pairs_replayRanges s

end Zond.Plan

import ZondEngine.Model.Report

/-!
# What a report says it looked at

`Coverage` of `diff/change.rs`, answered by the index of a report's scopes of `diff/scope.rs`: an address by four
questions in turn, a host by the strongest answer over its addresses (`ofHost_eq_unstated`), an endpoint by every phase
(`endpoint_eq_covered_iff`).
-/

namespace Zond.Diff

open List

open Ip (IpAddr IpRange IpSet)
open Scoped (Zone)
open Port (Protocol)

/-! ## Changes and presence -/

structure Change (α : Type) where
  (before after : α)
  deriving DecidableEq

def Change.between {α : Type} [DecidableEq α] (before after : α) : Option (Change α) :=
  if before ≠ after then some ⟨before, after⟩ else none

@[simp] theorem Change.between_self {α : Type} [DecidableEq α] (value : α) : between value value = none :=
  if_neg fun h => h rfl

/-- What the other report can say of a target it does not list. -/
inductive Coverage where
  | covered | withheld | outOfScope | unreached | unstated
  deriving DecidableEq

def Coverage.isExcluded : Coverage → Bool
  | withheld | outOfScope => true
  | covered | unreached | unstated => false

inductive Presence where
  | both
  | added (before : Coverage)
  | removed (after : Coverage)
  deriving DecidableEq

namespace Presence

def isInBoth (p : Presence) : Bool := p == both

def counterpartCoverage : Presence → Option Coverage
  | both => none
  | added before => some before
  | removed after => some after

def isConfirmed (p : Presence) : Bool := p.counterpartCoverage.all (· == .covered)

theorem isConfirmed_added {before : Coverage} : (added before).isConfirmed = true ↔ before = .covered :=
  beq_iff_eq

theorem isConfirmed_removed {after : Coverage} : (removed after).isConfirmed = true ↔ after = .covered :=
  beq_iff_eq

end Presence

/-! ## The index -/

/-- What a report walked, to be asked by address. -/
structure ScopeIndex where
  (covered undecided withheld : IpSet)
  stated : Bool
  ports : List PortScope
  scopes : List TargetScope

namespace ScopeIndex

/-- What a report's phases walked. -/
def of (report : ScanReport) : ScopeIndex :=
  let scopes := report.phases.map ScanPhase.targets
  let covered := IpSet.fromRanges (scopes.flatMap TargetScope.ranges)
  let withheld := IpSet.fromRanges (scopes.flatMap TargetScope.excluded)
  { covered
    undecided := IpSet.fromRanges report.undecided
    withheld
    stated := !covered.isEmpty || !withheld.isEmpty || scopes.any fun scope => !scope.links.isEmpty
    ports := scopes.map TargetScope.ports
    scopes }

def address (s : ScopeIndex) (ip : IpAddr) : Coverage :=
  if s.undecided.contains ip then .unreached
  else if s.covered.contains ip then .covered
  else if s.withheld.contains ip then .withheld
  else if s.stated then .outOfScope
  else .unstated

def bestOf (s : ScopeIndex) : Coverage → List IpAddr → Coverage
  | best, [] => best
  | best, ip :: rest =>
    match s.address ip with
    | .covered => .covered
    | .withheld => bestOf s .withheld rest
    | .outOfScope => bestOf s (if best = .withheld then best else .outOfScope) rest
    | .unreached | .unstated => bestOf s best rest

def ofHost (s : ScopeIndex) (host : Host) : Coverage :=
  if s.scopes.any fun scope => scope.swept host.zone then .covered else s.bestOf .unstated host.ips.keys

def askPhases (port : UInt16) (protocol : Protocol) : Bool → Bool → List PortScope → Coverage
  | stated, cannotSay, [] => if cannotSay then .unstated else if stated then .outOfScope else .unstated
  | stated, cannotSay, scope :: rest =>
    match scope.covers port protocol with
    | some true => .covered
    | some false => askPhases port protocol true cannotSay rest
    | none => askPhases port protocol stated true rest

/-- What a report can say of one port of a host. -/
def endpoint (s : ScopeIndex) (address : Coverage) (port : UInt16) (protocol : Protocol) : Coverage :=
  if address.isExcluded || address == .unreached then address else askPhases port protocol false false s.ports

section Addresses

variable {report : ScanReport} {ip : IpAddr}

theorem contains_fromRanges {ranges : List IpRange} :
    (IpSet.fromRanges ranges).contains ip = true ↔ ∃ range ∈ ranges, range.contains ip = true := by
  rw [IpSet.contains_iff, IpSet.pairs_fromRanges]
  constructor
  · rintro ⟨z, range, hrange, hin, _⟩
    exact ⟨range, hrange, hin⟩
  · rintro ⟨range, hrange, hin⟩
    exact ⟨range.zone, range, hrange, hin, rfl⟩

def Undecided (report : ScanReport) (ip : IpAddr) : Prop := ∃ range ∈ report.undecided, range.contains ip = true

def Swept (report : ScanReport) (zone : Option Zone) : Prop :=
  ∃ phase ∈ report.phases, phase.targets.swept zone = true

instance : Decidable (Undecided report ip) :=
  inferInstanceAs (Decidable (∃ range ∈ report.undecided, range.contains ip = true))

instance {zone : Option Zone} : Decidable (Swept report zone) :=
  inferInstanceAs (Decidable (∃ phase ∈ report.phases, phase.targets.swept zone = true))

theorem undecided_iff : (of report).undecided.contains ip = true ↔ Undecided report ip := contains_fromRanges

theorem swept_iff {zone : Option Zone} :
    ((of report).scopes.any fun scope => scope.swept zone) = true ↔ Swept report zone := by
  simp only [of, any_map, any_eq_true, Function.comp_apply, Swept]

theorem address_eq_unreached_iff : (of report).address ip = .unreached ↔ Undecided report ip := by
  rw [← undecided_iff]
  unfold address
  constructor
  · intro h
    by_contra hnot
    rw [if_neg hnot] at h
    split at h
    · cases h
    · split at h
      · cases h
      · split at h <;> cases h
  · exact fun h => if_pos h

end Addresses

section Hosts

variable {s : ScopeIndex}

theorem bestOf_eq_of_unreached : ∀ {ips : List IpAddr} {best : Coverage},
    (∀ ip ∈ ips, s.address ip = .unreached) → s.bestOf best ips = best
  | [], _, _ => rfl
  | ip :: rest, best, h => by
    unfold bestOf
    rw [h ip mem_cons_self]
    exact bestOf_eq_of_unreached fun other hother => h other (mem_cons_of_mem _ hother)

theorem bestOf_ne_unreached : ∀ {ips : List IpAddr} {best : Coverage}, best ≠ .unreached →
    s.bestOf best ips ≠ .unreached
  | [], _, h => h
  | ip :: rest, best, h => by
    unfold bestOf
    split
    · nofun
    · exact bestOf_ne_unreached nofun
    · refine bestOf_ne_unreached ?_
      split
      · exact h
      · nofun
    · exact bestOf_ne_unreached h
    · exact bestOf_ne_unreached h

variable {report : ScanReport} {host : Host}

/-- **A host at undecided addresses alone is not unreached.** No answer moves the one the fold starts from. -/
theorem ofHost_eq_unstated (hips : ∀ ip ∈ host.ips.keys, Undecided report ip) (hlink : ¬ Swept report host.zone) :
    (of report).ofHost host = .unstated := by
  unfold ofHost
  rw [if_neg (fun h => hlink (swept_iff.mp h))]
  exact bestOf_eq_of_unreached fun ip hip => address_eq_unreached_iff.mpr (hips ip hip)

theorem ofHost_ne_unreached (s : ScopeIndex) (host : Host) : s.ofHost host ≠ .unreached := by
  unfold ofHost
  split
  · nofun
  · exact bestOf_ne_unreached nofun

end Hosts

section Endpoints

variable {port : UInt16} {protocol : Protocol}

theorem askPhases_eq_covered_iff : ∀ {scopes : List PortScope} {stated cannotSay : Bool},
    askPhases port protocol stated cannotSay scopes = .covered ↔
      ∃ scope ∈ scopes, scope.covers port protocol = some true
  | [], stated, cannotSay => by
    unfold askPhases
    refine iff_of_false ?_ (by simp)
    split
    · nofun
    · split <;> nofun
  | scope :: rest, stated, cannotSay => by
    rw [exists_mem_cons_iff]
    unfold askPhases
    split
    next h => exact iff_of_true rfl (.inl h)
    next h => rw [askPhases_eq_covered_iff, or_iff_right (by rw [h]; nofun)]
    next h => rw [askPhases_eq_covered_iff, or_iff_right (by rw [h]; nofun)]

theorem askPhases_ne_unreached : ∀ {scopes : List PortScope} {stated cannotSay : Bool},
    askPhases port protocol stated cannotSay scopes ≠ .unreached
  | [], stated, cannotSay => by
    unfold askPhases
    split
    · nofun
    · split <;> nofun
  | scope :: rest, stated, cannotSay => by
    unfold askPhases
    split
    · nofun
    · exact askPhases_ne_unreached
    · exact askPhases_ne_unreached

def Probed (report : ScanReport) (port : UInt16) (protocol : Protocol) : Prop :=
  ∃ phase ∈ report.phases, phase.targets.ports.covers port protocol = some true

variable {report : ScanReport} {address : Coverage}

/-- **An endpoint is covered** where its host is neither excluded nor unreached and some phase walked the port: the
phase that walked the host is not asked for. -/
theorem endpoint_eq_covered_iff (h : address ≠ .unreached) : (of report).endpoint address port protocol = .covered ↔
      address.isExcluded = false ∧ Probed report port protocol := by
  have hprobed : Probed report port protocol ↔ ∃ scope ∈ (of report).ports, scope.covers port protocol = some true := by
    simp only [of, Probed, map_map, mem_map, Function.comp_apply, exists_exists_and_eq_and]
  have hne : (address == .unreached) = false := by simpa using h
  unfold endpoint
  rw [hne, Bool.or_false, hprobed]
  split
  next hexcluded =>
    refine iff_of_false ?_ (fun hboth => Bool.false_ne_true (hboth.1.symm.trans hexcluded))
    rintro rfl
    cases hexcluded
  next hopen => rw [askPhases_eq_covered_iff, and_iff_right (Bool.eq_false_of_not_eq_true hopen)]

theorem endpoint_ne_unreached (s : ScopeIndex) (h : address ≠ .unreached) :
    s.endpoint address port protocol ≠ .unreached := by
  unfold endpoint
  split
  · exact h
  · exact askPhases_ne_unreached

end Endpoints

end ScopeIndex

end Zond.Diff

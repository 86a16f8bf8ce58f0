import ZondEngine.Diff.Port

/-!
# Comparing hosts

What moved on one host between two reports, as `diff/host.rs` has it. Between a record and itself nothing moves, on the
host or on any endpoint of it (`compareHosts_self`).
-/

namespace Zond.Diff

open Ip (IpAddr)
open Port (Protocol)

/-! ## What moved -/

structure IpProtocolChange where
  protocol : Fin 256
  state : Change IpProtocolState
  deriving DecidableEq

/-- One way a host itself differs. -/
inductive HostChange where
  | status (change : Change HostStatus)
  | hostname (change : Change (Option Text))
  | names (gained lost : List HostName)
  | addresses (gained lost : List IpAddr)
  | os (change : Change (Option OsFingerprint))
  | macs (gained lost : List MacAddr)
  | vendor (change : Change (Option Text))
  | roles (gained lost : List NetworkRole)
  | filtering (gained lost : List Filtering)
  | ipProtocols (changed : List IpProtocolChange)
  | findings (appeared resolved : List Finding) (reassessed : List Reassessment)
  deriving DecidableEq

variable (before after : Host)

def nameChanges : List HostChange :=
  let heard (source : NameSource) : Bool := after.names.keys.any fun name => name.source == source
  asChange HostChange.names (difference (before.names.keys.filter fun name => heard name.source) after.names.keys)

/-- Whether two readings name one system. -/
def sameSystem (before after : Option OsFingerprint) : Bool :=
  match before, after with
  | none, none => true
  | some before, some after =>
    before.name == after.name && before.family == after.family && before.device == after.device &&
    before.generation == after.generation && before.vendor == after.vendor && before.kernel == after.kernel &&
    before.arch == after.arch && before.cpe == after.cpe
  | _, _ => false

def osChanges : List HostChange :=
  match after.os with
  | some now => if sameSystem before.os (some now) then [] else [.os ⟨before.os, some now⟩]
  | none => []

variable (host : Host)

def macsOf : List MacAddr := host.hardware.elim [] fun hardware => hardware.macs.keys

def macChanges : List HostChange :=
  if !(macsOf before).isEmpty && !(macsOf after).isEmpty then
    asChange HostChange.macs (difference (macsOf before) (macsOf after))
  else []

def vendorChanges : List HostChange :=
  match after.vendor with
  | some now => if before.vendor ≠ some now then [.vendor ⟨before.vendor, some now⟩] else []
  | none => []

def ipProtocolsBetween : List IpProtocolChange :=
  let established (host : Host) (number : Fin 256) : Option IpProtocolState :=
    (host.ipProtocols.get? number).filter IpProtocolState.isEstablished
  before.ipProtocols.keys.filterMap fun number =>
    (established before number).bind fun was =>
      (established after number).bind fun is => (Change.between was is).map fun state => ⟨number, state⟩

def ipProtocolChanges : List HostChange :=
  let changed := ipProtocolsBetween before after
  if changed.isEmpty then [] else [.ipProtocols changed]

def hostFindingChanges : List HostChange :=
  let (appeared, resolved, reassessed) := findingsBetween before.findings.values after.findings.values
  if !appeared.isEmpty || !resolved.isEmpty || !reassessed.isEmpty then [.findings appeared resolved reassessed]
  else []

/-- The changes in a host's own fields. -/
def hostChangesBetween : List HostChange :=
  ((Change.between before.status after.status).map HostChange.status).toList ++
  ((Change.between before.hostname after.hostname).map HostChange.hostname).toList ++
  nameChanges before after ++
  asChange HostChange.addresses (difference before.ips.keys after.ips.keys) ++
  osChanges before after ++
  macChanges before after ++
  vendorChanges before after ++
  asChange HostChange.roles
    (difference (NetworkRole.ALL.filter (· ∈ before.networkRoles)) (NetworkRole.ALL.filter (· ∈ after.networkRoles))) ++
  asChange HostChange.filtering
    (difference (Filtering.ALL.filter (· ∈ before.filtering)) (Filtering.ALL.filter (· ∈ after.filtering))) ++
  ipProtocolChanges before after ++
  hostFindingChanges before after

/-! ## Nothing moves between a record and itself -/

theorem nameChanges_self : nameChanges host host = [] := by
  have hheard : (host.names.keys.filter fun name => host.names.keys.any fun other => other.source == name.source) =
      host.names.keys := by
    rw [List.filter_eq_self]
    intro name hname
    exact List.any_eq_true.mpr ⟨name, hname, beq_self_eq_true _⟩
  unfold nameChanges
  dsimp only
  rw [hheard, difference_self, asChange_nil]

theorem sameSystem_self (os : Option OsFingerprint) : sameSystem os os = true := by
  cases os with
  | none => rfl
  | some os => simp [sameSystem]

theorem osChanges_self : osChanges host host = [] := by
  unfold osChanges
  split
  next now hnow => rw [hnow, sameSystem_self, if_pos rfl]
  · rfl

theorem macChanges_self : macChanges host host = [] := by
  unfold macChanges
  rw [difference_self, asChange_nil, ite_self]

theorem vendorChanges_self : vendorChanges host host = [] := by
  unfold vendorChanges
  split
  next now hnow => rw [hnow, if_neg fun h => h rfl]
  · rfl

theorem ipProtocolsBetween_self : ipProtocolsBetween host host = [] := by
  unfold ipProtocolsBetween
  rw [List.filterMap_eq_nil_iff]
  intro number _
  dsimp only
  cases (host.ipProtocols.get? number).filter IpProtocolState.isEstablished with
  | none => rfl
  | some state => simp

theorem hostChangesBetween_self : hostChangesBetween host host = [] := by
  have hprotocols : ipProtocolChanges host host = [] := by
    unfold ipProtocolChanges
    rw [ipProtocolsBetween_self]
    rfl
  have hfindings : hostFindingChanges host host = [] := by
    unfold hostFindingChanges
    rw [findingsBetween_self]
    rfl
  simp [hostChangesBetween, nameChanges_self, difference_self, asChange_nil, osChanges_self, macChanges_self,
    vendorChanges_self, hprotocols, hfindings]

/-! ## One host -/

/-- How one host differs between two reports. -/
structure HostDelta where
  address : IpAddr
  presence : Presence
  (baseline current : Option Host)
  (baselineRecords currentRecords : Nat)
  changes : List HostChange
  ports : List PortDelta
  deriving DecidableEq

def HostDelta.isEmpty (d : HostDelta) : Bool := d.presence.isInBoth && d.changes.isEmpty && d.ports.isEmpty

inductive Sides where
  | both (baseline current : Host)
  | baselineOnly (baseline : Host)
  | currentOnly (current : Host)

namespace Sides

def baseline : Sides → Option Host
  | both baseline _ | baselineOnly baseline => some baseline
  | currentOnly _ => none

def current : Sides → Option Host
  | both _ current | currentOnly current => some current
  | baselineOnly _ => none

def askedOfBaseline : Sides → Host
  | both _ current | currentOnly current => current
  | baselineOnly baseline => baseline

def askedOfCurrent : Sides → Host
  | both baseline _ | baselineOnly baseline => baseline
  | currentOnly current => current

def address (sides : Sides) : IpAddr := sides.askedOfBaseline.primaryIp

def of : Option Host → Option Host → Option Sides
  | some baseline, some current => some (both baseline current)
  | some baseline, none => some (baselineOnly baseline)
  | none, some current => some (currentOnly current)
  | none, none => none

theorem askedOfCurrent_of_baseline {sides : Sides} {host : Host} (h : sides.baseline = some host) :
    sides.askedOfCurrent = host := by
  cases sides with
  | both | baselineOnly => exact Option.some.inj h
  | currentOnly => cases h

theorem askedOfBaseline_of_current {sides : Sides} {host : Host} (h : sides.current = some host) :
    sides.askedOfBaseline = host := by
  cases sides with
  | both | currentOnly => exact Option.some.inj h
  | baselineOnly => cases h

end Sides

def portsOf (host : Option Host) : List Port := host.elim [] fun host => host.ports.values

/-- The difference between a host's two sides. -/
def compareHosts (p : Process) (sides : Sides) (baselineRecords currentRecords : Nat)
    (baselineScope currentScope : ScopeIndex) (clocks : Clocks) : HostDelta :=
  let baselineCoverage := baselineScope.ofHost sides.askedOfBaseline
  let currentCoverage := currentScope.ofHost sides.askedOfCurrent
  { address := sides.address
    presence :=
      match sides with
      | .both _ _ => .both
      | .currentOnly _ => .added baselineCoverage
      | .baselineOnly _ => .removed currentCoverage
    baseline := sides.baseline
    current := sides.current
    baselineRecords
    currentRecords
    changes :=
      match sides with
      | .both before after => hostChangesBetween before after
      | .baselineOnly _ | .currentOnly _ => []
    ports := comparePorts p (portsOf sides.baseline) (portsOf sides.current)
      ⟨baselineScope.endpoint baselineCoverage, currentScope.endpoint currentCoverage⟩ clocks }

/-- **A host compared with itself is no difference.** -/
theorem compareHosts_self (p : Process) (host : Host) (baselineRecords currentRecords : Nat)
    (baselineScope currentScope : ScopeIndex) {clocks : Clocks} (h : clocks.baseline = clocks.current) :
    (compareHosts p (.both host host) baselineRecords currentRecords baselineScope currentScope clocks).isEmpty =
      true := by
  unfold HostDelta.isEmpty compareHosts
  dsimp only [Sides.baseline, Sides.current]
  rw [hostChangesBetween_self, comparePorts_self p _ _ h]
  rfl

end Zond.Diff

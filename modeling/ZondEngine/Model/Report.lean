import ZondEngine.Model.Host.Record
import ZondEngine.Model.Ip.Set

/-!
# Reports

`ScanReport` of `report.rs`: the hosts found, each filed under its address, and the phases that looked for them.
`undecided` reads the phases together, and every way to assemble a report drops the records of addresses nothing was
heard from.
-/

namespace Zond

open Ip (IpAddr IpRange IpSet)
open Scoped (Zone)
open Port (PortSet Protocol)

/-! ## Scopes -/

inductive PortScope where
  | unstated
  | noPorts
  | every (ports : PortSet)
  | mixed (ports : PortSet)

/-- Whether a port was walked on every address, if that is known. -/
def PortScope.covers (scope : PortScope) (port : UInt16) (protocol : Protocol) : Option Bool :=
  match scope with
  | unstated => none
  | noPorts => some false
  | every ports => some (ports.contains port protocol)
  | mixed ports => if ports.contains port protocol then none else some false

structure TargetScope where
  ranges : List IpRange
  links : List Zone
  ports : PortScope
  excluded : List IpRange

def TargetScope.swept (scope : TargetScope) (zone : Option Zone) : Bool :=
  match zone with
  | some zone => scope.links.any fun link => link.name == zone.name
  | none => false

/-! ## Phases -/

inductive ScanKind where
  | discovery | portScan | listen
  deriving DecidableEq

structure PhaseOrigin where
  label : Option Text
  engineVersion : Text
  deriving DecidableEq

/-- One phase of a scan, and what it walked. -/
structure ScanPhase where
  kind : ScanKind
  startedAt : SystemTime
  elapsed : Duration
  targets : TargetScope
  unroutable : List IpAddr
  (undecided silent : List IpRange)
  origin : Option PhaseOrigin
  isOpen : Bool

namespace ScanPhase

def finishedAt (phase : ScanPhase) : SystemTime := (phase.startedAt.checkedAdd phase.elapsed).getD phase.startedAt

def attributeTo (phase : ScanPhase) (origin : PhaseOrigin) : ScanPhase := { phase with origin := some origin }

end ScanPhase

/-! ## Reports -/

def ENGINE_VERSION : Text := ['0', '.', '1', '9', '.', '0']

structure ScanReport where
  engineVersion : Text
  phases : List ScanPhase
  hosts : SortedMap ScopedIp.Key Host

def Unheard.reading (phases : List ScanPhase) (pending : Bool) : IpSet :=
  IpSet.fromRanges (phases.flatMap fun phase =>
    phase.silent ++ if phase.kind == .portScan && (pending || !phase.isOpen) then phase.undecided else [])

def Unheard.drops (unheard : IpSet) (host : Host) : Bool :=
  host.status == .unknown && host.ips.keys.any unheard.contains

/-- Hosts by their keys, those of one key folded. -/
def index (p : Process) (hosts : List Host) : SortedMap ScopedIp.Key Host :=
  hosts.foldl
    (fun indexed host =>
      let key := host.scopedIp.key
      indexed.insert key
        (match indexed.get? key with
        | some existing => existing.merge p host
        | none => host))
    SortedMap.empty

def append (into other : IpSet) : IpSet := other.v6.foldl IpSet.pushV6Range (other.v4.foldl IpSet.pushV4Range into)

/-- The addresses of listed hosts inside a set. -/
def listedWithin (hosts : List Host) (within : IpSet) : IpSet :=
  if within.isEmpty then .new
  else ((hosts.flatMap fun host => host.ips.keys).filter within.contains).foldl IpSet.insert .new

namespace ScanReport

def hostList (r : ScanReport) : List Host := r.hosts.values

def forgetTheSilent (r : ScanReport) : ScanReport :=
  let unheard := Unheard.reading r.phases true
  if unheard.isEmpty then r else { r with hosts := r.hosts.retain fun _ host => !Unheard.drops unheard host }

def recorded (p : Process) (engineVersion : Text) (phases : List ScanPhase) (hosts : List Host) : ScanReport :=
  forgetTheSilent ⟨engineVersion, phases, index p hosts⟩

def fromPhases (p : Process) (phases : List ScanPhase) (hosts : List Host) : ScanReport :=
  recorded p ENGINE_VERSION phases hosts

def observedAt (p : Process) (r : ScanReport) : SystemTime :=
  if r.phases.isEmpty then (r.hostList.map Host.lastSeen).max?.getD p.now
  else (r.phases.map ScanPhase.finishedAt).max?.getD p.now

def settle (state : IpSet × IpSet) (phase : ScanPhase) : IpSet × IpSet :=
  let left := phase.undecided.foldl IpSet.insertRange .new
  let walked := (phase.targets.ranges.foldl IpSet.insertRange .new).subtract left
  (append state.1 left, phase.unroutable.foldl IpSet.insert (append state.2 walked))

/-- The ranges no phase came to decide. -/
def undecided (r : ScanReport) : List IpRange :=
  let (left, decided) := r.phases.foldl settle (.new, .new)
  if left.isEmpty then []
  else
    let unsettled := (left.subtract decided).canonicalize
    let alive := listedWithin (r.hostList.filter fun host => host.status.isAlive) unsettled
    let remaining := (unsettled.subtract alive).canonicalize
    remaining.v4.map .v4 ++ remaining.v6.map .v6

end ScanReport

end Zond

import ZondEngine.Diff.Host
import ZondEngine.Diff.Pairing

/-!
# Comparing two reports

`ScanDiff::compare` of `diff.rs`: records are paired into hosts, and every host that differs yields a delta
(`mem_compare`); a report compared with itself yields nothing (`compare_self_isEmpty`).
-/

namespace Zond.Diff

open List ScopeIndex

open Ip (IpAddr IpRange IpSet)
open Port (Protocol)
open ScopeIndex (Undecided Swept Probed)

/-! ## The comparison -/

structure DiffOptions where
  identity : HostIdentity
  expiryThreshold : Duration
  asOf : Option SystemTime

structure Provenance where
  engineVersion : Text
  taken : SystemTime
  hosts : Nat
  kinds : List ScanKind
  scopeStated : Bool

structure ScanDiff where
  (baseline current : Provenance)
  hosts : List HostDelta

def ScanDiff.isEmpty (d : ScanDiff) : Bool := d.hosts.isEmpty

variable (p : Process)

def merged (hosts : List Host) (indices : List ℕ) : Option Host :=
  match indices.filterMap (hosts[·]?) with
  | [] => none
  | first :: rest => some (rest.foldl (Host.merge p) first)

def silentIn (baseline current : ScanReport) : IpSet :=
  IpSet.fromRanges ((baseline.phases ++ current.phases).flatMap ScanPhase.silent)

def heardIn (quiet : IpSet) (report : ScanReport) : List Host :=
  report.hostList.filter fun host => host.status != .unknown || !host.ips.keys.any quiet.contains

def clocksOf (baseline current : ScanReport) (options : DiffOptions) : Clocks :=
  ⟨baseline.observedAt p, options.asOf.getD (current.observedAt p), options.expiryThreshold⟩

def componentDelta (baselineHosts currentHosts : List Host) (baselineScope currentScope : ScopeIndex)
    (clocks : Clocks) (component : Component) : Option HostDelta :=
  (Sides.of (merged p baselineHosts component.baseline) (merged p currentHosts component.current)).map fun sides =>
    compareHosts p sides component.baseline.length component.current.length baselineScope currentScope clocks

/-- What differs between two reports, host by host. -/
def compare (order : HashOrder) (baseline current : ScanReport) (options : DiffOptions) : ScanDiff :=
  let quiet := silentIn baseline current
  let baselineHosts := heardIn quiet baseline
  let currentHosts := heardIn quiet current
  let baselineScope := ScopeIndex.of baseline
  let currentScope := ScopeIndex.of current
  let clocks := clocksOf p baseline current options
  let deltas := (components order baselineHosts currentHosts options.identity).filterMap
    (componentDelta p baselineHosts currentHosts baselineScope currentScope clocks)
  { baseline := ⟨baseline.engineVersion, clocks.baseline, baselineHosts.length, baseline.phases.map ScanPhase.kind,
      baselineScope.stated⟩
    current := ⟨current.engineVersion, clocks.current, currentHosts.length, current.phases.map ScanPhase.kind,
      currentScope.stated⟩
    hosts := (deltas.filter fun delta => !delta.isEmpty).insertionSort fun a b => a.address ≤ b.address }

/-- The records of the two reports, paired into hosts. -/
def hostsUnder (order : HashOrder) (baseline current : ScanReport) (identity : HostIdentity) : List Component :=
  components order (heardIn (silentIn baseline current) baseline) (heardIn (silentIn baseline current) current) identity

/-- What differs between the records of one host. -/
def deltaOf (baseline current : ScanReport) (options : DiffOptions) (host : Component) : Option HostDelta :=
  componentDelta p (heardIn (silentIn baseline current) baseline) (heardIn (silentIn baseline current) current)
    (.of baseline) (.of current) (clocksOf p baseline current options) host

section Deltas

variable {p} {order : HashOrder} {baseline current : ScanReport} {options : DiffOptions} {delta : HostDelta}

theorem mem_compare (h : delta ∈ (compare p order baseline current options).hosts) :
    delta.isEmpty = false ∧ ∃ host ∈ hostsUnder order baseline current options.identity,
      deltaOf p baseline current options host = some delta := by
  obtain ⟨hmem, hne⟩ := mem_filter.mp ((mem_insertionSort _).mp h)
  obtain ⟨component, hcomponent, hdelta⟩ := mem_filterMap.mp hmem
  exact ⟨by simpa using hne, component, hcomponent, hdelta⟩

theorem mem_compare_sides (h : delta ∈ (compare p order baseline current options).hosts) :
    ∃ sides baselineRecords currentRecords, delta = compareHosts p sides baselineRecords currentRecords
      (.of baseline) (.of current) (clocksOf p baseline current options) := by
  obtain ⟨_, component, _, hdelta⟩ := mem_compare h
  obtain ⟨sides, _, hsides⟩ := Option.map_eq_some_iff.mp hdelta
  exact ⟨sides, _, _, hsides.symm⟩

end Deltas

/-- **A report compared with itself is no difference**, whatever its records share. -/
theorem compare_self_isEmpty (p : Process) (order : HashOrder) (report : ScanReport) (identity : HostIdentity)
    (expiryThreshold : Duration) :
    (compare p order report report ⟨identity, expiryThreshold, none⟩).isEmpty = true := by
  refine isEmpty_iff.mpr (eq_nil_iff_forall_not_mem.mpr fun delta hdelta => ?_)
  obtain ⟨hne, component, hcomponent, hsome⟩ := mem_compare hdelta
  have hsame := components_self _ _ _ component hcomponent
  -- Both sides of the component are folded from the same records, so they are one host.
  unfold deltaOf componentDelta at hsome
  rw [hsame] at hsome
  cases hmerged : merged p (heardIn (silentIn report report) report) component.current with
  | none => rw [hmerged] at hsome; cases hsome
  | some host =>
    rw [hmerged] at hsome
    obtain rfl := Option.some.inj hsome
    rw [compareHosts_self] at hne
    · cases hne
    · rfl

/-! ## A host the other report never settled -/

/-- A host only one side holds, reported as unreached with every endpoint of it. -/
def HostDelta.IsUnreached (delta : HostDelta) : Prop :=
  delta.presence.counterpartCoverage = some .unreached ∧
    ∀ port ∈ delta.ports, port.presence.counterpartCoverage = some .unreached

section OneSided

variable {p} {scope other : ScopeIndex} {host : Host} {clocks : Clocks} {port : PortDelta} {k l : ℕ}

theorem presence_of_baselineOnly (h : port ∈ (compareHosts p (.baselineOnly host) k l scope other clocks).ports) :
    port.presence = .removed (other.endpoint (other.ofHost host) port.number port.protocol) := by
  obtain ⟨endpoint, _, hdelta⟩ := mem_filterMap.mp h
  obtain ⟨rfl, hboth | ⟨hremoved, _⟩ | ⟨_, hadded⟩⟩ := portDelta_presence hdelta
  · exact absurd rfl hboth.2.1
  · exact hremoved
  · exact absurd rfl hadded

theorem presence_of_currentOnly (h : port ∈ (compareHosts p (.currentOnly host) k l scope other clocks).ports) :
    port.presence = .added (scope.endpoint (scope.ofHost host) port.number port.protocol) := by
  obtain ⟨endpoint, _, hdelta⟩ := mem_filterMap.mp h
  obtain ⟨rfl, hboth | ⟨_, hremoved⟩ | ⟨hadded, _⟩⟩ := portDelta_presence hdelta
  · exact absurd rfl hboth.2.2
  · exact absurd rfl hremoved
  · exact hadded

theorem endpoint_of_undecided {report : ScanReport} {number : UInt16} {protocol : Protocol}
    (hips : ∀ ip ∈ host.ips.keys, Undecided report ip) (hlink : ¬ Swept report host.zone) :
    (ScopeIndex.of report).endpoint ((ScopeIndex.of report).ofHost host) number protocol ≠ .unreached ∧
    ((ScopeIndex.of report).endpoint ((ScopeIndex.of report).ofHost host) number protocol = .covered ↔
      Probed report number protocol) := by
  have hunreached := ofHost_ne_unreached (.of report) host
  refine ⟨endpoint_ne_unreached _ hunreached, ?_⟩
  rw [endpoint_eq_covered_iff hunreached, ofHost_eq_unstated hips hlink]
  exact and_iff_right rfl

end OneSided

/-- **A host the other report left undecided is never unreached**: its own answer is `unstated`,
and its endpoints count as gone, or new, wherever any phase of that report walked their port. -/
theorem cut_short_not_unreached {p : Process} {order : HashOrder} {baseline current : ScanReport}
    {options : DiffOptions} {delta : HostDelta} (hdelta : delta ∈ (compare p order baseline current options).hosts)
    (host : Host) : (∀ after, delta.presence = .removed after → delta.baseline = some host →
      (∀ ip ∈ host.ips.keys, Undecided current ip) → ¬ Swept current host.zone →
      ¬ delta.IsUnreached ∧ after = .unstated ∧ ∀ port ∈ delta.ports,
        port.presence.counterpartCoverage ≠ some .unreached ∧
        (port.presence.isConfirmed = true ↔ Probed current port.number port.protocol)) ∧
    (∀ before, delta.presence = .added before → delta.current = some host →
      (∀ ip ∈ host.ips.keys, Undecided baseline ip) → ¬ Swept baseline host.zone →
      ¬ delta.IsUnreached ∧ before = .unstated ∧ ∀ port ∈ delta.ports,
        port.presence.counterpartCoverage ≠ some .unreached ∧
        (port.presence.isConfirmed = true ↔ Probed baseline port.number port.protocol)) := by
  obtain ⟨sides, k, l, rfl⟩ := mem_compare_sides hdelta
  cases sides with
  | both was is => exact ⟨nofun, nofun⟩
  | baselineOnly was =>
    refine ⟨fun after hafter hhost hips hlink => ?_, nofun⟩
    obtain rfl := Option.some.inj hhost
    obtain rfl := Presence.removed.inj hafter
    have hunstated := ofHost_eq_unstated hips hlink
    refine ⟨fun h => ofHost_ne_unreached _ _ (Option.some.inj h.1), hunstated, fun port hport => ?_⟩
    obtain ⟨hunreached, hcovered⟩ := endpoint_of_undecided hips hlink
    rw [presence_of_baselineOnly hport, ← hcovered]
    exact ⟨fun h => hunreached (Option.some.inj h), Presence.isConfirmed_removed⟩
  | currentOnly is =>
    refine ⟨nofun, fun before hbefore hhost hips hlink => ?_⟩
    obtain rfl := Option.some.inj hhost
    obtain rfl := Presence.added.inj hbefore
    have hunstated := ofHost_eq_unstated hips hlink
    refine ⟨fun h => ofHost_ne_unreached _ _ (Option.some.inj h.1), hunstated, fun port hport => ?_⟩
    obtain ⟨hunreached, hcovered⟩ := endpoint_of_undecided hips hlink
    rw [presence_of_currentOnly hport, ← hcovered]
    exact ⟨fun h => hunreached (Option.some.inj h), Presence.isConfirmed_added⟩

/-! A web server known to one scan, and a port scan of its address that was cut short. -/

def bootProcess : Process := ⟨0, 0, []⟩

def webServer : Host :=
  ((Host.new bootProcess (.v4 1)).setStatus bootProcess .up).addPort bootProcess (.new 80 .tcp .open)

def phaseOver (kind : ScanKind) (ip : Fin (2 ^ 32)) (ports : PortScope) (undecided : List IpRange) : ScanPhase :=
  ⟨kind, 0, 0, ⟨[.v4 (.single ip)], [], ports, []⟩, [], undecided, [], none, false⟩

def webPorts : PortScope := .every (.fromIter [(80, .tcp)])

def webScan : ScanReport := .fromPhases bootProcess [phaseOver .portScan 1 webPorts []] [webServer]

def cutShortScan : ScanReport :=
  .fromPhases bootProcess [phaseOver .portScan 1 webPorts [.v4 (.single 1)]] []

theorem webServer_cut_short :
    ∃ delta ∈ (compare bootProcess .asBuilt webScan cutShortScan ⟨.anyAddress, 0, none⟩).hosts,
      ∃ host ∈ delta.baseline, delta.presence = .removed .unstated ∧
        (∀ ip ∈ host.ips.keys, Undecided cutShortScan ip) ∧ ¬ Swept cutShortScan host.zone ∧
        ∃ port ∈ delta.ports, port.presence.isConfirmed = true := by
  decide +kernel

theorem cut_short_confirms_webServer_gone :
    ∃ delta ∈ (compare bootProcess .asBuilt webScan cutShortScan ⟨.anyAddress, 0, none⟩).hosts,
      ∃ host ∈ delta.baseline, delta.presence = .removed .unstated ∧
        (∀ ip ∈ host.ips.keys, Undecided cutShortScan ip) ∧ ¬ Swept cutShortScan host.zone ∧
        ¬ delta.IsUnreached ∧ ∃ port ∈ delta.ports, port.presence.isConfirmed = true := by
  obtain ⟨delta, hdelta, host, hhost, hpresence, hips, hlink, hport⟩ := webServer_cut_short
  refine ⟨delta, hdelta, host, hhost, hpresence, hips, hlink, fun h => ?_, hport⟩
  have hcoverage := h.1
  rw [hpresence] at hcoverage
  cases hcoverage

theorem webServer_not_unreached :
    ∃ delta ∈ (compare bootProcess .asBuilt webScan cutShortScan ⟨.anyAddress, 0, none⟩).hosts,
      ¬ delta.IsUnreached ∧ ∀ port ∈ delta.ports, port.presence.counterpartCoverage ≠ some .unreached ∧
        (port.presence.isConfirmed = true ↔ Probed cutShortScan port.number port.protocol) := by
  obtain ⟨delta, hdelta, host, hhost, hpresence, hips, hlink, _⟩ := webServer_cut_short
  obtain ⟨hne, _, hports⟩ := (cut_short_not_unreached hdelta host).1 _ hpresence hhost hips hlink
  exact ⟨delta, hdelta, hne, hports⟩

/-! ## Which phase walked an endpoint -/

def PhaseReaches (phase : ScanPhase) (host : Host) : Prop :=
  (∃ ip ∈ host.ips.keys, ∃ range ∈ phase.targets.ranges, range.contains ip = true) ∨
    phase.targets.swept host.zone = true

def WalkedByOnePhase (report : ScanReport) (host : Host) (port : UInt16) (protocol : Protocol) : Prop :=
  ∃ phase ∈ report.phases, PhaseReaches phase host ∧ phase.targets.ports.covers port protocol = some true

instance {phase : ScanPhase} {host : Host} : Decidable (PhaseReaches phase host) :=
  inferInstanceAs (Decidable ((∃ ip ∈ host.ips.keys, ∃ range ∈ phase.targets.ranges, range.contains ip = true) ∨
    phase.targets.swept host.zone = true))

instance {report : ScanReport} {host : Host} {port : UInt16} {protocol : Protocol} :
    Decidable (WalkedByOnePhase report host port protocol) :=
  inferInstanceAs (Decidable (∃ phase ∈ report.phases, PhaseReaches phase host ∧
    phase.targets.ports.covers port protocol = some true))

theorem probed_of_covered {report : ScanReport} {host : Host} {side : Option Host} {endpoint : Endpoint}
    (h : PresenceFor.coverage ((ScopeIndex.of report).endpoint ((ScopeIndex.of report).ofHost host))
      (unreachedPorts (portsOf side)) endpoint = .covered) : Probed report endpoint.number endpoint.protocol := by
  unfold PresenceFor.coverage at h
  split at h
  · cases h
  · exact ((endpoint_eq_covered_iff (ofHost_ne_unreached _ host)).mp h).2

/-- **A covered endpoint was walked by one phase** that reached its host too, where every phase that walked its port
did. -/
theorem covered_by_one_phase {p : Process} {order : HashOrder} {baseline current : ScanReport}
    {options : DiffOptions} {delta : HostDelta} (hdelta : delta ∈ (compare p order baseline current options).hosts)
    {port : PortDelta} (hport : port ∈ delta.ports) (host : Host) :
    (port.presence = .removed .covered → delta.baseline = some host →
      (∀ phase ∈ current.phases, phase.targets.ports.covers port.number port.protocol = some true →
        PhaseReaches phase host) → WalkedByOnePhase current host port.number port.protocol) ∧
    (port.presence = .added .covered → delta.current = some host →
      (∀ phase ∈ baseline.phases, phase.targets.ports.covers port.number port.protocol = some true →
        PhaseReaches phase host) → WalkedByOnePhase baseline host port.number port.protocol) := by
  obtain ⟨sides, k, l, rfl⟩ := mem_compare_sides hdelta
  obtain ⟨endpoint, _, hsome⟩ := mem_filterMap.mp hport
  obtain ⟨rfl, ⟨hboth, _⟩ | ⟨hremoved, _⟩ | ⟨hadded, _⟩⟩ := portDelta_presence hsome
  · rw [hboth]
    exact ⟨nofun, nofun⟩
  · rw [hremoved]
    refine ⟨fun hcovered hhost hreaches => ?_, nofun⟩
    obtain rfl := Sides.askedOfCurrent_of_baseline hhost
    obtain ⟨phase, hphase, hcovers⟩ := probed_of_covered (Presence.removed.inj hcovered)
    exact ⟨phase, hphase, hreaches phase hphase hcovers, hcovers⟩
  · rw [hadded]
    refine ⟨nofun, fun hcovered hhost hreaches => ?_⟩
    obtain rfl := Sides.askedOfBaseline_of_current hhost
    obtain ⟨phase, hphase, hcovers⟩ := probed_of_covered (Presence.added.inj hcovered)
    exact ⟨phase, hphase, hreaches phase hphase hcovers, hcovers⟩

def splitScan : ScanReport :=
  .fromPhases bootProcess [phaseOver .discovery 1 .noPorts [], phaseOver .portScan 2 webPorts []] []

theorem split_scan_confirms_webServer_gone :
    ∃ delta ∈ (compare bootProcess .asBuilt webScan splitScan ⟨.anyAddress, 0, none⟩).hosts,
      ∃ host ∈ delta.baseline, ∃ port ∈ delta.ports, port.presence = .removed .covered ∧
        ¬ WalkedByOnePhase splitScan host port.number port.protocol := by
  decide +kernel

/-- The address was looked for and its port walked, and so was the port of another address. -/
def laterScan : ScanReport :=
  .fromPhases bootProcess [phaseOver .discovery 1 .noPorts [], phaseOver .portScan 1 webPorts [],
    ⟨.portScan, 0, 0, ⟨[.v4 ⟨1, 2, by decide⟩], [], webPorts, []⟩, [], [], [], none, false⟩] []

theorem laterScan_walked_webServer :
    ∃ delta ∈ (compare bootProcess .asBuilt webScan laterScan ⟨.anyAddress, 0, none⟩).hosts,
      ∃ host ∈ delta.baseline, ∃ port ∈ delta.ports, port.presence = .removed .covered ∧
        WalkedByOnePhase laterScan host port.number port.protocol := by
  have hreaches : ∃ delta ∈ (compare bootProcess .asBuilt webScan laterScan ⟨.anyAddress, 0, none⟩).hosts,
      ∃ host ∈ delta.baseline, ∃ port ∈ delta.ports, port.presence = .removed .covered ∧
        ∀ phase ∈ laterScan.phases, phase.targets.ports.covers port.number port.protocol = some true →
          PhaseReaches phase host := by
    decide +kernel
  obtain ⟨delta, hdelta, host, hhost, port, hport, hcovered, hphases⟩ := hreaches
  exact ⟨delta, hdelta, host, hhost, port, hport, hcovered,
    (covered_by_one_phase hdelta hport host).1 hcovered hhost hphases⟩

end Zond.Diff

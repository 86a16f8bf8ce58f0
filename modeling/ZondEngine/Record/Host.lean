import Mathlib.Data.Multiset.Sort
import ZondEngine.Model.Host.Addresses
import ZondEngine.Record.Port

/-!
# What a host is in a file

The record `record.rs` writes a host as, and the host it is read as, every field from the record alone
(`HostRecord.rebuildWith_eq`).
-/

namespace Zond

open Option

open Ip (IpAddr)
open Scoped (Zone)

/-! ## Status -/

structure StatusReasonRecord where
  protocol : Text
  source : Option IpAddr
  sourceWithheld : Bool
  details : Option Text
  deriving DecidableEq

namespace StatusReasonRecord

def key (record : StatusReasonRecord) : Text ×ₗ WithBot IpAddr ×ₗ Bool ×ₗ WithBot Text :=
  toLex (record.protocol, toLex (record.source, toLex (record.sourceWithheld, record.details)))

theorem key_injective : Function.Injective key := by
  rintro ⟨protocol, source, withheld, details⟩ ⟨protocol', source', withheld', details'⟩ h
  obtain ⟨rfl, hrest⟩ := Prod.mk.inj (toLex.injective h)
  obtain ⟨hsource, hrest⟩ := Prod.mk.inj (toLex.injective hrest)
  obtain ⟨rfl, hdetails⟩ := Prod.mk.inj (toLex.injective hrest)
  obtain rfl : source = source' := hsource
  obtain rfl : details = details' := hdetails
  rfl

instance : LinearOrder StatusReasonRecord := LinearOrder.lift' key key_injective

def of (reason : StatusReason) : StatusReasonRecord where
  protocol := Wire.statusProtocolName reason.protocol
  source :=
    match reason.source with
    | .intermediary address => some address
    | _ => none
  sourceWithheld := reason.source == .withheld
  details := reason.details

def rebuild (record : StatusReasonRecord) : StatusReason where
  protocol := (Wire.statusProtocol record.protocol).getD (.custom record.protocol)
  source :=
    if record.sourceWithheld then .withheld
    else
      match record.source with
      | some address => .intermediary address
      | none => .host
  details := record.details

theorem rebuild_of {reason : StatusReason} (h : reason.protocol ≠ .custom []) : (of reason).rebuild = reason := by
  obtain ⟨protocol, source, details⟩ := reason
  unfold rebuild of
  rw [Wire.statusProtocol_name h]
  cases source <;> rfl

end StatusReasonRecord

/-! ## Names and systems -/

structure NameRecord where
  (source kind name : Text)
  deriving DecidableEq

namespace NameRecord

def of (name : HostName) : NameRecord := ⟨Wire.nameSource.name name.source, Wire.nameKind.name name.kind, name.name⟩

def rebuild (record : NameRecord) : Option HostName := do
  HostName.new (← Wire.nameKind.parse record.kind) (← Wire.nameSource.parse record.source) record.name

theorem rebuild_of {name : HostName} (h : name.WellFormed) : (of name).rebuild = some name := by
  unfold rebuild of
  simp only [Wire.Spelling.parse_name, bind_eq_bind, bind_some]
  exact h

end NameRecord

structure OsRecord where
  name : Text
  accuracy : Nat
  (device family generation vendor kernel arch : Option Text)
  detailAccuracy : Option Nat
  evidence : Option Text
  cpes : List Text
  deriving DecidableEq

namespace OsRecord

def of (os : OsFingerprint) : OsRecord where
  name := os.name
  accuracy := os.accuracy
  device := os.device
  family := os.family
  generation := os.generation
  vendor := os.vendor
  kernel := os.kernel
  arch := os.arch
  detailAccuracy := os.detailAccuracy
  evidence := os.evidence
  cpes := os.cpe.keys

def rebuild (record : OsRecord) : OsFingerprint :=
  { OsFingerprint.new record.name record.accuracy with
    family := record.family
    device := record.device
    generation := record.generation
    vendor := record.vendor
    kernel := record.kernel
    arch := record.arch
    detailAccuracy := record.detailAccuracy.map (min · 100)
    evidence := record.evidence
    cpe := addCpes MAX_CPES_PER_OS SortedMap.empty record.cpes }

theorem rebuild_of {os : OsFingerprint} (h : os.WellFormed) : (of os).rebuild = os := by
  have hdetail : os.detailAccuracy.map (min · 100) = os.detailAccuracy := by
    cases hd : os.detailAccuracy with
    | none => rfl
    | some accuracy => exact congrArg some (min_eq_left (h.detail_le accuracy hd))
  have haccuracy : min os.accuracy 100 = os.accuracy := min_eq_left os.accuracy_le
  unfold rebuild of OsFingerprint.new
  simp only [haccuracy, hdetail, addCpes_keys h.cpe_le]

end OsRecord

structure OsEvidenceRecord where
  source : Text
  (family device vendor product version kernel arch cpe : Option Text)
  confidence : F32
  evidence : Text
  deriving DecidableEq

namespace OsEvidenceRecord

def of (e : OsEvidence) : OsEvidenceRecord :=
  ⟨Wire.osSource.name e.source, e.family, e.device, e.vendor, e.product, e.version, e.kernel, e.arch, e.cpe,
    e.confidence, e.evidence⟩

def rebuild (record : OsEvidenceRecord) : OsEvidence :=
  ⟨(Wire.osSource.parse record.source).getD .hostname, record.family, record.device, record.vendor, record.product,
    record.version, record.kernel, record.arch, record.cpe, record.confidence, record.evidence⟩

@[simp]
theorem rebuild_of (e : OsEvidence) : (of e).rebuild = e := by
  unfold rebuild of
  rw [Wire.osSource.parse_name]
  rfl

end OsEvidenceRecord

/-! ## Hardware -/

structure HardwareRecord where
  macs : List (Text × SystemTime)
  (vendor product family cpe23 model version serialNumber : Option Text)
  deriving DecidableEq

namespace HardwareRecord

def isOf (t : Oui) (vendor : Text) (entry : Text × SystemTime) : Bool :=
  ((MacAddr.parse entry.1).bind t.vendor).any (· == vendor)

def swapFirst (macs : List (Text × SystemTime)) (source : Nat) : List (Text × SystemTime) :=
  match macs[0]?, macs[source]? with
  | some first, some other => (macs.set 0 other).set source first
  | _, _ => macs

/-- The addresses start with one that names the vendor; a vendor no address names is written beside them. -/
def of (t : Oui) (hardware : HardwareInfo) : HardwareRecord :=
  let held := hardware.macs.entries.map fun entry => (entry.1.display, entry.2)
  let source := hardware.vendor.bind fun vendor => held.findIdx? (isOf t vendor)
  let macs := source.elim held (swapFirst held)
  let derivable := hardware.vendor.any fun vendor => macs.any (isOf t vendor)
  ⟨macs, if derivable then none else hardware.vendor, hardware.product, hardware.family, hardware.cpe23, hardware.model,
    hardware.version, hardware.serialNumber⟩

def described (record : HardwareRecord) : Option HardwareInfo :=
  HardwareInfo.described ⟨record.vendor, record.product, record.family, record.cpe23, record.model, record.version,
    record.serialNumber⟩

/-- Reads hardware back, address by address. -/
def rebuild (t : Oui) (p : Process) (record : HardwareRecord) : Option HardwareInfo :=
  match record.macs.filterMap fun entry => (MacAddr.parse entry.1).map fun mac => (mac, entry.2) with
  | [] => record.described
  | first :: rest =>
    let seen := (first :: rest).foldl (fun held entry => held.recordMacSeenAt t entry.1 entry.2) (.new t p first.1)
    some (record.described.elim seen seen.merge)

end HardwareRecord

/-! ## Where a host is -/

structure ZoneRecord where
  index : Option UInt32
  name : Text
  deriving DecidableEq

namespace ZoneRecord

def of (zone : Zone) : ZoneRecord := ⟨zone.index, zone.name⟩

def rebuild (record : ZoneRecord) : Zone :=
  if h : record.index = some 0 then ⟨none, record.name, Ip.unzoned_ne_zero⟩ else ⟨record.index, record.name, h⟩

theorem rebuild_of (zone : Zone) : (of zone).rebuild = zone := dif_neg zone.index_ne_zero

end ZoneRecord

structure HopRecord where
  distance : UInt8
  address : Option IpAddr
  rtt : Option Duration
  (inferred withheld : Bool)
  deriving DecidableEq

namespace HopRecord

def of (hop : Hop) : HopRecord where
  distance := hop.distance
  address :=
    match hop.answer with
    | .router address => some address
    | _ => none
  rtt := hop.rtt
  inferred := hop.inferred
  withheld := hop.answer == .withheld

def rebuild (record : HopRecord) : Hop :=
  let hop : Hop :=
    if record.withheld then ⟨record.distance, .withheld, none, false⟩
    else
      match record.address with
      | some address => ⟨record.distance, .router address, record.rtt, false⟩
      | none => ⟨record.distance, .silent, none, false⟩
  if record.inferred then { hop with inferred := true, rtt := none } else hop

theorem rebuild_of {hop : Hop} (h : hop.WellFormed) : (of hop).rebuild = hop := by
  obtain ⟨distance, answer, rtt, inferred⟩ := hop
  cases rtt with
  | none => cases answer <;> cases inferred <;> rfl
  | some rtt =>
    obtain ⟨hinferred, address, hanswer⟩ := h rfl
    obtain rfl : inferred = false := hinferred
    obtain rfl : answer = .router address := hanswer
    rfl

end HopRecord

/-! ## Round trips -/

def HostTelemetry.rttProtocol (t : HostTelemetry) : Option StatusProtocol :=
  match t.rttHistory.filterMap RttSample.protocol with
  | [] => none
  | first :: rest => if rest.all (· == first) then some first else none

structure TelemetryRecord where
  rtts : List Duration
  hopCounter : Option UInt8
  rttProtocol : Option Text
  rttSources : List Text
  deriving DecidableEq

namespace TelemetryRecord

def of (t : HostTelemetry) : TelemetryRecord where
  rtts := t.rttHistory.map RttSample.rtt
  hopCounter := t.hopCounter
  rttProtocol := t.rttProtocol.map Wire.statusProtocolName
  rttSources :=
    if t.rttHistory.all fun sample => sample.source == .direct then []
    else t.rttHistory.map fun sample => Wire.rttSource.name sample.source

def sourceAt (record : TelemetryRecord) (index : Nat) : RttSource :=
  (record.rttSources[index]?).elim .direct fun name => (Wire.rttSource.parse name).getD .segmentWide

variable (p : Process)

def samples (record : TelemetryRecord) : List RttSample :=
  record.rtts.zipIdx.map fun entry =>
    ⟨p.instant, entry.1, record.sourceAt entry.2, record.rttProtocol.bind Wire.statusProtocol⟩

def restore (record : TelemetryRecord) (h : Host) : Host :=
  let measured := (record.samples p).foldl (fun h sample => h.restoreRtt p sample.rtt sample.source sample.protocol) h
  record.hopCounter.elim measured measured.recordHopCounter

def replayed (record : TelemetryRecord) (t : HostTelemetry) : HostTelemetry :=
  let measured := (record.samples p).foldl HostTelemetry.push t
  record.hopCounter.elim measured measured.recordHopCounter

theorem restore_eq (record : TelemetryRecord) (h : Host) :
    record.restore p h = { h with telemetry := record.replayed p h.telemetry } := by
  have hstamp : ∀ sample ∈ record.samples p, sample.taken = p.instant := by
    intro sample hsample
    obtain ⟨entry, _, rfl⟩ := List.mem_map.mp hsample
    rfl
  have hrun : ∀ (samples : List RttSample) (h : Host), (∀ sample ∈ samples, sample.taken = p.instant) →
      samples.foldl (fun h sample => h.restoreRtt p sample.rtt sample.source sample.protocol) h =
        { h with telemetry := samples.foldl HostTelemetry.push h.telemetry } := by
    intro samples
    induction samples with
    | nil => exact fun h _ => rfl
    | cons sample rest ih =>
      intro h hstamp
      have hone : h.restoreRtt p sample.rtt sample.source sample.protocol =
          { h with telemetry := h.telemetry.push sample } := by
        unfold Host.restoreRtt
        rw [← hstamp sample List.mem_cons_self]
      rw [List.foldl_cons, hone, ih _ fun other hother => hstamp other (List.mem_cons_of_mem _ hother)]
      rfl
  unfold restore replayed
  rw [hrun _ h hstamp]
  cases record.hopCounter <;> rfl

end TelemetryRecord

/-! ## The host -/

structure IpProtocolRecord where
  protocol : Fin 256
  state : Text
  deriving DecidableEq

/-- A host as it is written. -/
structure HostRecord where
  primaryIp : IpAddr
  ips : List IpAddr
  hostname : Option Text
  names : List NameRecord
  status : Text
  reasons : List StatusReasonRecord
  os : Option OsRecord
  osEvidence : List OsEvidenceRecord
  hardware : Option HardwareRecord
  zone : Option ZoneRecord
  telemetry : TelemetryRecord
  path : List HopRecord
  (roles filtering : List Text)
  ipProtocols : List IpProtocolRecord
  (firstSeen lastSeen : SystemTime)
  ports : List PortRecord
  findings : List FindingRecord
  deriving DecidableEq

namespace HostRecord

/-- A host as the journal writes it. -/
def of (t : Oui) (h : Host) : HostRecord where
  primaryIp := h.primaryIp
  ips := h.ips.keys
  hostname := h.hostname
  names := h.names.keys.map .of
  status := Wire.hostStatus.name h.status
  reasons := (h.reasons.val.map StatusReasonRecord.of).sort
  os := h.os.map .of
  osEvidence := h.osEvidence.values.map .of
  hardware := h.hardware.map (.of t)
  zone := h.zone.map .of
  telemetry := .of h.telemetry
  path := h.path.hops.map .of
  roles := (h.networkRoles.val.map Wire.networkRole.name).sort
  filtering := (h.filtering.val.map Wire.filtering.name).sort
  ipProtocols := h.ipProtocols.entries.map fun entry => ⟨entry.1, Wire.ipProtocolState.name entry.2⟩
  firstSeen := h.firstSeen
  lastSeen := h.lastSeen
  ports := h.ports.values.map .of
  findings := h.findings.values.map .of

def restoreNames (p : Process) (record : HostRecord) (h : Host) : Host :=
  let called := record.hostname.elim h fun hostname => h.setHostname p (some hostname)
  let named := (record.names.filterMap NameRecord.rebuild).foldl (Host.recordName p) called
  let stated := (Wire.hostStatus.parse record.status).elim named (named.setStatus p)
  (record.reasons.map StatusReasonRecord.rebuild).foldl (Host.addReason p) stated

def restoreSystem (t : Oui) (p : Process) (record : HostRecord) (h : Host) : Host :=
  let identified := record.os.elim h fun os => h.setOs p os.rebuild
  let read := (record.osEvidence.map OsEvidenceRecord.rebuild).foldl Host.recordOsEvidence identified
  let equipped := (record.hardware.bind (HardwareRecord.rebuild t p)).elim read (read.setHardware p)
  record.zone.elim equipped fun zone => equipped.setZone p zone.rebuild

def restoreRoute (p : Process) (record : HostRecord) (h : Host) : Host :=
  let measured := record.telemetry.restore p h
  let routed := (record.path.map HopRecord.rebuild).foldl (Host.recordHop p) measured
  let roled := (record.roles.filterMap Wire.networkRole.parse).foldl (Host.addNetworkRole p) routed
  let filtered := (record.filtering.filterMap Wire.filtering.parse).foldl (Host.addFiltering p) roled
  (record.ipProtocols.map fun entry =>
      (entry.protocol, (Wire.ipProtocolState.parse entry.state).getD .unasked)).foldl
    (fun h verdict => h.recordIpProtocol p verdict.1 verdict.2) filtered

/-- A host from its record, port by port. -/
def rebuildWith (t : Oui) (p : Process) (record : HostRecord) (ports : List Port) : Host :=
  let addressed := (Host.new p record.primaryIp).extendIps p record.ips
  let stated := record.restoreRoute p (record.restoreSystem t p (record.restoreNames p addressed))
  let ported := ports.foldl (Host.addPort p) stated
  let claimed := (record.findings.filterMap FindingRecord.rebuild).foldl Host.addFinding ported
  claimed.restoreSeen record.firstSeen record.lastSeen

def rebuild (t : Oui) (p : Process) (record : HostRecord) : Host :=
  record.rebuildWith t p (record.ports.filterMap PortRecord.rebuild)

end HostRecord

namespace Host

section Stages

variable (p : Process)

theorem foldl_insert_eq {α : Type} [DecidableEq α] {add : Host → α → Host} (put : Finset α → SystemTime → Host)
    (hadd : ∀ held seen a, add (put held seen) a = put (insert a held) p.now) :
    ∀ (added : List α) (held : Finset α) (seen : SystemTime),
      added.foldl add (put held seen) = put (held ∪ added.toFinset) (if added.isEmpty then seen else p.now)
  | [], held, seen => by simp
  | a :: rest, held, seen => by
    rw [List.foldl_cons, hadd, foldl_insert_eq put hadd rest, List.toFinset_cons, Finset.union_insert,
      ← Finset.insert_union]
    cases rest <;> rfl

theorem foldl_addReason_eq (reasons : List StatusReason) (h : Host) : reasons.foldl (addReason p) h =
    { h with
      reasons := h.reasons ∪ reasons.toFinset
      lastSeen := if reasons.isEmpty then h.lastSeen else p.now } :=
  foldl_insert_eq p (fun held seen => { h with reasons := held, lastSeen := seen }) (fun _ _ _ => rfl) reasons h.reasons
    h.lastSeen

theorem foldl_addNetworkRole_eq (roles : List NetworkRole) (h : Host) : roles.foldl (addNetworkRole p) h =
    { h with
      networkRoles := h.networkRoles ∪ roles.toFinset
      lastSeen := if roles.isEmpty then h.lastSeen else p.now } :=
  foldl_insert_eq p (fun held seen => { h with networkRoles := held, lastSeen := seen }) (fun _ _ _ => rfl) roles
    h.networkRoles h.lastSeen

theorem foldl_addFiltering_eq (kinds : List Filtering) (h : Host) : kinds.foldl (addFiltering p) h =
    { h with
      filtering := h.filtering ∪ kinds.toFinset
      lastSeen := if kinds.isEmpty then h.lastSeen else p.now } :=
  foldl_insert_eq p (fun held seen => { h with filtering := held, lastSeen := seen }) (fun _ _ _ => rfl) kinds
    h.filtering h.lastSeen

theorem elim_setStatus_eq (status : Option HostStatus) (h : Host) : status.elim h (h.setStatus p) =
    { h with
      status := max h.status (status.getD .unknown)
      lastSeen := if status.isSome then p.now else h.lastSeen } := by
  cases status with
  | none =>
    have hleast : max h.status .unknown = h.status := by cases h.status <;> rfl
    rw [getD_none, hleast]
    rfl
  | some stated => rfl

theorem elim_setZone_eq (zone : Option ZoneRecord) (h : Host) :
    zone.elim h (fun stated => h.setZone p stated.rebuild) =
      { h with
        zone := h.zone.or (zone.map ZoneRecord.rebuild)
        lastSeen := if zone.isSome then p.now else h.lastSeen } := by
  cases zone with
  | none =>
    rw [map_none, or_none]
    rfl
  | some stated => rfl

end Stages

end Host

namespace HostRecord

variable (t : Oui) (p : Process) (record : HostRecord)

theorem restoreNames_eq (h : Host) : ∃ seen, record.restoreNames p h =
    { h with
      hostname := record.hostname.or h.hostname
      names := (record.names.filterMap NameRecord.rebuild).foldl Host.admitted h.names
      status := max h.status ((Wire.hostStatus.parse record.status).getD .unknown)
      reasons := h.reasons ∪ (record.reasons.map StatusReasonRecord.rebuild).toFinset
      lastSeen := seen } := by
  have hcalled : record.hostname.elim h (fun hostname => h.setHostname p (some hostname)) =
      { h with
        hostname := record.hostname.or h.hostname
        lastSeen := if record.hostname.isSome then p.now else h.lastSeen } := by
    cases record.hostname <;> rfl
  unfold restoreNames
  dsimp only
  rw [hcalled, Host.foldl_recordName_eq, Host.elim_setStatus_eq, Host.foldl_addReason_eq]
  exact ⟨_, rfl⟩

theorem restoreSystem_eq (h : Host) : ∃ seen, record.restoreSystem t p h =
    { h with
      os := (record.os.map OsRecord.rebuild).or h.os
      osEvidence := (record.osEvidence.map OsEvidenceRecord.rebuild).foldl Host.recordReading h.osEvidence
      hardware := (record.hardware.bind (HardwareRecord.rebuild t p)).or h.hardware
      zone := h.zone.or (record.zone.map ZoneRecord.rebuild)
      lastSeen := seen } := by
  have hidentified : record.os.elim h (fun os => h.setOs p os.rebuild) =
      { h with
        os := (record.os.map OsRecord.rebuild).or h.os
        lastSeen := if record.os.isSome then p.now else h.lastSeen } := by
    cases record.os <;> rfl
  have hequipped : ∀ (hardware : Option HardwareInfo) (h : Host), hardware.elim h (h.setHardware p) =
      { h with hardware := hardware.or h.hardware, lastSeen := if hardware.isSome then p.now else h.lastSeen } := by
    intro hardware h
    cases hardware <;> rfl
  unfold restoreSystem
  dsimp only
  rw [hidentified, Host.foldl_recordOsEvidence_eq, hequipped, Host.elim_setZone_eq]
  exact ⟨_, rfl⟩

theorem restoreRoute_eq (h : Host) : ∃ seen, record.restoreRoute p h =
    { h with
      telemetry := record.telemetry.replayed p h.telemetry
      path := (record.path.map HopRecord.rebuild).foldl NetworkPath.record h.path
      networkRoles := h.networkRoles ∪ (record.roles.filterMap Wire.networkRole.parse).toFinset
      filtering := h.filtering ∪ (record.filtering.filterMap Wire.filtering.parse).toFinset
      ipProtocols := (record.ipProtocols.map fun entry =>
        (entry.protocol, (Wire.ipProtocolState.parse entry.state).getD .unasked)).foldl Host.raised h.ipProtocols
      lastSeen := seen } := by
  unfold restoreRoute
  dsimp only
  rw [TelemetryRecord.restore_eq, Host.foldl_recordHop_eq, Host.foldl_addNetworkRole_eq, Host.foldl_addFiltering_eq,
    Host.foldl_recordIpProtocol_eq]
  exact ⟨_, rfl⟩

def filedPorts (ports : List Port) : Host.PortsState :=
  ports.foldl Host.filePort (SortedMap.empty, 0, (record.roles.filterMap Wire.networkRole.parse).toFinset)

/-- **The host a record is read as**, every field from the record alone. -/
theorem rebuildWith_eq (ports : List Port) : record.rebuildWith t p ports =
    { primaryIp := (record.ips.foldl Host.admitIp (Host.new p record.primaryIp)).primaryIp
      ips := (record.ips.foldl Host.admitIp (Host.new p record.primaryIp)).ips
      hostname := record.hostname
      names := (record.names.filterMap NameRecord.rebuild).foldl Host.admitted SortedMap.empty
      setAsideNames := SortedMap.empty
      status := (Wire.hostStatus.parse record.status).getD .unknown
      reasons := (record.reasons.map StatusReasonRecord.rebuild).toFinset
      os := record.os.map OsRecord.rebuild
      osEvidence := (record.osEvidence.map OsEvidenceRecord.rebuild).foldl Host.recordReading SortedMap.empty
      hardware := record.hardware.bind (HardwareRecord.rebuild t p)
      zone := record.zone.map ZoneRecord.rebuild
      telemetry := record.telemetry.replayed p (.new DEFAULT_RTT_SAMPLES)
      path := (record.path.map HopRecord.rebuild).foldl NetworkPath.record .new
      networkRoles := (record.filedPorts ports).2.2
      filtering := (record.filtering.filterMap Wire.filtering.parse).toFinset
      ipProtocols := (record.ipProtocols.map fun entry =>
        (entry.protocol, (Wire.ipProtocolState.parse entry.state).getD .unasked)).foldl Host.raised SortedMap.empty
      findings := (record.findings.filterMap FindingRecord.rebuild).foldl
        (fun held finding => (addFinding held finding).1) SortedMap.empty
      firstSeen := min record.firstSeen record.lastSeen
      lastSeen := max record.firstSeen record.lastSeen
      ports := (record.filedPorts ports).1
      openPorts := (record.filedPorts ports).2.1
      touched := none
      primary_mem := (record.ips.foldl Host.admitIp (Host.new p record.primaryIp)).primary_mem } := by
  obtain ⟨held, hmem, hadmitted⟩ := Host.foldl_admitIp_eq record.ips (Host.new p record.primaryIp)
  have hleast : ∀ status : HostStatus, max .unknown status = status := fun status => by cases status <;> rfl
  unfold rebuildWith Host.extendIps
  rw [hadmitted]
  dsimp only
  -- Each stage in its turn is replaced by the record it is known to write.
  generalize haddressed : Host.seen p { Host.new p record.primaryIp with ips := held, primary_mem := hmem } = addressed
  obtain ⟨_, hnamed⟩ := record.restoreNames_eq p addressed
  generalize record.restoreNames p addressed = named at hnamed ⊢
  obtain ⟨_, hsystem⟩ := record.restoreSystem_eq t p named
  generalize record.restoreSystem t p named = identified at hsystem ⊢
  obtain ⟨_, hroute⟩ := record.restoreRoute_eq p identified
  generalize record.restoreRoute p identified = routed at hroute ⊢
  rw [Host.foldl_addPort_eq, Host.foldl_addFinding_eq]
  subst haddressed hnamed hsystem hroute
  simp only [Host.restoreSeen, Host.seen, Host.new, Host.portsState, or_none, none_or, hleast,
    Finset.empty_union, filedPorts, map_none]

end HostRecord

end Zond

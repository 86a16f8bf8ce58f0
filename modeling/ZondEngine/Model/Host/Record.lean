import ZondEngine.Model.Host.Parts

/-!
# Host records

`Host` of `model/host.rs`: the address it is reported under is one of its addresses, which is a field, and each mutator
says what it turns away. `Host.merge` folds two accounts of one scan and puts the sightings back at the end.
-/

namespace Zond

open Ip (IpAddr isGloballyScoped)
open Scoped (Zone)

def MAX_PORTS_PER_HOST : Nat := 65536 * 3

def TARPIT_OPEN_PORTS : Nat := 1000

def MAX_OS_EVIDENCE : Nat := 8

def MAX_NAMES : Nat := 16

def MAX_IPS : Nat := 1024

def MAX_SET_ASIDE_NAMES : Nat := 64

def identityRank : IpAddr → Nat
  | .v4 _ => 0
  | .v6 addr => if isGloballyScoped addr then 1 else 2

/-! ## Addresses -/

def lowestIp (primary : IpAddr) (ips : SortedSet IpAddr) : Option IpAddr :=
  (ips.keys.filter (· != primary)).foldl
    (fun lowest ip =>
      match lowest with
      | some held => if identityRank held ≤ identityRank ip then some ip else some held
      | none => some ip)
    none

def admitIp (primary : IpAddr) (ips : SortedSet IpAddr) (ip : IpAddr) : SortedSet IpAddr :=
  if ips.len < MAX_IPS ∨ ips.contains ip = true then ips.add ip
  else
    match lowestIp primary ips with
    | some lowest => if identityRank ip < identityRank lowest then SortedSet.add (ips.erase lowest) ip else ips
    | none => ips

theorem mem_of_lowestIp {primary lowest : IpAddr} {ips : SortedSet IpAddr} (h : lowestIp primary ips = some lowest) :
    lowest ∈ ips.keys ∧ lowest ≠ primary := by
  -- Whatever the fold holds came from the list, which the leading address was filtered out of.
  have hrun : ∀ (rest : List IpAddr) (held : Option IpAddr) (ip : IpAddr), rest.foldl
      (fun lowest ip =>
        match lowest with
        | some held => if identityRank held ≤ identityRank ip then some ip else some held
        | none => some ip)
      held = some ip → ip ∈ rest ∨ held = some ip := by
    intro rest
    induction rest with
    | nil => exact fun held ip hip => .inr hip
    | cons next rest ih =>
      intro held ip hip
      rcases ih _ ip hip with hmem | hnext
      · exact .inl (List.mem_cons_of_mem _ hmem)
      · cases held with
        | none => exact .inl (Option.some.inj hnext ▸ List.mem_cons_self)
        | some kept =>
          dsimp only at hnext
          split at hnext
          · exact .inl (Option.some.inj hnext ▸ List.mem_cons_self)
          · exact .inr hnext
  obtain ⟨hmem, hne⟩ := List.mem_filter.mp ((hrun _ none lowest h).resolve_right nofun)
  exact ⟨hmem, by simpa using hne⟩

theorem contains_admitIp {primary : IpAddr} {ips : SortedSet IpAddr} (h : ips.contains primary = true) (ip : IpAddr) :
    (admitIp primary ips ip).contains primary = true := by
  unfold admitIp
  split
  · exact SortedSet.contains_add.mpr (.inr h)
  · split
    next lowest hlowest =>
      split
      · refine SortedSet.contains_add.mpr (.inr ?_)
        rw [SortedSet.contains_erase_of_ne (mem_of_lowestIp hlowest).2.symm, h]
      · exact h
    · exact h

/-! ## The record -/

/-- What is known of one host. -/
structure Host where
  primaryIp : IpAddr
  ips : SortedSet IpAddr
  hostname : Option Text
  names : SortedSet HostName
  setAsideNames : SortedSet Text
  status : HostStatus
  reasons : Finset StatusReason
  os : Option OsFingerprint
  osEvidence : SortedMap OsClaim OsEvidence
  hardware : Option HardwareInfo
  zone : Option Zone
  telemetry : HostTelemetry
  path : NetworkPath
  networkRoles : Finset NetworkRole
  filtering : Finset Filtering
  ipProtocols : SortedMap (Fin 256) IpProtocolState
  findings : SortedMap ClaimId Finding
  (firstSeen lastSeen : SystemTime)
  ports : SortedMap Endpoint Port
  openPorts : Nat
  touched : Option (SortedSet Endpoint)
  primary_mem : ips.contains primaryIp = true
  deriving DecidableEq

namespace Host

/-- A host known by one address only. -/
def new (p : Process) (primaryIp : IpAddr) : Host where
  primaryIp := primaryIp
  ips := SortedSet.add SortedMap.empty primaryIp
  hostname := none
  names := SortedMap.empty
  setAsideNames := SortedMap.empty
  status := .unknown
  reasons := ∅
  os := none
  osEvidence := SortedMap.empty
  hardware := none
  zone := none
  telemetry := .new DEFAULT_RTT_SAMPLES
  path := .new
  networkRoles := ∅
  filtering := ∅
  ipProtocols := SortedMap.empty
  findings := SortedMap.empty
  firstSeen := p.now
  lastSeen := p.now
  ports := SortedMap.empty
  openPorts := 0
  touched := none
  primary_mem := SortedSet.contains_add.mpr (.inl rfl)

variable (h : Host)

theorem primaryIp_mem : h.primaryIp ∈ h.ips.keys := SortedMap.contains_iff.mp h.primary_mem

def scopedIp : ScopedIp :=
  match h.zone with
  | some zone => .scopedTo h.primaryIp zone
  | none => .unscoped h.primaryIp

def vendor (h : Host) : Option Text := h.hardware.bind HardwareInfo.vendor

variable (p : Process)

def seen (h : Host) : Host := { h with lastSeen := p.now }

/-! ### Mutators -/

/-- Adds an address while there is room. -/
def admitIp (h : Host) (ip : IpAddr) : Host :=
  { h with ips := Zond.admitIp h.primaryIp h.ips ip, primary_mem := contains_admitIp h.primary_mem ip }

def addIp (h : Host) (ip : IpAddr) : Host := (h.admitIp ip).seen p

def extendIps (h : Host) (ips : List IpAddr) : Host := (ips.foldl admitIp h).seen p

/-- Leads with an address if it is a better one. -/
def considerPrimaryIp (h : Host) (candidate : IpAddr) : Host :=
  let added := h.addIp p candidate
  if hmem : added.ips.contains candidate = true then
    if identityRank added.primaryIp ≤ identityRank candidate then added
    else { added with primaryIp := candidate, lastSeen := p.now, primary_mem := hmem }
  else added

def setHostname (h : Host) (hostname : Option Text) : Host := { h with hostname, lastSeen := p.now }

def admitName (name : HostName) : Option Host :=
  if MAX_NAMES ≤ h.names.len ∧ h.names.contains name = false then none
  else some { h with names := h.names.add name }

def recordName (h : Host) (name : HostName) : Host := ((h.seen p).admitName name).getD (h.seen p)

/-- Keeps a name the host does not go by. -/
def setAside (name : Text) : Host :=
  let stated := h.hostname == some name || h.names.keys.any fun held => held.name == name
  if !stated && decide (h.setAsideNames.len < MAX_SET_ASIDE_NAMES) && !h.setAsideNames.contains name then
    { h with setAsideNames := h.setAsideNames.add name }
  else h

def setAsideNamesOf (h account : Host) : Host :=
  (account.hostname.toList ++ account.names.keys.map HostName.name ++ account.setAsideNames.keys).foldl setAside h

def setStatus (h : Host) (status : HostStatus) : Host :=
  { h with status := max h.status status, lastSeen := p.now }

def addReason (h : Host) (reason : StatusReason) : Host :=
  { h with reasons := insert reason h.reasons, lastSeen := p.now }

def addNetworkRole (h : Host) (role : NetworkRole) : Host :=
  { h with networkRoles := insert role h.networkRoles, lastSeen := p.now }

def addFiltering (h : Host) (filtering : Filtering) : Host :=
  { h with filtering := insert filtering h.filtering, lastSeen := p.now }

/-- Files what a detection read of the system. -/
def recordOsEvidence (evidence : OsEvidence) : Host :=
  match h.osEvidence.get? evidence.claim with
  | some existing =>
    let folded :=
      { existing with
        evidence := joinReadings existing.evidence evidence.evidence
        confidence := existing.confidence.max evidence.confidence }
    { h with osEvidence := h.osEvidence.insert evidence.claim folded }
  | none =>
    if MAX_OS_EVIDENCE ≤ h.osEvidence.len then h
    else { h with osEvidence := h.osEvidence.insert evidence.claim evidence }

/-- Files a finding on the host. -/
def addFinding (h : Host) (finding : Finding) : Host := { h with findings := (Zond.addFinding h.findings finding).1 }

def setOs (h : Host) (os : OsFingerprint) : Host := { h with os := some os, lastSeen := p.now }

def setHardware (h : Host) (hardware : HardwareInfo) : Host :=
  { h with hardware := some hardware, lastSeen := p.now }

/-- Names the link a host was seen on. -/
def setZone (h : Host) (zone : Zone) : Host :=
  { h with zone := h.zone.or (some zone), lastSeen := p.now }

def addRtts (h : Host) (rtts : List Duration) : Host :=
  { h with telemetry := rtts.foldl (HostTelemetry.addRtt p) h.telemetry, lastSeen := p.now }

def recordHopCounter (h : Host) (arrived : UInt8) : Host :=
  { h with telemetry := h.telemetry.recordHopCounter arrived }

def recordHop (h : Host) (hop : Hop) : Host := { h with path := h.path.record hop, lastSeen := p.now }

/-- Keeps the strongest verdict on a protocol. -/
def recordIpProtocol (h : Host) (number : Fin 256) (state : IpProtocolState) : Host :=
  let recorded :=
    match h.ipProtocols.get? number with
    | some held => if held.ctorIdx < state.ctorIdx then h.ipProtocols.insert number state else h.ipProtocols
    | none => h.ipProtocols.insert number state
  { h with
    ipProtocols := recorded
    lastSeen := if state = .open ∨ state = .closed then p.now else h.lastSeen }

/-- Files a port, or folds it into the one held. -/
def addPort (h : Host) (port : Port) : Host :=
  let existing := h.ports.get? port.endpoint
  if existing.isNone ∧ MAX_PORTS_PER_HOST ≤ h.ports.len then
    { h with networkRoles := insert .truncated h.networkRoles }
  else
    let recorded :=
      match existing with
      | some held => held.merge port
      | none => port
    let opened := !(existing.any fun held => held.state == .open) && recorded.state == .open
    let openPorts := if opened then h.openPorts + 1 else h.openPorts
    { h with
      ports := h.ports.insert port.endpoint recorded
      touched := h.touched.map fun touched => touched.add port.endpoint
      openPorts
      networkRoles :=
        if opened && decide (TARPIT_OPEN_PORTS ≤ openPorts) then insert .tarpit h.networkRoles else h.networkRoles
      lastSeen := p.now }

def restoreSeen (firstSeen lastSeen : SystemTime) : Host :=
  { h with firstSeen := min firstSeen lastSeen, lastSeen := max firstSeen lastSeen }

/-! ### Folding two accounts of one scan -/

def foldName (name : HostName) : Host := (h.admitName name).getD (h.setAside name.name)

def foldHostname (hostname : Option Text) : Host :=
  match h.hostname, hostname with
  | none, _ => { h with hostname }
  | some _, some offered => h.setAside offered
  | some _, none => h

def foldNames (h other : Host) : Host :=
  other.setAsideNames.keys.foldl setAside (other.names.keys.foldl foldName (h.foldHostname other.hostname))

/-- Folds another record of the host in. -/
def merge (p : Process) (h other : Host) : Host :=
  let addressed := (other.ips.keys.foldl admitIp h).considerPrimaryIp p other.primaryIp
  let named := addressed.foldNames other
  let stated :=
    { named with
      status := max named.status other.status
      reasons := named.reasons ∪ other.reasons
      os := Option.merge OsFingerprint.merge named.os other.os }
  let read := other.osEvidence.values.foldl recordOsEvidence stated
  let placed :=
    { read with
      hardware := Option.merge HardwareInfo.merge read.hardware other.hardware
      zone := read.zone.or other.zone
      telemetry := read.telemetry.merge other.telemetry
      path := other.path.hops.foldl NetworkPath.record read.path
      networkRoles := read.networkRoles ∪ other.networkRoles
      filtering := read.filtering ∪ other.filtering }
  let asked := other.ipProtocols.entries.foldl (fun held entry => held.recordIpProtocol p entry.1 entry.2) placed
  let claimed := other.findings.values.foldl addFinding asked
  let folded := other.ports.values.foldl (addPort p) claimed
  { folded with firstSeen := min h.firstSeen other.firstSeen, lastSeen := max h.lastSeen other.lastSeen }

end Host

end Zond

import Mathlib.Data.List.MinMax
import ZondEngine.Model.Host.Effect

/-!
# Runs of a host record

Every call of `model/host.rs` as one of an enumeration (`Op`), and the records that calls and folds make of a fresh one
(`Built ok`, where `ok` says which calls a run may make): each keeps to its ceilings (`Built.bounded`).
-/

namespace Zond

open List Option

open SortedMap hiding keys

open Ip (IpAddr)
open Port (PortSet)
open Scoped (Zone)

/-! ## Withholding an address -/

variable (keep : IpAddr → Bool)

def EvidenceSource.withhold : EvidenceSource → EvidenceSource
  | intermediary address => if keep address then intermediary address else withheld
  | source => source

def Hop.withhold (hop : Hop) : Hop :=
  match hop.answer with
  | .router address => if keep address then hop else ⟨hop.distance, .withheld, none, hop.inferred⟩
  | _ => hop

theorem Hop.distance_withhold (hop : Hop) : (hop.withhold keep).distance = hop.distance := by
  unfold Hop.withhold
  split
  · split <;> rfl
  · rfl

def NetworkPath.withhold (keep : IpAddr → Bool) (path : NetworkPath) : NetworkPath where
  hops := path.hops.map (Hop.withhold keep)
  ascending := by
    refine pairwise_map.mpr (path.ascending.imp fun h => ?_)
    rwa [Hop.distance_withhold, Hop.distance_withhold]

def HostTelemetry.takeWindow (t later : HostTelemetry) : HostTelemetry :=
  if later.rttHistory.isEmpty then t
  else
    let maxSamples := max t.maxSamples later.maxSamples
    { t with rttHistory := lastOf maxSamples later.rttHistory, maxSamples }

/-! ## The findings of a port -/

theorem PortState.le_open (state : PortState) : state ≤ .open := by cases state <;> decide

namespace Port

theorem foldl_addFinding (findings : List Finding) (port : Port) : findings.foldl addFinding port =
    { port with findings := findings.foldl (fun held finding => (Zond.addFinding held finding).1) port.findings } := by
  induction findings generalizing port with
  | nil => rfl
  | cons finding rest ih => exact ih (port.addFinding finding)

theorem state_merge (port other : Port) : (port.merge other).state = max port.state other.state := by
  unfold merge
  rw [foldl_addFinding]

theorem endpoint_merge (port other : Port) : (port.merge other).endpoint = port.endpoint := by
  unfold merge
  rw [foldl_addFinding]
  rfl

def drawnBy (detection : Text) (finding : Finding) : Bool := finding.isCorrelation && finding.detection.id == detection

/-- Puts new correlations in the place of a catalogue's old ones. -/
def replaceCorrelations (port : Port) (detection : Text) (findings : List Finding) : Port × Bool :=
  let left := { port with findings := port.findings.retain fun _ finding => !drawnBy detection finding }
  let replaced := findings.foldl addFinding left
  (replaced, port.findings.values.filter (drawnBy detection) != replaced.findings.values.filter (drawnBy detection))

end Port

namespace Host

/-! ## The other calls -/

variable (h : Host)

def adoptIps (ips : SortedSet IpAddr) : Host := ips.keys.foldl admitIp h

/-- Drops every refused address, and whether any is left; a refused leading address is replaced by
the best one left. -/
def retainIps (keep : IpAddr → Bool) : Host × Bool :=
  if h.ips.keys.all keep then (h, true)
  else
    let kept : SortedSet IpAddr := h.ips.retain fun ip _ => keep ip
    match hbest : kept.keys.argmin identityRank with
    | none => (h, false)
    | some best =>
      if hmem : kept.contains h.primaryIp = true then ({ h with ips := kept, primary_mem := hmem }, true)
      else
        ({ h with
          primaryIp := best
          ips := kept
          primary_mem := SortedMap.contains_iff.mpr (argmin_mem hbest) }, true)

def withholdIntermediaries (keep : IpAddr → Bool) : Host :=
  { h with
    path := h.path.withhold keep
    reasons := h.reasons.image fun reason => { reason with source := reason.source.withhold keep } }

/-- Takes ports off a host. -/
def withholdPorts (ports : PortSet) : Host :=
  if ports.isEmpty then h
  else
    let left := h.ports.retain fun endpoint _ => !ports.contains endpoint.number endpoint.protocol
    { h with ports := left, openPorts := countOpen left }

variable (p : Process)

def recordEvidence (h : Host) (status : HostStatus) (reason : StatusReason) : Host :=
  { h with status := max h.status status, reasons := insert reason h.reasons, lastSeen := p.now }

variable (endpoint : Endpoint)

def touch : Host :=
  { h with touched := h.touched.map fun touched => touched.add endpoint }

def addPortFinding (finding : Finding) : Host :=
  match h.ports.get? endpoint with
  | some port => { h.touch endpoint with ports := h.ports.insert endpoint (port.addFinding finding) }
  | none => h

/-- Redraws the correlations of one port. -/
def replacePortCorrelations (detection : Text) (findings : List Finding) : Host :=
  match h.ports.get? endpoint with
  | some port =>
    let (replaced, changed) := port.replaceCorrelations detection findings
    { (if changed then h.touch endpoint else h) with ports := h.ports.insert endpoint replaced }
  | none => h

def clearOs (h : Host) : Host := { h with os := none, lastSeen := p.now }

def restoreRtt (h : Host) (rtt : Duration) (source : RttSource) (protocol : Option StatusProtocol) : Host :=
  { h with telemetry := h.telemetry.push ⟨p.instant, rtt, source, protocol⟩ }

def addRtt (h : Host) (rtt : Duration) : Host := (h.restoreRtt p rtt .direct none).seen p

def addRttFrom (h : Host) (rtt : Duration) (protocol : StatusProtocol) : Host :=
  (h.restoreRtt p rtt .direct (some protocol)).seen p

def addSegmentWideRtt (h : Host) (rtt : Duration) : Host := (h.restoreRtt p rtt .segmentWide none).seen p

def addSegmentWideRttFrom (h : Host) (rtt : Duration) (protocol : StatusProtocol) : Host :=
  (h.restoreRtt p rtt .segmentWide (some protocol)).seen p

def addFirstToNeighbourRttFrom (h : Host) (rtt : Duration) (protocol : StatusProtocol) : Host :=
  (h.restoreRtt p rtt .firstToNeighbour (some protocol)).seen p

def trackTouchedPorts : Host := { h with touched := h.touched.or (some SortedMap.empty) }

def takeTouchedPorts : Host := { h with touched := h.touched.map fun _ => SortedMap.empty }

def withOnlyPorts (keys : SortedSet Endpoint) : Host :=
  if keys.len = h.ports.len then { h with touched := none }
  else
    let named := h.ports.retain fun endpoint _ => keys.contains endpoint
    { h with ports := named, openPorts := countOpen named, touched := none }

def mergeLaterAccount (h later : Host) : Host :=
  let folded := h.merge p later
  { folded with telemetry := folded.telemetry.takeWindow later.telemetry }

/-! ## Every call -/

/-- A call on a record, other than a fold of another one. `record_mac` and `with_mac` are `setHardware` of the hardware
with the address on it. -/
inductive Op where
  | addIp (ip : IpAddr)
  | extendIps (ips : List IpAddr)
  | adoptIps (ips : SortedSet IpAddr)
  | considerPrimaryIp (candidate : IpAddr)
  | retainIps (keep : IpAddr → Bool)
  | withholdIntermediaries (keep : IpAddr → Bool)
  | withholdPorts (ports : PortSet)
  | setHostname (hostname : Option Text)
  | recordName (name : HostName)
  | setAsideNamesOf (account : Host)
  | setStatus (status : HostStatus)
  | addReason (reason : StatusReason)
  | recordEvidence (status : HostStatus) (reason : StatusReason)
  | recordOsEvidence (evidence : OsEvidence)
  | addFinding (finding : Finding)
  | addPortFinding (endpoint : Endpoint) (finding : Finding)
  | replacePortCorrelations (endpoint : Endpoint) (detection : Text) (findings : List Finding)
  | setOs (os : OsFingerprint)
  | clearOs
  | setHardware (hardware : HardwareInfo)
  | setZone (zone : Zone)
  | addRtt (rtt : Duration)
  | addRttFrom (rtt : Duration) (protocol : StatusProtocol)
  | addSegmentWideRtt (rtt : Duration)
  | addSegmentWideRttFrom (rtt : Duration) (protocol : StatusProtocol)
  | addFirstToNeighbourRttFrom (rtt : Duration) (protocol : StatusProtocol)
  | restoreRtt (rtt : Duration) (source : RttSource) (protocol : Option StatusProtocol)
  | addRtts (rtts : List Duration)
  | recordHopCounter (arrived : UInt8)
  | recordHop (hop : Hop)
  | addNetworkRole (role : NetworkRole)
  | addFiltering (filtering : Filtering)
  | recordIpProtocol (number : Fin 256) (state : IpProtocolState)
  | addPort (port : Port)
  | trackTouchedPorts
  | takeTouchedPorts
  | withOnlyPorts (keys : SortedSet Endpoint)
  | restoreSeen (firstSeen lastSeen : SystemTime)

def apply (h : Host) : Op → Host
  | .addIp ip => h.addIp p ip
  | .extendIps ips => h.extendIps p ips
  | .adoptIps ips => h.adoptIps ips
  | .considerPrimaryIp candidate => h.considerPrimaryIp p candidate
  | .retainIps keep => (h.retainIps keep).1
  | .withholdIntermediaries keep => h.withholdIntermediaries keep
  | .withholdPorts ports => h.withholdPorts ports
  | .setHostname hostname => h.setHostname p hostname
  | .recordName name => h.recordName p name
  | .setAsideNamesOf account => h.setAsideNamesOf account
  | .setStatus status => h.setStatus p status
  | .addReason reason => h.addReason p reason
  | .recordEvidence status reason => h.recordEvidence p status reason
  | .recordOsEvidence evidence => h.recordOsEvidence evidence
  | .addFinding finding => h.addFinding finding
  | .addPortFinding endpoint finding => h.addPortFinding endpoint finding
  | .replacePortCorrelations endpoint detection findings => h.replacePortCorrelations endpoint detection findings
  | .setOs os => h.setOs p os
  | .clearOs => h.clearOs p
  | .setHardware hardware => h.setHardware p hardware
  | .setZone zone => h.setZone p zone
  | .addRtt rtt => h.addRtt p rtt
  | .addRttFrom rtt protocol => h.addRttFrom p rtt protocol
  | .addSegmentWideRtt rtt => h.addSegmentWideRtt p rtt
  | .addSegmentWideRttFrom rtt protocol => h.addSegmentWideRttFrom p rtt protocol
  | .addFirstToNeighbourRttFrom rtt protocol => h.addFirstToNeighbourRttFrom p rtt protocol
  | .restoreRtt rtt source protocol => h.restoreRtt p rtt source protocol
  | .addRtts rtts => h.addRtts p rtts
  | .recordHopCounter arrived => h.recordHopCounter arrived
  | .recordHop hop => h.recordHop p hop
  | .addNetworkRole role => h.addNetworkRole p role
  | .addFiltering filtering => h.addFiltering p filtering
  | .recordIpProtocol number state => h.recordIpProtocol p number state
  | .addPort port => h.addPort p port
  | .trackTouchedPorts => h.trackTouchedPorts
  | .takeTouchedPorts => h.takeTouchedPorts
  | .withOnlyPorts keys => h.withOnlyPorts keys
  | .restoreSeen firstSeen lastSeen => h.restoreSeen firstSeen lastSeen

def Op.isRetainIps : Op → Bool
  | .retainIps _ => true
  | _ => false

/-- The records made of a fresh one by calls of a kind and by folding other such records in. -/
inductive Built (ok : Op → Prop) : Host → Prop
  | new (p : Process) (ip : IpAddr) : Built ok (Host.new p ip)
  | call {h : Host} (p : Process) (op : Op) : Built ok h → ok op → Built ok (h.apply p op)
  | merge {h other : Host} (p : Process) : Built ok h → Built ok other → Built ok (h.merge p other)
  | mergeLaterAccount {h later : Host} (p : Process) : Built ok h → Built ok later →
      Built ok (h.mergeLaterAccount p later)

/-! ## What a record may hold -/

theorem len_admitIp_le {primary : IpAddr} {ips : SortedSet IpAddr} (h : ips.len ≤ MAX_IPS) (ip : IpAddr) :
    (Zond.admitIp primary ips ip).len ≤ MAX_IPS := by
  unfold Zond.admitIp
  split
  next hroom =>
    unfold SortedSet.add
    rw [SortedMap.len_insert]
    split
    · exact h
    next hnew => exact hroom.resolve_right hnew
  · split
    next lowest hlowest =>
      split
      · have hheld := SortedMap.contains_iff.mpr (mem_of_lowestIp hlowest).1
        have hroom := SortedMap.len_erase hheld
        unfold SortedSet.add
        rw [SortedMap.len_insert]
        split <;> omega
      · exact h
    · exact h

structure Counted (s : PortsState) : Prop where
  len_le : s.1.len ≤ MAX_PORTS_PER_HOST
  filed : ∀ endpoint port, s.1.get? endpoint = some port → port.endpoint = endpoint
  open_eq : s.2.1 = countOpen s.1

structure Bounded (h : Host) : Prop extends Counted h.portsState where
  ips_le : h.ips.len ≤ MAX_IPS

def Leads (h h' : Host) : Prop := h'.primaryIp = h.primaryIp ∨ identityRank h'.primaryIp < identityRank h.primaryIp

theorem Leads.trans {a b c : Host} (hab : Leads a b) (hbc : Leads b c) : Leads a c := by
  rcases hbc with heq | hlt
  · unfold Leads
    rw [heq]
    exact hab
  · rcases hab with heq | hlt'
    · exact .inr (heq ▸ hlt)
    · exact .inr (hlt.trans hlt')

section Ports

variable {s : PortsState}

theorem countOpen_insert (ports : SortedMap Endpoint Port) (endpoint : Endpoint) (recorded : Port)
    (hkeeps : (ports.get? endpoint).any (·.state == .open) = true → recorded.state = .open) :
    countOpen (ports.insert endpoint recorded) =
      if !((ports.get? endpoint).any (·.state == .open)) && recorded.state == .open then countOpen ports + 1
      else countOpen ports := by
  have hcount := countP_insert (fun port : Port => port.state == .open) ports endpoint recorded
  rw [countP_singleton] at hcount
  unfold countOpen
  cases hget : ports.get? endpoint with
  | none =>
    rw [hget, toList_none, countP_nil, Nat.add_zero] at hcount
    rw [hcount]
    cases recorded.state == .open <;> rfl
  | some existing =>
    rw [hget] at hcount hkeeps
    rw [toList_some, countP_singleton] at hcount
    rw [any_some] at hkeeps ⊢
    cases hwas : existing.state == .open with
    | false =>
      simp only [hwas, Bool.false_eq_true, if_false, Nat.add_zero] at hcount
      rw [hcount]
      cases recorded.state == .open <;> rfl
    | true =>
      simp only [hwas, hkeeps hwas, BEq.rfl, if_true] at hcount
      exact Nat.add_right_cancel hcount

theorem Counted.insert (hs : Counted s) {endpoint : Endpoint} {recorded : Port}
    (hfiled : recorded.endpoint = endpoint) :
    (s.1.insert endpoint recorded).len ≤ MAX_PORTS_PER_HOST ∧
      ∀ other port, (s.1.insert endpoint recorded).get? other = some port → port.endpoint = other := by
  constructor
  · rw [SortedMap.len_insert]
    split
    · exact hs.len_le
    next hnew => exact len_lt_of_get?_eq_none (not_isSome_iff_eq_none.mp hnew)
  · exact forall_get?_insert hs.filed hfiled

theorem Counted.filePort (hs : Counted s) (port : Port) : Counted (Host.filePort s port) := by
  have hfiled : ((s.1.get? port.endpoint).elim port fun held => held.merge port).endpoint = port.endpoint := by
    cases hget : s.1.get? port.endpoint with
    | none => rfl
    | some existing => exact (Port.endpoint_merge existing port).trans (hs.filed _ _ hget)
  obtain ⟨hlen, hinsert⟩ := hs.insert hfiled
  refine ⟨hlen, hinsert, ?_⟩
  show _ = countOpen (s.1.insert _ _)
  unfold Host.filePort
  rw [countOpen_insert, hs.open_eq]
  -- A state only promotes, so a port that was open stays open.
  intro hwas
  cases hget : s.1.get? port.endpoint with
  | none =>
    rw [hget] at hwas
    exact absurd hwas Bool.false_ne_true
  | some existing =>
    rw [hget, any_some, beq_iff_eq] at hwas
    show (existing.merge port).state = .open
    rw [Port.state_merge, hwas]
    exact max_eq_left (PortState.le_open _)

theorem Counted.foldl_filePort (hs : Counted s) (ports : List Port) : Counted (ports.foldl Host.filePort s) :=
  List.foldlRecOn (motive := Counted) ports Host.filePort hs fun _ hs port _ => hs.filePort port

theorem get?_foldl_filePort (endpoint : Endpoint) :
    ∀ (ports : List Port) (s : PortsState), (ports.map Port.endpoint).Nodup →
    (∀ port ∈ ports, s.1.get? port.endpoint = none) →
    (ports.foldl Host.filePort s).1.get? endpoint = (ports.find? (·.endpoint == endpoint)).or (s.1.get? endpoint)
  | [], _, _, _ => rfl
  | port :: rest, s, hnodup, hnew => by
    obtain ⟨hport, hrest⟩ := nodup_cons.mp hnodup
    have hfile : (Host.filePort s port).1 = s.1.insert port.endpoint port := by
      unfold Host.filePort
      rw [hnew port mem_cons_self]
      rfl
    rw [foldl_cons, get?_foldl_filePort endpoint rest _ hrest, hfile, get?_insert, find?_cons]
    · by_cases heq : endpoint = port.endpoint
      · subst heq
        have hnone : rest.find? (·.endpoint == port.endpoint) = none := by
          refine find?_eq_none.mpr fun other hother hsame => hport ?_
          exact beq_iff_eq.mp hsame ▸ mem_map_of_mem hother
        rw [hnone]
        simp
      · rw [if_neg heq, show (port.endpoint == endpoint) = false by simpa using Ne.symm heq]
    · intro other hother
      have hne : other.endpoint ≠ port.endpoint := fun heq => hport (heq ▸ mem_map_of_mem hother)
      rw [hfile, get?_insert, if_neg hne]
      exact hnew other (mem_cons_of_mem _ hother)

theorem Counted.replace (hs : Counted s) {endpoint : Endpoint} {port : Port} (hget : s.1.get? endpoint = some port)
    (replaced : Port) (hsame : replaced.endpoint = port.endpoint) (hstate : replaced.state = port.state) :
    Counted (s.1.insert endpoint replaced, s.2) := by
  obtain ⟨hlen, hinsert⟩ := hs.insert (hsame.trans (hs.filed _ _ hget))
  refine ⟨hlen, hinsert, ?_⟩
  rw [countOpen_insert _ _ _ fun hwas => by simpa [hget, hstate] using hwas, hget, hstate, any_some,
    Bool.not_and_self, if_neg Bool.false_ne_true, hs.open_eq]

theorem Counted.retain (hs : Counted s) (keep : Endpoint → Port → Bool) (roles : Finset NetworkRole) :
    Counted (s.1.retain keep, countOpen (s.1.retain keep), roles) :=
  ⟨(len_retain_le _ _).trans hs.len_le, fun _ _ hget => hs.filed _ _ (get?_of_get?_retain hget), rfl⟩

end Ports

section Steps

variable {h}

theorem Bounded.admitIp (hb : Bounded h) (ip : IpAddr) : Bounded (h.admitIp ip) :=
  ⟨hb.toCounted, len_admitIp_le hb.ips_le ip⟩

theorem Bounded.foldl_admitIp (hb : Bounded h) (ips : List IpAddr) : Bounded (ips.foldl Host.admitIp h) :=
  List.foldlRecOn (motive := Bounded) ips Host.admitIp hb fun _ hs ip _ => hs.admitIp ip

theorem primaryIp_foldl_admitIp (ips : List IpAddr) : (ips.foldl Host.admitIp h).primaryIp = h.primaryIp :=
  List.foldlRecOn (motive := fun s : Host => s.primaryIp = h.primaryIp) ips Host.admitIp rfl fun _ hs _ _ => hs

theorem Bounded.considerPrimaryIp (hb : Bounded h) (p : Process) (candidate : IpAddr) :
    Bounded (h.considerPrimaryIp p candidate) := by
  have hwith := hb.admitIp candidate
  unfold Host.considerPrimaryIp
  dsimp only
  split
  · split
    · exact ⟨hwith.toCounted, hwith.ips_le⟩
    · exact ⟨hwith.toCounted, hwith.ips_le⟩
  · exact ⟨hwith.toCounted, hwith.ips_le⟩

theorem leads_considerPrimaryIp (h : Host) (p : Process) (candidate : IpAddr) :
    Leads h (h.considerPrimaryIp p candidate) := by
  unfold Host.considerPrimaryIp
  dsimp only
  split
  · split
    · exact .inl rfl
    next hrank => exact .inr (not_le.mp hrank)
  · exact .inl rfl

theorem Bounded.retainIps (hb : Bounded h) (keep : IpAddr → Bool) : Bounded (h.retainIps keep).1 := by
  have hkept := (len_retain_le h.ips fun ip _ => keep ip).trans hb.ips_le
  unfold Host.retainIps
  split
  · exact hb
  · dsimp only
    split
    · exact hb
    · split
      · exact ⟨hb.toCounted, hkept⟩
      · exact ⟨hb.toCounted, hkept⟩

theorem Bounded.addPortFinding (hb : Bounded h) (endpoint : Endpoint) (finding : Finding) :
    Bounded (h.addPortFinding endpoint finding) := by
  unfold Host.addPortFinding
  split
  next port hget => exact ⟨hb.toCounted.replace hget (port.addFinding finding) rfl rfl, hb.ips_le⟩
  · exact hb

theorem Bounded.replacePortCorrelations (hb : Bounded h) (endpoint : Endpoint) (detection : Text)
    (findings : List Finding) : Bounded (h.replacePortCorrelations endpoint detection findings) := by
  unfold Host.replacePortCorrelations
  split
  next port hget =>
    have hsame : (port.replaceCorrelations detection findings).1.endpoint = port.endpoint ∧
        (port.replaceCorrelations detection findings).1.state = port.state := by
      unfold Port.replaceCorrelations
      dsimp only
      rw [Port.foldl_addFinding]
      exact ⟨rfl, rfl⟩
    have hreplaced := hb.toCounted.replace hget _ hsame.1 hsame.2
    dsimp only
    split
    · exact ⟨hreplaced, hb.ips_le⟩
    · exact ⟨hreplaced, hb.ips_le⟩
  · exact hb

theorem Bounded.withholdPorts (hb : Bounded h) (ports : PortSet) : Bounded (h.withholdPorts ports) := by
  unfold Host.withholdPorts
  split
  · exact hb
  · have hleft := hb.toCounted.retain (fun endpoint _ => !ports.contains endpoint.number endpoint.protocol)
      h.networkRoles
    exact ⟨hleft, hb.ips_le⟩

theorem Bounded.withOnlyPorts (hb : Bounded h) (keys : SortedSet Endpoint) : Bounded (h.withOnlyPorts keys) := by
  unfold Host.withOnlyPorts
  split
  · exact ⟨hb.toCounted, hb.ips_le⟩
  · have hnamed := hb.toCounted.retain (fun endpoint _ => keys.contains endpoint) h.networkRoles
    exact ⟨hnamed, hb.ips_le⟩

/-- **One call keeps a record within its bounds.** -/
theorem Bounded.apply (hb : Bounded h) (p : Process) (op : Op) : Bounded (h.apply p op) := by
  cases op with
  | addIp ip => exact ⟨hb.toCounted, (hb.admitIp ip).ips_le⟩
  | extendIps ips => exact ⟨(hb.foldl_admitIp ips).toCounted, (hb.foldl_admitIp ips).ips_le⟩
  | adoptIps ips => exact hb.foldl_admitIp ips.keys
  | considerPrimaryIp candidate => exact hb.considerPrimaryIp p candidate
  | retainIps keep => exact hb.retainIps keep
  | withholdPorts ports => exact hb.withholdPorts ports
  | recordName name =>
    show Bounded (h.recordName p name)
    rw [recordName_eq]
    exact ⟨hb.toCounted, hb.ips_le⟩
  | setAsideNamesOf account =>
    obtain ⟨aside, heq⟩ := setAsideNamesOf_eq h account
    show Bounded (h.setAsideNamesOf account)
    rw [heq]
    exact ⟨hb.toCounted, hb.ips_le⟩
  | recordOsEvidence evidence =>
    show Bounded (h.recordOsEvidence evidence)
    rw [recordOsEvidence_eq]
    exact ⟨hb.toCounted, hb.ips_le⟩
  | addPortFinding endpoint finding => exact hb.addPortFinding endpoint finding
  | replacePortCorrelations endpoint detection findings => exact hb.replacePortCorrelations endpoint detection findings
  | addPort port =>
    show Bounded (h.addPort p port)
    rw [addPort_eq]
    exact ⟨hb.toCounted.filePort port, hb.ips_le⟩
  | withOnlyPorts keys => exact hb.withOnlyPorts keys
  -- Every other call writes fields of its own.
  | _ => exact ⟨⟨hb.len_le, hb.filed, hb.open_eq⟩, hb.ips_le⟩

/-- **Folding a record in keeps within the bounds**, whatever the other record holds. -/
theorem Bounded.merge (hb : Bounded h) (p : Process) (other : Host) : Bounded (h.merge p other) := by
  have haddressed := (hb.foldl_admitIp other.ips.keys).considerPrimaryIp p other.primaryIp
  have hcounted : Counted (h.ports, h.openPorts, h.networkRoles ∪ other.networkRoles) :=
    ⟨hb.len_le, hb.filed, hb.open_eq⟩
  obtain ⟨aside, touched, heq⟩ := merge_eq p h other
  rw [heq]
  exact ⟨hcounted.foldl_filePort other.ports.values, haddressed.ips_le⟩

theorem bounded_new (p : Process) (ip : IpAddr) : Bounded (Host.new p ip) := by
  refine ⟨⟨Nat.zero_le _, fun endpoint port hget => ?_, rfl⟩, ?_⟩
  · exact absurd hget (some_ne_none port).symm
  · show 1 ≤ MAX_IPS
    decide

variable {ok : Op → Prop}

theorem Built.bounded (hb : Built ok h) : Bounded h := by
  induction hb with
  | new p ip => exact bounded_new p ip
  | call p op _ _ ih => exact ih.apply p op
  | merge p _ _ ih _ => exact ih.merge p _
  | mergeLaterAccount p _ _ ih _ => exact ⟨(ih.merge p _).toCounted, (ih.merge p _).ips_le⟩

/-! ### The leading address -/

theorem leads_merge (h : Host) (p : Process) (other : Host) : Leads h (h.merge p other) := by
  have hadmitted : Leads h (other.ips.keys.foldl Host.admitIp h) := .inl (primaryIp_foldl_admitIp _)
  obtain ⟨aside, touched, heq⟩ := merge_eq p h other
  rw [heq]
  exact hadmitted.trans (leads_considerPrimaryIp _ p other.primaryIp)

/-- **One call that is not the exclusion policy's replaces the leading address by a better one or not at all.** -/
theorem leads_apply (h : Host) (p : Process) {op : Op} (hop : op.isRetainIps = false) : Leads h (h.apply p op) := by
  cases op with
  | extendIps ips => exact .inl (primaryIp_foldl_admitIp ips)
  | adoptIps ips => exact .inl (primaryIp_foldl_admitIp ips.keys)
  | considerPrimaryIp candidate => exact leads_considerPrimaryIp h p candidate
  | retainIps keep => exact Bool.noConfusion hop
  | recordName name =>
    refine .inl ?_
    show (h.recordName p name).primaryIp = h.primaryIp
    rw [recordName_eq]
  | setAsideNamesOf account =>
    obtain ⟨aside, heq⟩ := setAsideNamesOf_eq h account
    refine .inl ?_
    show (h.setAsideNamesOf account).primaryIp = h.primaryIp
    rw [heq]
  | recordOsEvidence evidence =>
    refine .inl ?_
    show (h.recordOsEvidence evidence).primaryIp = h.primaryIp
    rw [recordOsEvidence_eq]
  | withholdPorts ports =>
    refine .inl ?_
    show (h.withholdPorts ports).primaryIp = h.primaryIp
    unfold Host.withholdPorts
    split <;> rfl
  | addPortFinding endpoint finding =>
    refine .inl ?_
    show (h.addPortFinding endpoint finding).primaryIp = h.primaryIp
    unfold Host.addPortFinding
    split <;> rfl
  | replacePortCorrelations endpoint detection findings =>
    refine .inl ?_
    show (h.replacePortCorrelations endpoint detection findings).primaryIp = h.primaryIp
    unfold Host.replacePortCorrelations
    split
    · dsimp only
      split <;> rfl
    · rfl
  | addPort port =>
    refine .inl ?_
    show (h.addPort p port).primaryIp = h.primaryIp
    rw [addPort_eq]
  | withOnlyPorts keys =>
    refine .inl ?_
    show (h.withOnlyPorts keys).primaryIp = h.primaryIp
    unfold Host.withOnlyPorts
    split <;> rfl
  | _ => exact .inl rfl

/-- What happens to a record short of the exclusion policy: a call, or a fold of a record built the same way. -/
inductive Step (ok : Op → Prop) (h : Host) : Host → Prop
  | call (p : Process) (op : Op) : ok op → op.isRetainIps = false → Step ok h (h.apply p op)
  | merge (p : Process) (other : Host) : Built ok other → Step ok h (h.merge p other)
  | mergeLaterAccount (p : Process) (later : Host) : Built ok later → Step ok h (h.mergeLaterAccount p later)

abbrev Later (ok : Op → Prop) : Host → Host → Prop := Relation.ReflTransGen (Step ok)

theorem Step.leads {h' : Host} (hs : Step ok h h') : Leads h h' := by
  cases hs with
  | call p op _ hop => exact leads_apply h p hop
  | merge p other _ => exact leads_merge h p other
  | mergeLaterAccount p later _ => exact leads_merge h p later

theorem Later.leads {ok : Op → Prop} {h' : Host} (hl : Later ok h h') : Leads h h' := by
  induction hl with
  | refl => exact .inl rfl
  | tail _ hs ih => exact ih.trans hs.leads

/-- **What holds of every record**: its address is one of its own, it keeps to its ceilings, it
counts its open ports right, and only the exclusion policy makes its leading address a worse one. -/
theorem Built.keeps (hb : Built ok h) :
    h.primaryIp ∈ h.ips.keys ∧ h.ips.len ≤ MAX_IPS ∧ h.ports.len ≤ MAX_PORTS_PER_HOST ∧
      h.openPorts = (h.ports.values.filter fun port => port.state == .open).length ∧
      ∀ h', Later ok h h' → h'.primaryIp = h.primaryIp ∨ identityRank h'.primaryIp < identityRank h.primaryIp := by
  obtain ⟨⟨hports, _, hopen⟩, hips⟩ := hb.bounded
  refine ⟨h.primaryIp_mem, hips, hports, ?_, fun h' hl => hl.leads⟩
  rw [← countP_eq_length_filter]
  exact hopen

def flooded : Host :=
  (Host.new ⟨0, 0, []⟩ (.v4 167772161)).apply ⟨1, 0, []⟩
    (.extendIps ((List.range 2000).map fun n => .v6 (Fin.ofNat _ (0xfe80 * 2 ^ 112 + n))))

theorem Built.keeps_flooded :
    flooded.primaryIp ∈ flooded.ips.keys ∧ flooded.ips.len ≤ MAX_IPS ∧ flooded.ports.len ≤ MAX_PORTS_PER_HOST ∧
      flooded.openPorts = (flooded.ports.values.filter fun port => port.state == .open).length ∧
      ∀ h', Later (fun _ => True) flooded h' →
        h'.primaryIp = flooded.primaryIp ∨ identityRank h'.primaryIp < identityRank flooded.primaryIp :=
  Built.keeps (.call _ _ (.new _ _) trivial)

end Steps

end Host

end Zond

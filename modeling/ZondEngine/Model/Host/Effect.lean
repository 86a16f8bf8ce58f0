import Mathlib.Data.Fintype.Card
import ZondEngine.Model.Host.Record

/-!
# What each call writes

Every call on a host record with a choice in it, written down as the record with a few fields replaced, and a fold of
two in one piece (`merge_eq`), so that all a proof needs of the other fields is that they are not there.
-/

namespace Zond.Host

open List

open Ip (IpAddr)

theorem foldl_admitIp_eq (ips : List IpAddr) (h : Host) : ∃ held hmem,
    ips.foldl admitIp h = { h with ips := held, primary_mem := hmem } := by
  induction ips generalizing h with
  | nil => exact ⟨h.ips, h.primary_mem, rfl⟩
  | cons ip rest ih => exact ih (h.admitIp ip)

variable (p : Process) (h : Host)

theorem considerPrimaryIp_eq (candidate : IpAddr) : ∃ (primary : IpAddr)
    (held : SortedSet IpAddr) (seen : SystemTime) (hmem : held.contains primary = true),
    h.considerPrimaryIp p candidate =
      { h with primaryIp := primary, ips := held, lastSeen := seen, primary_mem := hmem } := by
  unfold considerPrimaryIp
  dsimp only
  split
  · split
    · exact ⟨h.primaryIp, _, _, (h.admitIp candidate).primary_mem, rfl⟩
    next hmem _ => exact ⟨candidate, _, _, hmem, rfl⟩
  · exact ⟨h.primaryIp, _, _, (h.admitIp candidate).primary_mem, rfl⟩

/-! ## Names -/

def admitted (names : SortedSet HostName) (name : HostName) : SortedSet HostName :=
  if MAX_NAMES ≤ names.len ∧ names.contains name = false then names else names.add name

theorem admitName_eq (name : HostName) : h.admitName name =
    if MAX_NAMES ≤ h.names.len ∧ h.names.contains name = false then none
    else some { h with names := admitted h.names name } := by
  unfold admitName admitted
  split <;> rfl

theorem recordName_eq (name : HostName) :
    h.recordName p name = { h with names := admitted h.names name, lastSeen := p.now } := by
  unfold recordName
  rw [admitName_eq]
  split
  next hfull =>
    have hkept : admitted h.names name = h.names := if_pos hfull
    rw [hkept]
    rfl
  · rfl

theorem foldl_recordName_eq (names : List HostName) (h : Host) : names.foldl (recordName p) h =
    { h with
      names := names.foldl admitted h.names
      lastSeen := if names.isEmpty then h.lastSeen else p.now } := by
  induction names generalizing h with
  | nil => rfl
  | cons name rest ih =>
    rw [foldl_cons, recordName_eq, ih]
    cases rest <;> rfl

theorem setAside_eq (name : Text) : ∃ aside, h.setAside name = { h with setAsideNames := aside } := by
  unfold setAside
  dsimp only
  split
  · exact ⟨_, rfl⟩
  · exact ⟨h.setAsideNames, rfl⟩

theorem foldl_setAside_eq (names : List Text) (h : Host) : ∃ aside,
    names.foldl setAside h = { h with setAsideNames := aside } := by
  induction names generalizing h with
  | nil => exact ⟨h.setAsideNames, rfl⟩
  | cons name rest ih =>
    obtain ⟨aside, heq⟩ := h.setAside_eq name
    rw [foldl_cons, heq]
    exact ih _

theorem setAsideNamesOf_eq (h account : Host) :
    ∃ aside, h.setAsideNamesOf account = { h with setAsideNames := aside } := foldl_setAside_eq _ h

theorem foldl_foldName_eq (names : List HostName) (h : Host) : ∃ aside,
    names.foldl foldName h = { h with names := names.foldl admitted h.names, setAsideNames := aside } := by
  induction names generalizing h with
  | nil => exact ⟨h.setAsideNames, rfl⟩
  | cons name rest ih =>
    have hone : ∃ aside, h.foldName name = { h with names := admitted h.names name, setAsideNames := aside } := by
      unfold foldName
      rw [admitName_eq]
      split
      next hfull =>
        have hkept : admitted h.names name = h.names := if_pos hfull
        obtain ⟨aside, heq⟩ := h.setAside_eq name.name
        exact ⟨aside, by rw [hkept]; exact heq⟩
      · exact ⟨h.setAsideNames, rfl⟩
    obtain ⟨aside, heq⟩ := hone
    rw [foldl_cons, heq]
    exact ih _

theorem foldNames_eq (h other : Host) : ∃ aside, h.foldNames other =
    { h with
      hostname := h.hostname.or other.hostname
      names := other.names.keys.foldl admitted h.names
      setAsideNames := aside } := by
  have hcalled : ∃ aside, h.foldHostname other.hostname =
      { h with hostname := h.hostname.or other.hostname, setAsideNames := aside } := by
    unfold foldHostname
    cases hown : h.hostname with
    | none => exact ⟨h.setAsideNames, rfl⟩
    | some hostname =>
      have hsame : { h with hostname := some hostname } = h := by rw [← hown]
      cases other.hostname with
      | none => exact ⟨h.setAsideNames, hsame.symm⟩
      | some offered =>
        obtain ⟨aside, heq⟩ := h.setAside_eq offered
        refine ⟨aside, heq.trans ?_⟩
        rw [Option.some_or, ← hown]
  obtain ⟨_, hcalled⟩ := hcalled
  unfold foldNames
  rw [hcalled]
  obtain ⟨_, hnamed⟩ := foldl_foldName_eq other.names.keys
    { h with hostname := h.hostname.or other.hostname, setAsideNames := _ }
  rw [hnamed]
  exact foldl_setAside_eq _ _

/-! ## Readings, verdicts and findings -/

def recordReading (held : SortedMap OsClaim OsEvidence) (evidence : OsEvidence) : SortedMap OsClaim OsEvidence :=
  match held.get? evidence.claim with
  | some existing =>
    held.insert evidence.claim
      { existing with
        evidence := joinReadings existing.evidence evidence.evidence
        confidence := existing.confidence.max evidence.confidence }
  | none => if MAX_OS_EVIDENCE ≤ held.len then held else held.insert evidence.claim evidence

theorem recordOsEvidence_eq (evidence : OsEvidence) :
    h.recordOsEvidence evidence = { h with osEvidence := recordReading h.osEvidence evidence } := by
  unfold recordOsEvidence recordReading
  cases h.osEvidence.get? evidence.claim with
  | some existing => rfl
  | none =>
    by_cases hfull : MAX_OS_EVIDENCE ≤ h.osEvidence.len
    · simp only [hfull, if_true]
    · simp only [hfull, if_false]

theorem foldl_recordOsEvidence_eq (readings : List OsEvidence) (h : Host) :
    readings.foldl recordOsEvidence h = { h with osEvidence := readings.foldl recordReading h.osEvidence } := by
  induction readings generalizing h with
  | nil => rfl
  | cons evidence rest ih =>
    rw [foldl_cons, recordOsEvidence_eq, ih]
    rfl

def raised (held : SortedMap (Fin 256) IpProtocolState) (verdict : Fin 256 × IpProtocolState) :
    SortedMap (Fin 256) IpProtocolState :=
  match held.get? verdict.1 with
  | some known => if known.ctorIdx < verdict.2.ctorIdx then held.insert verdict.1 verdict.2 else held
  | none => held.insert verdict.1 verdict.2

def answers (state : IpProtocolState) : Bool := decide (state = .open ∨ state = .closed)

theorem foldl_recordIpProtocol_eq (verdicts : List (Fin 256 × IpProtocolState)) (h : Host) :
    verdicts.foldl (fun held verdict => held.recordIpProtocol p verdict.1 verdict.2) h =
      { h with
        ipProtocols := verdicts.foldl raised h.ipProtocols
        lastSeen := if verdicts.any fun verdict => answers verdict.2 then p.now else h.lastSeen } := by
  induction verdicts generalizing h with
  | nil => rfl
  | cons verdict rest ih =>
    have hone : h.recordIpProtocol p verdict.1 verdict.2 =
        { h with
          ipProtocols := raised h.ipProtocols verdict
          lastSeen := if answers verdict.2 then p.now else h.lastSeen } := by
      unfold recordIpProtocol answers
      simp only [decide_eq_true_eq]
      rfl
    rw [foldl_cons, ih, hone, any_cons]
    cases answers verdict.2 <;> cases rest.any fun verdict => answers verdict.2 <;> rfl

theorem foldl_addFinding_eq (findings : List Finding) (h : Host) : findings.foldl addFinding h =
    { h with findings := findings.foldl (fun held finding => (Zond.addFinding held finding).1) h.findings } := by
  induction findings generalizing h with
  | nil => rfl
  | cons finding rest ih => exact ih (h.addFinding finding)

theorem foldl_recordHop_eq (hops : List Hop) (h : Host) : hops.foldl (recordHop p) h =
    { h with
      path := hops.foldl NetworkPath.record h.path
      lastSeen := if hops.isEmpty then h.lastSeen else p.now } := by
  induction hops generalizing h with
  | nil => rfl
  | cons hop rest ih =>
    rw [foldl_cons, ih]
    cases rest <;> rfl

/-! ## Ports -/

def countOpen (ports : SortedMap Endpoint Port) : Nat := ports.values.countP fun port => port.state == .open

def slot (endpoint : Endpoint) : Fin MAX_PORTS_PER_HOST :=
  ⟨endpoint.number.toNat * 3 + endpoint.protocol.ctorIdx, by
    have hnumber := endpoint.number.toNat_lt
    have hprotocol : endpoint.protocol.ctorIdx < 3 := by cases endpoint.protocol <;> decide
    unfold MAX_PORTS_PER_HOST
    omega⟩

theorem slot_injective : Function.Injective slot := by
  rintro ⟨number, protocol⟩ ⟨number', protocol'⟩ h
  have hprotocol : protocol.ctorIdx < 3 := by cases protocol <;> decide
  have hprotocol' : protocol'.ctorIdx < 3 := by cases protocol' <;> decide
  have hslot : number.toNat * 3 + protocol.ctorIdx = number'.toNat * 3 + protocol'.ctorIdx := congrArg Fin.val h
  obtain rfl : number = number' := UInt16.toNat_inj.mp (by omega)
  obtain rfl : protocol = protocol' := Function.LeftInverse.injective Port.Protocol.ofNat_ctorIdx (by omega)
  rfl

theorem len_lt_of_get?_eq_none {ports : SortedMap Endpoint Port} {endpoint : Endpoint}
    (h : ports.get? endpoint = none) : ports.len < MAX_PORTS_PER_HOST := by
  have hnodup := (nodup_cons.mpr ⟨SortedMap.get?_eq_none_iff.mp h, ports.nodup_keys⟩).map slot_injective
  have hle := hnodup.length_le_card
  rw [Fintype.card_fin, length_map, length_cons, SortedMap.keys, length_map] at hle
  exact hle

abbrev PortsState : Type := SortedMap Endpoint Port × Nat × Finset NetworkRole

def filePort (s : PortsState) (port : Port) : PortsState :=
  let existing := s.1.get? port.endpoint
  let recorded := existing.elim port fun held => held.merge port
  let opened := !(existing.any fun held => held.state == .open) && recorded.state == .open
  let count := if opened then s.2.1 + 1 else s.2.1
  (s.1.insert port.endpoint recorded, count,
    if opened && decide (TARPIT_OPEN_PORTS ≤ count) then insert .tarpit s.2.2 else s.2.2)

def portsState : PortsState := (h.ports, h.openPorts, h.networkRoles)

theorem addPort_eq (port : Port) : h.addPort p port =
    { h with
      ports := (filePort h.portsState port).1
      openPorts := (filePort h.portsState port).2.1
      networkRoles := (filePort h.portsState port).2.2
      touched := h.touched.map fun touched => touched.add port.endpoint
      lastSeen := p.now } := by
  have hroom : ¬((h.ports.get? port.endpoint).isNone ∧ MAX_PORTS_PER_HOST ≤ h.ports.len) := fun hfull =>
    absurd hfull.2 (Nat.not_le.mpr (len_lt_of_get?_eq_none (Option.isNone_iff_eq_none.mp hfull.1)))
  unfold addPort filePort portsState
  rw [if_neg hroom]
  cases h.ports.get? port.endpoint <;> rfl

theorem foldl_addPort_eq (ports : List Port) (h : Host) : ports.foldl (addPort p) h =
    { h with
      ports := (ports.foldl filePort h.portsState).1
      openPorts := (ports.foldl filePort h.portsState).2.1
      networkRoles := (ports.foldl filePort h.portsState).2.2
      touched := h.touched.map fun touched => ports.foldl (fun touched port => touched.add port.endpoint) touched
      lastSeen := if ports.isEmpty then h.lastSeen else p.now } := by
  induction ports generalizing h with
  | nil => cases h; simp [portsState]
  | cons port rest ih =>
    rw [foldl_cons, ih, addPort_eq]
    cases rest <;> simp [portsState, Option.map_map, Function.comp_def]

/-- **The record a fold of two accounts ends with.** -/
theorem merge_eq (h other : Host) : ∃ aside touched, h.merge p other =
    { primaryIp := ((other.ips.keys.foldl admitIp h).considerPrimaryIp p other.primaryIp).primaryIp
      ips := ((other.ips.keys.foldl admitIp h).considerPrimaryIp p other.primaryIp).ips
      hostname := h.hostname.or other.hostname
      names := other.names.keys.foldl admitted h.names
      setAsideNames := aside
      status := max h.status other.status
      reasons := h.reasons ∪ other.reasons
      os := Option.merge OsFingerprint.merge h.os other.os
      osEvidence := other.osEvidence.values.foldl recordReading h.osEvidence
      hardware := Option.merge HardwareInfo.merge h.hardware other.hardware
      zone := h.zone.or other.zone
      telemetry := h.telemetry.merge other.telemetry
      path := other.path.hops.foldl NetworkPath.record h.path
      networkRoles :=
        (other.ports.values.foldl filePort (h.ports, h.openPorts, h.networkRoles ∪ other.networkRoles)).2.2
      filtering := h.filtering ∪ other.filtering
      ipProtocols := other.ipProtocols.entries.foldl raised h.ipProtocols
      findings := other.findings.values.foldl (fun held finding => (Zond.addFinding held finding).1) h.findings
      firstSeen := min h.firstSeen other.firstSeen
      lastSeen := max h.lastSeen other.lastSeen
      ports := (other.ports.values.foldl filePort (h.ports, h.openPorts, h.networkRoles ∪ other.networkRoles)).1
      openPorts := (other.ports.values.foldl filePort (h.ports, h.openPorts, h.networkRoles ∪ other.networkRoles)).2.1
      touched := touched
      primary_mem := ((other.ips.keys.foldl admitIp h).considerPrimaryIp p other.primaryIp).primary_mem } := by
  -- Each stage in its turn is replaced by the record it is known to write.
  unfold merge
  dsimp only
  obtain ⟨held, hmem, hadmitted⟩ := foldl_admitIp_eq other.ips.keys h
  obtain ⟨primary, ips, _, hmem', hled⟩ := considerPrimaryIp_eq p (other.ips.keys.foldl admitIp h) other.primaryIp
  rw [hled, hadmitted]
  obtain ⟨aside, hnamed⟩ := foldNames_eq
    { h with primaryIp := primary, ips := ips, lastSeen := _, primary_mem := hmem' } other
  rw [hnamed, foldl_recordOsEvidence_eq, foldl_recordIpProtocol_eq, foldl_addFinding_eq, foldl_addPort_eq]
  exact ⟨aside, _, rfl⟩

end Zond.Host

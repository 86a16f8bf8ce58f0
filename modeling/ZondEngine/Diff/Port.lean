import ZondEngine.Diff.Coverage

/-!
# Comparing endpoints

What moved on one endpoint between two reports, as `diff/port.rs` has it. Each comparator finds nothing between a record
and itself, where certificates are judged at one clock (`comparePorts_self`).
-/

namespace Zond.Diff

open List

open Port (Protocol)

section Sets

variable {α : Type} [LinearOrder α]

def difference (before after : List α) : List α × List α :=
  let before := SortedSet.collect before
  let after := SortedSet.collect after
  (SortedSet.difference after before, SortedSet.difference before after)

theorem difference_self (values : List α) : difference values values = ([], []) := by
  unfold difference
  dsimp only
  rw [SortedSet.difference_self]

end Sets

def setChange (before after : List Text) : List Text × List Text := difference before after

/-! ## Findings -/

structure Reassessment where
  finding : Finding
  severity : Change Severity
  deriving DecidableEq

/-- The claims made anew, dropped, and weighed otherwise. -/
def findingsBetween (before after : List Finding) : List Finding × List Finding × List Reassessment :=
  let before := SortedMap.ofList (before.map fun finding => (finding.claimId, finding))
  let after := SortedMap.ofList (after.map fun finding => (finding.claimId, finding))
  let appeared := (after.entries.filter fun entry => !before.contains entry.1).map Prod.snd
  let gone := (before.entries.filter fun entry => !after.contains entry.1).map Prod.snd
  let reassessed := after.entries.filterMap fun entry =>
    (before.get? entry.1).bind fun was =>
      (Change.between was.severity entry.2.severity).map fun severity => ⟨entry.2, severity⟩
  (appeared, gone, reassessed)

theorem findingsBetween_self (findings : List Finding) : findingsBetween findings findings = ([], [], []) := by
  unfold findingsBetween
  generalize SortedMap.ofList (findings.map fun finding => (finding.claimId, finding)) = held
  have hget : ∀ entry ∈ held.entries, held.get? entry.1 = some entry.2 :=
    fun entry hentry => SortedMap.get?_eq_some_iff.mpr hentry
  have hgone : (held.entries.filter fun entry => !held.contains entry.1) = [] := by
    rw [filter_eq_nil_iff]
    intro entry hentry
    simp [SortedMap.contains, hget entry hentry]
  have hreassessed : (held.entries.filterMap fun entry => (held.get? entry.1).bind fun was =>
      (Change.between was.severity entry.2.severity).map fun severity => Reassessment.mk entry.2 severity) = [] := by
    rw [filterMap_eq_nil_iff]
    intro entry hentry
    rw [hget entry hentry, Option.bind_some, Change.between_self, Option.map_none]
  dsimp only
  rw [hgone, hreassessed, map_nil]

/-! ## Services -/

inductive ServiceChange where
  | identified (service : Service)
  | unidentified (service : Service)
  | name (change : Change Text)
  | product (change : Change (Option Text))
  | vendor (change : Change (Option Text))
  | version (change : Change (Option Text))
  | extraInfo (change : Change (Option Text))
  | build (change : Change (Option Build))
  | cpes (gained lost : List Text)
  deriving DecidableEq

def asChange {α β : Type} (change : List α → List α → β) (sides : List α × List α) : List β :=
  if sides.1.isEmpty && sides.2.isEmpty then [] else [change sides.1 sides.2]

/-- What moved in the service of a port. -/
def serviceChanges (before after : Option Service) : List ServiceChange :=
  let before := before.filter fun service => !service.isInferred
  let after := after.filter fun service => !service.isInferred
  match before, after with
  | none, none => []
  | none, some after => [.identified after]
  | some before, none => [.unidentified before]
  | some before, some after =>
    ((Change.between before.name after.name).map ServiceChange.name).toList ++
    ((Change.between before.product after.product).map ServiceChange.product).toList ++
    ((Change.between before.vendor after.vendor).map ServiceChange.vendor).toList ++
    ((Change.between before.version after.version).map ServiceChange.version).toList ++
    ((Change.between before.extrainfo after.extrainfo).map ServiceChange.extraInfo).toList ++
    ((Change.between before.build after.build).map ServiceChange.build).toList ++
    asChange ServiceChange.cpes (setChange before.cpe.keys after.cpe.keys)

theorem asChange_nil {α β : Type} (change : List α → List α → β) : asChange change ([], []) = [] := rfl

theorem serviceChanges_self (service : Option Service) : serviceChanges service service = [] := by
  unfold serviceChanges
  cases service.filter fun service => !service.isInferred with
  | none => rfl
  | some service => simp [setChange, difference_self, asChange_nil]

/-! ## Transport security -/

inductive CertificateChange where
  | presented (certificate : CertificateInfo)
  | withdrawn (certificate : CertificateInfo)
  | rotated (before after : CertificateInfo)
  | expiring (certificate : CertificateInfo) (remaining : Duration)
  | expired (certificate : CertificateInfo) (since : Duration)
  deriving DecidableEq

inductive SecurityChange where
  | tlsVersion (change : Change (Option Text))
  | cipherSuite (change : Change (Option Text))
  | alpn (gained lost : List Text)
  | certificate (change : CertificateChange)
  deriving DecidableEq

inductive Validity where
  | absent | notYetValid | valid | expiring | expired
  deriving DecidableEq

structure Clocks where
  (baseline current : SystemTime)
  expiryThreshold : Duration

variable (security : Option Security)

/-- How a certificate stands at a moment. -/
def validity (threshold : Duration) (moment : SystemTime) : Validity :=
  match security with
  | none => .absent
  | some security =>
    match security.certificate with
    | none => .absent
    | some certificate =>
      if moment < certificate.validityStart then .notYetValid
      else if certificate.validityEnd < moment then .expired
      else if security.isCertExpiringAt threshold moment then .expiring
      else .valid

def standingChange (certificate : CertificateInfo) (was is : Validity) (now : SystemTime) : List CertificateChange :=
  match is with
  | .expiring =>
    if was ≠ .expiring then [.expiring certificate (certificate.validityEnd.durationSince now)] else []
  | .expired =>
    if was ≠ .expired then [.expired certificate (now.durationSince certificate.validityEnd)] else []
  | .absent | .notYetValid | .valid => []

/-- What moved in the certificate of a port. -/
def certificateChanges (before after : Option Security) (clocks : Clocks) : List CertificateChange :=
  let is := validity after clocks.expiryThreshold clocks.current
  match before.bind Security.certificate, after.bind Security.certificate with
  | none, none => []
  | none, some shown => .presented shown :: standingChange shown .absent is clocks.current
  | some held, none => [.withdrawn held]
  | some held, some shown =>
    if held.fingerprintSha256 ≠ shown.fingerprintSha256 then
      .rotated held shown :: standingChange shown .absent is clocks.current
    else standingChange shown (validity after clocks.expiryThreshold clocks.baseline) is clocks.current

theorem standingChange_self (certificate : CertificateInfo) (standing : Validity) (now : SystemTime) :
    standingChange certificate standing standing now = [] := by
  cases standing <;> simp [standingChange]

theorem certificateChanges_self {clocks : Clocks}
    (h : clocks.baseline = clocks.current) : certificateChanges security security clocks = [] := by
  unfold certificateChanges
  cases security.bind Security.certificate with
  | none => rfl
  | some certificate =>
    dsimp only
    rw [if_neg fun hne => hne rfl, h, standingChange_self]

/-- What moved in the security of a port. -/
def securityChanges (before after : Option Security) (clocks : Clocks) : List SecurityChange :=
  ((Change.between (before.bind Security.tlsVersion) (after.bind Security.tlsVersion)).map
    SecurityChange.tlsVersion).toList ++
  ((Change.between (before.bind Security.cipherSuite) (after.bind Security.cipherSuite)).map
    SecurityChange.cipherSuite).toList ++
  asChange SecurityChange.alpn (setChange (before.elim [] Security.alpn) (after.elim [] Security.alpn)) ++
  (certificateChanges before after clocks).map SecurityChange.certificate

theorem securityChanges_self {clocks : Clocks} (h : clocks.baseline = clocks.current) :
    securityChanges security security clocks = [] := by
  simp [securityChanges, setChange, difference_self, asChange_nil, certificateChanges_self security h]

/-! ## Endpoints -/

inductive PortChange where
  | state (change : Change PortState)
  | service (change : ServiceChange)
  | security (change : SecurityChange)
  | findings (appeared resolved unsettled : List Finding) (reassessed : List Reassessment)
  deriving DecidableEq

/-- Whether the service now seen bears out a finding drawn from another. -/
def correlationStanding (finding : Finding) (basis : Service) (now : Option Service) : Option Standing :=
  let backs (service : Service) : Bool := finding.cpes.keys.any fun cpe => service.cpe.contains cpe
  let differs (stated held : Option Text) : Bool := stated.any fun text => held != some text
  if !backs basis then none
  else
    match now.filter fun service => !service.isInferred with
    | none => some .unsettled
    | some now =>
      if backs now then some .upheld
      else if now.name ≠ basis.name ∨ differs now.product basis.product ∨ differs now.version basis.version then
        some .overturned
      else some .unsettled

variable (p : Process)

def standing (finding : Finding) (before after : Port) : Option Standing :=
  if finding.isCorrelation then before.service.bind fun basis => correlationStanding finding basis after.service
  else before.security.bind fun basis => (after.security.getD .new).standing p finding basis

def findingChanges (before after : Port) : List PortChange :=
  let (appeared, gone, reassessed) := findingsBetween before.findings.values after.findings.values
  let (unsettled, resolved) := gone.partition fun finding => standing p finding before after == some .unsettled
  if !appeared.isEmpty || !resolved.isEmpty || !unsettled.isEmpty || !reassessed.isEmpty then
    [.findings appeared resolved unsettled reassessed]
  else []

def portChangesBetween (before after : Port) (clocks : Clocks) : List PortChange :=
  ((Change.between before.state after.state).map PortChange.state).toList ++
  (serviceChanges before.service after.service).map PortChange.service ++
  (securityChanges before.security after.security clocks).map PortChange.security ++
  findingChanges p before after

theorem portChangesBetween_self (port : Port) {clocks : Clocks} (h : clocks.baseline = clocks.current) :
    portChangesBetween p port port clocks = [] := by
  have hfindings : findingChanges p port port = [] := by
    unfold findingChanges
    rw [findingsBetween_self]
    rfl
  simp [portChangesBetween, serviceChanges_self, securityChanges_self port.security h, hfindings]

/-- How one port differs between two reports. -/
structure PortDelta where
  number : UInt16
  protocol : Protocol
  presence : Presence
  (baseline current : Option Port)
  changes : List PortChange
  deriving DecidableEq

/-- What each report can say of the ports of a host. -/
structure PresenceFor where
  baseline : UInt16 → Protocol → Coverage
  current : UInt16 → Protocol → Coverage

/-- The answer for an endpoint one side lacks. -/
def PresenceFor.coverage (scope : UInt16 → Protocol → Coverage) (unreached : SortedSet Endpoint)
    (endpoint : Endpoint) : Coverage :=
  if unreached.contains endpoint then .unreached else scope endpoint.number endpoint.protocol

variable (ports : List Port)

def portIndex : SortedMap Endpoint Port :=
  SortedMap.ofList ((ports.filter fun port => port.state != .unasked).map fun port => (port.endpoint, port))

def unreachedPorts : SortedSet Endpoint :=
  SortedSet.collect ((ports.filter fun port => port.state == .unasked).map Port.endpoint)

def portDelta (baseline current : List Port) (presence : PresenceFor) (clocks : Clocks)
    (endpoint : Endpoint) : Option PortDelta :=
  let before := (portIndex baseline).get? endpoint
  let after := (portIndex current).get? endpoint
  let delta (presence : Presence) (changes : List PortChange) : PortDelta :=
    ⟨endpoint.number, endpoint.protocol, presence, before, after, changes⟩
  match before, after with
  | some was, some is =>
    let changes := portChangesBetween p was is clocks
    if changes.isEmpty then none else some (delta .both changes)
  | some _, none =>
    some (delta (.removed (PresenceFor.coverage presence.current (unreachedPorts current) endpoint)) [])
  | none, some _ =>
    some (delta (.added (PresenceFor.coverage presence.baseline (unreachedPorts baseline) endpoint)) [])
  | none, none => none

theorem portDelta_presence {p : Process} {baseline current : List Port} {presence : PresenceFor} {clocks : Clocks}
    {endpoint : Endpoint} {delta : PortDelta} (h : portDelta p baseline current presence clocks endpoint = some delta) :
    (⟨delta.number, delta.protocol⟩ : Endpoint) = endpoint ∧
    ((delta.presence = .both ∧ (portIndex current).get? endpoint ≠ none ∧ (portIndex baseline).get? endpoint ≠ none) ∨
    (delta.presence = .removed (PresenceFor.coverage presence.current (unreachedPorts current) endpoint) ∧
      (portIndex baseline).get? endpoint ≠ none) ∨
    (delta.presence = .added (PresenceFor.coverage presence.baseline (unreachedPorts baseline) endpoint) ∧
      (portIndex current).get? endpoint ≠ none)) := by
  unfold portDelta at h
  cases hbefore : (portIndex baseline).get? endpoint with
  | none =>
    cases hafter : (portIndex current).get? endpoint with
    | none => rw [hbefore, hafter] at h; cases h
    | some after =>
      rw [hbefore, hafter] at h
      obtain rfl := Option.some.inj h
      exact ⟨rfl, .inr (.inr ⟨rfl, Option.some_ne_none after⟩)⟩
  | some before =>
    cases hafter : (portIndex current).get? endpoint with
    | none =>
      rw [hbefore, hafter] at h
      obtain rfl := Option.some.inj h
      exact ⟨rfl, .inr (.inl ⟨rfl, Option.some_ne_none before⟩)⟩
    | some after =>
      rw [hbefore, hafter] at h
      dsimp only at h
      split at h
      · cases h
      · obtain rfl := Option.some.inj h
        exact ⟨rfl, .inl ⟨rfl, Option.some_ne_none after, Option.some_ne_none before⟩⟩

/-- The difference between two records' ports. -/
def comparePorts (baseline current : List Port) (presence : PresenceFor) (clocks : Clocks) : List PortDelta :=
  (SortedSet.collect ((portIndex baseline).keys ++ (portIndex current).keys)).keys.filterMap
    (portDelta p baseline current presence clocks)

theorem comparePorts_self (presence : PresenceFor) {clocks : Clocks}
    (h : clocks.baseline = clocks.current) : comparePorts p ports ports presence clocks = [] := by
  unfold comparePorts
  rw [filterMap_eq_nil_iff]
  intro endpoint _
  unfold portDelta
  cases (portIndex ports).get? endpoint with
  | none => rfl
  | some port =>
    dsimp only
    rw [portChangesBetween_self p port h, isEmpty_nil, if_pos rfl]

end Zond.Diff

import ZondEngine.Model.Endpoint
import ZondEngine.Model.Ip.Scoped
import ZondEngine.Model.Mac

/-!
# What a host record is made of

The parts of a host record, each with the fold of its own, as the modules under `model/host/` have them.
-/

namespace Zond

open Ip (IpAddr)

/-! ## Status -/

inductive HostStatus where
  | unknown | down | blocked | up
  deriving DecidableEq

namespace HostStatus

theorem ctorIdx_injective : Function.Injective HostStatus.ctorIdx :=
  Function.LeftInverse.injective HostStatus.ofNat_ctorIdx

instance : LinearOrder HostStatus := LinearOrder.lift' HostStatus.ctorIdx ctorIdx_injective

def isAlive : HostStatus → Bool
  | up | blocked => true
  | unknown | down => false

end HostStatus

inductive StatusProtocol where
  | arp | ndp | icmpEcho | icmpTimestamp | icmpUnreachable | tcpSyn | tcpConnect | tcp | dhcp | udp | sctp
  | custom (name : Text)
  deriving DecidableEq

inductive EvidenceSource where
  | host
  | intermediary (address : IpAddr)
  | withheld
  deriving DecidableEq

structure StatusReason where
  protocol : StatusProtocol
  source : EvidenceSource
  details : Option Text
  deriving DecidableEq

inductive NetworkRole where
  | router | dnsServer | dhcpServer | ntpServer | snmpAgent | domainController | switch | origin | tarpit | truncated
  deriving DecidableEq

namespace NetworkRole

def ALL : List NetworkRole :=
  [router, dnsServer, dhcpServer, ntpServer, snmpAgent, domainController, switch, origin, tarpit, truncated]

theorem ctorIdx_injective : Function.Injective NetworkRole.ctorIdx :=
  Function.LeftInverse.injective NetworkRole.ofNat_ctorIdx

instance : LinearOrder NetworkRole := LinearOrder.lift' NetworkRole.ctorIdx ctorIdx_injective

end NetworkRole

inductive Filtering where
  | inlineMiddlebox | statefulFilter | portTrustingAcl | statelessFilter
  deriving DecidableEq

namespace Filtering

def ALL : List Filtering := [inlineMiddlebox, statefulFilter, portTrustingAcl, statelessFilter]

theorem ctorIdx_injective : Function.Injective Filtering.ctorIdx :=
  Function.LeftInverse.injective Filtering.ofNat_ctorIdx

instance : LinearOrder Filtering := LinearOrder.lift' Filtering.ctorIdx ctorIdx_injective

end Filtering

inductive IpProtocolState where
  | unasked | openOrNoReply | blocked | closed | open
  deriving DecidableEq

def IpProtocolState.isEstablished (s : IpProtocolState) : Bool := s != .unasked

/-! ## Names -/

inductive NameKind where
  | host | netbiosHost | domain | netbiosDomain | forest
  deriving DecidableEq

inductive NameSource where
  | ntlm | ldap | kerberos | smb | netbios | l2tp
  deriving DecidableEq

structure HostName where
  kind : NameKind
  source : NameSource
  name : Text
  deriving DecidableEq

namespace HostName

def key (n : HostName) : ℕ ×ₗ ℕ ×ₗ Text := toLex (n.kind.ctorIdx, toLex (n.source.ctorIdx, n.name))

theorem key_injective : Function.Injective key := by
  rintro ⟨kind, source, name⟩ ⟨kind', source', name'⟩ h
  obtain ⟨hkind, hrest⟩ := Prod.mk.inj (toLex.injective h)
  obtain ⟨hsource, rfl⟩ := Prod.mk.inj (toLex.injective hrest)
  obtain rfl := Function.LeftInverse.injective NameKind.ofNat_ctorIdx hkind
  obtain rfl := Function.LeftInverse.injective NameSource.ofNat_ctorIdx hsource
  rfl

instance : LinearOrder HostName := LinearOrder.lift' key key_injective

end HostName

/-! ## Operating systems -/

def MAX_CPES_PER_OS : Nat := 50

def MAX_EVIDENCE_LEN : Nat := 512

def SEPARATOR : Text := [' ', '|', ' ']

def splitOnText (separator : Text) (part : Text) : Nat → Text → List Text
  | _, [] => [part]
  | skip + 1, _ :: rest => splitOnText separator part skip rest
  | 0, c :: rest =>
    if separator.isPrefixOf (c :: rest) then part :: splitOnText separator [] (separator.length - 1) rest
    else splitOnText separator (part ++ [c]) 0 rest

def keepReading (parts : List Text) (part : Text) : List Text :=
  if parts.any (part.isPrefixOf ·) then parts else parts.filter (fun kept => !kept.isPrefixOf part) ++ [part]

def fitReadings : Nat → List Text → List Text
  | _, [] => []
  | length, part :: rest =>
    let cost := part.byteLen + if length = 0 then 0 else SEPARATOR.byteLen
    if length + cost ≤ MAX_EVIDENCE_LEN then part :: fitReadings (length + cost) rest else fitReadings length rest

/-- Two texts of readings as one, each reading once. -/
def joinReadings (existing incoming : Text) : Text :=
  let parts := (splitOnText SEPARATOR [] 0 existing ++ splitOnText SEPARATOR [] 0 incoming).foldl keepReading []
  List.intercalate SEPARATOR (fitReadings 0 parts)

/-- A reading of the operating system. -/
@[ext]
structure OsFingerprint where
  name : Text
  (family device generation vendor : Option Text)
  accuracy : Nat
  (kernel arch : Option Text)
  detailAccuracy : Option Nat
  cpe : SortedSet Text
  evidence : Option Text
  accuracy_le : accuracy ≤ 100

instance : DecidableEq OsFingerprint := fun _ _ => decidable_of_iff _ OsFingerprint.ext_iff.symm

namespace OsFingerprint

def new (name : Text) (accuracy : Nat) : OsFingerprint :=
  ⟨name, none, none, none, none, min accuracy 100, none, none, none, SortedMap.empty, none, percent_le accuracy⟩

/-- Folds another reading in: a surer one supplies the identity, an equal one fills gaps, a weaker one only adds
identifiers. -/
def merge (os other : OsFingerprint) : OsFingerprint :=
  let cpe := addCpes MAX_CPES_PER_OS os.cpe other.cpe.keys
  if os.accuracy < other.accuracy then
    { other with
      family := other.family.or os.family, device := other.device.or os.device,
      generation := other.generation.or os.generation, vendor := other.vendor.or os.vendor,
      kernel := other.kernel.or os.kernel, arch := other.arch.or os.arch,
      detailAccuracy := other.detailAccuracy.or os.detailAccuracy, evidence := other.evidence.or os.evidence, cpe }
  else if other.accuracy = os.accuracy then
    { os with
      evidence :=
        if os.name = other.name then Option.merge joinReadings os.evidence other.evidence
        else os.evidence.or other.evidence
      family := os.family.or other.family, device := os.device.or other.device,
      generation := os.generation.or other.generation, vendor := os.vendor.or other.vendor,
      kernel := os.kernel.or other.kernel, arch := os.arch.or other.arch,
      detailAccuracy := os.detailAccuracy.or other.detailAccuracy, cpe }
  else { os with cpe }

end OsFingerprint

inductive OsSource where
  | tcpStack | hardwareVendor | serviceBanner | snmpAgent | mdnsResponder | hostname
  deriving DecidableEq

structure F32 where
  bits : UInt32
  deriving DecidableEq

namespace F32

def magnitude (x : F32) : Nat := x.bits.toNat % 2 ^ 31

def isNaN (x : F32) : Bool := decide (0x7f800000 < x.magnitude)

def rank (x : F32) : Int := if x.bits.toNat < 2 ^ 31 then x.magnitude else -x.magnitude

def max (x y : F32) : F32 := if x.isNaN then y else if y.isNaN then x else if x.rank < y.rank then y else x

end F32

structure OsEvidence where
  source : OsSource
  (family device vendor product version kernel arch cpe : Option Text)
  confidence : F32
  evidence : Text
  deriving DecidableEq

abbrev OsClaim : Type :=
  ℕ ×ₗ WithBot Text ×ₗ WithBot Text ×ₗ WithBot Text ×ₗ WithBot Text ×ₗ WithBot Text ×ₗ WithBot Text

def OsEvidence.claim (e : OsEvidence) : OsClaim :=
  toLex (e.source.ctorIdx, toLex (e.family, toLex (e.device, toLex (e.vendor, toLex (e.product,
    toLex (e.version, e.kernel))))))

/-! ## Hardware -/

def MAX_MACS_PER_HOST : Nat := 64

/-- What box a host is: the addresses it was seen at and when, and what a service said of it. -/
structure HardwareInfo where
  macs : SortedMap MacAddr SystemTime
  (vendor product family cpe23 model version serialNumber : Option Text)
  deriving DecidableEq

/-- What a service said about a box. -/
structure HardwareDescription where
  (vendor product family cpe23 model version serialNumber : Option Text)

namespace HardwareInfo

def goesFirst (a b : MacAddr × SystemTime) : Bool := decide (a.2 < b.2 ∨ a.2 = b.2 ∧ a.1 < b.1)

def oldest : List (MacAddr × SystemTime) → Option (MacAddr × SystemTime)
  | [] => none
  | entry :: rest => some (rest.foldl (fun held next => if goesFirst next held then next else held) entry)

def dropOldest : Nat → SortedMap MacAddr SystemTime → SortedMap MacAddr SystemTime
  | 0, macs => macs
  | excess + 1, macs =>
    match oldest macs.entries with
    | some entry => dropOldest excess (macs.erase entry.1)
    | none => macs

def evictOldestPastTheBound (macs : SortedMap MacAddr SystemTime) : SortedMap MacAddr SystemTime :=
  dropOldest (macs.len - MAX_MACS_PER_HOST) macs

def new (t : Oui) (p : Process) (mac : MacAddr) : HardwareInfo :=
  ⟨SortedMap.empty.insert mac p.now, t.vendor mac, none, none, none, none, none, none⟩

def namesSomething (h : HardwareInfo) : Bool :=
  h.vendor.isSome || h.product.isSome || h.family.isSome || h.cpe23.isSome || h.model.isSome || h.version.isSome ||
    h.serialNumber.isSome

/-- Hardware a service described, with no address behind it; none if it names nothing. -/
def described (d : HardwareDescription) : Option HardwareInfo :=
  let built : HardwareInfo :=
    ⟨SortedMap.empty, d.vendor, d.product, d.family, d.cpe23, d.model, d.version, d.serialNumber⟩
  if built.namesSomething then some built else none

/-- Only a new address can make room for itself and name a vendor where none is named. -/
def recordMacSeenAt (t : Oui) (h : HardwareInfo) (mac : MacAddr) (seen : SystemTime) : HardwareInfo :=
  let macs := h.macs.insert mac seen
  if h.macs.contains mac then { h with macs }
  else { h with macs := evictOldestPastTheBound macs, vendor := h.vendor.or (t.vendor mac) }

def addMac (t : Oui) (p : Process) (h : HardwareInfo) (mac : MacAddr) : HardwareInfo := h.recordMacSeenAt t mac p.now

def pruneStaleMacs (h : HardwareInfo) (cutoff : SystemTime) : HardwareInfo :=
  { h with macs := h.macs.retain fun _ lastSeen => decide (cutoff ≤ lastSeen) }

def namesMoreThanAVendor (h : HardwareInfo) : Bool :=
  h.product.isSome || h.family.isSome || h.cpe23.isSome || h.model.isSome

/-- Folds another account of the hardware in. -/
def merge (h other : HardwareInfo) : HardwareInfo :=
  let macs := other.macs.entries.foldl
    (fun held entry =>
      held.insert entry.1
        (match held.get? entry.1 with
        | some seen => max seen entry.2
        | none => entry.2))
    h.macs
  { macs := evictOldestPastTheBound macs
    vendor :=
      if h.vendor.isNone ∨ other.vendor.isSome ∧ other.namesMoreThanAVendor then other.vendor.or h.vendor
      else h.vendor
    product := h.product.or other.product
    family := h.family.or other.family
    cpe23 := h.cpe23.or other.cpe23
    model := h.model.or other.model
    version := h.version.or other.version
    serialNumber := h.serialNumber.or other.serialNumber }

end HardwareInfo

/-! ## The route -/

inductive Answer where
  | silent
  | router (address : IpAddr)
  | withheld
  deriving DecidableEq

/-- One router on the way to a host. -/
structure Hop where
  distance : UInt8
  answer : Answer
  rtt : Option Duration
  inferred : Bool
  deriving DecidableEq

def Hop.isAnswer (hop : Hop) : Bool := hop.answer != .silent

structure NetworkPath where
  hops : List Hop
  ascending : hops.Pairwise fun a b => a.distance.toNat < b.distance.toNat
  deriving DecidableEq

namespace NetworkPath

def new : NetworkPath := ⟨[], List.Pairwise.nil⟩

def displaces (known hop : Hop) : Bool :=
  match known.isAnswer, hop.isAnswer with
  | false, true => true
  | true, false => false
  | _, _ => known.inferred && !hop.inferred

def stronger (known hop : Hop) : Hop := if displaces known hop then hop else known

def place (hop : Hop) : List Hop → List Hop
  | [] => [hop]
  | known :: rest =>
    if known.distance.toNat < hop.distance.toNat then known :: place hop rest
    else if known.distance = hop.distance then stronger known hop :: rest
    else hop :: known :: rest

theorem stronger_cases (hop known : Hop) : stronger known hop = hop ∨ stronger known hop = known := by
  unfold stronger
  split
  · exact .inl rfl
  · exact .inr rfl

theorem place_eq_put (hop : Hop) : ∀ hops : List Hop,
    place hop hops = Ranked.put (fun hop => hop.distance.toNat) stronger hop hops
  | [] => rfl
  | known :: rest => by
    rw [place, Ranked.put, place_eq_put hop rest]
    simp only [UInt8.toNat_inj]

theorem mem_place {hop other : Hop} {hops : List Hop} (h : other ∈ place hop hops) : other = hop ∨ other ∈ hops :=
  Ranked.mem_put (stronger_cases hop) (place_eq_put hop hops ▸ h)

/-- Files a hop at its distance. -/
def record (path : NetworkPath) (hop : Hop) : NetworkPath :=
  ⟨place hop path.hops, place_eq_put hop _ ▸ Ranked.pairwise_put (stronger_cases hop) path.ascending⟩

theorem eq_of_hops : ∀ {path other : NetworkPath}, path.hops = other.hops → path = other
  | ⟨_, _⟩, ⟨_, _⟩, rfl => rfl

theorem foldl_record_hops (path : NetworkPath) : path.hops.foldl record new = path := by
  refine eq_of_hops (view_foldl_concat hops record
    (R := fun a b => a.distance.toNat < b.distance.toNat) ?_ path.ascending)
  exact fun known hop _ hbefore => (place_eq_put hop _).trans (Ranked.put_of_lt hbefore)

end NetworkPath

/-! ## Round trips -/

inductive RttSource where
  | direct | segmentWide | firstToNeighbour
  deriving DecidableEq

/-- One measured round trip. -/
structure RttSample where
  taken : Instant
  rtt : Duration
  source : RttSource
  protocol : Option StatusProtocol
  deriving DecidableEq

def DEFAULT_RTT_SAMPLES : Nat := 10

/-- The last round trips to a host, the oldest first, and the hop counter it answered with. -/
structure HostTelemetry where
  rttHistory : List RttSample
  maxSamples : Nat
  hopCounter : Option UInt8
  deriving DecidableEq

namespace HostTelemetry

def new (maxSamples : Nat) : HostTelemetry := ⟨[], max maxSamples 1, none⟩

def lastOf (bound : Nat) (samples : List RttSample) : List RttSample := samples.drop (samples.length - bound)

def push (t : HostTelemetry) (sample : RttSample) : HostTelemetry :=
  if t.maxSamples = 0 then t else { t with rttHistory := lastOf t.maxSamples (t.rttHistory ++ [sample]) }

def addRtt (p : Process) (t : HostTelemetry) (rtt : Duration) : HostTelemetry := t.push ⟨p.instant, rtt, .direct, none⟩

def recordHopCounter (t : HostTelemetry) (arrived : UInt8) : HostTelemetry := { t with hopCounter := some arrived }

/-- Samples of both, the newest kept. -/
def merge (t other : HostTelemetry) : HostTelemetry :=
  let maxSamples := max t.maxSamples other.maxSamples
  let hopCounter := other.hopCounter.or t.hopCounter
  if maxSamples = 0 then { t with maxSamples, hopCounter }
  else
    let combined := (t.rttHistory ++ other.rttHistory).insertionSort fun a b => a.taken ≤ b.taken
    ⟨lastOf maxSamples combined, maxSamples, hopCounter⟩

end HostTelemetry

end Zond

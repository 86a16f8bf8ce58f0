import ZondEngine.Model.Ip.Range
import ZondEngine.Model.Port
import ZondEngine.Model.Tls

/-!
# Endpoints

`Port` of `model/port.rs`, with its transport security and the reply behind its verdict. `Port.merge` folds two accounts
by one scan, in which a state only promotes.
-/

namespace Zond

open Port (Protocol)
open Ip (IpAddr)

/-! ## Transport security -/

structure CertificateInfo where
  commonName : Text
  sans : List Text
  issuer : Text
  (validityStart validityEnd : SystemTime)
  pubkeyType : Text
  pubkeyBits : UInt32
  fingerprintSha256 : Text
  deriving DecidableEq

/-- What a port's encryption was seen to be. -/
structure Security where
  (tlsVersion cipherSuite : Option Text)
  alpn : List Text
  certificate : Option CertificateInfo
  support : TlsSupport
  deriving DecidableEq

namespace Security

def new : Security := ⟨none, none, [], none, .new⟩

def addAlpn (alpn : List Text) (protocol : Text) : List Text :=
  if protocol ∈ alpn then alpn else alpn ++ [protocol]

/-- Keeps what is stated, and fills in the rest. -/
def merge (s other : Security) : Security where
  tlsVersion := s.tlsVersion.or other.tlsVersion
  cipherSuite := s.cipherSuite.or other.cipherSuite
  certificate := s.certificate.or other.certificate
  support := s.support.merge other.support
  alpn := other.alpn.foldl addAlpn s.alpn

def CERTIFICATE_DETECTION : Text := "zond:certificate"

def fingerprint (s : Security) : Option Text :=
  (s.certificate.map CertificateInfo.fingerprintSha256).filter fun digest => !digest.isEmpty

/-- Whether what a port shows now bears out a claim. -/
def standing (p : Process) (s : Security) (finding : Finding) (basis : Security) : Option Standing :=
  if finding.detection.id = CERTIFICATE_DETECTION then
    basis.fingerprint.map fun was =>
      match s.fingerprint with
      | some now => if now = was then .upheld else .overturned
      | none => .unsettled
  else s.support.standing p finding basis.support

def restate (p : Process) (s : Security) (finding : Finding) (basis : Security) : Option Excerpt :=
  if finding.detection.id = CERTIFICATE_DETECTION then none else s.support.restate p finding basis.support

def isCertExpiringAt (s : Security) (threshold : Duration) (moment : SystemTime) : Bool :=
  s.certificate.any fun certificate =>
    if moment < certificate.validityStart ∨ certificate.validityEnd < moment then false
    else
      match moment.checkedAdd threshold with
      | some horizon => decide (certificate.validityEnd < horizon)
      | none => true

end Security

inductive ScanResponse where
  | tcpSynAck | overheardSynAck | tcpRst | connectionRefused | udpResponse | sctpInitAck | sctpAbort | noResponse
  | icmpUnreachable | icmpProhibited
  | custom (text : Text)
  deriving DecidableEq

structure Discovery where
  reason : ScanResponse
  timestamp : SystemTime
  rtt : Option Duration
  ttl : Option UInt8
  sourceIp : Option IpAddr
  deriving DecidableEq

/-! ## Ports -/

inductive PortState where
  | unasked | closedOrNoReply | openOrNoReply | noReply | blocked | reachable | closed | open
  deriving DecidableEq

namespace PortState

theorem ctorIdx_injective : Function.Injective PortState.ctorIdx :=
  Function.LeftInverse.injective PortState.ofNat_ctorIdx

instance : LinearOrder PortState := LinearOrder.lift' PortState.ctorIdx ctorIdx_injective

end PortState

structure Endpoint where
  number : UInt16
  protocol : Protocol
  deriving DecidableEq

namespace Endpoint

def key (e : Endpoint) : ℕ ×ₗ ℕ := toLex (e.number.toNat, e.protocol.ctorIdx)

theorem key_injective : Function.Injective key := by
  rintro ⟨number, protocol⟩ ⟨number', protocol'⟩ h
  obtain ⟨hnumber, hprotocol⟩ := Prod.mk.inj (toLex.injective h)
  obtain rfl := UInt16.toNat_inj.mp hnumber
  obtain rfl := Function.LeftInverse.injective Protocol.ofNat_ctorIdx hprotocol
  rfl

instance : LinearOrder Endpoint := LinearOrder.lift' key key_injective

end Endpoint

/-- What is known of one port of a host. -/
structure Port where
  number : UInt16
  protocol : Protocol
  state : PortState
  service : Option Service
  security : Option Security
  discovery : Option Discovery
  findings : SortedMap ClaimId Finding
  deriving DecidableEq

namespace Port

def new (number : UInt16) (protocol : Protocol) (state : PortState) : Port :=
  ⟨number, protocol, state, none, none, none, SortedMap.empty⟩

variable (port : Port)

def endpoint : Endpoint := ⟨port.number, port.protocol⟩

/-- Files a finding on the port. -/
def addFinding (finding : Finding) : Port :=
  { port with findings := (Zond.addFinding port.findings finding).1 }

def newestCorrelations : SortedMap Text Version :=
  (port.findings.values.filter Finding.isCorrelation).foldl
    (fun newest finding =>
      let version := finding.detection.version
      newest.insert finding.detection.id
        (match newest.get? finding.detection.id with
        | some held => max held version
        | none => version))
    SortedMap.empty

def retireSupersededCorrelations : Port :=
  let newest := port.newestCorrelations
  { port with
    findings := port.findings.retain fun _ finding =>
      !finding.isCorrelation || (newest.get? finding.detection.id).all fun held => held ≤ finding.detection.version }

/-- Folds another account of the port in. -/
def merge (port other : Port) : Port :=
  let discovery :=
    if other.discovery.isSome ∧ (port.state < other.state ∨ port.discovery.isNone) then other.discovery
    else port.discovery
  let folded :=
    { port with
      state := max port.state other.state
      service := Option.merge Service.merge port.service other.service
      security := Option.merge Security.merge port.security other.security
      discovery }
  other.findings.values.foldl addFinding folded

end Port

end Zond

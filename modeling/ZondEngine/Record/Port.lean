import ZondEngine.Record.Finding

/-!
# What a port is in a file

The records `record.rs` writes a port as. `PortRecord.of_again_iff`: a port reads back as it was written exactly where
it is settled.
-/

namespace Zond

open List Option

open Ip (IpAddr)

/-! ## Services -/

structure ServiceRecord where
  name : Text
  confidence : Nat
  (product vendor version extrainfo : Option Text)
  cpes : List Text
  build : Option BuildRecord
  deriving DecidableEq

namespace ServiceRecord

def of (service : Service) : ServiceRecord where
  name := service.name
  confidence := service.confidence
  product := service.product
  vendor := service.vendor
  version := service.version
  extrainfo := service.extrainfo
  cpes := service.cpe.keys
  build := service.build.map .of

def rebuild (record : ServiceRecord) : Service :=
  { Service.new record.name record.confidence with
    product := record.product
    vendor := record.vendor
    version := record.version
    extrainfo := record.extrainfo
    cpe := addCpes MAX_CPES_PER_SERVICE SortedMap.empty record.cpes
    build := record.build.bind BuildRecord.rebuild }

end ServiceRecord

def Service.again (service : Service) : Service := { service with build := service.build.map Build.again }

theorem ServiceRecord.rebuild_of {service : Service} (h : service.WellFormed) :
    (of service).rebuild = service.again := by
  obtain ⟨name, confidence, product, vendor, version, extrainfo, cpe, build, hconfidence⟩ := service
  unfold rebuild of Service.new Service.again
  dsimp only
  rw [BuildRecord.bind_rebuild, addCpes_keys h]
  congr
  exact Nat.min_eq_left hconfidence

/-! ## Transport security -/

structure CertificateRecord where
  commonName : Text
  sans : List Text
  issuer : Text
  (validityStart validityEnd : SystemTime)
  (fingerprintSha256 pubkeyType : Text)
  pubkeyBits : UInt32
  deriving DecidableEq

namespace CertificateRecord

def of (certificate : CertificateInfo) : CertificateRecord where
  commonName := certificate.commonName
  sans := certificate.sans
  issuer := certificate.issuer
  validityStart := certificate.validityStart
  validityEnd := certificate.validityEnd
  fingerprintSha256 := certificate.fingerprintSha256
  pubkeyType := certificate.pubkeyType
  pubkeyBits := certificate.pubkeyBits

def rebuild (record : CertificateRecord) : CertificateInfo where
  commonName := record.commonName
  sans := record.sans.take MAX_SANS_PER_CERTIFICATE
  issuer := record.issuer
  validityStart := record.validityStart
  validityEnd := record.validityEnd
  pubkeyType := record.pubkeyType
  pubkeyBits := record.pubkeyBits
  fingerprintSha256 := record.fingerprintSha256

theorem rebuild_of {certificate : CertificateInfo} (h : certificate.sans.length ≤ MAX_SANS_PER_CERTIFICATE) :
    (of certificate).rebuild = certificate := by
  unfold rebuild of
  rw [take_of_length_le h]

end CertificateRecord

structure UnfinishedVersionRecord where
  (version interruption : Text)
  deriving DecidableEq

namespace UnfinishedVersionRecord

def of (held : UnfinishedVersion) : UnfinishedVersionRecord := ⟨held.version.name, held.interruption.name⟩

def rebuild (record : UnfinishedVersionRecord) : Option UnfinishedVersion :=
  (TlsVersion.parse record.version).map fun version =>
    ⟨version, (Interruption.fromName record.interruption).getD .stopped⟩

theorem rebuild_of (held : UnfinishedVersion) : (of held).rebuild = some held := by
  unfold rebuild of
  rw [TlsVersion.parse_name, Interruption.fromName_name]
  rfl

end UnfinishedVersionRecord

structure AcceptedVersionRecord where
  version : Text
  (suites unrecognised : List UInt16)
  deriving DecidableEq

namespace AcceptedVersionRecord

def of (held : VersionSupport) : AcceptedVersionRecord :=
  ⟨held.version.name, held.suites.map CipherSuite.code, held.unrecognised⟩

def rebuild (record : AcceptedVersionRecord) : Option VersionSupport :=
  (TlsVersion.parse record.version).map fun version =>
    ⟨version, record.suites.filterMap CipherSuite.fromCode,
      record.unrecognised ++ record.suites.filter fun code => (CipherSuite.fromCode code).isNone⟩

theorem rebuild_of {held : VersionSupport} (h : ∀ suite ∈ held.suites, suite ∈ CipherSuite.ALL) :
    (of held).rebuild = some held := by
  obtain ⟨version, suites, unrecognised⟩ := held
  have hsuites : (suites.map CipherSuite.code).filterMap CipherSuite.fromCode = suites := by
    rw [filterMap_map]
    refine (filterMap_congr fun suite hsuite => ?_).trans filterMap_some
    exact CipherSuite.fromCode_code (h suite hsuite)
  have hknown : (suites.map CipherSuite.code).filter (fun code => (CipherSuite.fromCode code).isNone) = [] := by
    refine filter_eq_nil_iff.mpr fun code hcode => ?_
    obtain ⟨suite, hsuite, rfl⟩ := mem_map.mp hcode
    rw [CipherSuite.fromCode_code (h suite hsuite)]
    exact Bool.false_ne_true
  unfold rebuild of
  rw [TlsVersion.parse_name, hsuites, hknown, append_nil]
  rfl

end AcceptedVersionRecord

structure SecurityRecord where
  (tlsVersion cipherSuite : Option Text)
  alpn : List Text
  certificate : Option CertificateRecord
  accepts : List AcceptedVersionRecord
  unfinished : List UnfinishedVersionRecord
  deriving DecidableEq

namespace SecurityRecord

def of (security : Security) : SecurityRecord where
  tlsVersion := security.tlsVersion
  cipherSuite := security.cipherSuite
  alpn := security.alpn
  certificate := security.certificate.map .of
  accepts := security.support.versions.map .of
  unfinished := security.support.unfinished.map .of

def rebuild (record : SecurityRecord) : Security where
  tlsVersion := record.tlsVersion
  cipherSuite := record.cipherSuite
  alpn := record.alpn.foldl Security.addAlpn []
  certificate := record.certificate.map CertificateRecord.rebuild
  support :=
    let accepted := (record.accepts.filterMap AcceptedVersionRecord.rebuild).foldl TlsSupport.record .new
    (record.unfinished.filterMap UnfinishedVersionRecord.rebuild).foldl TlsSupport.recordUnfinished accepted

end SecurityRecord

theorem TlsSupport.foldl_record (t : TlsSupport) :
    t.unfinished.foldl recordUnfinished (t.versions.foldl record .new) = t := by
  have hunfinished := (fields_foldl_record t.versions .new).2
  have haccepted := view_foldl_concat
    (R := fun a b : VersionSupport => a.version < b.version) TlsSupport.versions record
    (s := .new) (fun s support _ hbefore => (placeVersion_eq_put _ _ _).trans (Ranked.put_of_lt hbefore))
      t.versions_ascending
  have hleft := view_foldl_concat (R := fun a b : UnfinishedVersion => a.version < b.version) TlsSupport.unfinished
    recordUnfinished (s := t.versions.foldl record .new)
    (fun s held _ hbefore => (placeVersion_eq_put _ _ _).trans (Ranked.put_of_lt hbefore))
    (show (_ ++ t.unfinished).Pairwise _ by rw [hunfinished]; exact t.unfinished_ascending)
  have hsame : ∀ s : TlsSupport, s.versions = t.versions → s.unfinished = t.unfinished → s = t := by
    rintro ⟨_, _, _, _⟩ rfl rfl
    rfl
  refine hsame _ ((fields_foldl_recordUnfinished _ _).2.trans haccepted) (hleft.trans ?_)
  rw [hunfinished]
  rfl

theorem SecurityRecord.rebuild_of {security : Security} (h : security.WellFormed) :
    (of security).rebuild = security := by
  have halpn : security.alpn.foldl Security.addAlpn [] = security.alpn :=
    view_foldl_concat (R := (· ≠ ·)) id _ (fun alpn protocol _ hnew => if_neg fun hmem => hnew protocol hmem rfl)
      h.alpn_nodup
  have hcertificate : (security.certificate.map CertificateRecord.of).map CertificateRecord.rebuild =
      security.certificate := by
    cases hheld : security.certificate with
    | none => rfl
    | some certificate => exact congrArg some (CertificateRecord.rebuild_of (h.sans_le certificate hheld))
  have haccepts : (security.support.versions.map AcceptedVersionRecord.of).filterMap AcceptedVersionRecord.rebuild =
      security.support.versions := by
    rw [filterMap_map]
    refine (filterMap_congr fun held hheld => ?_).trans filterMap_some
    exact AcceptedVersionRecord.rebuild_of (h.suites_known held hheld)
  have hunfinished : (security.support.unfinished.map UnfinishedVersionRecord.of).filterMap
      UnfinishedVersionRecord.rebuild = security.support.unfinished := by
    rw [filterMap_map]
    exact (filterMap_congr fun held _ => UnfinishedVersionRecord.rebuild_of held).trans filterMap_some
  unfold rebuild of
  rw [halpn, hcertificate, haccepts, hunfinished, TlsSupport.foldl_record]

/-! ## The reply behind a verdict -/

structure DiscoveryRecord where
  reason : Text
  timestamp : SystemTime
  rtt : Option Duration
  ttl : Option UInt8
  sourceIp : Option IpAddr
  deriving DecidableEq

namespace DiscoveryRecord

def of (discovery : Discovery) : DiscoveryRecord :=
  ⟨Wire.scanResponseName discovery.reason, discovery.timestamp, discovery.rtt, discovery.ttl, discovery.sourceIp⟩

def rebuild (record : DiscoveryRecord) : Discovery :=
  ⟨(Wire.scanResponse record.reason).getD (.custom record.reason), record.timestamp, record.rtt, record.ttl,
    record.sourceIp⟩

theorem rebuild_of {discovery : Discovery} (h : discovery.reason ≠ .custom []) :
    (of discovery).rebuild = discovery := by
  unfold rebuild of
  rw [Wire.scanResponse_name h]
  rfl

/-- **A reply reads back as it was written exactly where its reason has a name.** -/
theorem of_rebuild_of_iff (discovery : Discovery) :
    of (of discovery).rebuild = of discovery ↔ discovery.reason ≠ .custom [] := by
  refine ⟨fun heq hreason => ?_, fun h => by rw [rebuild_of h]⟩
  have hname := congrArg DiscoveryRecord.reason heq
  unfold rebuild of at hname
  dsimp only at hname
  rw [hreason, Wire.scanResponse_empty] at hname
  exact absurd (congrArg List.length hname) (by decide +kernel)

end DiscoveryRecord

/-! ## Ports -/

/-- A port as it is written. -/
structure PortRecord where
  port : UInt16
  (protocol state : Text)
  service : Option ServiceRecord
  security : Option SecurityRecord
  discovery : Option DiscoveryRecord
  findings : List FindingRecord
  deriving DecidableEq

namespace PortRecord

def of (port : Port) : PortRecord where
  port := port.number
  protocol := Wire.protocol.name port.protocol
  state := Wire.portState.name port.state
  service := port.service.map .of
  security := port.security.map .of
  discovery := port.discovery.map .of
  findings := port.findings.values.map .of

/-- Reads a port back. -/
def rebuild (record : PortRecord) : Option Port :=
  (Wire.protocol.parse record.protocol).map fun protocol =>
    (record.findings.filterMap FindingRecord.rebuild).foldl Port.addFinding
      { Port.new record.port protocol ((Wire.portState.parse record.state).getD .unasked) with
        service := record.service.map ServiceRecord.rebuild
        security := record.security.map SecurityRecord.rebuild
        discovery := record.discovery.map DiscoveryRecord.rebuild }

end PortRecord

namespace Port

def again (port : Port) : Port :=
  { port with
    service := port.service.map Service.again
    discovery := port.discovery.map fun discovery => (DiscoveryRecord.of discovery).rebuild
    findings := Findings.again port.findings }

structure Settled (port : Port) : Prop where
  build_ok : ∀ service ∈ port.service, ∀ build ∈ service.build, build.Settled
  reason_ok : ∀ discovery ∈ port.discovery, discovery.reason ≠ .custom []
  findings_ok : ∀ finding ∈ port.findings.values, finding.Settled

end Port

theorem Findings.WellFormed.filterMap_rebuild {findings : SortedMap ClaimId Finding} (h : WellFormed findings) :
    (findings.values.map FindingRecord.of).filterMap FindingRecord.rebuild = findings.values.map Finding.again := by
  rw [filterMap_map, ← filterMap_eq_map]
  exact filterMap_congr fun finding hmem => FindingRecord.rebuild_of (h.mem finding hmem)

theorem PortRecord.rebuild_of {port : Port} (h : port.WellFormed) : (of port).rebuild = some port.again := by
  have hservice : (port.service.map ServiceRecord.of).map ServiceRecord.rebuild = port.service.map Service.again := by
    rw [Option.map_map]
    exact Option.map_congr fun service hmem => ServiceRecord.rebuild_of (h.service_ok service hmem)
  have hsecurity : (port.security.map SecurityRecord.of).map SecurityRecord.rebuild = port.security := by
    cases hheld : port.security with
    | none => rfl
    | some security => exact congrArg some (SecurityRecord.rebuild_of (h.security_ok security hheld))
  unfold rebuild of
  rw [Wire.protocol.parse_name, Wire.portState.parse_name, hservice, hsecurity, h.findings_ok.filterMap_rebuild,
    Option.map_some, Port.foldl_addFinding, Option.map_map]
  rfl

/-- **A port reads back as it was written exactly where it is settled.** -/
theorem PortRecord.of_again_iff {port : Port} (h : port.WellFormed) : of port.again = of port ↔ port.Settled := by
  have hservice : (port.service.map Service.again).map ServiceRecord.of = port.service.map ServiceRecord.of ↔
      ∀ service ∈ port.service, ∀ build ∈ service.build, build.Settled := by
    cases port.service with
    | none => simp
    | some service =>
      simp only [Option.map_some, Option.some.injEq, mem_some_iff, forall_eq']
      rw [← BuildRecord.map_of_again_iff]
      refine ⟨congrArg ServiceRecord.build, fun hbuild => ?_⟩
      show ({ ServiceRecord.of service with build := (service.build.map Build.again).map .of } : ServiceRecord) = _
      rw [hbuild]
      rfl
  have hdiscovery : (port.discovery.map fun discovery => (DiscoveryRecord.of discovery).rebuild).map
    DiscoveryRecord.of =
      port.discovery.map DiscoveryRecord.of ↔ ∀ discovery ∈ port.discovery, discovery.reason ≠ .custom [] := by
    cases port.discovery with
    | none => simp
    | some discovery => simp [DiscoveryRecord.of_rebuild_of_iff]
  have hfindings := Findings.of_again_iff h.findings_ok.toFiled
  constructor
  · intro heq
    exact ⟨hservice.mp (congrArg PortRecord.service heq), hdiscovery.mp (congrArg PortRecord.discovery heq),
      hfindings.mp (congrArg PortRecord.findings heq)⟩
  · intro hsettled
    unfold of Port.again
    rw [hservice.mpr hsettled.build_ok, hdiscovery.mpr hsettled.reason_ok, hfindings.mpr hsettled.findings_ok]

end Zond

import ZondEngine.Lib.Delimited
import ZondEngine.Lib.Utf8
import ZondEngine.Model.Exclusion
import ZondEngine.Model.Report
import ZondEngine.Record.Plan
import ZondEngine.Record.Wire

/-!
# The plan a journal belongs to

The plans of `journal/manifest.rs` and their fingerprints. A `Job` is what a plan asks, as far as positions depend on
it. `fedBy_eq_iff`: two plans feed the digest the same bytes exactly when they are the same job.
-/

namespace Zond.Journal

open Zond.Exclusion Zond.Ip Zond.Plan Zond.Utf8 List

/-! ## Plans -/

inductive TcpScanTechnique where
  | syn | fin | null | xmas | maimon | ack | window
  deriving DecidableEq

def TcpScanTechnique.name : TcpScanTechnique → Text
  | syn => "syn"
  | fin => "fin"
  | null => "null"
  | xmas => "xmas"
  | maimon => "maimon"
  | ack => "ack"
  | window => "window"

inductive Privilege where
  | raw | connect
  deriving DecidableEq

def Privilege.isRaw : Privilege → Bool
  | raw => true
  | connect => false

inductive Resolved where
  | discovery (addresses : IpSet) (v4_clean : addresses.v4Dirty = false) (v6_clean : addresses.v6Dirty = false)
      (sweep : Bool)
  | portScan (targets : TargetMap) (technique : TcpScanTechnique)
  | listen (links : List Scoped.Zone)

namespace Resolved

def ofDiscovery (addresses : IpSet) (exclusions : Exclusions) (sweep : Bool) : Resolved :=
  .discovery (exclusions.withhold addresses).1.canonicalize rfl rfl sweep

def ofPortScan (targets : TargetMap) (exclusions : Exclusions) (technique : TcpScanTechnique) : Resolved :=
  .portScan (exclusions.withholdTargets targets).1 technique

def kind : Resolved → ScanKind
  | discovery .. => .discovery
  | portScan .. => .portScan
  | listen _ => .listen

def totalTargets : Resolved → Nat
  | discovery addresses _ _ _ => addresses.len
  | portScan targets _ => targets.grossTargets.toOption.getD 0
  | listen _ => 0

def SetFits (ips : IpSet) : Prop := ips.v4.length < 2 ^ 64 ∧ ips.v6.length < 2 ^ 64

def Fits : Resolved → Prop
  | discovery addresses _ _ _ => SetFits addresses
  | portScan targets _ =>
    targets.units.length < 2 ^ 64 ∧ ∀ unit ∈ targets.units, SetFits unit.ips ∧ unit.ports.toVec.length < 2 ^ 64
  | listen links => links.length < 2 ^ 64 ∧ ∀ link ∈ links, (encode link.name).length < 2 ^ 64

end Resolved

/-- What a sitting is to do, within what a count holds. -/
structure Plan where
  resolved : Resolved
  fits : resolved.Fits

/-! A street's addresses but for one, and two ports on two of them. -/

def streetPlan : Plan where
  resolved := .ofDiscovery (.fromRanges [.v4 ⟨0x0a000000, 0x0a0000ff, by decide⟩])
    (.new (.fromRanges [.v4 ⟨0x0a00000a, 0x0a00000a, by decide⟩])) true
  fits := by constructor <;> decide +kernel

def webPlan : Plan where
  resolved := .ofPortScan twoHosts .none .syn
  fits := by
    refine ⟨by decide, fun unit hunit => ?_⟩
    rw [List.mem_singleton.mp hunit]
    exact ⟨by constructor <;> decide, by decide +kernel⟩

/-! ## The digest -/

end Zond.Journal

namespace Zond.Wire

def scanKind : Spelling ScanKind where
  name
    | .discovery => "discovery"
    | .portScan => "port_scan"
    | .listen => "listen"
  parse := readName [("discovery", .discovery), ("port_scan", .portScan), ("listen", .listen)]
  parse_name kind := by cases kind <;> rfl

end Zond.Wire

namespace Zond.Journal

open Zond.Ip Zond.Plan Zond.Port Zond.Utf8

/-! What each call feeds the digest with. -/

namespace Digest

def number (value : Nat) : Bytes := littleEndian 8 value

def wide (value : Nat) : Bytes := littleEndian 16 value

def count (value : Nat) : Bytes := number value

def flag (value : Bool) : Bytes := [if value then 1 else 0]

def text (text : Text) : Bytes := number (encode text).length ++ encode text

def octets (width : Nat) (address : Nat) : Bytes := (littleEndian width address).reverse

def ipv4Range (range : Ipv4Range) : Bytes := 4 :: (octets 4 range.startAddr ++ octets 4 range.endAddr)

def zone (zone : Ip.Zone) : Bytes := zone.elim [0] fun index => 1 :: number index.toNat

def ipv6Range (range : Ipv6Range) : Bytes :=
  6 :: (octets 16 range.startAddr ++ (octets 16 range.endAddr ++ zone range.zone))

def addresses (ips : IpSet) : Bytes :=
  (count ips.v4.length ++ ips.v4.flatMap ipv4Range) ++ (count ips.v6.length ++ ips.v6.flatMap ipv6Range)

def port (port : UInt16 × Protocol) : Bytes := number port.1.toNat ++ text (Wire.protocol.name port.2)

def unit (unit : TargetSet) : Bytes :=
  addresses unit.ips ++ (count unit.ports.toVec.length ++ unit.ports.toVec.flatMap port)

end Digest

def Resolved.body (privilege : Privilege) : Resolved → Bytes
  | discovery addresses _ _ sweep => Digest.flag privilege.isRaw ++ (Digest.flag sweep ++ Digest.addresses addresses)
  | listen links => Digest.count links.length ++ links.flatMap fun link => Digest.text link.name
  | portScan targets technique =>
    Digest.flag privilege.isRaw ++
      (Digest.text technique.name ++ (Digest.count targets.units.length ++ targets.units.flatMap Digest.unit))

def fedBy (plan : Plan) (privilege : Privilege) : Bytes :=
  Digest.text (Wire.scanKind.name plan.resolved.kind) ++
    (plan.resolved.body privilege ++ Digest.wide plan.resolved.totalTargets)

/-- The digest of some bytes. -/
def fnv (state : UInt64) (bytes : Bytes) : UInt64 :=
  bytes.foldl (fun state byte => (state ^^^ byte.toUInt64) * 0x100000001b3) state

/-- The digest a journal names its plan by. -/
def PlanFingerprint.of (plan : Plan) (privilege : Privilege) : UInt64 := fnv 0xcbf29ce484222325 (fedBy plan privilege)

/-! ## What the bytes tell apart -/

structure JobUnit where
  v4 : List Ipv4Range
  v6 : List Ipv6Range
  ports : List (UInt16 × Protocol)

inductive Job where
  | sweep (raw sweep : Bool) (v4 : List Ipv4Range) (v6 : List Ipv6Range)
  | portScan (raw : Bool) (technique : Text) (units : List JobUnit)
  | watch (links : List Text)

def JobUnit.of (unit : TargetSet) : JobUnit := ⟨unit.ips.v4, unit.ips.v6, unit.ports.toVec⟩

def Plan.job (plan : Plan) (privilege : Privilege) : Job :=
  match plan.resolved with
  | .discovery addresses _ _ sweep => .sweep privilege.isRaw sweep addresses.v4 addresses.v6
  | .portScan targets technique => .portScan privilege.isRaw technique.name (targets.units.map JobUnit.of)
  | .listen links => .watch (links.map Scoped.Zone.name)

namespace Digest

theorem delimited_number : Delimited (· < 2 ^ 64) number := delimited_littleEndian 8

theorem delimited_count : Delimited (· < 2 ^ 64) count := delimited_number

theorem delimited_flag : Delimited (fun _ => True) flag := by
  refine .of_length (fun _ => rfl) fun a b _ _ h => ?_
  cases a <;> cases b <;> simp_all [flag]

theorem encode_injective : Function.Injective encode := by
  intro a b h
  have hread := decode_encode a
  rw [h, decode_encode] at hread
  exact (Option.some.inj hread).symm

theorem delimited_text : Delimited (fun t => (encode t).length < 2 ^ 64) text := by
  have hbyte : Delimited (fun _ : UInt8 => True) fun byte => [byte] :=
    .of_length (fun _ => rfl) fun a b _ _ h => (List.cons.inj h).1
  intro a b ha hb rest rest' h
  have hread := (delimited_number.counted hbyte).comp encode_injective a b ⟨ha, by simp⟩ ⟨hb, by simp⟩ rest rest'
  simp only [List.flatMap_singleton'] at hread
  exact hread h

theorem delimited_octets (width : Nat) : Delimited (· < 256 ^ width) (octets width) :=
  .of_length (fun a => by rw [octets, List.length_reverse, length_littleEndian])
    fun _ _ ha hb h => littleEndian_inj ha hb (List.reverse_injective h)

theorem delimited_ipv4Range : Delimited (fun _ => True) ipv4Range := by
  have hends := (delimited_octets 4).seq (delimited_octets 4) (p := fun r : Ipv4Range => r.startAddr.val)
    (q := fun r => r.endAddr.val) ?_
  · exact (hends.cons 4).weaken fun r _ => ⟨r.startAddr.isLt, r.endAddr.isLt⟩
  · rintro ⟨start, stop, _⟩ ⟨start', stop', _⟩ hstart hstop
    obtain rfl := Fin.ext hstart
    obtain rfl := Fin.ext hstop
    rfl

theorem delimited_zone : Delimited (fun _ => True) zone := by
  have hindex := delimited_number.comp (p := UInt32.toNat) fun _ _ h => UInt32.toNat_inj.mp h
  refine (hindex.option (show (1 : UInt8) ≠ 0 by decide)).weaken fun _ _ index _ => ?_
  exact index.toNat_lt.trans (by decide)

theorem delimited_ipv6Range : Delimited (fun _ => True) ipv6Range := by
  have hrest := (delimited_octets 16).seq delimited_zone (p := Prod.fst) (q := Prod.snd) fun _ _ => Prod.ext
  have hwhole := (delimited_octets 16).seq hrest (p := fun r : Ipv6Range => r.startAddr.val)
    (q := fun r => (r.endAddr.val, r.zone)) ?_
  · exact (hwhole.cons 6).weaken fun r _ => ⟨r.startAddr.isLt, r.endAddr.isLt, trivial⟩
  · rintro ⟨start, stop, zone, _, _⟩ ⟨start', stop', zone', _, _⟩ hstart hstop
    obtain rfl := Fin.ext hstart
    obtain ⟨hstop, rfl⟩ := Prod.mk.inj hstop
    obtain rfl := Fin.ext hstop
    rfl

theorem delimited_port : Delimited (fun _ => True) port := by
  have hboth := delimited_number.seq delimited_text (p := fun x : UInt16 × Protocol => x.1.toNat)
    (q := fun x => Wire.protocol.name x.2) ?_
  · refine hboth.weaken fun x _ => ⟨x.1.toNat_lt.trans (by decide), ?_⟩
    cases x.2 <;> decide
  · rintro ⟨port, protocol⟩ ⟨port', protocol'⟩ hport hprotocol
    exact Prod.ext (UInt16.toNat_inj.mp hport) (Wire.protocol.name_injective hprotocol)

def ranges (v4 : List Ipv4Range) (v6 : List Ipv6Range) : Bytes :=
  (count v4.length ++ v4.flatMap ipv4Range) ++ (count v6.length ++ v6.flatMap ipv6Range)

theorem delimited_ranges :
    Delimited (fun x : List Ipv4Range × List Ipv6Range => x.1.length < 2 ^ 64 ∧ x.2.length < 2 ^ 64)
      fun x => ranges x.1 x.2 := by
  have hboth := (delimited_count.counted delimited_ipv4Range).seq (delimited_count.counted delimited_ipv6Range)
    (p := Prod.fst) (q := Prod.snd) fun _ _ => Prod.ext
  exact hboth.weaken fun x h => ⟨⟨h.1, by simp⟩, ⟨h.2, by simp⟩⟩

def jobUnit (unit : JobUnit) : Bytes :=
  ranges unit.v4 unit.v6 ++ (count unit.ports.length ++ unit.ports.flatMap port)

theorem delimited_jobUnit :
    Delimited (fun unit => (unit.v4.length < 2 ^ 64 ∧ unit.v6.length < 2 ^ 64) ∧ unit.ports.length < 2 ^ 64)
      jobUnit := by
  have hboth := delimited_ranges.seq (delimited_count.counted delimited_port)
    (p := fun unit : JobUnit => (unit.v4, unit.v6)) (q := JobUnit.ports) ?_
  · exact hboth.weaken fun unit h => ⟨h.1, h.2, by simp⟩
  · rintro ⟨v4, v6, ports⟩ ⟨v4', v6', ports'⟩ hranges hports
    obtain ⟨rfl, rfl⟩ := Prod.mk.inj hranges
    obtain rfl := hports
    rfl

end Digest

/-! ## One job, one digest -/

theorem ipSet_ext {s t : IpSet} (hs4 : s.v4Dirty = false) (hs6 : s.v6Dirty = false) (ht4 : t.v4Dirty = false)
    (ht6 : t.v6Dirty = false) (h4 : s.v4 = t.v4) (h6 : s.v6 = t.v6) : s = t := by
  obtain ⟨v4, v6, v4Dirty, v6Dirty, _, _⟩ := s
  obtain ⟨v4', v6', v4Dirty', v6Dirty', _, _⟩ := t
  subst hs4 hs6 ht4 ht6 h4 h6
  rfl

theorem JobUnit.of_injective : Function.Injective JobUnit.of := by
  intro unit unit' h
  obtain ⟨h4, h6, hports⟩ := JobUnit.mk.inj h
  obtain ⟨ips, ports, hv4, hv6⟩ := unit
  obtain ⟨ips', ports', hv4', hv6'⟩ := unit'
  obtain rfl : ips = ips' := ipSet_ext hv4 hv6 hv4' hv6' h4 h6
  have hset : ports = ports' := by
    rw [PortSet.eq_iff_contains]
    intro port protocol
    rw [Bool.eq_iff_iff, ← PortSet.mem_toVec_iff, ← PortSet.mem_toVec_iff, hports]
  rw [TargetSet.mk.injEq]
  exact ⟨rfl, hset⟩

theorem Digest.flatMap_unit (units : List TargetSet) :
    units.flatMap Digest.unit = (units.map JobUnit.of).flatMap Digest.jobUnit := by
  rw [List.flatMap_map]
  rfl

theorem Digest.flatMap_link (links : List Scoped.Zone) :
    (links.flatMap fun link => Digest.text link.name) = (links.map Scoped.Zone.name).flatMap Digest.text := by
  rw [List.flatMap_map]

theorem Resolved.Fits.units {targets : TargetMap} {technique : TcpScanTechnique}
    (h : (Resolved.portScan targets technique).Fits) : (targets.units.map JobUnit.of).length < 2 ^ 64 ∧
      ∀ unit ∈ targets.units.map JobUnit.of,
        (unit.v4.length < 2 ^ 64 ∧ unit.v6.length < 2 ^ 64) ∧ unit.ports.length < 2 ^ 64 := by
  refine ⟨by rw [List.length_map]; exact h.1, fun unit hunit => ?_⟩
  obtain ⟨source, hsource, rfl⟩ := List.mem_map.mp hunit
  exact h.2 source hsource

theorem Resolved.Fits.links {links : List Scoped.Zone} (h : (Resolved.listen links).Fits) :
    (links.map Scoped.Zone.name).length < 2 ^ 64 ∧
      ∀ name ∈ links.map Scoped.Zone.name, (encode name).length < 2 ^ 64 := by
  refine ⟨by rw [List.length_map]; exact h.1, fun name hname => ?_⟩
  obtain ⟨link, hlink, rfl⟩ := List.mem_map.mp hname
  exact h.2 link hlink

theorem job_eq_of_fedBy {p q : Plan} {privilege privilege' : Privilege} (h : fedBy p privilege = fedBy q privilege') :
    p.job privilege = q.job privilege' := by
  have hname : ∀ kind, (encode (Wire.scanKind.name kind)).length < 2 ^ 64 := by intro kind; cases kind <;> decide
  obtain ⟨hkind, h⟩ := Digest.delimited_text _ _ (hname _) (hname _) _ _ h
  replace hkind := Wire.scanKind.name_injective hkind
  obtain ⟨p, hp⟩ := p
  obtain ⟨q, hq⟩ := q
  cases p with
  | discovery addresses hv4 hv6 sweep =>
    cases q with
    | discovery addresses' hv4' hv6' sweep' =>
      simp only [Resolved.body, List.append_assoc] at h
      obtain ⟨hraw, h⟩ := Digest.delimited_flag _ _ trivial trivial _ _ h
      obtain ⟨rfl, h⟩ := Digest.delimited_flag _ _ trivial trivial _ _ h
      obtain ⟨hranges, -⟩ :=
        Digest.delimited_ranges (addresses.v4, addresses.v6) (addresses'.v4, addresses'.v6) hp hq _ _ h
      obtain ⟨h4, h6⟩ := Prod.mk.inj hranges
      simp only [Plan.job, hraw, h4, h6]
    | portScan => cases hkind
    | listen => cases hkind
  | portScan targets technique =>
    cases q with
    | discovery => cases hkind
    | portScan targets' technique' =>
      have htechnique : ∀ technique : TcpScanTechnique, (encode technique.name).length < 2 ^ 64 := by
        intro technique
        cases technique <;> decide
      simp only [Resolved.body, List.append_assoc, Digest.flatMap_unit] at h
      obtain ⟨hraw, h⟩ := Digest.delimited_flag _ _ trivial trivial _ _ h
      obtain ⟨hname, h⟩ := Digest.delimited_text _ _ (htechnique _) (htechnique _) _ _ h
      obtain ⟨hunits, -⟩ := (Digest.delimited_count.counted Digest.delimited_jobUnit)
        (targets.units.map JobUnit.of) (targets'.units.map JobUnit.of) hp.units hq.units _ _
        (by simpa using h)
      simp only [Plan.job, hraw, hname, hunits]
    | listen => cases hkind
  | listen links =>
    cases q with
    | discovery => cases hkind
    | portScan => cases hkind
    | listen links' =>
      simp only [Resolved.body, List.append_assoc, Digest.flatMap_link] at h
      obtain ⟨hlinks, -⟩ := (Digest.delimited_count.counted Digest.delimited_text)
        (links.map Scoped.Zone.name) (links'.map Scoped.Zone.name) hp.links hq.links _ _
        (by simpa using h)
      simp only [Plan.job, hlinks]

theorem fedBy_eq_of_job {p q : Plan} {privilege privilege' : Privilege} (h : p.job privilege = q.job privilege') :
    fedBy p privilege = fedBy q privilege' := by
  obtain ⟨p, hp⟩ := p
  obtain ⟨q, hq⟩ := q
  cases p with
  | discovery addresses hv4 hv6 sweep =>
    cases q with
    | discovery addresses' hv4' hv6' sweep' =>
      obtain ⟨hraw, rfl, h4, h6⟩ := Job.sweep.inj h
      obtain rfl : addresses = addresses' := ipSet_ext hv4 hv6 hv4' hv6' h4 h6
      simp only [fedBy, Resolved.body, Resolved.kind, hraw]
    | portScan => cases h
    | listen => cases h
  | portScan targets technique =>
    cases q with
    | discovery => cases h
    | portScan targets' technique' =>
      obtain ⟨hraw, hname, hunits⟩ := Job.portScan.inj h
      obtain ⟨units⟩ := targets
      obtain ⟨units'⟩ := targets'
      obtain rfl : units = units' := List.map_injective_iff.mpr JobUnit.of_injective hunits
      simp only [fedBy, Resolved.body, Resolved.kind, Resolved.totalTargets, hraw, hname]
    | listen => cases h
  | listen links =>
    cases q with
    | discovery => cases h
    | portScan => cases h
    | listen links' =>
      have hlinks : links.map Scoped.Zone.name = links'.map Scoped.Zone.name := Job.watch.inj h
      have hlength : links.length = links'.length := by simpa using congrArg List.length hlinks
      simp only [fedBy, Resolved.body, Resolved.kind, Resolved.totalTargets, hlength, Digest.flatMap_link, hlinks]

/-- **Two plans feed the digest the same bytes exactly when they are the same job.** -/
theorem fedBy_eq_iff (p q : Plan) (privilege privilege' : Privilege) :
    fedBy p privilege = fedBy q privilege' ↔ p.job privilege = q.job privilege' :=
  ⟨job_eq_of_fedBy, fedBy_eq_of_job⟩

example : (streetPlan.resolved.totalTargets, webPlan.resolved.totalTargets) = (255, 4) := by decide +kernel

end Zond.Journal

import ZondEngine.Journal.Findings
import ZondEngine.Lib.Regrouping
import ZondEngine.Model.Host.Facts

/-!
# What a record with some of a host's ports reads as

A record may list only some of the ports of its host (`listing`). It reads as a host with the same addresses, and says
of the ports it lists what their own records say (`facts_rebuild_listing`).
-/

namespace Zond.Journal

open List

open Ip (IpAddr)
open Scoped (Zone)

def factScheme (p : Process) : Scheme Host ScopedIp.Key IpAddr Zone.Identity HostFact where
  Ok host := host.Bounded ∧ PortsInOrder host.ports
  facts := Host.facts
  point := .address
  label host := host.zone.map Zone.identity
  key := addressKey
  keysOf host := (scopedIps host).map ScopedIp.key
  merge := Host.merge p
  later := Host.mergeLaterAccount p
  Fits := HostFact.Fits
  fits_mono := HostFact.Fits.mono
  exists_point host := ⟨_, Host.address_mem_facts.mpr host.primaryIp_mem_addresses⟩
  mem_keysOf := by simp only [mem_scopedIps, Host.address_mem_facts, implies_true]
  key_injective := addressKey_injective
  key_free_or := addressKey_free_or
  label_merge := link_merge p
  label_later := link_merge p
  ok_merge hx hy := ⟨hx.1.merge p _, Host.portsInOrder_merge p hx.2 hy.2⟩
  ok_later hx hy :=
    ⟨⟨(hx.1.merge p _).toCounted, (hx.1.merge p _).ips_le⟩, Host.portsInOrder_merge p hx.2 hy.2⟩
  facts_merge hx hy := Host.facts_merge p hx.2 hy.2
  facts_later hx hy := Host.facts_merge p hx.2 hy.2

theorem key_mem_scopedIps (host : Host) : host.scopedIp.key ∈ (scopedIps host).map ScopedIp.key :=
  mem_map_of_mem (mem_map_of_mem (SortedMap.contains_iff.mp host.primary_mem))

/-! ## Records of some ports -/

def listing (t : Oui) (host : Host) (kept : List Port) : HostRecord :=
  { HostRecord.of t host with ports := kept.map .of }

def portFacts (record : PortRecord) : Set HostFact := {fact | ∃ read ∈ record.rebuild, fact ∈ read.facts}

theorem rebuild_of_port (port : Port) : ∃ read, (PortRecord.of port).rebuild = some read ∧
    read.endpoint = port.endpoint ∧ Filed read.findings := by
  unfold PortRecord.rebuild
  rw [show (PortRecord.of port).protocol = Wire.protocol.name port.protocol from rfl, Wire.protocol.parse_name,
    Option.map_some]
  refine ⟨_, rfl, ?_, Port.filed_foldl_addFinding Filed.empty _⟩
  rw [Port.foldl_addFinding]
  rfl

section Listing

variable (t : Oui) (p : Process) {host : Host} {kept : List Port}

theorem nodup_endpoints (hb : host.Bounded) : (host.ports.values.map Port.endpoint).Nodup := by
  have hkeys : host.ports.values.map Port.endpoint = host.ports.keys := by
    unfold SortedMap.values SortedMap.keys
    rw [map_map]
    refine map_congr_left fun entry hentry => ?_
    exact hb.filed entry.1 entry.2 (SortedMap.get?_eq_some_iff.mpr hentry)
  rw [hkeys]
  exact host.ports.nodup_keys

theorem endpoints_rebuild (kept : List Port) :
    ((kept.map PortRecord.of).filterMap PortRecord.rebuild).map Port.endpoint = kept.map Port.endpoint := by
  induction kept with
  | nil => rfl
  | cons port kept ih =>
    obtain ⟨read, hread, hendpoint, _⟩ := rebuild_of_port port
    rw [map_cons, filterMap_cons_some hread, map_cons, map_cons, hendpoint, ih]

theorem zone_rebuild_listing (host : Host) (kept : List Port) :
    ((listing t host kept).rebuild t p).zone = host.zone := by
  unfold HostRecord.rebuild
  rw [HostRecord.rebuildWith_eq]
  show (host.zone.map ZoneRecord.of).map ZoneRecord.rebuild = host.zone
  cases host.zone with
  | none => rfl
  | some zone => exact congrArg some (ZoneRecord.rebuild_of zone)

theorem ips_rebuild_listing (hb : host.Bounded) (kept : List Port) :
    ((listing t host kept).rebuild t p).ips = host.ips := by
  unfold HostRecord.rebuild
  rw [HostRecord.rebuildWith_eq]
  exact HostRecord.ips_foldl_admitIp p hb

theorem primaryIp_rebuild_listing (host : Host) (kept : List Port) :
    ((listing t host kept).rebuild t p).primaryIp = host.primaryIp := by
  unfold HostRecord.rebuild
  rw [HostRecord.rebuildWith_eq]
  exact Host.primaryIp_foldl_admitIp _

theorem ok_rebuild (record : HostRecord) : (factScheme p).Ok (record.rebuild t p) := by
  unfold HostRecord.rebuild
  rw [HostRecord.rebuildWith_eq]
  refine ⟨⟨?_, ?_⟩, ?_⟩
  · refine Host.Counted.foldl_filePort ⟨Nat.zero_le _, fun endpoint port hget => ?_, rfl⟩ _
    cases hget
  · exact ((Host.bounded_new p record.primaryIp).foldl_admitIp record.ips).ips_le
  · refine PortsInOrder.foldl_filePort (fun endpoint port hget => ?_) fun port hport => ?_
    · cases hget
    · obtain ⟨written, _, hread⟩ := mem_filterMap.mp hport
      obtain ⟨protocol, _, rfl⟩ := Option.map_eq_some_iff.mp hread
      exact Port.filed_foldl_addFinding Filed.empty _

/-- **What a record with some of a host's ports says when it is read**: the addresses of the host, and of the ports what
their own records say. -/
theorem facts_rebuild_listing (hb : host.Bounded) (hkept : kept.Sublist host.ports.values) :
    ((listing t host kept).rebuild t p).facts =
      {fact | (∃ ip ∈ host.addresses, fact = .address ip) ∨ ∃ port ∈ kept, fact ∈ portFacts (.of port)} := by
  have hnodup : (((kept.map PortRecord.of).filterMap PortRecord.rebuild).map Port.endpoint).Nodup := by
    rw [endpoints_rebuild]
    exact (nodup_endpoints hb).sublist (hkept.map _)
  have hports : portsFacts ((listing t host kept).rebuild t p).ports =
      {fact | ∃ port ∈ (kept.map PortRecord.of).filterMap PortRecord.rebuild, fact ∈ port.facts} := by
    unfold HostRecord.rebuild
    rw [HostRecord.rebuildWith_eq]
    exact portsFacts_of_nodup hnodup _ _
  ext fact
  show ((∃ ip ∈ ((listing t host kept).rebuild t p).addresses, fact = .address ip) ∨
    fact ∈ portsFacts ((listing t host kept).rebuild t p).ports) ↔ _
  rw [hports]
  unfold Host.addresses
  rw [ips_rebuild_listing t p hb]
  refine or_congr_right ?_
  simp only [filterMap_map, mem_filterMap, Function.comp_apply]
  constructor
  · rintro ⟨read, ⟨port, hport, hread⟩, hfact⟩
    exact ⟨port, hport, read, hread, hfact⟩
  · rintro ⟨port, hport, read, hread, hfact⟩
    exact ⟨read, ⟨port, hport, hread⟩, hfact⟩

end Listing

end Zond.Journal

import ZondEngine.Lib.Grouping
import ZondEngine.Record.Stable

/-!
# Reading findings back

`read_findings` of `journal/store.rs` folds each record of a findings file into the host it shares an address with.

* `read_findings_groups_iff`: of which records every file comes back as one host for each class of records that share
  addresses, with all addresses of the class.
-/

namespace Zond.Journal

open List

open Ip (IpAddr)
open Scoped (Zone)

def scopedIps (host : Host) : List ScopedIp :=
  host.ips.keys.map fun ip =>
    match host.zone with
    | some zone => .scopedTo ip zone
    | none => .unscoped ip

/-- The hosts a file's records make. -/
def readFindings (t : Oui) (p : Process) (records : List HostRecord) : List Host :=
  (Slots.readAll (fun host => (scopedIps host).map ScopedIp.key) (Host.merge p) (Host.mergeLaterAccount p)
    (records.map (HostRecord.rebuild t p))).values

/-! ## What a host is found by -/

def addressKey (ip : IpAddr) (link : Option Zone.Identity) : ScopedIp.Key :=
  toLex (ip, if ip.needsZone then link.elim ⊥ fun link => link else ⊥)

theorem mem_scopedIps {host : Host} {key : ScopedIp.Key} : key ∈ (scopedIps host).map ScopedIp.key ↔
    ∃ ip ∈ host.addresses, addressKey ip (host.zone.map Zone.identity) = key := by
  have hkey : ∀ ip : IpAddr, ScopedIp.key (match host.zone with
      | some zone => .scopedTo ip zone
      | none => .unscoped ip) = addressKey ip (host.zone.map Zone.identity) := by
    intro ip
    unfold addressKey
    cases host.zone with
    | none => cases ip.needsZone <;> rfl
    | some zone =>
      unfold ScopedIp.scopedTo ScopedIp.key
      cases ip.needsZone <;> rfl
  unfold scopedIps
  rw [map_map, mem_map]
  refine exists_congr fun ip => and_congr ?_ (by rw [Function.comp_apply, hkey])
  rw [Host.mem_addresses, SortedMap.contains_iff]

theorem addressKey_injective {ip ip' : IpAddr} {link link' : Option Zone.Identity}
    (h : addressKey ip link = addressKey ip' link') : ip = ip' := (Prod.mk.inj (toLex.injective h)).1

theorem addressKey_free_or (ip : IpAddr) : (∀ link link', addressKey ip link = addressKey ip link') ∨
    ∀ link link', addressKey ip link = addressKey ip link' → link = link' := by
  unfold addressKey
  cases ip.needsZone with
  | false => exact .inl fun _ _ => rfl
  | true =>
    refine .inr fun link link' h => ?_
    have hlink := (Prod.mk.inj (toLex.injective h)).2
    cases link <;> cases link'
    · rfl
    · cases hlink
    · cases hlink
    · exact congrArg some (WithBot.coe_injective hlink)

theorem link_merge (p : Process) (h other : Host) : (h.merge p other).zone.map Zone.identity =
    (h.zone.map Zone.identity).or (other.zone.map Zone.identity) := by
  rw [Host.zone_merge, Option.map_or]

def FitOneHost (ips : Set IpAddr) : Prop := ∀ held : Finset IpAddr, ↑held ⊆ ips → held.card ≤ MAX_IPS

theorem FitOneHost.mono {ips ips' : Set IpAddr} (hsub : ips ⊆ ips') (h : FitOneHost ips') : FitOneHost ips :=
  fun held hheld => h held (hheld.trans hsub)

theorem coe_addresses_merge (p : Process) {h other : Host} (hfits : FitOneHost (↑h.addresses ∪ ↑other.addresses)) :
    (↑(h.merge p other).addresses : Set IpAddr) = ↑h.addresses ∪ ↑other.addresses := by
  rw [Host.addresses_merge p (hfits _ (by rw [Finset.coe_union])), Finset.coe_union]

def addressScheme (p : Process) : Scheme Host ScopedIp.Key IpAddr Zone.Identity IpAddr where
  Ok _ := True
  facts host := ↑host.addresses
  point := id
  label host := host.zone.map Zone.identity
  key := addressKey
  keysOf host := (scopedIps host).map ScopedIp.key
  merge := Host.merge p
  later := Host.mergeLaterAccount p
  Fits := FitOneHost
  fits_mono := FitOneHost.mono
  exists_point host := ⟨_, host.primaryIp_mem_addresses⟩
  mem_keysOf := mem_scopedIps
  key_injective := addressKey_injective
  key_free_or := addressKey_free_or
  label_merge := link_merge p
  label_later := link_merge p
  ok_merge _ _ := trivial
  ok_later _ _ := trivial
  facts_merge _ _ := coe_addresses_merge p
  facts_later _ _ := coe_addresses_merge p

/-! ## Groups and classes -/

/-- **Every file of some records comes back as one host for each class of records that share
addresses, exactly where the records are consistent**: what a chain of records answers for an
address does not depend on which of their links is asked. -/
theorem read_findings_groups_iff (t : Oui) (p : Process) (R : Set HostRecord) :
    (∀ records : List HostRecord, (∀ record ∈ records, record ∈ R) →
      (addressScheme p).Roomy (records.map (HostRecord.rebuild t p)) →
      (addressScheme p).Partitions (records.map (HostRecord.rebuild t p)) (readFindings t p records)) ↔
    (addressScheme p).Consistent (HostRecord.rebuild t p '' R) := by
  rw [← Scheme.consistent_iff fun _ _ => trivial]
  constructor
  · intro h hs hsub hroom
    choose record hmem hrebuild using hsub
    have hfile : (hs.attach.map fun x => record x.1 x.2).map (HostRecord.rebuild t p) = hs := by
      rw [map_map, map_congr_left fun x _ => hrebuild x.1 x.2]
      exact attach_map_subtype_val hs
    have hread := h (hs.attach.map fun x => record x.1 x.2) fun r hr => by
      obtain ⟨x, _, rfl⟩ := mem_map.mp hr
      exact hmem x.1 x.2
    unfold readFindings at hread
    rw [hfile] at hread
    exact hread hroom
  · intro h records hsub hroom
    refine h _ (fun x hx => ?_) hroom
    obtain ⟨record, hrecord, rfl⟩ := mem_map.mp hx
    exact ⟨record, hsub record hrecord, rfl⟩

/-- One file in the order it has: where its own records are consistent, it comes back as their classes. -/
theorem readFindings_partitions (t : Oui) (p : Process) (records : List HostRecord)
    (hroom : (addressScheme p).Roomy (records.map (HostRecord.rebuild t p)))
    (h : (addressScheme p).Consistent {host | host ∈ records.map (HostRecord.rebuild t p)}) :
    (addressScheme p).Partitions (records.map (HostRecord.rebuild t p)) (readFindings t p records) :=
  (Scheme.consistent_iff fun _ _ => trivial).mpr h _ (fun _ => id) hroom

/-! A machine at one global address on two links: its second record also lists a link-local address, which the third
record knows it by. -/

def linkNamed (name : Text) : Zone := ⟨none, name, Ip.unzoned_ne_zero⟩

def hostAt (primary : IpAddr) (others : List IpAddr) (link : Zone) : Host :=
  ((Host.new ⟨0, 0, []⟩ primary).extendIps ⟨0, 0, []⟩ others).setZone ⟨0, 0, []⟩ link

def recordAt (primary : IpAddr) (others : List IpAddr) (link : Zone) : HostRecord :=
  .of noMacs (hostAt primary others link)

def linkLocal : IpAddr := .v6 ⟨0xfe80 * 2 ^ 112 + 2, by decide⟩

def twoLinks : List HostRecord :=
  [recordAt (.v4 1) [] (linkNamed ['a']), recordAt (.v4 1) [linkLocal] (linkNamed ['b']),
    recordAt linkLocal [] (linkNamed ['b'])]

/-- The records are one class, and come back as two hosts: the second is filed under the link of the first. -/
theorem read_findings_splits : (addressScheme ⟨0, 0, []⟩).Roomy (twoLinks.map (HostRecord.rebuild noMacs ⟨0, 0, []⟩)) ∧
      ¬ (addressScheme ⟨0, 0, []⟩).Partitions (twoLinks.map (HostRecord.rebuild noMacs ⟨0, 0, []⟩))
        (readFindings noMacs ⟨0, 0, []⟩ twoLinks) := by
  have hpoints : ∀ host ∈ twoLinks.map (HostRecord.rebuild noMacs ⟨0, 0, []⟩),
      host.addresses ⊆ {.v4 1, linkLocal} := by decide +kernel
  constructor
  · intro _ _ ips hips
    have hsub : ips ⊆ {.v4 1, linkLocal} := fun ip hip => by
      obtain ⟨host, hhost, _, hmem⟩ := hips hip
      exact hpoints host hhost hmem
    exact (Finset.card_le_card hsub).trans (by decide)
  · intro hparts
    have hlength : (readFindings noMacs ⟨0, 0, []⟩ twoLinks).length = 2 := by decide +kernel
    refine absurd (hparts.length_le ?_) (by rw [hlength]; decide)
    -- Each of them shares an address with the second.
    have hshares : ∃ second ∈ twoLinks.map (HostRecord.rebuild noMacs ⟨0, 0, []⟩),
        ∀ host ∈ twoLinks.map (HostRecord.rebuild noMacs ⟨0, 0, []⟩), ∃ ip ∈ host.addresses, ip ∈ second.addresses ∧
          addressKey ip (host.zone.map Zone.identity) = addressKey ip (second.zone.map Zone.identity) := by
      decide +kernel
    obtain ⟨second, hsecond, hshares⟩ := hshares
    have hjoined : ∀ host ∈ twoLinks.map (HostRecord.rebuild noMacs ⟨0, 0, []⟩), (addressScheme ⟨0, 0, []⟩).Joined
        (twoLinks.map (HostRecord.rebuild noMacs ⟨0, 0, []⟩)) host second := fun host hhost =>
      .single ⟨hhost, hsecond, hshares host hhost⟩
    exact fun x hx y hy => (hjoined x hx).trans (hjoined y hy).symm

end Zond.Journal

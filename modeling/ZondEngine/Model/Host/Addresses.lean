import ZondEngine.Model.Host.Run

/-!
# The addresses of a record

Folding another record in is the union of their addresses under the better of their leading ones (`addresses_merge`). A
report files a record under its leading address, with its link where the address needs one (`reportKey`); folding in a
record filed under the same key moves neither (`key_merge`).
-/

namespace Zond

open Finset

open Ip (IpAddr)
open Scoped (Zone)

def leading (primary candidate : IpAddr) : IpAddr :=
  if identityRank primary ≤ identityRank candidate then primary else candidate

@[simp] theorem leading_self (primary : IpAddr) : leading primary primary = primary := if_pos le_rfl

def reportKey (addr : IpAddr) (zone : Option Zone) : ScopedIp.Key :=
  toLex (addr, if addr.needsZone then zone.elim ⊥ fun zone => zone.identity else ⊥)

namespace Host

variable {h : Host}

theorem key_scopedIp (h : Host) : h.scopedIp.key = reportKey h.primaryIp h.zone := by
  unfold scopedIp reportKey
  cases h.zone with
  | none =>
    show toLex (h.primaryIp, ⊥) = _
    split <;> rfl
  | some zone =>
    unfold ScopedIp.scopedTo ScopedIp.key
    cases h.primaryIp.needsZone <;> rfl

/-! ## Addresses -/

def addresses (h : Host) : Finset IpAddr := h.ips.keys.toFinset

theorem mem_addresses {ip : IpAddr} : ip ∈ h.addresses ↔ h.ips.contains ip = true := by
  unfold addresses
  rw [List.mem_toFinset, SortedMap.contains_iff]

theorem card_addresses (h : Host) : h.addresses.card = h.ips.len := by
  unfold addresses
  rw [List.toFinset_card_of_nodup h.ips.nodup_keys, SortedMap.keys, List.length_map, SortedMap.len]

variable (p : Process)

theorem primaryIp_mem_addresses (h : Host) : h.primaryIp ∈ h.addresses := mem_addresses.mpr h.primary_mem

theorem ips_eq_of_addresses {other : Host} (heq : h.addresses = other.addresses) : h.ips = other.ips := by
  refine SortedSet.eq_of_contains fun ip => Bool.eq_iff_iff.mpr ?_
  rw [← mem_addresses, ← mem_addresses, heq]

theorem addresses_admitIp {ip : IpAddr} (hroom : (insert ip h.addresses).card ≤ MAX_IPS) :
    (h.admitIp ip).addresses = insert ip h.addresses := by
  have hadds : h.ips.len < MAX_IPS ∨ h.ips.contains ip = true := by
    by_cases hheld : ip ∈ h.addresses
    · exact .inr (mem_addresses.mp hheld)
    · rw [card_insert_of_notMem hheld, card_addresses] at hroom
      exact .inl hroom
  have hips : (h.admitIp ip).ips = h.ips.add ip := if_pos hadds
  ext other
  rw [mem_addresses, hips, SortedSet.contains_add, mem_insert, mem_addresses]

theorem addresses_foldl_admitIp : ∀ {ips : List IpAddr} {h : Host}, (h.addresses ∪ ips.toFinset).card ≤ MAX_IPS →
    (ips.foldl Host.admitIp h).addresses = h.addresses ∪ ips.toFinset
  | [], h, _ => by simp
  | ip :: rest, h, hroom => by
    have hsets : insert ip h.addresses ∪ rest.toFinset = h.addresses ∪ (ip :: rest).toFinset := by
      rw [List.toFinset_cons, insert_union, union_insert]
    rw [← hsets] at hroom ⊢
    have hone := addresses_admitIp ((card_le_card subset_union_left).trans hroom)
    rw [List.foldl_cons, addresses_foldl_admitIp (by rwa [hone]), hone]

theorem considerPrimaryIp_of_mem {candidate : IpAddr} (hheld : candidate ∈ h.addresses)
    (hroom : h.addresses.card ≤ MAX_IPS) : (h.considerPrimaryIp p candidate).addresses = h.addresses ∧
      (h.considerPrimaryIp p candidate).primaryIp = leading h.primaryIp candidate := by
  have hinsert := insert_eq_self.mpr hheld
  have hsame : (h.addIp p candidate).addresses = h.addresses :=
    (addresses_admitIp (by rwa [hinsert])).trans hinsert
  have hmem : (h.addIp p candidate).ips.contains candidate = true := mem_addresses.mp (hsame ▸ hheld)
  unfold considerPrimaryIp leading
  rw [dif_pos hmem]
  split
  next hrank => exact ⟨hsame, (if_pos hrank).symm⟩
  next hrank => exact ⟨hsame, (if_neg hrank).symm⟩

theorem considerPrimaryIp_foldl_admitIp {ips : List IpAddr} {candidate : IpAddr} (htold : candidate ∈ ips)
    (hroom : (h.addresses ∪ ips.toFinset).card ≤ MAX_IPS) :
    ((ips.foldl Host.admitIp h).considerPrimaryIp p candidate).addresses = h.addresses ∪ ips.toFinset ∧
      ((ips.foldl Host.admitIp h).considerPrimaryIp p candidate).primaryIp = leading h.primaryIp candidate := by
  have htaken := addresses_foldl_admitIp hroom
  have hheld : candidate ∈ (ips.foldl Host.admitIp h).addresses :=
    htaken ▸ mem_union_right _ (List.mem_toFinset.mpr htold)
  obtain ⟨hsame, hlead⟩ := considerPrimaryIp_of_mem p hheld (htaken ▸ hroom)
  exact ⟨hsame.trans htaken, hlead.trans (by rw [primaryIp_foldl_admitIp])⟩

theorem considerPrimaryIp_extendIps (h : Host) (p : Process) (ips : List IpAddr) (candidate : IpAddr) :
    (h.extendIps p ips).considerPrimaryIp p candidate = (ips.foldl Host.admitIp h).considerPrimaryIp p candidate := by
  obtain ⟨held, hmem, heq⟩ := foldl_admitIp_eq ips h
  unfold extendIps
  rfl

/-- **A fold of two records holds the addresses of both**, while there is room for all of them. -/
theorem addresses_merge {other : Host} (hroom : (h.addresses ∪ other.addresses).card ≤ MAX_IPS) :
    (h.merge p other).addresses = h.addresses ∪ other.addresses := by
  obtain ⟨aside, touched, heq⟩ := merge_eq p h other
  rw [heq]
  exact (considerPrimaryIp_foldl_admitIp p other.primaryIp_mem hroom).1

theorem zone_merge (h : Host) (p : Process) (other : Host) : (h.merge p other).zone = h.zone.or other.zone := by
  obtain ⟨aside, touched, heq⟩ := merge_eq p h other
  rw [heq]

theorem considerPrimaryIp_self (h : Host) (p : Process) :
    (h.considerPrimaryIp p h.primaryIp).primaryIp = h.primaryIp := by
  unfold considerPrimaryIp
  dsimp only
  split
  · split <;> rfl
  · rfl

/-- **Folding in a record filed under the same key moves neither.** -/
theorem key_merge {other : Host} (hkey : other.scopedIp.key = h.scopedIp.key) :
    (h.merge p other).scopedIp.key = h.scopedIp.key := by
  rw [key_scopedIp, key_scopedIp] at hkey
  obtain ⟨hprimary, hzone⟩ := Prod.mk.inj (toLex.injective hkey)
  have hlead : (h.merge p other).primaryIp = h.primaryIp := by
    obtain ⟨aside, touched, heq⟩ := merge_eq p h other
    have hadmitted : (other.ips.keys.foldl Host.admitIp h).primaryIp = h.primaryIp := primaryIp_foldl_admitIp _
    rw [heq, hprimary, ← hadmitted]
    exact considerPrimaryIp_self _ p
  rw [key_scopedIp, key_scopedIp, hlead, zone_merge]
  unfold reportKey
  cases hown : h.zone with
  | some zone => rfl
  | none =>
    -- Where no link is on record, the other record states none an address would need.
    rw [hown, hprimary] at hzone
    rw [Option.none_or, hzone]

end Host

end Zond

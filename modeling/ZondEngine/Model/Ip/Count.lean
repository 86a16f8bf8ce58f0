import ZondEngine.Lib.Measure
import ZondEngine.Model.Ip.Set

/-!
# Counting a set

`IpSet.len` adds up the sizes of the merged ranges, saturating. Below the top it is the number of addresses the set
holds, each zone on its own (`len_eq`), which is the length of its enumeration (`length_iter`).
-/

namespace Zond.Ip.IpSet

open Zond.Ranges List

variable {s : IpSet}

def key : IpAddr × Zone → (Nat × Nat) ⊕ (Nat × Nat)
  | (.v4 a, z) => .inl (zoneKey z, a)
  | (.v6 a, z) => .inr (zoneKey z, a)

theorem key_injective : Function.Injective key := by
  intro ⟨ip, z⟩ ⟨ip', z'⟩ h
  cases ip <;> cases ip' <;> simp [key, zoneKey_inj, Fin.ext_iff] at h ⊢
  · exact h.symm
  · exact h.symm

variable (s)

theorem image_key_pairs : key '' s.pairs = Sum.inl '' held s.v4 ∪ Sum.inr '' held s.v6 := by
  ext x
  constructor
  · intro ⟨⟨ip, z⟩, hp, hx⟩
    cases ip with
    | v4 a =>
      obtain ⟨rfl, h⟩ := mem_pairs_v4.mp hp
      exact .inl ⟨_, h, hx⟩
    | v6 a => exact .inr ⟨_, mem_pairs_v6.mp hp, hx⟩
  · intro h
    rcases h with ⟨y, hy, rfl⟩ | ⟨y, hy, rfl⟩
    · obtain ⟨a, rfl⟩ := held_v4_addr hy
      exact ⟨(.v4 a, none), mem_pairs_v4.mpr ⟨rfl, hy⟩, rfl⟩
    · obtain ⟨a, z, rfl⟩ := held_v6_addr hy
      exact ⟨(.v6 a, z), mem_pairs_v6.mpr hy, rfl⟩

theorem finite_pairs : s.pairs.Finite := by
  apply Set.Finite.of_finite_image _ key_injective.injOn
  rw [image_key_pairs]
  exact ((finite_held _).image _).union ((finite_held _).image _)

theorem ncard_pairs : s.pairs.ncard = size s.merged.v4 + size s.merged.v6 := by
  have hdisj : Disjoint (Sum.inl '' held s.merged.v4 : Set ((Nat × Nat) ⊕ (Nat × Nat)))
      (Sum.inr '' held s.merged.v6) := by
    rw [Set.disjoint_left]
    intro x ⟨_, _, h₁⟩ ⟨_, _, h₂⟩
    rw [← h₁] at h₂
    cases h₂
  rw [← s.pairs_merged, ← Set.ncard_image_of_injective _ key_injective, image_key_pairs,
    Set.ncard_union_eq hdisj ((finite_held _).image _) ((finite_held _).image _),
    Set.ncard_image_of_injective _ Sum.inl_injective, Set.ncard_image_of_injective _ Sum.inr_injective,
    ncard_held s.merged_v4_canonical, ncard_held s.merged_v6_canonical]

def lenGross : Nat := Word.satAdd 128 s.v4Len s.v6Len

def grossSize : Nat := size s.v4 + size s.v6

theorem lenGross_eq : s.lenGross = min s.grossSize (Word.top 128) := by
  have h4 : s.v4Len = min (size s.v4) (Word.top 128) := by
    have hlen : ∀ r : Ipv4Range, r.len = min (hi r - lo r + 1) (Word.top 128) := by
      intro r
      have htop : (2 : Nat) ^ 32 ≤ Word.top 128 := by decide
      show r.endAddr.val - r.startAddr.val + 1 = min (r.endAddr.val - r.startAddr.val + 1) _
      omega
    rw [v4Len, Word.foldl_satAdd_eq_min 128 hlen s.v4 0 0 rfl, Nat.zero_add]
    rfl
  have h6 : s.v6Len = min (size s.v6) (Word.top 128) := by
    have hlen : ∀ r : Ipv6Range, r.len = min (hi r - lo r + 1) (Word.top 128) := fun r => rfl
    rw [v6Len, Word.foldl_satAdd_eq_min 128 hlen s.v6 0 0 rfl, Nat.zero_add]
    rfl
  rw [lenGross, Word.satAdd, h4, h6, grossSize]
  omega

theorem len_eq_min : s.len = min s.pairs.ncard (Word.top 128) := by
  rw [ncard_pairs]
  exact s.merged.lenGross_eq

theorem ncard_pairs_le : s.pairs.ncard ≤ s.grossSize := by
  have hunion : s.pairs.ncard ≤ (held s.v4).ncard + (held s.v6).ncard := by
    rw [← Set.ncard_image_of_injective _ key_injective, image_key_pairs,
      ← Set.ncard_image_of_injective (held s.v4) Sum.inl_injective,
      ← Set.ncard_image_of_injective (held s.v6) Sum.inr_injective]
    exact Set.ncard_union_le _ _
  exact hunion.trans (Nat.add_le_add (ncard_held_le _) (ncard_held_le _))

/-- **A set counts right below `2 ^ 128`.** -/
theorem len_eq {s : IpSet} (h : s.pairs.ncard < 2 ^ 128) : s.len = s.pairs.ncard := by
  rw [len_eq_min]
  exact Nat.min_eq_left (Word.lt_pow_iff_le_top.mp h)

theorem length_iter : s.iter.length = s.pairs.ncard := by
  have h4 : ∀ rs : List Ipv4Range, (rs.flatMap (·.iter)).length = size rs := by
    intro rs
    induction rs with
    | nil => rfl
    | cons r rs ih =>
      rw [flatMap_cons, length_append, ih, Ipv4Range.iter, length_map, length_range', size,
        size,
        map_cons, sum_cons]
      rfl
  have h6 : ∀ rs : List Ipv6Range, (rs.flatMap (·.iter)).length = size rs := by
    intro rs
    induction rs with
    | nil => rfl
    | cons r rs ih =>
      rw [flatMap_cons, length_append, ih, Ipv6Range.iter, length_map, length_range', size,
        size,
        map_cons, sum_cons]
      rfl
  rw [iter, length_append, h4, h6, ncard_pairs]

end Zond.Ip.IpSet

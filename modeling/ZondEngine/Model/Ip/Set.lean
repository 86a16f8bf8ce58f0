import ZondEngine.Model.Ip.Range

/-!
# Sets of addresses

`IpSet` of `model/ip/set.rs`: two lists of ranges, each with a flag that says it has unmerged ranges; that a list
without the flag is canonical is a field. A set denotes the addresses it holds, each on its zone (`IpSet.pairs`), and
every operation is described by what it does to that (`pairs_subtract` and so on). `built_exact`: over every history.
-/

namespace Zond.Ip

open Zond.Ranges List

/-- A set of addresses, as ranges yet to be merged or merged. -/
structure IpSet where
  v4 : List Ipv4Range
  v6 : List Ipv6Range
  (v4Dirty v6Dirty : Bool)
  v4_merged : v4Dirty = false → Canonical v4
  v6_merged : v6Dirty = false → Canonical v6

namespace IpSet

def new : IpSet := ⟨[], [], false, false, fun _ => .nil, fun _ => .nil⟩

variable (s : IpSet)

def pushV4Range (r : Ipv4Range) : IpSet :=
  { s with v4 := s.v4 ++ [r], v4Dirty := true, v4_merged := nofun }

def pushV6Range (r : Ipv6Range) : IpSet :=
  { s with v6 := s.v6 ++ [r], v6Dirty := true, v6_merged := nofun }

def insert : IpAddr → IpSet
  | .v4 a => s.pushV4Range (.single a)
  | .v6 a => s.pushV6Range (.single a)

def insertRange : IpRange → IpSet
  | .v4 r => s.pushV4Range r
  | .v6 r => s.pushV6Range r

def mergedV4 : List Ipv4Range := if s.v4Dirty && !s.v4.isEmpty then merge s.v4 else s.v4

def mergedV6 : List Ipv6Range := if s.v6Dirty && !s.v6.isEmpty then merge s.v6 else s.v6

theorem canonical_mergedV4 : Canonical s.mergedV4 := canonical_mergeIfDirty s.v4_merged

theorem canonical_mergedV6 : Canonical s.mergedV6 := canonical_mergeIfDirty s.v6_merged

/-- Merges what is not merged yet. -/
def canonicalize : IpSet where
  v4 := s.mergedV4
  v6 := s.mergedV6
  v4Dirty := false
  v6Dirty := false
  v4_merged _ := s.canonical_mergedV4
  v6_merged _ := s.canonical_mergedV6

theorem v4Dirty_canonicalize : s.canonicalize.v4Dirty = false := rfl

theorem v6Dirty_canonicalize : s.canonicalize.v6Dirty = false := rfl

def isEmpty (s : IpSet) : Bool := s.v4.isEmpty && s.v6.isEmpty

/-- Both families are merged, and the ranges of each, and of each zone, ascend, disjoint and not adjacent. -/
structure IsCanonical (s : IpSet) : Prop where
  v4_clean : s.v4Dirty = false
  v6_clean : s.v6Dirty = false
  v4_apart : s.v4.Pairwise fun a b => a.endAddr.val + 1 < b.startAddr.val
  v6_apart : s.v6.Pairwise fun a b => zoneKey a.zone ≤ zoneKey b.zone ∧
    (a.zone = b.zone → a.endAddr.val + 1 < b.startAddr.val)

variable (cuts : List (Interval 128))

def cutV4 : List Ipv4Range :=
  if !s.mergedV4.isEmpty && !cuts.isEmpty then subtractRun Ipv4Range.rebuild s.mergedV4 cuts else s.mergedV4

def cutV6 : List Ipv6Range :=
  if !s.mergedV6.isEmpty && !cuts.isEmpty then (runs s.mergedV6).flatMap (subtractRun Ipv6Range.rebuild · cuts)
  else s.mergedV6

theorem canonical_cutV4 {cuts : List (Interval 128)} (h : Canonical cuts) : Canonical (s.cutV4 cuts) := by
  unfold cutV4
  split
  · exact canonical_subtractRun Ipv4Range.rebuilds s.canonical_mergedV4 h
  · exact s.canonical_mergedV4

theorem canonical_cutV6 {cuts : List (Interval 128)} (h : Canonical cuts) : Canonical (s.cutV6 cuts) := by
  unfold cutV6
  split
  · exact canonical_subtract_runs Ipv6Range.rebuilds s.canonical_mergedV6 h
  · exact s.canonical_mergedV6

/-- Takes away every address of the other set, on any zone. -/
def subtract (s other : IpSet) : IpSet :=
  if other.isEmpty || s.isEmpty then s
  else
    { v4 := s.cutV4 (mergedIntervals (other.v4.map Ipv4Range.bounds))
      v6 := s.cutV6 (mergedIntervals (other.v6.map Ipv6Range.bounds))
      v4Dirty := false
      v6Dirty := false
      v4_merged := fun _ => s.canonical_cutV4 (canonical_mergedIntervals _)
      v6_merged := fun _ => s.canonical_cutV6 (canonical_mergedIntervals _) }

def cutV4Checked : Option (List Ipv4Range) :=
  if !s.mergedV4.isEmpty && !cuts.isEmpty then subtractRunChecked Ipv4Range.rebuildChecked s.mergedV4 cuts
  else some s.mergedV4

def cutV6Checked : Option (List Ipv6Range) :=
  if !s.mergedV6.isEmpty && !cuts.isEmpty then do
    return ((← (runs s.mergedV6).mapM (subtractRunChecked Ipv6Range.rebuildChecked · cuts)).flatten)
  else some s.mergedV6

/-- What `subtract` leaves as the machine computes it: no value where a step would overflow. -/
def subtractChecked (s other : IpSet) : Option (List Ipv4Range × List Ipv6Range) :=
  if other.isEmpty || s.isEmpty then some (s.v4, s.v6)
  else do
    let v4 ← s.cutV4Checked (mergedIntervals (other.v4.map Ipv4Range.bounds))
    let v6 ← s.cutV6Checked (mergedIntervals (other.v6.map Ipv6Range.bounds))
    return (v4, v6)

def isMerged : IpAddr → Bool
  | .v4 _ => !s.v4Dirty
  | .v6 _ => !s.v6Dirty

/-- Membership by binary search in merged ranges. -/
def containsCanonical : IpAddr → Bool
  | .v4 a => search s.v4 a
  | .v6 a => (runs s.v6).any (search · a)

/-- Whether the set holds an address on any zone. -/
def contains (s : IpSet) (ip : IpAddr) : Bool :=
  if s.isMerged ip then s.containsCanonical ip
  else
    match ip with
    | .v4 a => s.v4.any (·.contains a)
    | .v6 a => s.v6.any (·.contains a)

def v4Len : Nat := s.v4.foldl (fun total r => Word.satAdd 128 total r.len) 0

def v6Len : Nat := s.v6.foldl (fun total r => Word.satAdd 128 total r.len) 0

def lenCanonical : Nat := Word.satAdd 128 s.v4Len s.v6Len

def merged : IpSet := if s.v4Dirty || s.v6Dirty then s.canonicalize else s

def len : Nat := s.merged.lenCanonical

/-- The addresses, range by range. -/
def iter (s : IpSet) : List IpAddr := s.merged.v4.flatMap (·.iter) ++ s.merged.v6.flatMap (·.iter)

def eq (s t : IpSet) : Bool := decide (s.merged.v4 = t.merged.v4) && decide (s.merged.v6 = t.merged.v6)

def extend (ips : List IpAddr) : IpSet := ips.foldl insert s

def fromAddrs (ips : List IpAddr) : IpSet := (new.extend ips).canonicalize

def fromRanges (ranges : List IpRange) : IpSet := (ranges.foldl insertRange new).canonicalize

def absorb (s t : IpSet) : IpSet where
  v4 := s.v4 ++ t.v4
  v6 := s.v6 ++ t.v6
  v4Dirty := s.v4Dirty || !t.v4.isEmpty
  v6Dirty := s.v6Dirty || !t.v6.isEmpty
  v4_merged h := by
    simp only [Bool.or_eq_false_iff, Bool.not_eq_false', List.isEmpty_iff] at h
    rw [h.2, List.append_nil]
    exact s.v4_merged h.1
  v6_merged h := by
    simp only [Bool.or_eq_false_iff, Bool.not_eq_false', List.isEmpty_iff] at h
    rw [h.2, List.append_nil]
    exact s.v6_merged h.1

def fromSets (sets : List IpSet) : IpSet := (sets.foldl absorb new).canonicalize

def pairs : Set (IpAddr × Zone) :=
  {x | match x with
    | (.v4 a, z) => z = none ∧ ∃ r ∈ s.v4, r.contains a = true
    | (.v6 a, z) => ∃ r ∈ s.v6, r.contains a = true ∧ r.zone = z}

end IpSet

def IpRange.pairs (r : IpRange) : Set (IpAddr × Zone) := {x | r.contains x.1 = true ∧ r.zone = x.2}

/-! ## What a set denotes -/

namespace IpSet

variable {s t : IpSet}

theorem mem_pairs_v4 {a : Ipv4Addr} {z : Zone} : (.v4 a, z) ∈ s.pairs ↔ z = none ∧ (0, a.val) ∈ held s.v4 := by
  simp only [mem_held, ← Ipv4Range.contains_iff]
  exact Iff.rfl

theorem mem_pairs_v6 {a : Ipv6Addr} {z : Zone} : (.v6 a, z) ∈ s.pairs ↔ (zoneKey z, a.val) ∈ held s.v6 := by
  constructor
  · rintro ⟨r, hr, hin, rfl⟩
    exact ⟨r, hr, rfl, Ipv6Range.contains_iff.mp hin⟩
  · rintro ⟨r, hr, hg, hin⟩
    exact ⟨r, hr, Ipv6Range.contains_iff.mpr hin, zoneKey_inj.mp hg⟩

theorem pairs_eq_union (s : IpSet) : s.pairs =
    {p | ∃ r ∈ s.v4, p ∈ IpRange.pairs (.v4 r)} ∪ {p | ∃ r ∈ s.v6, p ∈ IpRange.pairs (.v6 r)} := by
  ext ⟨ip, z⟩
  cases ip with
  | v4 a =>
    constructor
    · intro ⟨hz, r, hr, hin⟩
      exact .inl ⟨r, hr, hin, hz.symm⟩
    · intro h
      rcases h with ⟨r, hr, hin, hz⟩ | ⟨r, hr, hin, _⟩
      · exact ⟨hz.symm, r, hr, hin⟩
      · cases hin
  | v6 a =>
    constructor
    · intro ⟨r, hr, hin, hz⟩
      exact .inr ⟨r, hr, hin, hz⟩
    · intro h
      rcases h with ⟨r, hr, hin, _⟩ | ⟨r, hr, hin, hz⟩
      · cases hin
      · exact ⟨r, hr, hin, hz⟩

theorem held_v4_addr {x : Nat × Nat} (h : x ∈ held s.v4) : ∃ a : Ipv4Addr, x = (0, a.val) := by
  obtain ⟨g, n⟩ := x
  obtain ⟨r, -, rfl, -, hn⟩ := h
  exact ⟨⟨n, hn.trans_lt r.endAddr.isLt⟩, rfl⟩

theorem held_v6_addr {x : Nat × Nat} (h : x ∈ held s.v6) : ∃ (a : Ipv6Addr) (z : Zone), x = (zoneKey z, a.val) := by
  obtain ⟨g, n⟩ := x
  obtain ⟨r, -, rfl, -, hn⟩ := h
  exact ⟨⟨n, hn.trans_lt r.endAddr.isLt⟩, r.zone, rfl⟩

theorem held_v4_subset (h : s.pairs ⊆ t.pairs) : held s.v4 ⊆ held t.v4 := by
  intro x hx
  obtain ⟨a, rfl⟩ := held_v4_addr hx
  exact (mem_pairs_v4.mp (h (mem_pairs_v4.mpr ⟨rfl, hx⟩))).2

theorem held_v6_subset (h : s.pairs ⊆ t.pairs) : held s.v6 ⊆ held t.v6 := by
  intro x hx
  obtain ⟨a, z, rfl⟩ := held_v6_addr hx
  exact mem_pairs_v6.mp (h (mem_pairs_v6.mpr hx))

theorem pairs_eq_iff : s.pairs = t.pairs ↔ held s.v4 = held t.v4 ∧ held s.v6 = held t.v6 := by
  constructor
  · intro h
    exact ⟨(held_v4_subset h.le).antisymm (held_v4_subset h.ge), (held_v6_subset h.le).antisymm (held_v6_subset h.ge)⟩
  · rintro ⟨h4, h6⟩
    ext ⟨ip, z⟩
    cases ip with
    | v4 a => rw [mem_pairs_v4, mem_pairs_v4, h4]
    | v6 a => rw [mem_pairs_v6, mem_pairs_v6, h6]

theorem pairs_eq_empty_iff : s.pairs = ∅ ↔ s.isEmpty = true := by
  have hnew : new.pairs = ∅ := by
    ext ⟨ip, z⟩
    cases ip with
    | v4 a => simp [mem_pairs_v4, new]
    | v6 a => simp [mem_pairs_v6, new]
  rw [← hnew, pairs_eq_iff, isEmpty, Bool.and_eq_true, List.isEmpty_iff, List.isEmpty_iff]
  simp only [new, held_nil, held_eq_empty_iff]

/-! ## Building -/

@[simp] theorem pairs_new : new.pairs = ∅ := pairs_eq_empty_iff.mpr rfl

theorem pairs_pushV4Range (s : IpSet) (r : Ipv4Range) : (s.pushV4Range r).pairs = s.pairs ∪ IpRange.pairs (.v4 r) := by
  rw [pairs_eq_union, pairs_eq_union s, Set.union_right_comm]
  congr 1
  ext p
  simp [pushV4Range, or_and_right, exists_or]

theorem pairs_pushV6Range (s : IpSet) (r : Ipv6Range) : (s.pushV6Range r).pairs = s.pairs ∪ IpRange.pairs (.v6 r) := by
  rw [pairs_eq_union, pairs_eq_union s, Set.union_assoc]
  congr 1
  ext p
  simp [pushV6Range, or_and_right, exists_or]

theorem pairs_insertRange (s : IpSet) (r : IpRange) : (s.insertRange r).pairs = s.pairs ∪ r.pairs := by
  cases r with
  | v4 r => exact pairs_pushV4Range s r
  | v6 r => exact pairs_pushV6Range s r

theorem pairs_single_v4 (a : Ipv4Addr) : IpRange.pairs (.v4 (.single a)) = {(.v4 a, none)} := by
  ext ⟨ip, z⟩
  cases ip <;>
    simp [IpRange.pairs, IpRange.contains, IpRange.zone, Ipv4Range.contains, Ipv4Range.single,
      le_antisymm_iff (α := Ipv4Addr), and_comm, eq_comm (b := z)]

theorem pairs_single_v6 (a : Ipv6Addr) : IpRange.pairs (.v6 (.single a)) = {(.v6 a, none)} := by
  ext ⟨ip, z⟩
  cases ip <;>
    simp [IpRange.pairs, IpRange.contains, IpRange.zone, Ipv6Range.contains, Ipv6Range.single,
      le_antisymm_iff (α := Ipv6Addr), and_comm, eq_comm (b := z)]

theorem pairs_insert (s : IpSet) (ip : IpAddr) : (s.insert ip).pairs = s.pairs ∪ {(ip, none)} := by
  cases ip with
  | v4 a => rw [← pairs_single_v4, ← pairs_pushV4Range, insert]
  | v6 a => rw [← pairs_single_v6, ← pairs_pushV6Range, insert]

theorem pairs_foldl {α : Type} {step : IpSet → α → IpSet} {P : α → Set (IpAddr × Zone)}
    (hstep : ∀ s x, (step s x).pairs = s.pairs ∪ P x) : ∀ (xs : List α) (s : IpSet),
    (xs.foldl step s).pairs = s.pairs ∪ {p | ∃ x ∈ xs, p ∈ P x}
  | [], s => by simp
  | x :: xs, s => by
    rw [foldl_cons, pairs_foldl hstep xs, hstep, Set.union_assoc]
    congr 1
    ext p
    simp

theorem pairs_extend (s : IpSet) (ips : List IpAddr) :
    (s.extend ips).pairs = s.pairs ∪ {x | x.1 ∈ ips ∧ x.2 = none} := by
  rw [extend, pairs_foldl pairs_insert]
  ext ⟨ip, z⟩
  simp

theorem held_mergedV4 (s : IpSet) : held s.mergedV4 = held s.v4 := held_mergeIfDirty s.v4Dirty s.v4

theorem held_mergedV6 (s : IpSet) : held s.mergedV6 = held s.v6 := held_mergeIfDirty s.v6Dirty s.v6

/-- **Merging changes nothing a set denotes.** -/
@[simp] theorem pairs_canonicalize (s : IpSet) : s.canonicalize.pairs = s.pairs :=
  pairs_eq_iff.mpr ⟨s.held_mergedV4, s.held_mergedV6⟩

@[simp] theorem pairs_merged (s : IpSet) : s.merged.pairs = s.pairs := by
  unfold merged
  split
  · exact s.pairs_canonicalize
  · rfl

theorem merged_v4_canonical (s : IpSet) : Canonical s.merged.v4 := by
  unfold merged
  split
  · exact s.canonical_mergedV4
  · rename_i h
    exact s.v4_merged (by simp at h; exact h.1)

theorem merged_v6_canonical (s : IpSet) : Canonical s.merged.v6 := by
  unfold merged
  split
  · exact s.canonical_mergedV6
  · rename_i h
    exact s.v6_merged (by simp at h; exact h.2)

theorem pairs_absorb (s t : IpSet) : (s.absorb t).pairs = s.pairs ∪ t.pairs := by
  ext ⟨ip, z⟩
  cases ip with
  | v4 a => simp only [mem_pairs_v4, absorb, held_append, Set.mem_union, and_or_left]
  | v6 a => simp only [mem_pairs_v6, absorb, held_append, Set.mem_union]

theorem pairs_fromAddrs (ips : List IpAddr) : (fromAddrs ips).pairs = {x | x.1 ∈ ips ∧ x.2 = none} := by
  rw [fromAddrs, pairs_canonicalize, pairs_extend, pairs_new, Set.empty_union]

theorem pairs_fromRanges (rs : List IpRange) : (fromRanges rs).pairs = {x | ∃ r ∈ rs, x ∈ r.pairs} := by
  rw [fromRanges, pairs_canonicalize, pairs_foldl pairs_insertRange, pairs_new, Set.empty_union]

theorem pairs_fromSets (sets : List IpSet) : (fromSets sets).pairs = {x | ∃ t ∈ sets, x ∈ t.pairs} := by
  rw [fromSets, pairs_canonicalize, pairs_foldl pairs_absorb, pairs_new, Set.empty_union]

/-! ## Reading -/

theorem oneGroup_v4 (rs : List Ipv4Range) : OneGroup rs 0 := fun _ _ => rfl

theorem exists_mem_held_iff {rs : List Ipv6Range} {n : Nat} :
    (∃ g, (g, n) ∈ held rs) ↔ ∃ r ∈ rs, r.startAddr.val ≤ n ∧ n ≤ r.endAddr.val := by
  constructor
  · rintro ⟨g, r, hr, -, h⟩
    exact ⟨r, hr, h⟩
  · rintro ⟨r, hr, h⟩
    exact ⟨group r, r, hr, rfl, h⟩

theorem exists_pair_iff (s : IpSet) (ip : IpAddr) : (∃ z, (ip, z) ∈ s.pairs) ↔
    match ip with
    | .v4 a => (0, a.val) ∈ held s.v4
    | .v6 a => ∃ g, (g, a.val) ∈ held s.v6 := by
  cases ip with
  | v4 a => simp only [mem_pairs_v4, exists_eq_left]
  | v6 a =>
    simp only [mem_pairs_v6]
    constructor
    · rintro ⟨z, h⟩
      exact ⟨_, h⟩
    · rintro ⟨g, h⟩
      obtain ⟨b, z, heq⟩ := held_v6_addr h
      obtain ⟨rfl, -⟩ := Prod.mk.inj heq
      exact ⟨z, h⟩

/-- **A set contains an address exactly when it denotes it on some zone**, merged or not. -/
theorem contains_iff (s : IpSet) (ip : IpAddr) : s.contains ip = true ↔ ∃ z, (ip, z) ∈ s.pairs := by
  rw [exists_pair_iff]
  unfold contains
  cases ip with
  | v4 a =>
    cases hd : s.v4Dirty with
    | false =>
      simp only [isMerged, hd, Bool.not_false, if_true, containsCanonical]
      exact search_iff (s.v4_merged hd) (oneGroup_v4 s.v4)
    | true => simp [isMerged, hd, Ipv4Range.contains_iff]
  | v6 a =>
    cases hd : s.v6Dirty with
    | false =>
      simp only [isMerged, hd, Bool.not_false, if_true, containsCanonical]
      exact any_search_iff (s.v6_merged hd) a
    | true =>
      simp only [isMerged, hd, Bool.not_true, Bool.false_eq_true, if_false, any_eq_true, Ipv6Range.contains_iff]
      exact exists_mem_held_iff.symm

theorem contains_congr (h : s.pairs = t.pairs) (ip : IpAddr) : s.contains ip = t.contains ip := by
  rw [Bool.eq_iff_iff, contains_iff, contains_iff, h]

theorem contains_insertRange (s : IpSet) (r : IpRange) (ip : IpAddr) :
    (s.insertRange r).contains ip = (s.contains ip || r.contains ip) := by
  rw [Bool.eq_iff_iff, Bool.or_eq_true, contains_iff, contains_iff, pairs_insertRange]
  simp only [Set.mem_union, exists_or]
  exact or_congr_right ⟨fun ⟨_, hr⟩ => hr.1, fun hr => ⟨r.zone, hr, rfl⟩⟩

theorem contains_insert (s : IpSet) (a ip : IpAddr) :
    (s.insert a).contains ip = (s.contains ip || decide (ip = a)) := by
  rw [Bool.eq_iff_iff, Bool.or_eq_true, contains_iff, contains_iff, pairs_insert]
  simp [exists_or, or_comm]

theorem contains_new (ip : IpAddr) : new.contains ip = false := by
  rw [← Bool.not_eq_true, contains_iff, pairs_new]
  exact fun ⟨_, h⟩ => h

theorem contains_of_isEmpty (h : s.isEmpty = true) (ip : IpAddr) : s.contains ip = false := by
  rw [← Bool.not_eq_true, contains_iff, pairs_eq_empty_iff.mpr h]
  exact fun ⟨_, hz⟩ => hz

/-- **Two sets compare equal exactly when they denote the same.** -/
theorem eq_iff (s t : IpSet) : s.eq t = true ↔ s.pairs = t.pairs := by
  rw [eq, Bool.and_eq_true, decide_eq_true_eq, decide_eq_true_eq, ← s.pairs_merged, ← t.pairs_merged, pairs_eq_iff]
  constructor
  · rintro ⟨h4, h6⟩
    rw [h4, h6]
    exact ⟨rfl, rfl⟩
  · rintro ⟨h4, h6⟩
    exact ⟨s.merged_v4_canonical.ext t.merged_v4_canonical h4, s.merged_v6_canonical.ext t.merged_v6_canonical h6⟩

/-! ## The ranges of a merged set -/

theorem v4_apart {rs : List Ipv4Range} (h : Canonical rs) :
    rs.Pairwise fun a b => a.endAddr.val + 1 < b.startAddr.val :=
  h.imp fun h => h.elim (fun h => absurd h (lt_irrefl 0)) (·.2)

theorem v6_apart {rs : List Ipv6Range} (h : Canonical rs) : rs.Pairwise fun a b => zoneKey a.zone ≤ zoneKey b.zone ∧
      (a.zone = b.zone → a.endAddr.val + 1 < b.startAddr.val) := by
  refine h.imp fun {a b} h => ?_
  rcases h with h | ⟨hg, h⟩
  · exact ⟨le_of_lt h,
      fun heq => absurd h (by rw [show group a = group b from congrArg zoneKey heq]; exact lt_irrefl _)⟩
  · exact ⟨le_of_eq hg, fun _ => h⟩

theorem isCanonical_iff {s : IpSet} : s.IsCanonical ↔ s.v4Dirty = false ∧ s.v6Dirty = false := by
  constructor
  · intro h
    exact ⟨h.v4_clean, h.v6_clean⟩
  · rintro ⟨h4, h6⟩
    exact ⟨h4, h6, v4_apart (s.v4_merged h4), v6_apart (s.v6_merged h6)⟩

theorem isCanonical_canonicalize (s : IpSet) : s.canonicalize.IsCanonical := isCanonical_iff.mpr ⟨rfl, rfl⟩

/-! ## Subtracting -/

theorem covers_bounds_v4 {rs : List Ipv4Range} {n : Nat} :
    Covers (mergedIntervals (rs.map Ipv4Range.bounds)) n ↔ (0, n) ∈ held rs := by
  rw [covers_mergedIntervals, Covers, mem_held]
  simp only [mem_map, exists_exists_and_eq_and]
  constructor
  · rintro ⟨r, hr, h⟩
    exact ⟨r, hr, rfl, h⟩
  · rintro ⟨r, hr, -, h⟩
    exact ⟨r, hr, h⟩

theorem covers_bounds_v6 {rs : List Ipv6Range} {n : Nat} :
    Covers (mergedIntervals (rs.map Ipv6Range.bounds)) n ↔ ∃ g, (g, n) ∈ held rs := by
  rw [covers_mergedIntervals, Covers, exists_mem_held_iff]
  simp only [mem_map, exists_exists_and_eq_and]
  exact Iff.rfl

theorem held_cutV4 (s : IpSet) {cuts : List (Interval 128)} (h : Canonical cuts) :
    held (s.cutV4 cuts) = {x | x ∈ held s.v4 ∧ ¬ Covers cuts x.2} := by
  rw [← s.held_mergedV4]
  exact held_cutIfAny (held_subtractRun Ipv4Range.rebuilds s.canonical_mergedV4 (oneGroup_v4 _) h)

theorem held_cutV6 (s : IpSet) {cuts : List (Interval 128)} (h : Canonical cuts) :
    held (s.cutV6 cuts) = {x | x ∈ held s.v6 ∧ ¬ Covers cuts x.2} := by
  rw [← s.held_mergedV6]
  exact held_cutIfAny (held_subtract_runs Ipv6Range.rebuilds s.canonical_mergedV6 h)

variable (s other : IpSet)

/-- **Subtracting removes every address the other set contains, on every zone.** -/
theorem pairs_subtract : (s.subtract other).pairs = {x | x ∈ s.pairs ∧ other.contains x.1 = false} := by
  ext ⟨ip, z⟩
  simp only [Set.mem_ofPred_eq, ← Bool.not_eq_true, contains_iff]
  unfold subtract
  split
  · rename_i he
    rcases Bool.or_eq_true_iff.mp he with he | he
    · simp [pairs_eq_empty_iff.mpr he]
    · simp [pairs_eq_empty_iff.mpr he]
  · rw [exists_pair_iff]
    cases ip with
    | v4 a =>
      simp only [mem_pairs_v4, held_cutV4 s (canonical_mergedIntervals _), Set.mem_ofPred_eq, covers_bounds_v4,
        and_assoc]
    | v6 a =>
      simp only [mem_pairs_v6, held_cutV6 s (canonical_mergedIntervals _), Set.mem_ofPred_eq, covers_bounds_v6]

theorem contains_subtract (ip : IpAddr) : (s.subtract other).contains ip = (s.contains ip && !other.contains ip) := by
  rw [Bool.eq_iff_iff, Bool.and_eq_true, contains_iff, contains_iff, pairs_subtract, Bool.not_eq_true']
  simp only [Set.mem_ofPred_eq, exists_and_right]

/-! ### Without overflow -/

theorem cutV4Checked_eq (s : IpSet) {cuts : List (Interval 128)} (h : Canonical cuts) :
    s.cutV4Checked cuts = some (s.cutV4 cuts) := by
  unfold cutV4Checked cutV4
  split
  · refine subtractRunChecked_eq (fun _ hab hb => Ipv4Range.rebuildChecked_eq hab hb) (fun r _ => ?_) h
    have hlt : r.endAddr.val < 2 ^ 32 := r.endAddr.isLt
    exact Word.lt_pow_iff_le_top.mp (hlt.trans (by decide))
  · rfl

theorem cutV6Checked_eq (s : IpSet) {cuts : List (Interval 128)} (h : Canonical cuts) :
    s.cutV6Checked cuts = some (s.cutV6 cuts) := by
  unfold cutV6Checked cutV6
  split
  · have hrun : (subtractRunChecked Ipv6Range.rebuildChecked · cuts) =
        fun run => pure (subtractRun Ipv6Range.rebuild run cuts) := by
      funext run
      exact subtractRunChecked_eq (fun _ hab hb => Ipv6Range.rebuildChecked_eq hab hb)
        (fun r _ => Word.lt_pow_iff_le_top.mp r.endAddr.isLt) h
    rw [hrun, mapM_pure, flatMap_def]
    rfl
  · rfl

theorem subtractChecked_eq : s.subtractChecked other = some ((s.subtract other).v4, (s.subtract other).v6) := by
  unfold subtractChecked subtract
  split
  · rfl
  · rw [cutV4Checked_eq s (canonical_mergedIntervals _), cutV6Checked_eq s (canonical_mergedIntervals _)]
    rfl

/-- **What a subtraction leaves**: the pairs whose address the other set does not contain on any
zone, in canonical form unless it returns before it merges. -/
theorem subtract_exact_iff :
    ((∀ ip z, (ip, z) ∈ (s.subtract other).pairs ↔ (ip, z) ∈ s.pairs ∧ other.contains ip = false) ∧
        (s.subtract other).IsCanonical ∧
        s.subtractChecked other = some ((s.subtract other).v4, (s.subtract other).v6)) ↔
      (s.v4Dirty = false ∧ s.v6Dirty = false) ∨ (s.isEmpty = false ∧ other.isEmpty = false) := by
  have hpairs : ∀ ip z, (ip, z) ∈ (s.subtract other).pairs ↔ (ip, z) ∈ s.pairs ∧ other.contains ip = false :=
    fun ip z => by rw [pairs_subtract]; rfl
  rw [and_iff_right hpairs, and_iff_left (s.subtractChecked_eq other), isCanonical_iff]
  unfold subtract
  split
  · rename_i he
    rw [or_iff_left]
    rintro ⟨hs, ho⟩
    rw [hs, ho] at he
    exact absurd he (by decide)
  · rename_i he
    refine iff_of_true ⟨rfl, rfl⟩ (.inr ?_)
    simpa [and_comm] using he

/-- Two addresses added out of order, and nothing to take away: they stay out of order. -/
theorem subtract_empty_unmerged : ¬ (((new.insert (.v4 1)).insert (.v4 0)).subtract new).IsCanonical := by
  intro h
  exact absurd h.v4_apart (by decide)

/-- **Sets taken away one after another** leave what is left when their union is taken away at once. -/
theorem foldl_subtract_eq (taken : List IpSet) : (taken.foldl subtract s).eq (s.subtract (fromSets taken)) = true := by
  rw [eq_iff]
  induction taken generalizing s with
  | nil => simp [pairs_subtract, ← Bool.not_eq_true, contains_iff, pairs_fromSets]
  | cons t rest ih =>
    rw [foldl_cons, ih]
    ext ⟨ip, z⟩
    simp [pairs_subtract, ← Bool.not_eq_true, contains_iff, pairs_fromSets, forall_and, and_assoc]

/-! ## Every history -/

/-- `Built s P`: operations that made `s`, with the pairs `P` that they added and have not removed since. -/
inductive Built : IpSet → Set (IpAddr × Zone) → Prop
  | new : Built new ∅
  | insert {s P} (ip : IpAddr) : Built s P → Built (s.insert ip) (P ∪ {(ip, none)})
  | insertRange {s P} (r : IpRange) : Built s P → Built (s.insertRange r) (P ∪ r.pairs)
  | pushV4Range {s P} (r : Ipv4Range) : Built s P → Built (s.pushV4Range r) (P ∪ IpRange.pairs (.v4 r))
  | pushV6Range {s P} (r : Ipv6Range) : Built s P → Built (s.pushV6Range r) (P ∪ IpRange.pairs (.v6 r))
  | extend {s P} (ips : List IpAddr) : Built s P → Built (s.extend ips) (P ∪ {x | x.1 ∈ ips ∧ x.2 = none})
  | canonicalize {s P} : Built s P → Built s.canonicalize P
  | subtract {s P other Q} : Built s P → Built other Q →
      Built (s.subtract other) {x | x ∈ P ∧ ∀ z, (x.1, z) ∉ Q}
  | fromAddrs (ips : List IpAddr) : Built (fromAddrs ips) {x | x.1 ∈ ips ∧ x.2 = none}
  | fromRanges (rs : List IpRange) : Built (fromRanges rs) {x | ∃ r ∈ rs, x ∈ r.pairs}
  | fromSets (parts : List (IpSet × Set (IpAddr × Zone))) : (∀ part ∈ parts, Built part.1 part.2) →
      Built (fromSets (parts.map (·.1))) {x | ∃ part ∈ parts, x ∈ part.2}

theorem Built.pairs_eq {s : IpSet} {P : Set (IpAddr × Zone)} (h : Built s P) : s.pairs = P := by
  induction h with
  | new => exact pairs_new
  | insert ip _ ih => rw [pairs_insert, ih]
  | insertRange r _ ih => rw [pairs_insertRange, ih]
  | pushV4Range r _ ih => rw [pairs_pushV4Range, ih]
  | pushV6Range r _ ih => rw [pairs_pushV6Range, ih]
  | extend ips _ ih => rw [pairs_extend, ih]
  | canonicalize _ ih => rw [pairs_canonicalize, ih]
  | subtract _ _ ih ih' =>
    rw [pairs_subtract, ih]
    simp only [← Bool.not_eq_true, contains_iff, ih', not_exists]
  | fromAddrs ips => exact pairs_fromAddrs ips
  | fromRanges rs => exact pairs_fromRanges rs
  | fromSets parts _ ih =>
    rw [pairs_fromSets]
    ext x
    simp only [mem_map, Set.mem_ofPred_eq, exists_exists_and_eq_and]
    refine exists_congr fun part => and_congr_right fun hpart => ?_
    rw [ih part hpart]

/-- **A set is right about what its history added and has not removed**, dirty or merged, and
merging leaves it canonical. -/
theorem built_exact {s t : IpSet} {P Q : Set (IpAddr × Zone)} (hs : Built s P) (ht : Built t Q) : s.pairs = P ∧
    (∀ ip, s.contains ip = true ↔ ∃ z, (ip, z) ∈ P) ∧
    (s.canonicalize.pairs = s.pairs ∧ ∀ ip, s.canonicalize.contains ip = s.contains ip) ∧
    (s.canonicalize.v4.Pairwise (fun a b => a.endAddr.val + 1 < b.startAddr.val) ∧
      s.canonicalize.v6.Pairwise fun a b => zoneKey a.zone ≤ zoneKey b.zone ∧
        (a.zone = b.zone → a.endAddr.val + 1 < b.startAddr.val)) ∧ (s.eq t = true ↔ P = Q) := by
  refine ⟨hs.pairs_eq, fun ip => ?_, ⟨s.pairs_canonicalize, contains_congr s.pairs_canonicalize⟩,
    ⟨s.isCanonical_canonicalize.v4_apart, s.isCanonical_canonicalize.v6_apart⟩, ?_⟩
  · rw [contains_iff, hs.pairs_eq]
  · rw [eq_iff, hs.pairs_eq, ht.pairs_eq]

/-- Two addresses added one at a time and out of order, against the range of both. -/
theorem built_exact_two_addrs : ((new.insert (.v4 1)).insert (.v4 0)).eq (fromRanges [.v4 ⟨0, 1, by decide⟩]) = true ↔
      ((∅ ∪ {(.v4 1, none)}) ∪ {(.v4 0, none)} : Set (IpAddr × Zone)) =
        {x | ∃ r ∈ [IpRange.v4 ⟨0, 1, by decide⟩], x ∈ r.pairs} :=
  (built_exact ((Built.new.insert (.v4 1)).insert (.v4 0)) (Built.fromRanges [.v4 ⟨0, 1, by decide⟩])).2.2.2.2

end IpSet

end Zond.Ip

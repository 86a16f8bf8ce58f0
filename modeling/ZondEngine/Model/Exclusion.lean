import ZondEngine.Model.Target

/-!
# Exclusions

`model/exclusion.rs`: a policy is a merged set and its *twins*, the same addresses in their other spelling, which is a
field (`excludes_iff`).
-/

namespace Zond.Ip

def mappedFirst : Nat := 0xffff * 2 ^ 32

def mappedLast : Nat := 0xffff * 2 ^ 32 + (2 ^ 32 - 1)

def toIpv6Mapped (a : Ipv4Addr) : Ipv6Addr := ⟨mappedFirst + a.val, by
  have := a.isLt
  unfold mappedFirst
  omega⟩

def toIpv4Mapped (a : Ipv6Addr) : Option Ipv4Addr :=
  if a.val / 2 ^ 32 = 0xffff then some (Fin.ofNat _ a.val) else none

def Ipv6Range.spelledIpv4 (r : Ipv6Range) : Option Ipv4Range := do
  let start ← toIpv4Mapped r.startAddr
  let stop ← toIpv4Mapped r.endAddr
  (Ipv4Range.new start stop).toOption

end Zond.Ip

namespace Zond.Exclusion

open Zond.Ip Zond.Ranges Zond.Plan

/-- The other spelling of every range that has one. -/
def twinsOf (set : IpSet) : IpSet :=
  let mapped := set.v4.foldl (fun twins range =>
    match Ipv6Range.new (toIpv6Mapped range.startAddr) (toIpv6Mapped range.endAddr) with
    | .ok mapped => twins.pushV6Range mapped
    | .error _ => twins) IpSet.new
  let twins := set.v6.foldl (fun twins range =>
    match range.spelledIpv4 with
    | some spelled => twins.pushV4Range spelled
    | none => twins) mapped
  twins.canonicalize

structure Exclusions where
  (set twins : IpSet)
  v4_clean : set.v4Dirty = false
  v6_clean : set.v6Dirty = false
  twins_eq : twins = twinsOf set

namespace Exclusions

def new (ips : IpSet) : Exclusions :=
  ⟨ips.canonicalize, twinsOf ips.canonicalize, ips.v4Dirty_canonicalize, ips.v6Dirty_canonicalize, rfl⟩

def none : Exclusions := ⟨.new, .new, rfl, rfl, rfl⟩

variable (e : Exclusions)

def isEmpty : Bool := e.set.isEmpty

/-- Whether an address is kept out, in either spelling. -/
def excludes (ip : IpAddr) : Bool :=
  if e.set.isEmpty then false else e.set.contains ip || e.twins.contains ip

/-- Layers another policy over this one. -/
def extend (e other : Exclusions) : Exclusions :=
  if other.isEmpty then e
  else
    let pushed := other.set.v6.foldl IpSet.pushV6Range (other.set.v4.foldl IpSet.pushV4Range e.set)
    ⟨pushed.canonicalize, twinsOf pushed.canonicalize, rfl, rfl, rfl⟩

def withhold (ips : IpSet) : IpSet × Nat :=
  if e.isEmpty then (ips, 0)
  else
    let left := (ips.subtract e.set).subtract e.twins
    (left, ips.len - left.len)

def withholdUnit : List TargetSet × Nat → TargetSet → List TargetSet × Nat
  | (kept, withheld), unit =>
    let narrowed := e.withhold unit.ips
    (if narrowed.1.isEmpty then kept else kept ++ [.new narrowed.1 unit.ports], Word.satAdd 128 withheld narrowed.2)

/-- Takes the excluded addresses out of a plan. -/
def withholdTargets (map : TargetMap) : TargetMap × Nat :=
  if e.isEmpty then (map, 0)
  else
    let kept := map.units.foldl e.withholdUnit ([], 0)
    (⟨kept.1⟩, kept.2)

end Exclusions

section Spelling

variable {r : Ipv6Range} {y : Ipv4Addr}

theorem eq_toIpv6Mapped_iff {a : Ipv6Addr} : a = toIpv6Mapped y ↔ a.val = mappedFirst + y.val := Fin.ext_iff

theorem contains_iff_val {q : Ipv4Range} : q.contains y = true ↔ q.startAddr.val ≤ y.val ∧ y.val ≤ q.endAddr.val :=
  Ipv4Range.contains_iff.trans (and_iff_right rfl)

theorem toIpv4Mapped_eq_some_iff {a : Ipv6Addr} : toIpv4Mapped a = some y ↔ a = toIpv6Mapped y := by
  rw [toIpv4Mapped, Option.ite_none_right_eq_some, Option.some_inj, Fin.ext_iff, Fin.val_ofNat, eq_toIpv6Mapped_iff,
    mappedFirst]
  omega

theorem exists_mapped_iff {a : Ipv6Addr} : (∃ y, a = toIpv6Mapped y) ↔ mappedFirst ≤ a.val ∧ a.val ≤ mappedLast := by
  simp only [eq_toIpv6Mapped_iff]
  unfold mappedLast mappedFirst
  constructor
  · intro ⟨y, hy⟩
    omega
  · intro ⟨h₁, h₂⟩
    exact ⟨⟨a.val - 0xffff * 2 ^ 32, by omega⟩, (Nat.add_sub_cancel' h₁).symm⟩

theorem spells_iff : (∃ q, r.spelledIpv4 = some q ∧ q.contains y = true) ↔
    mappedFirst ≤ lo r ∧ hi r ≤ mappedLast ∧ lo r ≤ (toIpv6Mapped y).val ∧ (toIpv6Mapped y).val ≤ hi r := by
  have hle := lo_le_hi r
  have hyv : (toIpv6Mapped y).val = mappedFirst + y.val := rfl
  constructor
  · intro ⟨q, hq, hy⟩
    simp only [Ipv6Range.spelledIpv4, Option.bind_eq_bind, Option.bind_eq_some_iff] at hq
    obtain ⟨start, hstart, stop, hstop, hq⟩ := hq
    have hs := toIpv4Mapped_eq_some_iff.mp hstart
    have he := toIpv4Mapped_eq_some_iff.mp hstop
    refine ⟨(exists_mapped_iff.mp ⟨start, hs⟩).1, (exists_mapped_iff.mp ⟨stop, he⟩).2, ?_⟩
    have hsv : lo r = mappedFirst + start.val := eq_toIpv6Mapped_iff.mp hs
    have hev : hi r = mappedFirst + stop.val := eq_toIpv6Mapped_iff.mp he
    unfold Ipv4Range.new at hq
    split at hq
    · cases hq
      have hin : start.val ≤ y.val ∧ y.val ≤ stop.val := contains_iff_val.mp hy
      omega
    · cases hq
  · intro ⟨h₁, h₂, h₃, h₄⟩
    obtain ⟨start, hs⟩ := exists_mapped_iff.mpr ⟨h₁, hle.trans h₂⟩
    obtain ⟨stop, he⟩ := exists_mapped_iff.mpr ⟨h₁.trans hle, h₂⟩
    have hsv : lo r = mappedFirst + start.val := eq_toIpv6Mapped_iff.mp hs
    have hev : hi r = mappedFirst + stop.val := eq_toIpv6Mapped_iff.mp he
    have hse : start ≤ stop := Fin.le_def.mpr (by omega)
    refine ⟨⟨start, stop, hse⟩, ?_, contains_iff_val.mpr (show start.val ≤ y.val ∧ y.val ≤ stop.val by omega)⟩
    simp only [Ipv6Range.spelledIpv4, toIpv4Mapped_eq_some_iff.mpr hs, toIpv4Mapped_eq_some_iff.mpr he,
      Option.bind_eq_bind, Option.bind_some, Ipv4Range.new, dif_pos hse]
    rfl

end Spelling

/-! ## What a policy excludes -/

variable (set : IpSet)

def Spelled (y : Ipv4Addr) : Prop := ∃ r ∈ set.v6, ∃ q, r.spelledIpv4 = some q ∧ q.contains y = true

def mappedRange (r : Ipv4Range) : Ipv6Range :=
  ⟨toIpv6Mapped r.startAddr, toIpv6Mapped r.endAddr, none, Nat.add_le_add_left r.start_le_end _, unzoned_ne_zero⟩

theorem new_mapped (r : Ipv4Range) :
    Ipv6Range.new (toIpv6Mapped r.startAddr) (toIpv6Mapped r.endAddr) = .ok (mappedRange r) :=
  dif_pos (Nat.add_le_add_left r.start_le_end _)

theorem mappedRange_contains_iff {r : Ipv4Range} {x : Ipv6Addr} :
    (mappedRange r).contains x = true ↔ ∃ y, x = toIpv6Mapped y ∧ r.contains y = true := by
  have hlo : lo (mappedRange r) = mappedFirst + r.startAddr.val := rfl
  have hhi : hi (mappedRange r) = mappedFirst + r.endAddr.val := rfl
  simp only [Ipv6Range.contains_iff, hlo, hhi, contains_iff_val]
  constructor
  · intro ⟨h₁, h₂⟩
    obtain ⟨y, hy⟩ := exists_mapped_iff.mpr ⟨(Nat.le_add_right _ _).trans h₁, by
      unfold mappedLast mappedFirst at *
      omega⟩
    have hyv := eq_toIpv6Mapped_iff.mp hy
    exact ⟨y, hy, by omega, by omega⟩
  · intro ⟨y, hy, h₁, h₂⟩
    have hyv := eq_toIpv6Mapped_iff.mp hy
    omega

theorem pairs_twinsOf : (twinsOf set).pairs = {p | ∃ r ∈ set.v4, p ∈ IpRange.pairs (.v6 (mappedRange r))} ∪
      {p | ∃ r ∈ set.v6, ∃ q, r.spelledIpv4 = some q ∧ p ∈ IpRange.pairs (.v4 q)} := by
  have hspelled : ∀ (twins : IpSet) (range : Ipv6Range),
      (match range.spelledIpv4 with
        | some spelled => twins.pushV4Range spelled
        | none => twins).pairs = twins.pairs ∪ {p | ∃ q, range.spelledIpv4 = some q ∧ p ∈ IpRange.pairs (.v4 q)} := by
    intro twins range
    cases h : range.spelledIpv4 with
    | none => simp
    | some q =>
      rw [IpSet.pairs_pushV4Range]
      simp
  simp only [twinsOf, new_mapped]
  rw [IpSet.pairs_canonicalize, IpSet.pairs_foldl hspelled,
    IpSet.pairs_foldl (fun s r => IpSet.pairs_pushV6Range s (mappedRange r)), IpSet.pairs_new, Set.empty_union]
  rfl

theorem twinsOf_contains_v4 (y : Ipv4Addr) : (twinsOf set).contains (.v4 y) = true ↔ Spelled set y := by
  rw [IpSet.contains_iff, pairs_twinsOf]
  constructor
  · intro ⟨z, hz⟩
    rcases hz with ⟨r, hr, hin, _⟩ | ⟨r, hr, q, hq, hin, _⟩
    · cases hin
    · exact ⟨r, hr, q, hq, hin⟩
  · intro ⟨r, hr, q, hq, hin⟩
    exact ⟨none, .inr ⟨r, hr, q, hq, hin, rfl⟩⟩

theorem twinsOf_contains_v6 (x : Ipv6Addr) :
    (twinsOf set).contains (.v6 x) = true ↔ ∃ y, x = toIpv6Mapped y ∧ (.v4 y, none) ∈ set.pairs := by
  rw [IpSet.contains_iff, pairs_twinsOf]
  constructor
  · intro ⟨z, hz⟩
    rcases hz with ⟨r, hr, hin, _⟩ | ⟨r, hr, q, hq, hin, _⟩
    · obtain ⟨y, hy, hin⟩ := mappedRange_contains_iff.mp hin
      exact ⟨y, hy, rfl, r, hr, hin⟩
    · cases hin
  · intro ⟨y, hy, _, r, hr, hin⟩
    exact ⟨none, .inl ⟨r, hr, mappedRange_contains_iff.mpr ⟨y, hy, hin⟩, rfl⟩⟩

variable (e : Exclusions)

/-- **What a policy excludes**: the addresses of its set on any zone, the mapped spelling of its IPv4 addresses,
and the IPv4 addresses its ranges spell. -/
theorem excludes_iff (ip : IpAddr) : e.excludes ip = true ↔
    (∃ z, (ip, z) ∈ e.set.pairs) ∨
      match ip with
      | .v4 y => Spelled e.set y
      | .v6 x => ∃ y, x = toIpv6Mapped y ∧ (.v4 y, none) ∈ e.set.pairs := by
  unfold Exclusions.excludes
  split
  · rename_i hempty
    have hpairs := IpSet.pairs_eq_empty_iff.mpr hempty
    have hv6 : e.set.v6 = [] := by
      rw [IpSet.isEmpty, Bool.and_eq_true, List.isEmpty_iff, List.isEmpty_iff] at hempty
      exact hempty.2
    cases ip with
    | v4 y => simp [hpairs, Spelled, hv6]
    | v6 x => simp [hpairs]
  · rw [Bool.or_eq_true, IpSet.contains_iff, e.twins_eq]
    cases ip with
    | v4 y => rw [twinsOf_contains_v4]
    | v6 x => rw [twinsOf_contains_v6]

/-! ## Layering -/

/-- Wherever they hold a mapped spelling, they hold the stretch from it to just outside the mapped block. -/
def Swallowed (P : Set (IpAddr × Zone)) (y : Ipv4Addr) : Prop :=
  ∀ z, (.v6 (toIpv6Mapped y), z) ∈ P →
    (∀ x : Ipv6Addr, mappedFirst ≤ x.val + 1 → x ≤ toIpv6Mapped y → (.v6 x, z) ∈ P) ∨
      ∀ x : Ipv6Addr, toIpv6Mapped y ≤ x → x.val ≤ mappedLast + 1 → (.v6 x, z) ∈ P

theorem exists_not_mem_iff (z : Zone) (p : Nat → Prop) (hp : ∀ n, p n → n < 2 ^ 128) :
    (∃ n, p n ∧ (zoneKey z, n) ∉ held set.v6) ↔ ∃ x : Ipv6Addr, p x.val ∧ (.v6 x, z) ∉ set.pairs := by
  constructor
  · intro ⟨n, hn, hnot⟩
    exact ⟨⟨n, hp n hn⟩, hn, fun hin => hnot (IpSet.mem_pairs_v6.mp hin)⟩
  · intro ⟨x, hx, hnot⟩
    exact ⟨x.val, hx, fun hin => hnot (IpSet.mem_pairs_v6.mpr hin)⟩

/-- **A merged set spells an IPv4 address exactly when what it denotes does not swallow it.** -/
theorem spelled_iff {set : IpSet} (hclean : set.v6Dirty = false) (y : Ipv4Addr) :
    Spelled set y ↔ ¬ Swallowed set.pairs y := by
  have hlast : mappedLast + 1 < 2 ^ 128 := by decide
  have hbetween := fun z => (set.v6_merged hclean).exists_between_iff (zoneKey z) (toIpv6Mapped y).val
    mappedFirst mappedLast (by decide)
  have hspelled : Spelled set y ↔ ∃ z, ∃ r ∈ set.v6, group r = zoneKey z ∧ mappedFirst ≤ lo r ∧ hi r ≤ mappedLast ∧
      lo r ≤ (toIpv6Mapped y).val ∧ (toIpv6Mapped y).val ≤ hi r := by
    unfold Spelled
    simp only [spells_iff]
    constructor
    · intro ⟨r, hr, hin⟩
      exact ⟨r.zone, r, hr, rfl, hin⟩
    · intro ⟨_, r, hr, _, hin⟩
      exact ⟨r, hr, hin⟩
  have hswallowed : ¬ Swallowed set.pairs y ↔ ∃ z, (.v6 (toIpv6Mapped y), z) ∈ set.pairs ∧
      (∃ x : Ipv6Addr, (mappedFirst ≤ x.val + 1 ∧ x.val ≤ (toIpv6Mapped y).val) ∧ (.v6 x, z) ∉ set.pairs) ∧
      ∃ x : Ipv6Addr, ((toIpv6Mapped y).val ≤ x.val ∧ x.val ≤ mappedLast + 1) ∧ (.v6 x, z) ∉ set.pairs := by
    unfold Swallowed
    push Not
    simp only [Fin.le_def, and_assoc]
  rw [hspelled, hswallowed]
  refine exists_congr fun z => ?_
  have hlow := exists_not_mem_iff set z (fun n => mappedFirst ≤ n + 1 ∧ n ≤ (toIpv6Mapped y).val) fun n hn => by omega
  have hhigh := exists_not_mem_iff set z (fun n => (toIpv6Mapped y).val ≤ n ∧ n ≤ mappedLast + 1) fun n hn => by omega
  rw [hbetween, IpSet.mem_pairs_v6, ← hlow, ← hhigh]
  simp only [and_assoc]

theorem widens_iff {a b e : Exclusions} (he : e.set.pairs = a.set.pairs ∪ b.set.pairs) :
    (∀ ip, a.excludes ip = true ∨ b.excludes ip = true → e.excludes ip = true) ↔
      ∀ y, Spelled a.set y ∨ Spelled b.set y →
        (.v4 y, none) ∈ a.set.pairs ∪ b.set.pairs ∨ ¬ Swallowed (a.set.pairs ∪ b.set.pairs) y := by
  have hexcl := fun y => excludes_iff e (.v4 y)
  simp only [spelled_iff e.v6_clean, he] at hexcl
  constructor
  · intro h y hy
    have hout := (hexcl y).mp (h (.v4 y) (hy.imp (fun hy => (excludes_iff a _).mpr (.inr hy))
      fun hy => (excludes_iff b _).mpr (.inr hy)))
    refine hout.imp_left fun ⟨z, hz⟩ => ?_
    have hnone : z = none := hz.elim (fun hz => hz.1) fun hz => hz.1
    exact hnone ▸ hz
  · intro h ip hab
    have hpart : ∀ c : Exclusions, c.set.pairs ⊆ a.set.pairs ∪ b.set.pairs →
        (∀ y, Spelled c.set y → Spelled a.set y ∨ Spelled b.set y) → c.excludes ip = true → e.excludes ip = true := by
      intro c hsub hspelled hc
      rcases (excludes_iff c ip).mp hc with ⟨z, hz⟩ | htwin
      · exact (excludes_iff e ip).mpr (.inl ⟨z, he ▸ hsub hz⟩)
      · cases ip with
        | v4 y =>
          apply (hexcl y).mpr
          exact (h y (hspelled y htwin)).imp_left fun hin => ⟨none, hin⟩
        | v6 x =>
          obtain ⟨y, hy, hin⟩ := htwin
          exact (excludes_iff e _).mpr (.inr ⟨y, hy, he ▸ hsub hin⟩)
    rcases hab with ha | hb
    · exact hpart a Set.subset_union_left (fun y hy => .inl hy) ha
    · exact hpart b Set.subset_union_right (fun y hy => .inr hy) hb

theorem pairs_extend_set (a b : Exclusions) : (a.extend b).set.pairs = a.set.pairs ∪ b.set.pairs := by
  unfold Exclusions.extend
  split
  · rename_i hempty
    rw [IpSet.pairs_eq_empty_iff.mpr hempty, Set.union_empty]
  · simp only [IpSet.pairs_canonicalize, IpSet.pairs_foldl IpSet.pairs_pushV6Range,
      IpSet.pairs_foldl IpSet.pairs_pushV4Range, Set.union_assoc]
    rw [← IpSet.pairs_eq_union]

/-- **When layering two policies widens them**: exactly when every IPv4 address that a range of
either spells is also named by one of them, or is not swallowed. -/
theorem extend_widens_iff (a b : Exclusions) :
    ((∀ ip, a.excludes ip = true ∨ b.excludes ip = true → (a.extend b).excludes ip = true) ∧
      ∀ union : IpSet, union.pairs = a.set.pairs ∪ b.set.pairs →
        ∀ ip, a.excludes ip = true ∨ b.excludes ip = true → (Exclusions.new union).excludes ip = true) ↔
    ∀ y, Spelled a.set y ∨ Spelled b.set y →
      (.v4 y, none) ∈ a.set.pairs ∪ b.set.pairs ∨ ¬ Swallowed (a.set.pairs ∪ b.set.pairs) y := by
  constructor
  · intro ⟨hextend, _⟩
    exact (widens_iff (pairs_extend_set a b)).mp hextend
  · intro h
    refine ⟨(widens_iff (pairs_extend_set a b)).mpr h, fun union hunion => ?_⟩
    exact (widens_iff ((IpSet.pairs_canonicalize union).trans hunion)).mpr h

def spelledHost : Exclusions := .new (IpSet.new.insert (.v6 0xffff0a000005))

def noIpv6 : Exclusions :=
  .new (IpSet.new.insertRange (.v6 ⟨0, 0xffffffffffffffffffffffffffffffff, none, by decide, by decide⟩))

/-- Excluding all of IPv6 on top of `::ffff:10.0.0.5` lets `10.0.0.5` back in. -/
theorem extend_loses_host :
    spelledHost.excludes (.v4 0x0a000005) = true ∧ (spelledHost.extend noIpv6).excludes (.v4 0x0a000005) = false := by
  decide +kernel

/-! ## Withholding -/

theorem pairs_withhold (ips : IpSet) : (e.withhold ips).1.pairs = {x | x ∈ ips.pairs ∧ e.excludes x.1 = false} := by
  unfold Exclusions.withhold Exclusions.excludes Exclusions.isEmpty
  cases hempty : e.set.isEmpty with
  | true => simp
  | false =>
    simp only [Bool.false_eq_true, if_false, IpSet.pairs_subtract, Set.mem_ofPred_eq, Bool.or_eq_false_iff, and_assoc]

theorem contains_withhold (ips : IpSet) (ip : IpAddr) :
    (e.withhold ips).1.contains ip = true ↔ ips.contains ip = true ∧ e.excludes ip = false := by
  rw [IpSet.contains_iff, IpSet.contains_iff, pairs_withhold]
  simp only [Set.mem_ofPred_eq, exists_and_right]

theorem withhold_count (ips : IpSet) (h : ips.pairs.ncard < 2 ^ 128) :
    (e.withhold ips).2 = (ips.pairs \ (e.withhold ips).1.pairs).ncard := by
  have hsub : (e.withhold ips).1.pairs ⊆ ips.pairs := by
    rw [pairs_withhold]
    exact fun _ hx => hx.1
  have hle := Set.ncard_le_ncard hsub ips.finite_pairs
  rw [Set.ncard_sdiff hsub (IpSet.finite_pairs _), ← IpSet.len_eq h, ← IpSet.len_eq (hle.trans_lt h)]
  unfold Exclusions.withhold
  split
  · exact (Nat.sub_self _).symm
  · rfl

def narrow (unit : TargetSet) : Option TargetSet :=
  if e.isEmpty then some unit
  else if (e.withhold unit.ips).1.isEmpty then none
  else some (.new (e.withhold unit.ips).1 unit.ports)

theorem foldl_withholdUnit {e : Exclusions} (he : e.isEmpty = false) :
    ∀ (units kept : List TargetSet) (withheld : Nat),
    (units.foldl e.withholdUnit (kept, withheld)).1 = kept ++ units.filterMap (narrow e)
  | [], kept, _ => by simp
  | unit :: units, kept, withheld => by
    rw [List.foldl_cons, Exclusions.withholdUnit, foldl_withholdUnit he units, List.filterMap_cons, narrow, he]
    cases (e.withhold unit.ips).1.isEmpty <;> simp

theorem units_withholdTargets (map : TargetMap) : (e.withholdTargets map).1.units = map.units.filterMap (narrow e) := by
  unfold Exclusions.withholdTargets
  split
  · rename_i he
    have : narrow e = some := by
      funext unit
      rw [narrow, if_pos he]
    rw [this, List.filterMap_some]
  · rename_i he
    exact foldl_withholdUnit (Bool.eq_false_iff.mpr he) map.units [] 0

theorem narrow_some {e : Exclusions} {unit kept : TargetSet} (h : narrow e unit = some kept) : kept.ports = unit.ports ∧
      ∀ ip, kept.ips.contains ip = true ↔ unit.ips.contains ip = true ∧ e.excludes ip = false := by
  unfold narrow at h
  split at h
  · rename_i he
    cases h
    refine ⟨rfl, fun ip => ?_⟩
    have : e.excludes ip = false := if_pos he
    simp [this]
  · split at h
    · cases h
    · cases h
      refine ⟨rfl, fun ip => ?_⟩
      rw [← contains_withhold]
      exact Bool.eq_iff_iff.mp (IpSet.contains_congr (IpSet.pairs_canonicalize _) ip)

theorem narrow_none {e : Exclusions} {unit : TargetSet} (h : narrow e unit = none) (ip : IpAddr)
    (hin : unit.ips.contains ip = true) : e.excludes ip = true := by
  unfold narrow at h
  split at h
  · cases h
  · split at h
    · rename_i hempty
      by_contra hex
      have hleft := (contains_withhold e unit.ips ip).mpr ⟨hin, Bool.eq_false_iff.mpr hex⟩
      rw [IpSet.contains_iff, IpSet.pairs_eq_empty_iff.mpr hempty] at hleft
      exact hleft.elim fun _ hz => hz
    · cases h

theorem narrow_nonempty {e : Exclusions} (he : e.isEmpty = false) {unit kept : TargetSet}
    (h : narrow e unit = some kept) : kept.ips.isEmpty = false := by
  rw [narrow, he, if_neg Bool.false_ne_true, Option.ite_none_left_eq_some] at h
  obtain ⟨hleft, ⟨⟩⟩ := h
  rw [Bool.eq_false_iff, ne_eq, ← IpSet.pairs_eq_empty_iff]
  show ¬ (e.withhold unit.ips).1.canonicalize.pairs = ∅
  rwa [IpSet.pairs_canonicalize, IpSet.pairs_eq_empty_iff]

/-- **What is withheld is what is excluded**, from a set, with its count, and from every unit of a
plan. -/
theorem withhold_exact (ips : IpSet) (map : TargetMap) :
    (∀ ip, (e.withhold ips).1.contains ip = true ↔ ips.contains ip = true ∧ e.excludes ip = false) ∧
    (ips.pairs.ncard < 2 ^ 128 → (e.withhold ips).2 = (ips.pairs \ (e.withhold ips).1.pairs).ncard) ∧
    (∀ unit ∈ (e.withholdTargets map).1.units, ∀ ip, e.excludes ip = true → unit.ips.contains ip = false) ∧
    (e.isEmpty = false → ∀ unit ∈ (e.withholdTargets map).1.units, unit.ips.isEmpty = false) ∧
    (e.isEmpty = true → (e.withholdTargets map).1 = map) ∧
    ∃ narrowed : TargetSet → Option TargetSet, (e.withholdTargets map).1.units = map.units.filterMap narrowed ∧
      ∀ unit ∈ map.units, (∀ kept, narrowed unit = some kept → kept.ports = unit.ports ∧
          ∀ ip, kept.ips.contains ip = true ↔ unit.ips.contains ip = true ∧ e.excludes ip = false) ∧
        (narrowed unit = none → ∀ ip, unit.ips.contains ip = true → e.excludes ip = true) := by
  have hunits := units_withholdTargets e map
  refine ⟨contains_withhold e ips, withhold_count e ips, ?_, ?_, ?_, narrow e, hunits, ?_⟩
  · intro unit hunit ip hex
    rw [hunits] at hunit
    obtain ⟨source, _, hsource⟩ := List.mem_filterMap.mp hunit
    by_contra hin
    have := ((narrow_some hsource).2 ip).mp (Bool.not_eq_false _ ▸ hin)
    rw [hex] at this
    cases this.2
  · intro he unit hunit
    rw [hunits] at hunit
    obtain ⟨source, _, hsource⟩ := List.mem_filterMap.mp hunit
    exact narrow_nonempty he hsource
  · intro he
    rw [Exclusions.withholdTargets, if_pos he]
  · intro unit _
    exact ⟨fun kept hkept => narrow_some hkept, narrow_none⟩

def noAddress : TargetMap := ⟨[.new .new .new]⟩

theorem withhold_keeps_empty_unit :
    ∃ unit ∈ (Exclusions.none.withholdTargets noAddress).1.units, unit.ips.isEmpty = true :=
  ⟨_, List.mem_singleton_self _, rfl⟩

end Zond.Exclusion

import ZondEngine.Scanner.Dispatcher

/-!
# Handing out the addresses of a sweep

`dispatch_addresses_of` of `scanner/dispatcher.rs` streams the addresses of a set along the order of a whole plan, or in
shuffled batches (`sendAll_perm`). An address a plan holds on two interfaces comes three times (`sweep_repeats`);
`sweep_once_iff` says that no other does.
-/

namespace Zond.Dispatch

open Zond.Ip Zond.Order List Option Positions

/-! ## The stream -/

structure Numbering where
  positions : Positions
  total_lt : positions.total < 2 ^ 64

namespace Numbering

def of (s : IpSet) : Numbering where
  positions := .of s
  total_lt := by
    obtain ⟨_, h⟩ := (ofCanonical_spec s.merged).1
    exact h.total_lt

def order (numbering : Numbering) (seed : UInt64) : Permutation :=
  .new seed numbering.positions.total numbering.total_lt

end Numbering

section Stream

variable (ips : IpSet) (numbering : Numbering)

def walkedAddresses (order : Permutation) : List (Option IpAddr) :=
  (order.iterFrom 0).map fun position => (numbering.positions.addressAt position).filter ips.contains

def addresses (seed : Option UInt64) (plan : Option Numbering) : List (Option IpAddr) :=
  match seed, plan with
  | none, _ => ips.iter.map some
  | some seed, some plan =>
    walkedAddresses ips plan (plan.order seed) ++
      ips.iter.map fun ip => if (plan.positions.find ip).isNone then some ip else none
  | some seed, none =>
    walkedAddresses ips (.of ips) ((Numbering.of ips).order seed) ++
      ((Numbering.of ips).positions.unnumbered.flatMap IpRange.iter).map some

end Stream

section Loop

variable (channel : Channel IpAddr) (batchSize : Nat) (shuffle : Bool)

/-- What is sent of the rest of the stream, with a batch waiting. -/
def sendAll : List (Option IpAddr) → (now : Nat) → (batch : List IpAddr) → List IpAddr
  | [], now, batch => (drain channel batch now 0 shuffle).delivered
  | none :: rest, now, batch => if channel.shouldStop now then [] else sendAll rest (now + 1) batch
  | some ip :: rest, now, batch =>
    if (batch ++ [ip]).length < batchSize then sendAll rest now (batch ++ [ip])
    else
      let drained := drain channel (batch ++ [ip]) now 0 shuffle
      if drained.running then drained.delivered ++ sendAll rest drained.now [] else drained.delivered

/-- The addresses a sweep sends. -/
def dispatchAddressesOf (ips : IpSet) (seed : Option UInt64) (plan : Option Numbering) : List IpAddr :=
  sendAll channel (max batchSize 1) seed.isNone
    (addresses ips seed (plan.filter fun plan => decide (plan.positions.total > 0))) 0 []

end Loop

/-! ## What reaches the channel -/

theorem sendAll_perm {channel : Channel IpAddr} (hquiet : channel.Quiet) (batchSize : Nat) (shuffle : Bool)
    (items : List (Option IpAddr)) (now : Nat) (batch : List IpAddr) :
    (sendAll channel batchSize shuffle items now batch).Perm (batch ++ items.filterMap id) := by
  induction items generalizing now batch with
  | nil =>
    have hdrain := drain_of channel batch now 0 shuffle
    simpa [sendAll] using hdrain.whole (hdrain.goes_on hquiet)
  | cons item rest ih =>
    cases item with
    | none => simpa [sendAll, hquiet.goes_on now] using ih (now + 1) batch
    | some ip =>
      have hdrain := drain_of channel (batch ++ [ip]) now 0 shuffle
      have hrunning := hdrain.goes_on hquiet
      simp only [sendAll, hrunning, if_true, filterMap_cons, id]
      split
      · simpa using ih now (batch ++ [ip])
      · simpa using (hdrain.whole hrunning).append (ih _ [])

theorem iterFrom_zero_perm (order : Permutation) : (order.iterFrom 0).Perm (List.range order.len) := by
  rw [perm_ext_iff_of_nodup (order.nodup_iterFrom 0) nodup_range]
  intro position
  rw [Permutation.mem_iterFrom, mem_range]
  constructor
  · rintro ⟨_, -, hi⟩
    exact (Permutation.indexOf_lt hi).2
  · intro hlt
    obtain ⟨i, hi⟩ := Permutation.exists_indexOf hlt
    exact ⟨i, Nat.zero_le i, hi⟩

theorem filterMap_range_getElem? {α : Type*} (p : α → Bool) (l : List α) :
    (List.range l.length).filterMap (fun i => l[i]?.filter p) = l.filter p := by
  induction l with
  | nil => rfl
  | cons a l ih =>
    rw [length_cons, range_succ_eq_map, filterMap_cons, filterMap_map, filter_cons]
    have hrest : (List.range l.length).filterMap ((fun i => (a :: l)[i]?.filter p) ∘ Nat.succ) = l.filter p := by
      rw [← ih]
      rfl
    rw [hrest, getElem?_cons_zero, filter_some]
    cases p a <;> rfl

def numberedAddresses (s : IpSet) : List IpAddr := s.iter.take (Positions.of s).total

theorem length_numberedAddresses (s : IpSet) : (numberedAddresses s).length = (Positions.of s).total := by
  obtain ⟨_, h⟩ := (ofCanonical_spec s.merged).1
  rw [numberedAddresses, take_iter]
  exact h.length_flatMap

theorem walkedAddresses_perm (ips s : IpSet) (seed : UInt64) :
    ((walkedAddresses ips (.of s) ((Numbering.of s).order seed)).filterMap id).Perm
      ((numberedAddresses s).filter ips.contains) := by
  rw [walkedAddresses, filterMap_map, ← filterMap_range_getElem?, length_numberedAddresses]
  refine ((iterFrom_zero_perm _).filterMap _).trans (.of_eq ?_)
  refine filterMap_congr fun position _ => ?_
  change ((Positions.of s).addressAt position).filter ips.contains = _
  rw [addressAt_eq, numberedAddresses]

section Found

variable (s : IpSet) (ip : IpAddr)

theorem contains_iff_mem_iter : s.contains ip = true ↔ ip ∈ s.iter := by
  rw [IpSet.contains_iff, IpSet.mem_iter]

theorem count_iter_range (r : IpRange) : r.iter.count ip = if r.contains ip = true then 1 else 0 := by
  rw [List.Nodup.count r.nodup_iter]
  simp only [IpRange.mem_iter]

theorem count_numberedAddresses :
    (numberedAddresses s).count ip = ((Positions.of s).spans.filter fun span => span.range.contains ip).length := by
  rw [numberedAddresses, take_iter, count_flatMap, ← countP_eq_length_filter]
  induction (Positions.of s).spans with
  | nil => rfl
  | cons span spans ih =>
    rw [map_cons, sum_cons, ih, Function.comp_apply, count_iter_range, countP_cons]
    omega

/-- **An address is found exactly where it is numbered once.** -/
theorem isSome_find_iff : ((Positions.of s).find ip).isSome = true ↔ (numberedAddresses s).count ip = 1 := by
  obtain ⟨_, h⟩ := (ofCanonical_spec s.merged).1
  have hholding := h.spanHolding_eq_some_iff (spans_canonical s) ip
  have hnodup : ((Positions.of s).spans.filter fun span => span.range.contains ip).Nodup := by
    refine (h.tiles.pairwise.imp_of_mem fun {a b} ha _ hend heq => ?_).filter _
    have hlen := h.len_eq a ha
    have hpos := a.range.size_pos
    rw [← heq] at hend
    omega
  rw [count_numberedAddresses]
  constructor
  · intro hsome
    obtain ⟨position, hf⟩ := isSome_iff_exists.mp hsome
    simp only [Positions.find, bind_eq_bind, bind_eq_some_iff] at hf
    obtain ⟨span, hold, -⟩ := hf
    obtain ⟨hspan, hunique⟩ := (hholding span).mp hold
    have hperm : ((Positions.of s).spans.filter fun span => span.range.contains ip).Perm [span] := by
      rw [perm_ext_iff_of_nodup hnodup (nodup_singleton _)]
      intro other
      rw [mem_filter, mem_singleton]
      exact ⟨fun ho => hunique other ho.1 ho.2, fun heq => heq ▸ hspan⟩
    exact hperm.length_eq
  · intro hone
    obtain ⟨span, hspan⟩ := length_eq_one_iff.mp hone
    have hmem : ∀ other, other ∈ (Positions.of s).spans ∧ other.range.contains ip = true ↔ other = span := by
      intro other
      have hin : other ∈ [span] ↔ other = span := mem_singleton
      rwa [← hspan, mem_filter] at hin
    have hheld := (hmem span).mpr rfl
    have hold := (hholding span).mpr ⟨hheld, fun other ho hin => (hmem other).mp ⟨ho, hin⟩⟩
    rw [find_eq s hold hheld.1 hheld.2]
    rfl

end Found

/-! ## Each address once -/

def OneZone (s : IpSet) : Prop := ∀ ip z z', (ip, z) ∈ s.pairs → (ip, z') ∈ s.pairs → z = z'

def NamesOnce (s ips : IpSet) : Prop :=
  ∀ ip i j, ips.contains ip = true → (Positions.of s).addressAt i = some ip → (Positions.of s).addressAt j = some ip →
    i = j

theorem OneZone.nodup_iter {s : IpSet} (h : OneZone s) : s.iter.Nodup := by
  rw [iter_eq_rangesOf]
  refine nodup_flatMap.mpr ⟨fun r _ => r.nodup_iter, ?_⟩
  refine (canonical_rangesOf s).imp_of_mem fun {a b} ha hb hapart ip hin hin' => ?_
  rw [IpRange.mem_iter] at hin hin'
  have hzone : a.zone = b.zone := by
    refine h ip _ _ ?_ ?_
    · exact (mem_pairs_iff_range s ip _).mpr ⟨a, ha, hin, rfl⟩
    · exact (mem_pairs_iff_range s ip _).mpr ⟨b, hb, hin', rfl⟩
  have hgroup := group_eq_of_contains hin hin' hzone
  have ha := (IpRange.contains_iff.mp hin).2
  have hb := (IpRange.contains_iff.mp hin').2
  unfold Ranges.Apart at hapart
  omega

theorem namesOnce_iff (s ips : IpSet) :
    NamesOnce s ips ↔ ∀ ip, ips.contains ip = true → (numberedAddresses s).count ip ≤ 1 := by
  have hat : ∀ position ip, (Positions.of s).addressAt position = some ip ↔
      (numberedAddresses s)[position]? = some ip := fun position ip => by rw [addressAt_eq]; rfl
  refine ⟨fun h ip hin => ?_, fun h ip i j hin hi hj => ?_⟩
  · by_contra htwice
    obtain ⟨i, j, hlt, hi, hj⟩ :=
      duplicate_iff_exists_distinct_get.mp (duplicate_iff_two_le_count.mpr (Nat.not_le.mp htwice))
    have heq := h ip i j hin ((hat _ _).mpr (by simp [hi])) ((hat _ _).mpr (by simp [hj]))
    omega
  · rw [hat, getElem?_eq_some_iff] at hi hj
    obtain ⟨hi, hgeti⟩ := hi
    obtain ⟨hj, hgetj⟩ := hj
    have hnot : ¬ (numberedAddresses s).Duplicate ip := fun hdup =>
      absurd (h ip hin) (Nat.not_le.mpr (duplicate_iff_two_le_count.mp hdup))
    rw [duplicate_iff_exists_distinct_get] at hnot
    by_contra hne
    rcases Nat.lt_or_gt_of_ne hne with hlt | hlt
    · exact hnot ⟨⟨i, hi⟩, ⟨j, hj⟩, hlt, hgeti.symm, hgetj.symm⟩
    · exact hnot ⟨⟨j, hj⟩, ⟨i, hi⟩, hlt, hgetj.symm, hgeti.symm⟩

theorem nodup_and_mem_iff {α : Type*} [DecidableEq α] {l : List α} {p : α → Bool} :
    (l.Nodup ∧ ∀ a, a ∈ l ↔ p a = true) ↔ ∀ a, l.count a = if p a then 1 else 0 := by
  constructor
  · rintro ⟨hnodup, hmem⟩ a
    rw [List.Nodup.count hnodup]
    simp only [hmem]
  · intro hcount
    refine ⟨nodup_iff_count_le_one.mpr fun a => ?_, fun a => ?_⟩
    · rw [hcount]
      split <;> omega
    · rw [← count_pos_iff, hcount]
      split <;> simp_all

theorem addresses_own_perm (ips : IpSet) (seed : UInt64) :
    ((addresses ips (some seed) none).filterMap id).Perm ips.iter := by
  have hkept : (numberedAddresses ips).filter ips.contains = numberedAddresses ips := by
    refine filter_eq_self.mpr fun ip hip => ?_
    exact (contains_iff_mem_iter ips ip).mpr (mem_of_mem_take hip)
  have hleft : (Numbering.of ips).positions.unnumbered = Positions.uncounted (Positions.rangesOf ips.merged) :=
    (ofCanonical_spec ips.merged).2.2
  rw [addresses, filterMap_append, filterMap_map, hleft]
  refine ((walkedAddresses_perm ips ips seed).append_right _).trans (.of_eq ?_)
  rw [hkept, numberedAddresses, take_iter]
  simp [iter_eq_append ips]

section Once

variable {ips : IpSet} (hzones : OneZone ips)

include hzones

theorem OneZone.count_iter (ip : IpAddr) : ips.iter.count ip = if ips.contains ip then 1 else 0 := by
  rw [List.Nodup.count hzones.nodup_iter]
  simp only [contains_iff_mem_iter]

theorem count_addresses_plan (s : IpSet) (seed : UInt64) (ip : IpAddr) :
    ((addresses ips (some seed) (some (.of s))).filterMap id).count ip = if ips.contains ip then
        (numberedAddresses s).count ip + if (numberedAddresses s).count ip = 1 then 0 else 1 else 0 := by
  have htail : (ips.iter.map fun ip => if ((Numbering.of s).positions.find ip).isNone then some ip else none).filterMap
      id = ips.iter.filter fun ip => ((Positions.of s).find ip).isNone := by
    rw [filterMap_map, ← filterMap_eq_filter]
    rfl
  rw [addresses, filterMap_append, htail, count_append, (walkedAddresses_perm ips s seed).count_eq]
  by_cases hin : ips.contains ip = true
  · rw [if_pos hin, count_filter hin]
    congr 1
    cases hfound : (Positions.of s).find ip with
    | none =>
      have hmany := (isSome_find_iff s ip).not.mp (by simp [hfound])
      rw [if_neg hmany, count_filter (by simp [hfound]), hzones.count_iter, if_pos hin]
    | some position =>
      have hone := (isSome_find_iff s ip).mp (by simp [hfound])
      rw [if_pos hone, count_eq_zero]
      simp [hfound]
  · have hout := (contains_iff_mem_iter ips ip).not.mp hin
    rw [if_neg hin, count_eq_zero.mpr (by simp [hin]), count_eq_zero.mpr (by simp [hout])]

end Once

/-- **A sweep that nothing stops asks each address once exactly where the plan does not number one
of the set twice**, or there is no seed, or no plan. -/
theorem sweep_once_iff (ips : IpSet) (hzones : OneZone ips) (seed : Option UInt64) (plan : Option IpSet)
    (batchSize : Nat) (channel : Channel IpAddr) (hquiet : channel.Quiet) :
    ((dispatchAddressesOf channel batchSize ips seed (plan.map Numbering.of)).Nodup ∧
        ∀ ip, ip ∈ dispatchAddressesOf channel batchSize ips seed (plan.map Numbering.of) ↔ ips.contains ip = true) ↔
      seed = none ∨ ∀ s ∈ plan, NamesOnce s ips := by
  rw [nodup_and_mem_iff]
  simp only [dispatchAddressesOf, (sendAll_perm hquiet _ _ _ _ _).count_eq, nil_append]
  have hown : ∀ l : List IpAddr, l.Perm ips.iter → ∀ ip, l.count ip = if ips.contains ip then 1 else 0 := by
    intro l hperm ip
    rw [hperm.count_eq, hzones.count_iter]
  cases seed with
  | none =>
    refine iff_of_true (hown _ ?_) (.inl rfl)
    simp [addresses]
  | some seed =>
    simp only [reduceCtorEq, false_or]
    cases plan with
    | none => exact iff_of_true (hown _ (addresses_own_perm ips seed)) (by simp)
    | some s =>
      simp only [mem_some_iff, forall_eq', namesOnce_iff, map_some, filter_some]
      by_cases htotal : (Positions.of s).total > 0
      · rw [if_pos (by simpa [Numbering.of] using htotal)]
        refine forall_congr' fun ip => ?_
        rw [count_addresses_plan hzones]
        by_cases hin : ips.contains ip = true
        · simp only [hin, if_true, forall_const]
          split <;> omega
        · simp [hin]
      · rw [if_neg (by simpa [Numbering.of] using htotal)]
        refine iff_of_true (hown _ (addresses_own_perm ips seed)) fun ip _ => ?_
        have hlength := length_numberedAddresses s
        have := count_le_length (l := numberedAddresses s) (a := ip)
        omega

/-! A building's plan, one floor of it, and a link-local address on one interface and on two. -/

def quietChannel : Channel IpAddr := ⟨fun _ => false, fun _ => true, fun _ batch => batch, fun _ batch => .refl batch⟩

theorem quietChannel_quiet : quietChannel.Quiet := ⟨fun _ => rfl, fun _ => rfl⟩

theorem oneZone_of_v6 {s : IpSet} {zone : Zone} (h : ∀ r ∈ s.v6, r.zone = zone) : OneZone s := by
  intro ip z z' hz hz'
  cases ip with
  | v4 a => exact hz.1.trans hz'.1.symm
  | v6 a =>
    obtain ⟨r, hr, -, rfl⟩ := hz
    obtain ⟨r', hr', -, rfl⟩ := hz'
    rw [h r hr, h r' hr']

theorem OneZone.namesOnce {s : IpSet} (h : OneZone s) (ips : IpSet) : NamesOnce s ips := by
  rw [namesOnce_iff]
  intro ip _
  exact nodup_iff_count_le_one.mp (h.nodup_iter.sublist (take_sublist _ _)) ip

def building : IpSet :=
  .fromRanges [.v4 ⟨0x0a000001, 0x0a000014, by decide⟩,
    .v6 ⟨0xfe800000000000000000000000000001, 0xfe800000000000000000000000000009, some 3, by decide, by decide⟩]

def floor : IpSet :=
  .fromRanges [.v4 ⟨0x0a000003, 0x0a000008, by decide⟩,
    .v6 ⟨0xfe800000000000000000000000000002, 0xfe800000000000000000000000000005, some 3, by decide, by decide⟩]

/-- A floor walked along its building's numbering. -/
theorem sweep_once_floor : (dispatchAddressesOf quietChannel 4 floor (some 7) (some (.of building))).length = 10 ∧
      (dispatchAddressesOf quietChannel 4 floor (some 7) (some (.of building))).Nodup ∧
      ∀ ip, ip ∈ dispatchAddressesOf quietChannel 4 floor (some 7) (some (.of building)) ↔
        floor.contains ip = true := by
  have hfloor := oneZone_of_v6 (by decide +kernel : ∀ r ∈ floor.v6, r.zone = some 3)
  have hbuilding := oneZone_of_v6 (by decide +kernel : ∀ r ∈ building.v6, r.zone = some 3)
  refine ⟨by decide +kernel, ?_⟩
  refine (sweep_once_iff floor hfloor (some 7) (some building) 4 quietChannel quietChannel_quiet).mpr (.inr ?_)
  simpa using hbuilding.namesOnce floor

def linkLocalOn (zone : UInt32) (h : some zone ≠ some 0) : IpRange :=
  .v6 ⟨0xfe800000000000000000000000000001, 0xfe800000000000000000000000000001, some zone, le_rfl, h⟩

def oneLink : IpSet := .fromRanges [linkLocalOn 1 (by decide)]

def bothLinks : IpSet := .fromRanges [linkLocalOn 1 (by decide), linkLocalOn 2 (by decide)]

/-- The address has two positions in the plan and is found at neither, so it comes with each and once more. -/
theorem sweep_repeats : OneZone oneLink ∧ quietChannel.Quiet ∧
      dispatchAddressesOf quietChannel 8 oneLink (some 7) (some (.of bothLinks)) =
        List.replicate 3 (.v6 0xfe800000000000000000000000000001) :=
  ⟨oneZone_of_v6 (by decide +kernel : ∀ r ∈ oneLink.v6, r.zone = some 1), quietChannel_quiet, by decide +kernel⟩

end Zond.Dispatch

import ZondEngine.Model.Target

/-!
# Targets by position

`TargetIndex` of `model/target.rs` reads the enumeration of a plan by number, up to the first unit that cannot be
counted whole. `Indexed` is what the numbering pass keeps; `index_exact`: `targetAt` is the enumeration, the runs of the
hosts tile the positions, and `addressesIn` names the addresses of a span.
-/

namespace Zond.Plan

open Zond.Ip Zond.Port Zond.Tiling List Option

structure UnitIndex where
  addresses : Positions
  ports : List (UInt16 × Protocol)
  (start len firstHost : Nat)

/-- The targets of a plan, read by number. -/
structure TargetIndex where
  units : List UnitIndex
  (total hosts : Nat)
  complete : Bool
  unnumbered : List IpRange

namespace TargetIndex

def new : TargetIndex := ⟨[], 0, 0, true, []⟩

def counted (addresses : Positions) (ports : List (UInt16 × Protocol)) : Option Nat :=
  (if ports.length < 2 ^ 64 then Word.checkedMul 64 addresses.total ports.length else none).filter
    fun _ => addresses.unnumbered.isEmpty

def leftOut (units : List TargetSet) : List IpRange :=
  (units.filter fun unit => !unit.ports.isEmpty).flatMap fun unit => Positions.rangesOf unit.ips

def ofUnits (index : TargetIndex) : List TargetSet → TargetIndex
  | [] => index
  | unit :: rest =>
    let addresses := Positions.of unit.ips
    let ports := unit.ports.toVec
    if ports.isEmpty then ofUnits index rest
    else
      match (counted addresses ports).filter fun len => (Word.checkedAdd 64 index.total len).isSome with
      | none => { index with complete := false, unnumbered := leftOut (unit :: rest) }
      | some len =>
        ofUnits
          { index with
            units := index.units ++ [⟨addresses, ports, index.total, len, index.hosts⟩]
            total := index.total + len
            hosts := index.hosts + addresses.total } rest

def of (map : TargetMap) : TargetIndex := ofUnits new map.units

theorem ofUnits_total_lt (units : List TargetSet) (index : TargetIndex) (h : index.total < 2 ^ 64) :
    (ofUnits index units).total < 2 ^ 64 := by
  induction units generalizing index with
  | nil => exact h
  | cons unit rest ih =>
    simp only [ofUnits]
    split
    · exact ih index h
    · split
      · exact h
      · rename_i len hlen
        obtain ⟨-, hfit⟩ := filter_eq_some_iff.mp hlen
        exact ih _ (Word.checkedAdd_isSome_iff.mp hfit)

theorem total_lt (map : TargetMap) : (of map).total < 2 ^ 64 := ofUnits_total_lt map.units new (by decide)

variable (index : TargetIndex)

def unitAt (position : Nat) : Option UnitIndex :=
  if index.total ≤ position then none
  else
    (Bisect.floor (Bisect.binarySearchBy (fun unit => compare unit.start position) index.units)).bind fun i =>
      index.units[i]?.filter fun unit => decide (position < unit.start + unit.len)

/-- The target at a position. -/
def targetAt (position : Nat) : Option Target := do
  let unit ← index.unitAt position
  let offset := position - unit.start
  let port ← unit.ports[offset % unit.ports.length]?
  let ip ← unit.addresses.addressAt (offset / unit.ports.length)
  some ⟨ip, port.1, port.2⟩

def addressesOf (start stop : Nat) : List UnitIndex → List IpRange
  | [] => []
  | unit :: rest =>
    if stop ≤ unit.start then []
    else
      let first := max start unit.start - unit.start
      let past := min stop (unit.start + unit.len) - unit.start
      if past ≤ first then addressesOf start stop rest
      else
        unit.addresses.rangesIn (first / unit.ports.length) ((past - 1) / unit.ports.length + 1) ++
          addressesOf start stop rest

def addressesIn (start stop : Nat) : List IpRange :=
  let first := Bisect.partitionPoint (fun unit => decide (unit.start + unit.len ≤ start)) index.units
  addressesOf start (min stop index.total) (index.units.drop first)

/-- The positions of one host. -/
def hostRun (host : Nat) : Nat × Nat :=
  match index.units[Bisect.partitionPoint
      (fun unit => decide (unit.firstHost + unit.addresses.total ≤ host)) index.units]? with
  | none => (index.total, index.total)
  | some unit =>
    let start := unit.start + (host - unit.firstHost) * unit.ports.length
    (start, start + unit.ports.length)

def hostOf (position : Nat) : Nat :=
  match index.unitAt position with
  | some unit => unit.firstHost + (position - unit.start) / unit.ports.length
  | none => index.hosts

end TargetIndex

/-! ## The numbering pass -/

namespace UnitIndex

def addrs (unit : UnitIndex) : List IpAddr := unit.addresses.spans.flatMap (·.range.iter)

def targets (unit : UnitIndex) : List Target := unit.addrs.flatMap (TargetSet.atAddress unit.ports)

end UnitIndex

theorem length_atAddress (ports : List (UInt16 × Protocol)) (ip : IpAddr) :
    (TargetSet.atAddress ports ip).length = ports.length := length_map _

structure Made (units : List TargetSet) (unit : UnitIndex) : Prop where
  of_unit : ∃ pre source post, units = pre ++ source :: post ∧ unit.start = (pre.flatMap TargetSet.iter).length ∧
    unit.addresses = Positions.of source.ips ∧ unit.ports = source.ports.toVec ∧
    (Positions.of source.ips).unnumbered = []
  len_eq : unit.len = unit.addresses.total * unit.ports.length
  ports_pos : 0 < unit.ports.length

structure Indexed (units : List TargetSet) (index : TargetIndex) : Prop where
  tiles : Tiles UnitIndex.start UnitIndex.len 0 index.units index.total
  hosts_tile : Tiles UnitIndex.firstHost (fun unit => unit.addresses.total) 0 index.units index.hosts
  total_lt : index.total < 2 ^ 64
  made : ∀ unit ∈ index.units, Made units unit
  targets_eq : index.units.flatMap UnitIndex.targets = units.flatMap TargetSet.iter

namespace Made

variable {units : List TargetSet} {unit : UnitIndex}

theorem numbered (h : Made units unit) : ∃ last, Positions.Numbered unit.addresses last := by
  obtain ⟨_, source, _, _, _, haddr, _⟩ := h.of_unit
  rw [haddr]
  exact (Positions.ofCanonical_spec source.ips.merged).1

theorem length_addrs (h : Made units unit) : unit.addrs.length = unit.addresses.total := by
  obtain ⟨_, hn⟩ := h.numbered
  exact hn.length_flatMap

theorem length_targets (h : Made units unit) : unit.targets.length = unit.len := by
  rw [UnitIndex.targets, length_rows (length_atAddress unit.ports), h.length_addrs, h.len_eq]

theorem host_lt (h : Made units unit) {position : Nat} (hold : Holds UnitIndex.start UnitIndex.len position unit) :
    (position - unit.start) / unit.ports.length < unit.addresses.total := by
  obtain ⟨h₁, h₂⟩ := hold
  apply Nat.div_lt_of_lt_mul
  rw [Nat.mul_comm, ← h.len_eq]
  omega

theorem mono {more : List TargetSet} (h : Made units unit) : Made (units ++ more) unit := by
  obtain ⟨⟨pre, source, post, hunits, hrest⟩, hlen, hports⟩ := h
  refine ⟨⟨pre, source, post ++ more, ?_, hrest⟩, hlen, hports⟩
  rw [hunits, List.append_assoc, cons_append]

end Made

theorem iter_eq_addrs {s : IpSet} (h : (Positions.of s).unnumbered = []) :
    s.iter = (Positions.of s).spans.flatMap (·.range.iter) := by
  have hu : Positions.uncounted (Positions.rangesOf s.merged) = [] :=
    (Positions.ofCanonical_spec s.merged).2.2.symm.trans h
  rw [Positions.iter_eq_append, hu, flatMap_nil, append_nil]

theorem length_iter_pos {unit : TargetSet} (hips : unit.ips.isEmpty = false) : 0 < unit.ips.iter.length := by
  apply length_pos_iff.mpr
  intro hnil
  rw [Positions.iter_eq_rangesOf, unit.merged_ips, flatMap_eq_nil_iff] at hnil
  cases hr : Positions.rangesOf unit.ips with
  | nil =>
    rw [Positions.rangesOf, append_eq_nil_iff, map_eq_nil_iff, map_eq_nil_iff] at hr
    rw [IpSet.isEmpty, hr.1, hr.2] at hips
    cases hips
  | cons r rest =>
    have hlen := r.length_iter
    rw [hnil r (by rw [hr]; simp)] at hlen
    exact absurd hlen.symm (Nat.ne_of_gt r.size_pos)

namespace Indexed

variable {units : List TargetSet} {index : TargetIndex}

theorem new : Indexed [] TargetIndex.new where
  tiles := .nil 0
  hosts_tile := .nil 0
  total_lt := by decide
  made _ h := absurd h (by simp [TargetIndex.new])
  targets_eq := rfl

theorem skip (h : Indexed units index) {unit : TargetSet} (hports : unit.ports.toVec = []) :
    Indexed (units ++ [unit]) index where
  tiles := h.tiles
  hosts_tile := h.hosts_tile
  total_lt := h.total_lt
  made u hu := (h.made u hu).mono
  targets_eq := by
    have hnil : unit.iter = [] := by
      rw [TargetSet.iter, hports]
      exact flatMap_eq_nil_iff.mpr fun ip _ => rfl
    rw [h.targets_eq, flatMap_append, flatMap_singleton, hnil, append_nil]

theorem length_iter (h : Indexed units index) : (units.flatMap TargetSet.iter).length = index.total := by
  have := h.tiles.length_flatMap fun unit hunit => (h.made unit hunit).length_targets
  rw [← h.targets_eq]
  omega

theorem push (h : Indexed units index) {unit : TargetSet} {len : Nat} (hips : unit.ips.isEmpty = false)
    (hports : unit.ports.toVec ≠ []) (hall : (Positions.of unit.ips).unnumbered = [])
    (hlen : len = (Positions.of unit.ips).total * unit.ports.toVec.length) (hfit : index.total + len < 2 ^ 64) :
    Indexed (units ++ [unit])
      { index with
        units := index.units ++ [⟨Positions.of unit.ips, unit.ports.toVec, index.total, len, index.hosts⟩]
        total := index.total + len
        hosts := index.hosts + (Positions.of unit.ips).total } := by
  obtain ⟨_, hn⟩ := (Positions.ofCanonical_spec unit.ips.merged).1
  have hlength : unit.ips.iter.length = (Positions.of unit.ips).total := by
    rw [iter_eq_addrs hall]
    exact hn.length_flatMap
  have hports_pos : 0 < unit.ports.toVec.length := length_pos_iff.mpr hports
  have htotal : 0 < (Positions.of unit.ips).total := by
    rw [← hlength]
    exact length_iter_pos hips
  have hmade : Made (units ++ [unit]) ⟨Positions.of unit.ips, unit.ports.toVec, index.total, len, index.hosts⟩ :=
    ⟨⟨units, unit, [], rfl, h.length_iter.symm, rfl, rfl, hall⟩, hlen, hports_pos⟩
  refine
    { tiles := h.tiles.concat (x := ⟨Positions.of unit.ips, unit.ports.toVec, index.total, len, index.hosts⟩) rfl ?_
      hosts_tile := h.hosts_tile.concat
        (x := ⟨Positions.of unit.ips, unit.ports.toVec, index.total, len, index.hosts⟩) rfl htotal
      total_lt := hfit
      made := ?_
      targets_eq := ?_ }
  · rw [hlen]
    exact Nat.mul_pos htotal hports_pos
  · intro u hu
    rcases mem_append.mp hu with hu | hu
    · exact (h.made u hu).mono
    · rw [mem_singleton] at hu
      exact hu ▸ hmade
  · rw [flatMap_append, flatMap_append, h.targets_eq, flatMap_singleton, flatMap_singleton,
      UnitIndex.targets, UnitIndex.addrs, TargetSet.iter, iter_eq_addrs hall]

end Indexed

theorem counted_eq_some_iff {addresses : Positions} {ports : List (UInt16 × Protocol)} {len : Nat} :
    TargetIndex.counted addresses ports = some len ↔
      ports.length < 2 ^ 64 ∧ addresses.total * ports.length < 2 ^ 64 ∧ len = addresses.total * ports.length ∧
        addresses.unnumbered = [] := by
  rw [TargetIndex.counted, filter_eq_some_iff, List.isEmpty_iff, ite_none_right_eq_some, Word.checkedMul,
    ite_none_right_eq_some, some_inj, eq_comm (b := len), and_assoc, and_assoc]

/-- **What the whole pass leaves**: an index of some first units of the plan, and the addresses of the others. -/
theorem ofUnits_spec : ∀ (rest done : List TargetSet) (index : TargetIndex), Indexed done index →
    index.complete = true → index.unnumbered = [] → (∀ unit ∈ rest, unit.ips.isEmpty = false) →
    ∃ numbered left, rest = numbered ++ left ∧ Indexed (done ++ numbered) (index.ofUnits rest) ∧
      ((index.ofUnits rest).complete = true ↔ left = []) ∧ (index.ofUnits rest).unnumbered = TargetIndex.leftOut left
  | [], done, index, h, hc, hu, _ =>
    ⟨[], [], rfl, (append_nil done).symm ▸ h, ⟨fun _ => rfl, fun _ => hc⟩, hu⟩
  | unit :: rest, done, index, h, hc, hu, hne => by
    have hrest := fun u hu => hne u (mem_cons_of_mem unit hu)
    simp only [TargetIndex.ofUnits]
    by_cases hports : unit.ports.toVec = []
    · rw [if_pos (List.isEmpty_iff.mpr hports)]
      obtain ⟨numbered, left, heq, hrest⟩ := ofUnits_spec rest _ index (h.skip hports) hc hu hrest
      refine ⟨unit :: numbered, left, by rw [heq, cons_append], ?_⟩
      rwa [List.append_assoc, List.singleton_append] at hrest
    · rw [if_neg (by rwa [List.isEmpty_iff])]
      split
      · refine ⟨[], unit :: rest, rfl, ?_, by simp, rfl⟩
        rw [append_nil]
        exact ⟨h.tiles, h.hosts_tile, h.total_lt, h.made, h.targets_eq⟩
      · rename_i len hlen
        obtain ⟨hcount, hfit⟩ := filter_eq_some_iff.mp hlen
        obtain ⟨-, -, hlen, hall⟩ := counted_eq_some_iff.mp hcount
        obtain ⟨numbered, left, heq, hspec⟩ := ofUnits_spec rest _ _
          (h.push (hne unit (by simp)) hports hall hlen (Word.checkedAdd_isSome_iff.mp hfit)) hc hu hrest
        refine ⟨unit :: numbered, left, by rw [heq, cons_append], ?_⟩
        rwa [List.append_assoc, List.singleton_append] at hspec

/-! ## Reading by position -/

namespace Indexed

variable {units : List TargetSet} {index : TargetIndex} (h : Indexed units index)

include h

theorem unitAt_eq {position : Nat} (hp : position < index.total) :
    ∃ unit ∈ index.units, index.unitAt position = some unit ∧ Holds UnitIndex.start UnitIndex.len position unit := by
  obtain ⟨i, unit, hr, hi, hold⟩ := h.tiles.search_start (Nat.zero_le position) hp
  refine ⟨unit, mem_of_getElem? hi, ?_, hold⟩
  rw [TargetIndex.unitAt, if_neg (Nat.not_le.mpr hp), hr, bind_some, hi, filter_some, if_pos (decide_eq_true hold.2)]

variable {unit : UnitIndex}

theorem addressAt_addrs (hunit : unit ∈ index.units) (k : Nat) : unit.addresses.addressAt k = unit.addrs[k]? := by
  obtain ⟨_, hn⟩ := (h.made unit hunit).numbered
  exact hn.addressAt_eq k

theorem targets_getElem? (hunit : unit ∈ index.units) (k : Nat) :
    unit.targets[k]? = unit.addrs[k / unit.ports.length]?.bind fun ip =>
      (TargetSet.atAddress unit.ports ip)[k % unit.ports.length]? :=
  getElem?_rows (length_atAddress unit.ports) (h.made unit hunit).ports_pos unit.addrs k

theorem targetAt_eq (position : Nat) : index.targetAt position = (units.flatMap TargetSet.iter)[position]? := by
  rcases Nat.lt_or_ge position index.total with hp | hp
  · obtain ⟨unit, hunit, hat, hold⟩ := h.unitAt_eq hp
    have hget := h.tiles.getElem?_flatMap (fun u hu => (h.made u hu).length_targets) hunit hold
    rw [Nat.sub_zero, h.targets_eq, h.targets_getElem? hunit] at hget
    rw [hget]
    simp only [TargetIndex.targetAt, hat, bind_eq_bind, bind_some, h.addressAt_addrs hunit]
    cases unit.addrs[(position - unit.start) / unit.ports.length]? with
    | none => cases unit.ports[(position - unit.start) % unit.ports.length]? <;> rfl
    | some ip =>
      rw [bind_some, TargetSet.atAddress, getElem?_map]
      cases unit.ports[(position - unit.start) % unit.ports.length]? <;> rfl
  · rw [getElem?_eq_none (by rw [h.length_iter]; exact hp), TargetIndex.targetAt, TargetIndex.unitAt, if_pos hp]
    rfl

theorem targetAt_ip (hunit : unit ∈ index.units) (position : Nat)
    (hold : Holds UnitIndex.start UnitIndex.len position unit) :
    ∃ t, index.targetAt position = some t ∧ unit.addrs[(position - unit.start) / unit.ports.length]? = some t.ip := by
  have hmade := h.made unit hunit
  have hget := h.tiles.getElem?_flatMap (fun u hu => (h.made u hu).length_targets) hunit hold
  rw [Nat.sub_zero, h.targets_eq, ← h.targetAt_eq, h.targets_getElem? hunit] at hget
  have hlt : (position - unit.start) / unit.ports.length < unit.addrs.length := by
    rw [hmade.length_addrs]
    exact hmade.host_lt hold
  have hport : (position - unit.start) % unit.ports.length < unit.ports.length := Nat.mod_lt _ hmade.ports_pos
  rw [getElem?_eq_getElem hlt, bind_some, TargetSet.atAddress, getElem?_map,
    getElem?_eq_getElem hport, map_some] at hget
  exact ⟨_, hget, getElem?_eq_getElem hlt⟩

/-! ## Hosts -/

theorem hostRun_eq (hunit : unit ∈ index.units) {k : Nat} (hk : k < unit.addresses.total) :
    index.hostRun (unit.firstHost + k) =
      (unit.start + k * unit.ports.length, unit.start + k * unit.ports.length + unit.ports.length) := by
  have hmem := h.hosts_tile.mem hunit
  obtain ⟨found, hfound, hold⟩ := h.hosts_tile.getElem?_partitionPoint (Nat.zero_le (unit.firstHost + k))
    (by show _ < index.hosts; have : unit.firstHost + unit.addresses.total ≤ index.hosts := hmem.2.1; omega)
  have heq : found = unit :=
    h.hosts_tile.holds_unique (mem_of_getElem? hfound) hunit hold ⟨Nat.le_add_right _ _, Nat.add_lt_add_left hk _⟩
  rw [TargetIndex.hostRun, hfound]
  simp only [heq, Nat.add_sub_cancel_left]

theorem exists_host {host : Nat} (hh : host < index.hosts) :
    ∃ unit ∈ index.units, ∃ k < unit.addresses.total, host = unit.firstHost + k := by
  obtain ⟨unit, hunit, hold⟩ := h.hosts_tile.exists_holds (Nat.zero_le host) hh
  obtain ⟨hold₁, hold₂⟩ := hold
  refine ⟨unit, hunit, host - unit.firstHost, ?_, ?_⟩
  · replace hold₂ : host < unit.firstHost + unit.addresses.total := hold₂
    omega
  · omega

theorem hostOf_spec {position : Nat} (hp : position < index.total) :
    index.hostOf position < index.hosts ∧ (index.hostRun (index.hostOf position)).1 ≤ position ∧
      position < (index.hostRun (index.hostOf position)).2 := by
  obtain ⟨unit, hunit, hat, hold⟩ := h.unitAt_eq hp
  have hmade := h.made unit hunit
  have hk := hmade.host_lt hold
  have hstart := hold.1
  have hmem : unit.firstHost + unit.addresses.total ≤ index.hosts := (h.hosts_tile.mem hunit).2.1
  have hdiv := Nat.div_add_mod' (position - unit.start) unit.ports.length
  have hmod := Nat.mod_lt (position - unit.start) hmade.ports_pos
  rw [TargetIndex.hostOf, hat]
  simp only [h.hostRun_eq hunit hk]
  omega

theorem tile_hosts :
    Tiles (fun host => (index.hostRun host).1) (fun host => (index.hostRun host).2 - (index.hostRun host).1) 0
      (List.range index.hosts) index.total := by
  have := h.tiles.refine (f := fun host => (index.hostRun host).1)
    (g := fun host => (index.hostRun host).2 - (index.hostRun host).1) h.hosts_tile
    (fun unit hunit => ⟨(h.made unit hunit).len_eq, (h.made unit hunit).ports_pos⟩)
    (fun unit hunit k hk => by
      simp only [h.hostRun_eq hunit hk, Nat.add_sub_cancel_left, and_self])
  rwa [Nat.sub_zero, ← range_eq_range'] at this

theorem hostRun_one {host : Nat} (hh : host < index.hosts) : ∃ pre unit post ip, units = pre ++ unit :: post ∧
      (pre.flatMap TargetSet.iter).length ≤ (index.hostRun host).1 ∧
      (index.hostRun host).2 ≤ (pre.flatMap TargetSet.iter).length + unit.iter.length ∧
      ∀ position, (index.hostRun host).1 ≤ position → position < (index.hostRun host).2 →
        ∃ t, index.targetAt position = some t ∧ t.ip = ip := by
  obtain ⟨unit, hunit, k, hk, rfl⟩ := h.exists_host hh
  have hmade := h.made unit hunit
  obtain ⟨pre, source, post, hunits, hstart, haddr, hports, hall⟩ := hmade.of_unit
  have hkaddr : k < unit.addrs.length := by rw [hmade.length_addrs]; exact hk
  have hrow : (k + 1) * unit.ports.length ≤ unit.len := by
    rw [hmade.len_eq]
    exact Nat.mul_le_mul_right _ hk
  rw [Nat.succ_mul] at hrow
  have hlen : source.iter.length = unit.len := by
    rw [← hmade.length_targets, UnitIndex.targets, UnitIndex.addrs, TargetSet.iter, haddr, hports, iter_eq_addrs hall]
  refine ⟨pre, source, post, unit.addrs[k], hunits, ?_, ?_, ?_⟩
  · rw [h.hostRun_eq hunit hk]
    omega
  · rw [h.hostRun_eq hunit hk, hlen]
    omega
  · intro position hfirst hpast
    rw [h.hostRun_eq hunit hk] at hfirst hpast
    obtain ⟨t, ht, hip⟩ := h.targetAt_ip hunit position ⟨by omega, by omega⟩
    have hdiv : (position - unit.start) / unit.ports.length = k := by
      apply Nat.div_eq_of_lt_le
      · omega
      · rw [Nat.succ_mul]
        omega
    rw [hdiv, getElem?_eq_getElem hkaddr, some_inj] at hip
    exact ⟨t, ht, hip.symm⟩

theorem targetAt_of_hostOf_eq {n m : Nat} (hn : n < index.total) (hm : m < index.total)
    (hhost : index.hostOf m = index.hostOf n) {t : Target} (ht : index.targetAt n = some t) :
    ∃ t', index.targetAt m = some t' ∧ t'.ip = t.ip := by
  obtain ⟨hlt, hfirst, hpast⟩ := h.hostOf_spec hn
  obtain ⟨-, hfirst', hpast'⟩ := h.hostOf_spec hm
  rw [hhost] at hfirst' hpast'
  obtain ⟨-, -, -, ip, -, -, -, hone⟩ := h.hostRun_one hlt
  obtain ⟨t₁, ht₁, hip₁⟩ := hone n hfirst hpast
  obtain ⟨t₂, ht₂, hip₂⟩ := hone m hfirst' hpast'
  rw [ht, some_inj] at ht₁
  exact ⟨t₂, ht₂, by rw [hip₂, ht₁, hip₁]⟩

/-! ## The addresses of a span of positions -/

theorem mem_rangesIn (hunit : unit ∈ index.units) (first past : Nat) (ip : IpAddr) :
    (∃ r ∈ unit.addresses.rangesIn first past, r.contains ip = true) ↔
      ∃ k, first ≤ k ∧ k < past ∧ unit.addrs[k]? = some ip := by
  obtain ⟨_, hn⟩ := (h.made unit hunit).numbered
  have hiter := hn.iter_rangesIn first past
  have hmem : (∃ r ∈ unit.addresses.rangesIn first past, r.contains ip = true) ↔
      ip ∈ (unit.addrs.take past).drop first := by
    rw [UnitIndex.addrs, ← hiter, mem_flatMap]
    simp only [IpRange.mem_iter]
  rw [hmem, drop_take, mem_slice_iff]

theorem exists_position_iff (hunit : unit ∈ index.units) {first past : Nat} (hlt : first < past) (ip : IpAddr) :
    (∃ k, first / unit.ports.length ≤ k ∧ k < (past - 1) / unit.ports.length + 1 ∧ unit.addrs[k]? = some ip) ↔
      ∃ m, first ≤ m ∧ m < past ∧ unit.addrs[m / unit.ports.length]? = some ip := by
  have hpos := (h.made unit hunit).ports_pos
  constructor
  · intro ⟨k, hk₁, hk₂, hk⟩
    -- The first position of the address, or the start of the stretch where that is later.
    have hup : k * unit.ports.length ≤ past - 1 := (Nat.le_div_iff_mul_le hpos).mp (Nat.lt_succ_iff.mp hk₂)
    have hdown : first < (k + 1) * unit.ports.length := Nat.lt_mul_of_div_lt (Nat.lt_succ_iff.mpr hk₁) hpos
    refine ⟨max first (k * unit.ports.length), Nat.le_max_left _ _, by omega, ?_⟩
    have : max first (k * unit.ports.length) / unit.ports.length = k := by
      apply Nat.div_eq_of_lt_le
      · exact Nat.le_max_right _ _
      · rw [Nat.succ_mul] at hdown ⊢
        omega
    rw [this, hk]
  · intro ⟨m, hm₁, hm₂, hm⟩
    refine ⟨m / unit.ports.length, Nat.div_le_div_right hm₁, ?_, hm⟩
    exact Nat.lt_succ_iff.mpr (Nat.div_le_div_right (by omega))

theorem mem_addressesOf (start stop : Nat) (ip : IpAddr) : ∀ {us : List UnitIndex} {a b : Nat},
    Tiles UnitIndex.start UnitIndex.len a us b → (∀ unit ∈ us, unit ∈ index.units) →
    ((∃ r ∈ TargetIndex.addressesOf start stop us, r.contains ip = true) ↔
      ∃ unit ∈ us, ∃ position, start ≤ position ∧ position < stop ∧
        Holds UnitIndex.start UnitIndex.len position unit ∧
        unit.addrs[(position - unit.start) / unit.ports.length]? = some ip)
  | [], _, _, _, _ => by simp [TargetIndex.addressesOf]
  | unit :: rest, a, b, htile, hmem => by
    obtain ⟨hstart, hlen, hrest⟩ := Tiles.cons_iff.mp htile
    have hunit := hmem unit (by simp)
    have ih := mem_addressesOf start stop ip hrest fun u hu => hmem u (mem_cons_of_mem unit hu)
    -- A unit's own part: a stretch of its positions, counted from its start.
    have hpart : (∃ position, start ≤ position ∧ position < stop ∧ Holds UnitIndex.start UnitIndex.len position unit ∧
        unit.addrs[(position - unit.start) / unit.ports.length]? = some ip) ↔
        ∃ m, max start unit.start - unit.start ≤ m ∧ m < min stop (unit.start + unit.len) - unit.start ∧
          unit.addrs[m / unit.ports.length]? = some ip := by
      constructor
      · intro ⟨position, h₁, h₂, ⟨h₃, h₄⟩, h₅⟩
        exact ⟨position - unit.start, by omega, by omega, h₅⟩
      · intro ⟨m, h₁, h₂, h₃⟩
        refine ⟨unit.start + m, by omega, by omega, ⟨by omega, by omega⟩, ?_⟩
        rw [Nat.add_sub_cancel_left, h₃]
    simp only [mem_cons, exists_eq_or_imp, TargetIndex.addressesOf, hpart]
    split
    · rename_i hstop
      refine iff_of_false (by simp) ?_
      rintro (⟨m, h₁, h₂, _⟩ | ⟨u, hu, position, h₁, h₂, ⟨h₃, h₄⟩, _⟩)
      · omega
      · have := (hrest.mem hu).1
        omega
    · split
      · rename_i hnone
        rw [ih, or_iff_right]
        rintro ⟨m, h₁, h₂, _⟩
        omega
      · rename_i hsome
        rw [← h.exists_position_iff hunit (Nat.not_le.mp hsome), ← h.mem_rangesIn hunit, ← ih]
        simp only [mem_append, or_and_right, exists_or]

theorem mem_addressesIn (start stop : Nat) (ip : IpAddr) : (∃ r ∈ index.addressesIn start stop, r.contains ip = true) ↔
      ∃ position, start ≤ position ∧ position < stop ∧ ∃ t, index.targetAt position = some t ∧ t.ip = ip := by
  have htile := h.tiles
  rw [← take_append_drop
    (Bisect.partitionPoint (fun unit => decide (unit.start + unit.len ≤ start)) index.units) index.units] at htile
  obtain ⟨c, -, hafter⟩ := Tiles.of_append htile
  rw [TargetIndex.addressesIn, h.mem_addressesOf _ _ ip hafter fun unit hunit => mem_of_mem_drop hunit]
  constructor
  · intro ⟨unit, hunit, position, h₁, h₂, hold, hip⟩
    obtain ⟨t, ht, hip'⟩ := h.targetAt_ip (mem_of_mem_drop hunit) position hold
    rw [hip, some_inj] at hip'
    exact ⟨position, h₁, h₂.trans_le (Nat.min_le_left _ _), t, ht, hip'.symm⟩
  · intro ⟨position, h₁, h₂, t, ht, hip⟩
    have hp : position < index.total := by
      rw [h.targetAt_eq] at ht
      rw [← h.length_iter]
      exact (List.getElem?_eq_some_iff.mp ht).1
    obtain ⟨unit, hunit, hold⟩ := h.tiles.exists_holds (Nat.zero_le position) hp
    obtain ⟨t', ht', hip'⟩ := h.targetAt_ip hunit position hold
    rw [ht, some_inj] at ht'
    refine ⟨unit, ?_, position, h₁, Nat.lt_min.mpr ⟨h₂, hp⟩, hold, by rw [hip', ← ht', hip]⟩
    -- A unit that holds a position past the start is not among those dropped.
    obtain ⟨i, hi⟩ := mem_iff_getElem?.mp hunit
    have hnot := (h.tiles.lt_partitionPoint start hi).not.mpr (by have := hold.2; omega)
    apply mem_of_getElem?
      (i := i - Bisect.partitionPoint (fun unit => decide (unit.start + unit.len ≤ start)) index.units)
    rw [getElem?_drop, Nat.add_sub_cancel' (Nat.le_of_not_lt hnot), hi]

end Indexed

/-! ## The index of a plan -/

def TargetMap.HasAddresses (map : TargetMap) : Prop := ∀ unit ∈ map.units, unit.ips.isEmpty = false

variable {map : TargetMap}

theorem of_spec (h : map.HasAddresses) :
    ∃ numbered left, map.units = numbered ++ left ∧ Indexed numbered (TargetIndex.of map) ∧
      ((TargetIndex.of map).complete = true ↔ left = []) ∧ (TargetIndex.of map).unnumbered = TargetIndex.leftOut left :=
  ofUnits_spec map.units [] TargetIndex.new Indexed.new rfl rfl h

theorem targetAt_eq_iter (h : map.HasAddresses) (position : Nat) :
    (TargetIndex.of map).targetAt position = (map.iter.take (TargetIndex.of map).total)[position]? := by
  obtain ⟨numbered, left, hunits, hi, -, -⟩ := of_spec h
  have hlen := hi.length_iter
  rw [hi.targetAt_eq, TargetMap.iter, hunits, flatMap_append, take_append_of_le_length hlen.ge,
    take_of_length_le hlen.le]

theorem total_eq_of_complete (h : map.HasAddresses) (hc : (TargetIndex.of map).complete = true) :
    (TargetIndex.of map).total = map.iter.length := by
  obtain ⟨numbered, left, hunits, hi, hcomplete, -⟩ := of_spec h
  rw [TargetMap.iter, hunits, hcomplete.mp hc, append_nil, hi.length_iter]

/-- **The index of a plan is its enumeration, read by number**: `targetAt` reads it, the runs of
the hosts lie end to end, and a span has the addresses of its targets. -/
theorem index_exact (map : TargetMap) (h : map.HasAddresses) :
    (∀ n, (TargetIndex.of map).targetAt n = if n < (TargetIndex.of map).total then map.iter[n]? else none) ∧
    (∀ n < (TargetIndex.of map).total, n < map.iter.length) ∧
    ((TargetIndex.of map).complete = true → (TargetIndex.of map).total = map.iter.length) ∧
    Tiles (fun host => ((TargetIndex.of map).hostRun host).1)
      (fun host => ((TargetIndex.of map).hostRun host).2 - ((TargetIndex.of map).hostRun host).1) 0
      (List.range (TargetIndex.of map).hosts) (TargetIndex.of map).total ∧
    (∀ host < (TargetIndex.of map).hosts, ∃ pre unit post ip, map.units = pre ++ unit :: post ∧
      (pre.flatMap TargetSet.iter).length ≤ ((TargetIndex.of map).hostRun host).1 ∧
      ((TargetIndex.of map).hostRun host).2 ≤ (pre.flatMap TargetSet.iter).length + unit.iter.length ∧
      ∀ n, ((TargetIndex.of map).hostRun host).1 ≤ n → n < ((TargetIndex.of map).hostRun host).2 →
        ∃ t, (TargetIndex.of map).targetAt n = some t ∧ t.ip = ip) ∧
    (∀ n < (TargetIndex.of map).total, (TargetIndex.of map).hostOf n < (TargetIndex.of map).hosts ∧
      ((TargetIndex.of map).hostRun ((TargetIndex.of map).hostOf n)).1 ≤ n ∧
      n < ((TargetIndex.of map).hostRun ((TargetIndex.of map).hostOf n)).2) ∧
    ∀ a b ip, (∃ r ∈ (TargetIndex.of map).addressesIn a b, r.contains ip = true) ↔
      ∃ n, a ≤ n ∧ n < b ∧ ∃ t, (TargetIndex.of map).targetAt n = some t ∧ t.ip = ip := by
  obtain ⟨numbered, left, hunits, hi, -, -⟩ := of_spec h
  have hlen := hi.length_iter
  have hiter : map.iter = numbered.flatMap TargetSet.iter ++ left.flatMap TargetSet.iter := by
    rw [TargetMap.iter, hunits, flatMap_append]
  refine ⟨fun n => ?_, fun n hn => ?_, fun hc => ?_, hi.tile_hosts, fun host hh => ?_,
    fun n hn => hi.hostOf_spec hn,
    hi.mem_addressesIn⟩
  · rw [targetAt_eq_iter h, getElem?_take]
  · rw [hiter, length_append]
    omega
  · exact total_eq_of_complete h hc
  · obtain ⟨pre, unit, post, ip, hnum, hrest⟩ := hi.hostRun_one hh
    refine ⟨pre, unit, post ++ left, ip, ?_, hrest⟩
    rw [hunits, hnum, List.append_assoc, cons_append]

def twoHosts : TargetMap :=
  ⟨[.new (.fromRanges [.v4 ⟨0, 1, by decide⟩])
    ⟨[⟨80, 81, by decide⟩], [], [], pairwise_singleton _ _, PortSet.canonical_nil, PortSet.canonical_nil⟩]⟩

theorem twoHosts_hasAddresses : twoHosts.HasAddresses := by
  intro unit hunit
  rw [mem_singleton.mp hunit]
  decide

theorem index_exact_twoHosts : twoHosts.HasAddresses ∧ (TargetIndex.of twoHosts).targetAt 3 =
      if 3 < (TargetIndex.of twoHosts).total then twoHosts.iter[3]? else none :=
  ⟨twoHosts_hasAddresses, (index_exact twoHosts twoHosts_hasAddresses).1 3⟩

end Zond.Plan

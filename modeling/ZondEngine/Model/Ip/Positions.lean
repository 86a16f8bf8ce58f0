import ZondEngine.Lib.Tiling
import ZondEngine.Model.Ip.Set

/-!
# Positions of a set's addresses

`Positions` of `model/ip/set.rs`: the ranges of a set in the order of its enumeration, each with the position of its
first address, as far as a position can count. `Numbered` is what the numbering pass keeps, `ofCanonical_spec` what it
leaves.
-/

namespace Zond.Ip

open Zond.Ranges Zond.Tiling List

namespace IpAddr

def isIpv6 : IpAddr → Bool
  | v4 _ => false
  | v6 _ => true

def widen : IpAddr → Nat
  | v4 a => a
  | v6 a => a

end IpAddr

namespace IpRange

def here : IpRange → Bool × Zone
  | v4 _ => (false, none)
  | v6 r => (true, r.zone)

def addr : IpRange → Nat → IpAddr
  | v4 _, n => .v4 (Fin.ofNat _ n)
  | v6 _, n => .v6 (Fin.ofNat _ n)

instance : Ranged IpRange where
  width := 128
  group
    | v4 _ => 0
    | v6 r => zoneKey r.zone + 1
  lo
    | v4 r => r.startAddr
    | v6 r => r.startAddr
  hi
    | v4 r => r.endAddr
    | v6 r => r.endAddr
  lo_le_hi
    | v4 r => r.start_le_end
    | v6 r => r.start_le_end
  hi_le_top
    | v4 r => (bounds_le r).trans (Nat.le_refl _)
    | v6 r => Word.lt_pow_iff_le_top.mp r.endAddr.isLt
  eq_of_bounds
    | v4 r, v4 s, _, hlo, hhi => congrArg v4 (eq_of_bounds r s rfl hlo hhi)
    | v6 r, v6 s, hg, hlo, hhi => congrArg v6 (eq_of_bounds r s (Nat.succ.inj hg) hlo hhi)
    | v4 _, v6 _, hg, _, _ => absurd hg.symm (Nat.succ_ne_zero _)
    | v6 _, v4 _, hg, _, _ => absurd hg (Nat.succ_ne_zero _)
where
  bounds_le (r : Ipv4Range) : r.endAddr.val ≤ Word.top 128 := r.bounds.hi_le_top

def size (r : IpRange) : Nat := hi r - lo r + 1

end IpRange

structure Span where
  range : IpRange
  (start len : Nat)
  deriving DecidableEq

structure Run where
  (first past : Nat)
  v6 : Bool
  deriving DecidableEq

/-- The addresses of a set, numbered. -/
structure Positions where
  spans : List Span
  runs : List Run
  total : Nat
  unnumbered : List IpRange

variable (range : IpRange)

def offsetWithin (ip : IpAddr) : Option Nat :=
  match range, ip with
  | .v4 _, .v6 _ => none
  | .v6 _, .v4 _ => none
  | _, _ =>
    if ip.widen < lo range ∨ hi range < ip.widen then none
    else if ip.widen - lo range < 2 ^ 64 then some (ip.widen - lo range) else none

def addressWithin (offset : Nat) : Option IpAddr := do
  let found ← Word.checkedAdd 128 (lo range) offset
  if hi range < found then none
  else
    match range with
    | .v4 _ => if h : found < 2 ^ 32 then some (.v4 ⟨found, h⟩) else none
    | .v6 _ => some (.v6 (Fin.ofNat _ found))

/-- The part of a range between two positions. -/
def sliceOf (first last : Nat) : Option IpRange := do
  let start ← addressWithin range first
  let stop ← addressWithin range last
  match range, start, stop with
  | .v4 _, .v4 start, .v4 stop => (Ipv4Range.new start stop).toOption.map .v4
  | .v6 r, .v6 start, .v6 stop => (Ipv6Range.scopedTo start stop r.zone).toOption.map .v6
  | _, _, _ => none

namespace Positions

def new : Positions := ⟨[], [], 0, []⟩

def extendRuns (runs : List Run) (sameGroup : Bool) (index : Nat) (v6 : Bool) : List Run :=
  match runs.getLast? with
  | some run =>
    if sameGroup then runs.dropLast ++ [{ run with past := index + 1 }] else runs ++ [⟨index, index + 1, v6⟩]
  | none => runs ++ [⟨index, index + 1, v6⟩]

variable (p : Positions)

def leaveOut (range : IpRange) : Positions := { p with unnumbered := p.unnumbered ++ [range] }

def number : Positions × Option (Bool × Zone) → IpRange → Positions × Option (Bool × Zone)
  | (p, group), range =>
    if !p.unnumbered.isEmpty then (p.leaveOut range, group)
    else if range.len < 2 ^ 64 then
      match Word.checkedAdd 64 p.total range.len with
      | none => (p.leaveOut range, group)
      | some next =>
        ({ p with
            spans := p.spans ++ [⟨range, p.total, range.len⟩]
            runs := extendRuns p.runs (group == some range.here) p.spans.length range.here.1
            total := next }, some range.here)
    else (p.leaveOut range, group)

def rangesOf (s : IpSet) : List IpRange := s.v4.map .v4 ++ s.v6.map .v6

def ofCanonical (s : IpSet) : Positions := ((rangesOf s).foldl number (new, none)).1

def of (s : IpSet) : Positions := ofCanonical s.merged

def spanAt (position : Nat) : Option Nat :=
  if p.total ≤ position then none
  else (Bisect.binarySearchBy (compareAt Span.start Span.len position) p.spans).toOption

def addressAt (position : Nat) : Option IpAddr := do
  let index ← p.spanAt position
  let span ← p.spans[index]?
  addressWithin span.range (position - span.start)

def slicesOf (start stop : Nat) : List Span → List IpRange
  | [] => []
  | span :: rest =>
    if stop ≤ span.start then []
    else
      (sliceOf span.range (start - span.start) (min (stop - span.start) span.len - 1)).toList ++
        slicesOf start stop rest

/-- The ranges a span of positions covers. -/
def rangesIn (start stop : Nat) : List IpRange :=
  let stop := min stop p.total
  if stop ≤ start then []
  else
    match p.spanAt start with
    | none => []
    | some index => slicesOf start stop (p.spans.drop index)

def holdCompare (key : Nat) (span : Span) : Ordering :=
  if hi span.range < key then .lt else if key < lo span.range then .gt else .eq

def spansOf (run : Run) : List Span := (p.spans.drop run.first).take (run.past - run.first)

def searchRun (key : Nat) (run : Run) : Option Span :=
  match Bisect.binarySearchBy (holdCompare key) (p.spansOf run) with
  | .ok index => (p.spansOf run)[index]?
  | .error _ => none

def searchRuns (p : Positions) (key : Nat) (found : Option Span) : List Run → Option Span
  | [] => found
  | run :: rest =>
    match p.searchRun key run with
    | none => searchRuns p key found rest
    | some span => if found.isSome then none else searchRuns p key (some span) rest

/-- The span of the one numbered range that holds an address. -/
def spanHolding (ip : IpAddr) : Option Span :=
  p.searchRuns ip.widen none (p.runs.filter fun run => run.v6 == ip.isIpv6)

def find (ip : IpAddr) : Option Nat := do
  let span ← p.spanHolding ip
  let offset ← offsetWithin span.range ip
  some (span.start + offset)

end Positions

section Within

variable {r : IpRange} {ip : IpAddr} {k : Nat}

theorem IpRange.size_pos (r : IpRange) : 0 < r.size := Nat.succ_pos _

theorem IpRange.iter_eq (r : IpRange) : r.iter = (List.range' (lo r) r.size).map r.addr := by
  cases r with
  | v4 r => rfl
  | v6 r => rfl

theorem IpRange.length_iter (r : IpRange) : r.iter.length = r.size := by
  rw [IpRange.iter_eq, length_map, length_range']

theorem IpRange.getElem?_iter (hk : k < r.size) : r.iter[k]? = some (r.addr (lo r + k)) := by
  rw [IpRange.iter_eq, getElem?_map, getElem?_range' hk, Nat.one_mul, Option.map_some]

theorem IpRange.len_lt_iff (r : IpRange) : (r.len < 2 ^ 64 ↔ r.size < 2 ^ 64) ∧ (r.len < 2 ^ 64 → r.len = r.size) := by
  cases r with
  | v4 r => exact ⟨Iff.rfl, fun _ => rfl⟩
  | v6 r =>
    have h : r.len = min (IpRange.v6 r).size (Word.top 128) := rfl
    have htop : Word.top 128 = 2 ^ 128 - 1 := rfl
    show (r.len < 2 ^ 64 ↔ _) ∧ (r.len < 2 ^ 64 → r.len = _)
    omega

theorem IpRange.contains_iff : r.contains ip = true ↔ r.here.1 = ip.isIpv6 ∧ lo r ≤ ip.widen ∧ ip.widen ≤ hi r := by
  cases r with
  | v4 r =>
    cases ip with
    | v4 a =>
      simp only [contains, Ipv4Range.contains_iff, Inside, here, IpAddr.isIpv6, true_and]; exact and_iff_right rfl
    | v6 a => simp [contains, here, IpAddr.isIpv6]
  | v6 r =>
    cases ip with
    | v4 a => simp [contains, here, IpAddr.isIpv6]
    | v6 a => simp only [contains, Ipv6Range.contains_iff, here, IpAddr.isIpv6, true_and]; exact Iff.rfl

theorem IpRange.addr_widen (h : r.contains ip = true) : r.addr ip.widen = ip := by
  obtain ⟨hf, -, -⟩ := IpRange.contains_iff.mp h
  cases r with
  | v4 r =>
    cases ip with
    | v4 a => exact congrArg IpAddr.v4 (Fin.ext (Nat.mod_eq_of_lt a.isLt))
    | v6 a => cases hf
  | v6 r =>
    cases ip with
    | v4 a => cases hf
    | v6 a => exact congrArg IpAddr.v6 (Fin.ext (Nat.mod_eq_of_lt a.isLt))

theorem IpRange.widen_addr {m : Nat} (h : m ≤ hi r) : (r.addr m).widen = m := by
  cases r with
  | v4 r => exact Nat.mod_eq_of_lt (Nat.lt_of_le_of_lt h r.endAddr.isLt)
  | v6 r => exact Nat.mod_eq_of_lt (Nat.lt_of_le_of_lt h r.endAddr.isLt)

theorem IpRange.nodup_iter (r : IpRange) : r.iter.Nodup := by
  have hle := lo_le_hi r
  rw [IpRange.iter_eq]
  refine List.Nodup.map_on (fun m hm k hk heq => ?_) nodup_range'
  rw [mem_range'_1, IpRange.size] at hm hk
  rw [← r.widen_addr (m := m) (by omega), heq, r.widen_addr (by omega)]

theorem IpRange.mem_iter : ip ∈ r.iter ↔ r.contains ip = true := by
  have hle := lo_le_hi r
  rw [IpRange.iter_eq, mem_map]
  constructor
  · intro ⟨n, hn, hip⟩
    rw [mem_range'_1, IpRange.size] at hn
    have hwiden : ip.widen = n := hip ▸ r.widen_addr (by omega)
    have hfamily : r.here.1 = ip.isIpv6 := by
      rw [← hip]
      cases r <;> rfl
    exact IpRange.contains_iff.mpr ⟨hfamily, by omega, by omega⟩
  · intro h
    obtain ⟨-, hlo, hhi⟩ := IpRange.contains_iff.mp h
    exact ⟨ip.widen, mem_range'_1.mpr ⟨hlo, by unfold IpRange.size; omega⟩, IpRange.addr_widen h⟩

theorem IpSet.mem_iter {s : IpSet} : ip ∈ s.iter ↔ ∃ zone, (ip, zone) ∈ s.pairs := by
  have hin : ∀ r : IpRange, ip ∈ r.iter ↔ ∃ zone, (ip, zone) ∈ r.pairs := fun r =>
    IpRange.mem_iter.trans ⟨fun h => ⟨_, h, rfl⟩, fun ⟨_, h, _⟩ => h⟩
  have hv4 : ∀ r : Ipv4Range, ip ∈ r.iter ↔ ∃ zone, (ip, zone) ∈ IpRange.pairs (.v4 r) := fun r => hin (.v4 r)
  have hv6 : ∀ r : Ipv6Range, ip ∈ r.iter ↔ ∃ zone, (ip, zone) ∈ IpRange.pairs (.v6 r) := fun r => hin (.v6 r)
  rw [iter, ← s.pairs_merged, s.merged.pairs_eq_union, mem_append, mem_flatMap, mem_flatMap]
  simp only [hv4, hv6, Set.mem_union, Set.mem_ofPred_eq, exists_or, ← exists_and_left]
  exact or_congr exists_comm exists_comm

theorem addressWithin_eq (r : IpRange) (k : Nat) : addressWithin r k = r.iter[k]? := by
  have htop := hi_le_top r
  have hle := lo_le_hi r
  rw [← Word.lt_pow_iff_le_top] at htop
  rcases Nat.lt_or_ge k r.size with hk | hk
  · have hin : lo r + k ≤ hi r := by unfold IpRange.size at hk; omega
    have hadd : Word.checkedAdd 128 (lo r) k = some (lo r + k) :=
      Word.checkedAdd_eq_some_iff.mpr ⟨hin.trans_lt htop, rfl⟩
    rw [IpRange.getElem?_iter hk]
    simp only [addressWithin, hadd, Option.bind_eq_bind, Option.bind_some, Nat.not_lt.mpr hin, if_false]
    cases r with
    | v4 r =>
      have hlt : lo (IpRange.v4 r) + k < 2 ^ 32 := hin.trans_lt r.endAddr.isLt
      simp only [hlt, dite_true]
      exact congrArg (fun a => some (IpAddr.v4 a)) (Fin.ext (Nat.mod_eq_of_lt hlt).symm)
    | v6 r => rfl
  · have hout : hi r < lo r + k := by unfold IpRange.size at hk; omega
    rw [getElem?_eq_none (by rw [IpRange.length_iter]; exact hk)]
    simp only [addressWithin, Option.bind_eq_bind]
    cases hadd : Word.checkedAdd 128 (lo r) k with
    | none => rfl
    | some found =>
      obtain ⟨-, rfl⟩ := Word.checkedAdd_eq_some_iff.mp hadd
      simp only [Option.bind_some, hout, if_true]

theorem offsetWithin_eq (h : r.contains ip = true) (hsize : r.size < 2 ^ 64) :
    offsetWithin r ip = some (ip.widen - lo r) := by
  obtain ⟨hf, hlo, hhi⟩ := IpRange.contains_iff.mp h
  have hlt : ip.widen - lo r < 2 ^ 64 := by unfold IpRange.size at hsize; omega
  have hin : ¬ (ip.widen < lo r ∨ hi r < ip.widen) := by omega
  unfold offsetWithin
  split
  · cases hf
  · cases hf
  · rw [if_neg hin, if_pos hlt]

theorem sliceOf_spec {first last : Nat} (hle : first ≤ last) (hlast : last < r.size) :
    ∃ part, sliceOf r first last = some part ∧ part.here = r.here ∧ lo part = lo r + first ∧ hi part = lo r + last := by
  have hfirst : first < r.size := hle.trans_lt hlast
  have hbound : lo r + last ≤ hi r := by
    have := lo_le_hi r
    unfold IpRange.size at hlast
    omega
  simp only [sliceOf, addressWithin_eq, IpRange.getElem?_iter hfirst, IpRange.getElem?_iter hlast,
    Option.bind_eq_bind,
    Option.bind_some]
  have h₁ := r.widen_addr (m := lo r + first) (by omega)
  have h₂ := r.widen_addr hbound
  have hwiden : (r.addr (lo r + first)).widen ≤ (r.addr (lo r + last)).widen := by omega
  cases r with
  | v4 r =>
    simp only [IpRange.addr, Ipv4Range.new]
    rw [dif_pos (show Fin.ofNat (2 ^ 32) _ ≤ Fin.ofNat _ _ from hwiden)]
    exact ⟨_, rfl, rfl, h₁, h₂⟩
  | v6 r =>
    simp only [IpRange.addr, Ipv6Range.scopedTo]
    rw [dif_pos (show Fin.ofNat (2 ^ 128) _ ≤ Fin.ofNat _ _ from hwiden)]
    exact ⟨_, rfl, congrArg (Prod.mk true) r.zone_filter, h₁, h₂⟩

theorem iter_sliceOf {first last : Nat} (hle : first ≤ last) (hlast : last < r.size) :
    (sliceOf r first last).toList.flatMap IpRange.iter = (r.iter.take (last + 1)).drop first := by
  obtain ⟨part, hpart, hhere, hlo, hhi⟩ := sliceOf_spec hle hlast
  have haddr : part.addr = r.addr := by
    cases r <;> cases part <;> first | rfl | cases hhere
  rw [hpart, Option.toList_some, flatMap_singleton, IpRange.iter_eq, IpRange.iter_eq, haddr, IpRange.size,
    hlo, hhi,
    ← map_take, ← map_drop, take_range'_of_length_ge (by omega), drop_range', Nat.mul_one]
  congr 2
  omega

end Within

namespace Positions

/-! ## The numbering pass -/

def counted (total : Nat) : List IpRange → List IpRange
  | [] => []
  | r :: rs => if total + r.size < 2 ^ 64 then r :: counted (total + r.size) rs else []

def uncounted (rs : List IpRange) : List IpRange := rs.drop (counted 0 rs).length

theorem counted_append_drop : ∀ (total : Nat) (rs : List IpRange),
    counted total rs ++ rs.drop (counted total rs).length = rs
  | _, [] => rfl
  | total, r :: rs => by
    simp only [counted]
    split
    · rw [cons_append, length_cons, drop_succ_cons, counted_append_drop]
    · rfl

/-- The runs stand end to end over the spans, each over spans of one family and one link. -/
structure Grouped (p : Positions) : Prop where
  runs_tile : Tiles Run.first (fun run => run.past - run.first) 0 p.runs p.spans.length
  runs_here : ∀ run ∈ p.runs, ∃ z, ∀ span ∈ p.spansOf run, span.range.here = (run.v6, z)

structure Numbered (p : Positions) (group : Option (Bool × Zone)) : Prop extends Grouped p where
  tiles : Tiles Span.start Span.len 0 p.spans p.total
  total_lt : p.total < 2 ^ 64
  len_eq : ∀ span ∈ p.spans, span.len = span.range.size
  last_here : group = p.spans.getLast?.map fun span => span.range.here

theorem new_numbered : Numbered new none where
  tiles := .nil 0
  total_lt := by decide
  len_eq _ h := absurd h (by simp [new])
  runs_tile := .nil 0
  runs_here _ h := absurd h (by simp [new])
  last_here := rfl

theorem spansOf_concat {p q : Positions} {span : Span} {run : Run} (hq : q.spans = p.spans ++ [span])
    (hrun : run.past ≤ p.spans.length) : q.spansOf run = p.spansOf run := by
  unfold spansOf
  rw [hq]
  rcases Nat.le_total run.first p.spans.length with h | h
  · rw [drop_append_of_le_length h, take_append_of_le_length]
    rw [length_drop]
    omega
  · rw [show run.past - run.first = 0 by omega, take_zero, take_zero]

section Push

variable {p q : Positions} {group : Option (Bool × Zone)} {span : Span} {init : List Run}

theorem runs_of_last {last : Run} (h : Numbered p group) (hq : q.spans = p.spans ++ [span])
    (hruns : q.runs = init ++ [last]) (hinit : init ⊆ p.runs)
    (htiles : Tiles Run.first (fun run => run.past - run.first) 0 init last.first)
    (hfirst : last.first ≤ p.spans.length) (hpast : last.past = p.spans.length + 1)
    (hlast : ∃ z, ∀ span ∈ q.spansOf last, span.range.here = (last.v6, z)) : Grouped q := by
  refine ⟨?_, ?_⟩ <;> rw [hruns]
  · have hconcat := htiles.concat rfl (show 0 < last.past - last.first by omega)
    rwa [show last.first + (last.past - last.first) = q.spans.length by
      rw [hq, length_append, length_singleton]
      omega] at hconcat
  · intro run hrun
    rcases mem_append.mp hrun with hrun | hrun
    · rw [spansOf_concat hq (by have := h.runs_tile.mem (hinit hrun); omega)]
      exact h.runs_here run (hinit hrun)
    · rwa [mem_singleton.mp hrun]

theorem runs_of_new (h : Numbered p group) (hq : q.spans = p.spans ++ [span])
    (hruns : q.runs = p.runs ++ [⟨p.spans.length, p.spans.length + 1, span.range.here.1⟩]) : Grouped q := by
  refine runs_of_last h hq hruns (Subset.refl _) h.runs_tile le_rfl rfl ⟨span.range.here.2, fun span' hspan' => ?_⟩
  simp only [spansOf, hq, drop_left, Nat.add_sub_cancel_left] at hspan'
  rw [take_of_length_le (by simp), mem_singleton] at hspan'
  rw [hspan']

theorem runs_of_grown (span : Span) {run : Run} (h : Numbered p (some span.range.here))
    (hq : q.spans = p.spans ++ [span]) (hp : p.runs = init ++ [run])
    (hruns : q.runs = init ++ [{ run with past := p.spans.length + 1 }]) : Grouped q := by
  have htile := h.runs_tile
  rw [hp] at htile
  obtain ⟨c, hinit, hlast⟩ := Tiles.of_append htile
  obtain ⟨rfl, hpos, hend⟩ := Tiles.cons_iff.mp hlast
  have hpast : run.past = p.spans.length := by
    have := Tiles.nil_iff.mp hend
    omega
  have hfirst : run.first < p.spans.length := by omega
  have hspans : p.spansOf run = p.spans.drop run.first := take_of_length_le (by rw [length_drop]; omega)
  obtain ⟨z, hz⟩ := h.runs_here run (by rw [hp]; simp)
  -- The last span numbered is the last of the run, and of the group of the new one.
  have hnew : span.range.here = (run.v6, z) := by
    obtain ⟨last, hmem, heq⟩ := Option.map_eq_some_iff.mp h.last_here.symm
    rw [← heq]
    apply hz
    rw [hspans]
    rw [getLast?_eq_getElem?] at hmem
    apply mem_of_getElem? (i := p.spans.length - 1 - run.first)
    rw [getElem?_drop, ← hmem]
    congr 1
    omega
  refine runs_of_last h hq hruns (hp ▸ subset_append_left _ _) hinit hfirst.le rfl ⟨z, fun span' hspan' => ?_⟩
  have hgrown : q.spansOf { run with past := p.spans.length + 1 } = p.spansOf run ++ [span] := by
    rw [hspans]
    simp only [spansOf, hq]
    rw [drop_append_of_le_length hfirst.le, take_of_length_le (by simp; omega)]
  rw [hgrown] at hspan'
  rcases mem_append.mp hspan' with hspan' | hspan'
  · exact hz span' hspan'
  · rw [mem_singleton.mp hspan', hnew]

end Push

/-- **Numbering one more range keeps the spans end to end and the runs of one group.** -/
theorem Numbered.push {p : Positions} {group : Option (Bool × Zone)} (h : Numbered p group) (range : IpRange)
    (hfit : p.total + range.size < 2 ^ 64) :
    Numbered
      { p with
        spans := p.spans ++ [⟨range, p.total, range.size⟩]
        runs := extendRuns p.runs (group == some range.here) p.spans.length range.here.1
        total := p.total + range.size } (some range.here) := by
  have hruns : ∀ q : Positions, q.spans = p.spans ++ [⟨range, p.total, range.size⟩] →
      q.runs = extendRuns p.runs (group == some range.here) p.spans.length range.here.1 → Grouped q := by
    intro q hq hqr
    unfold extendRuns at hqr
    split at hqr
    · rename_i run hlast
      obtain ⟨init, hinit⟩ := getLast?_eq_some_iff.mp hlast
      split at hqr
      · rename_i hsame
        rw [beq_iff_eq] at hsame
        subst hsame
        exact runs_of_grown ⟨range, p.total, range.size⟩ h hq hinit (by rw [hqr, hinit, dropLast_concat])
      · exact runs_of_new h hq hqr
    · exact runs_of_new h hq hqr
  refine
    { tiles := h.tiles.concat (x := ⟨range, p.total, range.size⟩) rfl range.size_pos
      total_lt := hfit
      len_eq := ?_
      toGrouped := hruns _ rfl rfl
      last_here := by simp }
  intro span hspan
  rcases mem_append.mp hspan with hspan | hspan
  · exact h.len_eq span hspan
  · rw [mem_singleton] at hspan
    rw [hspan]

theorem number_eq {p : Positions} (hu : p.unnumbered = []) (group : Option (Bool × Zone)) (range : IpRange) :
    number (p, group) range =
      if p.total + range.size < 2 ^ 64 then
        ({ p with
            spans := p.spans ++ [⟨range, p.total, range.size⟩]
            runs := extendRuns p.runs (group == some range.here) p.spans.length range.here.1
            total := p.total + range.size }, some range.here)
      else (p.leaveOut range, group) := by
  obtain ⟨hiff, heq⟩ := range.len_lt_iff
  simp only [number, hu, isEmpty_nil, Bool.not_true, Bool.false_eq_true, if_false]
  by_cases hlen : range.len < 2 ^ 64
  · rw [if_pos hlen, heq hlen]
    by_cases hfit : p.total + range.size < 2 ^ 64
    · rw [Word.checkedAdd, if_pos hfit, if_pos hfit]
    · rw [Word.checkedAdd, if_neg hfit, if_neg hfit]
  · rw [if_neg hlen, if_neg]
    omega

theorem foldl_leaveOut (group : Option (Bool × Zone)) : ∀ (rs : List IpRange) (p : Positions), p.unnumbered ≠ [] →
    rs.foldl number (p, group) = ({ p with unnumbered := p.unnumbered ++ rs }, group)
  | [], p, _ => by simp
  | r :: rs, p, h => by
    have hstep : number (p, group) r = (p.leaveOut r, group) := by
      rw [number, if_pos (by simpa using h)]
    rw [foldl_cons, hstep, foldl_leaveOut group rs _ (by simp [leaveOut])]
    simp [leaveOut]

/-- **What the whole pass leaves**, from wherever it stands. -/
theorem foldl_number : ∀ (rs : List IpRange) (p : Positions) (group : Option (Bool × Zone)), Numbered p group →
    p.unnumbered = [] →
    (∃ group', Numbered (rs.foldl number (p, group)).1 group') ∧
      (rs.foldl number (p, group)).1.spans.map (·.range) = p.spans.map (·.range) ++ counted p.total rs ∧
      (rs.foldl number (p, group)).1.unnumbered = rs.drop (counted p.total rs).length
  | [], p, group, h, hu => ⟨⟨group, h⟩, by simp [counted], by simp [hu]⟩
  | r :: rs, p, group, h, hu => by
    rw [foldl_cons, number_eq hu]
    by_cases hfit : p.total + r.size < 2 ^ 64
    · rw [if_pos hfit, counted, if_pos hfit]
      obtain ⟨hn, hs, hun⟩ := foldl_number rs _ _ (h.push r hfit) hu
      refine ⟨hn, ?_, ?_⟩
      · rw [hs]
        simp
      · rw [hun, length_cons, drop_succ_cons]
    · rw [if_neg hfit, counted, if_neg hfit, foldl_leaveOut group rs _ (by simp [leaveOut])]
      -- Leaving a range out changes nothing that is numbered.
      exact ⟨⟨group, ⟨h.runs_tile, h.runs_here⟩, h.tiles, h.total_lt, h.len_eq, h.last_here⟩, by simp [leaveOut],
        by simp [leaveOut, hu]⟩

theorem ofCanonical_spec (s : IpSet) : (∃ group, Numbered (ofCanonical s) group) ∧
      (ofCanonical s).spans.map (·.range) = counted 0 (rangesOf s) ∧
      (ofCanonical s).unnumbered = uncounted (rangesOf s) := by
  obtain ⟨h₁, h₂, h₃⟩ := foldl_number (rangesOf s) new none new_numbered rfl
  exact ⟨h₁, by rw [ofCanonical, h₂]; rfl, h₃⟩

end Positions

end Zond.Ip

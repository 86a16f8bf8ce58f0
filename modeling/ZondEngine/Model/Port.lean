import ZondEngine.Lib.Ranges

/-!
# Port sets

`PortSet` of `model/port/set.rs`: for each protocol a canonical list of closed ranges, which is a field. It is
determined by what it contains (`eq_iff_contains`), and `union` and `difference` contain what union and difference do.
-/

namespace Zond.Port

open Zond.Ranges List

inductive Protocol where
  | tcp | udp | sctp
  deriving DecidableEq

def Protocol.ALL : List Protocol := [tcp, udp, sctp]

structure PortRange where
  (start stop : UInt16)
  start_le_stop : start ≤ stop
  deriving DecidableEq

namespace PortRange

def extendTo (r s : PortRange) : PortRange :=
  if h : r.stop < s.stop then ⟨r.start, s.stop, UInt16.le_trans r.start_le_stop (UInt16.le_of_lt h)⟩ else r

instance : Joinable PortRange where
  width := 16
  group _ := 0
  lo r := r.start.toNat
  hi r := r.stop.toNat
  extendTo := extendTo
  lo_le_hi r := UInt16.le_iff_toNat_le.mp r.start_le_stop
  hi_le_top r := Word.lt_pow_iff_le_top.mp r.stop.toNat_lt
  group_extendTo _ _ := rfl
  lo_extendTo r s := by
    unfold extendTo
    split <;> rfl
  hi_extendTo r s := by
    unfold extendTo
    split
    · rename_i h
      exact (Nat.max_eq_right (Nat.le_of_lt (UInt16.lt_iff_toNat_lt.mp h))).symm
    · rename_i h
      exact (Nat.max_eq_left (Nat.le_of_not_lt fun hlt => h (UInt16.lt_iff_toNat_lt.mpr hlt))).symm
  eq_of_bounds := by
    intro ⟨_, _, _⟩ ⟨_, _, _⟩ _ hlo hhi
    cases UInt16.toNat_inj.mp hlo
    cases UInt16.toNat_inj.mp hhi
    rfl

def iter (r : PortRange) : List UInt16 :=
  (List.range' r.start.toNat (r.stop.toNat - r.start.toNat + 1)).map UInt16.ofNat

end PortRange

/-- Ports of each protocol, as merged ranges. -/
structure PortSet where
  (tcp udp sctp : List PortRange)
  tcp_canonical : Canonical tcp
  udp_canonical : Canonical udp
  sctp_canonical : Canonical sctp
  deriving DecidableEq

namespace PortSet

theorem canonical_nil : Canonical ([] : List PortRange) := .nil

def new : PortSet := ⟨[], [], [], canonical_nil, canonical_nil, canonical_nil⟩

variable (s : PortSet)

def ranges : Protocol → List PortRange
  | .tcp => s.tcp
  | .udp => s.udp
  | .sctp => s.sctp

def iter : List (UInt16 × Protocol) :=
  Protocol.ALL.flatMap fun protocol =>
    (s.ranges protocol).flatMap fun range => range.iter.map fun port => (port, protocol)

def toVec : List (UInt16 × Protocol) := s.iter

def lenOn (protocol : Protocol) : Nat :=
  ((s.ranges protocol).map fun range => range.stop.toNat - range.start.toNat + 1).sum

def len : Nat := (Protocol.ALL.map s.lenOn).sum

def isEmpty : Bool := Protocol.ALL.all fun protocol => (s.ranges protocol).isEmpty

theorem length_ranges (protocol : Protocol) :
    ((s.ranges protocol).flatMap fun range => range.iter.map fun port => (port, protocol)).length =
      s.lenOn protocol := by
  unfold lenOn
  induction s.ranges protocol with
  | nil => rfl
  | cons r rs ih => simp [flatMap_cons, PortRange.iter]

theorem length_toVec : s.toVec.length = s.len := by
  unfold toVec iter len
  induction Protocol.ALL with
  | nil => rfl
  | cons protocol rest ih =>
    rw [flatMap_cons, length_append, length_ranges, ih, map_cons, sum_cons]

theorem isEmpty_iff : s.isEmpty = true ↔ s.toVec = [] := by
  unfold isEmpty toVec iter
  rw [all_eq_true, flatMap_eq_nil_iff]
  refine forall₂_congr fun protocol _ => ?_
  cases s.ranges protocol with
  | nil => simp
  | cons r rs => simp [PortRange.iter]

end PortSet

/-! ## Ways to make a set -/

def PortRange.single (port : UInt16) : PortRange := ⟨port, port, UInt16.le_refl port⟩

structure Lanes where
  (tcp udp sctp : List PortRange)

namespace Lanes

def empty : Lanes := ⟨[], [], []⟩

variable (l : Lanes)

def lane : Protocol → List PortRange
  | .tcp => l.tcp
  | .udp => l.udp
  | .sctp => l.sctp

def push (protocol : Protocol) (range : PortRange) : Lanes :=
  match protocol with
  | .tcp => { l with tcp := l.tcp ++ [range] }
  | .udp => { l with udp := l.udp ++ [range] }
  | .sctp => { l with sctp := l.sctp ++ [range] }

def merged : PortSet :=
  ⟨merge l.tcp, merge l.udp, merge l.sctp, canonical_merge _, canonical_merge _, canonical_merge _⟩

theorem ext_lane {l m : Lanes} (h : ∀ protocol, l.lane protocol = m.lane protocol) : l = m := by
  obtain ⟨tcp, udp, sctp⟩ := l
  have htcp : tcp = m.tcp := h .tcp
  have hudp : udp = m.udp := h .udp
  have hsctp : sctp = m.sctp := h .sctp
  subst htcp hudp hsctp
  rfl

theorem lane_push (protocol other : Protocol) (range : PortRange) :
    (l.push protocol range).lane other = if other = protocol then l.lane other ++ [range] else l.lane other := by
  cases protocol <;> cases other <;> rfl

theorem ranges_merged (protocol : Protocol) : l.merged.ranges protocol = merge (l.lane protocol) := by
  cases protocol <;> rfl

end Lanes

theorem toNat_pred {a b : UInt16} (h : a < b) : (b - 1).toNat = b.toNat - 1 := by
  have hlt := UInt16.lt_iff_toNat_lt.mp h
  have hone : (1 : UInt16) ≤ b := UInt16.le_iff_toNat_le.mpr (by
    rw [show (1 : UInt16).toNat = 1 from rfl]
    omega)
  rw [UInt16.toNat_sub_of_le _ _ hone, show (1 : UInt16).toNat = 1 from rfl]

theorem le_pred {a b : UInt16} (h : a < b) : a ≤ b - 1 := by
  have hlt := UInt16.lt_iff_toNat_lt.mp h
  rw [UInt16.le_iff_toNat_le, toNat_pred h]
  omega

def PortRange.gapBefore (start : UInt16) (cut : PortRange) : List PortRange :=
  if h : start < cut.start then [⟨start, cut.start - 1, le_pred h⟩] else []

def PortRange.past (range cut : PortRange) : Option {n : UInt16 // n ≤ range.stop} :=
  if h : cut.stop ≠ 65535 ∧ cut.stop + 1 ≤ range.stop then some ⟨cut.stop + 1, h.2⟩ else none

/-- The part of a range from `rest` on that the cuts leave. -/
def PortRange.leftOf (range : PortRange) : Option {n : UInt16 // n ≤ range.stop} → List PortRange → List PortRange
  | none, _ => []
  | some start, [] => [⟨start, range.stop, start.2⟩]
  | some start, cut :: cuts =>
    if cut.stop < start.1 then range.leftOf (some start) cuts
    else if cut.start > range.stop then [⟨start, range.stop, start.2⟩]
    else gapBefore start.1 cut ++ range.leftOf (range.past cut) cuts

namespace PortSet

def fromIter (pairs : List (UInt16 × Protocol)) : PortSet :=
  (pairs.foldl (fun lanes pair => lanes.push pair.2 (.single pair.1)) Lanes.empty).merged

def union (s t : PortSet) : PortSet :=
  Lanes.merged ⟨s.tcp ++ t.tcp, s.udp ++ t.udp, s.sctp ++ t.sctp⟩

def contains (s : PortSet) (port : UInt16) (protocol : Protocol) : Bool := search (s.ranges protocol) port.toNat

theorem ranges_canonical (s : PortSet) (protocol : Protocol) : Canonical (s.ranges protocol) := by
  cases protocol
  · exact s.tcp_canonical
  · exact s.udp_canonical
  · exact s.sctp_canonical

theorem ext_ranges {s t : PortSet} (h : ∀ protocol, s.ranges protocol = t.ranges protocol) : s = t := by
  obtain ⟨tcp, udp, sctp, _, _, _⟩ := s
  obtain ⟨tcp', udp', sctp', _, _, _⟩ := t
  have hlanes : Lanes.mk tcp udp sctp = ⟨tcp', udp', sctp'⟩ := Lanes.ext_lane fun protocol => by
    cases protocol
    · exact h .tcp
    · exact h .udp
    · exact h .sctp
  cases hlanes
  rfl

end PortSet

section Membership

variable {range : PortRange}

theorem oneGroup (rs : List PortRange) : OneGroup rs 0 := fun _ _ => rfl

def Among (n : Nat) (rs : List PortRange) : Prop := ∃ r ∈ rs, r.start.toNat ≤ n ∧ n ≤ r.stop.toNat

theorem mem_held_iff {rs : List PortRange} {x : Nat × Nat} : x ∈ held rs ↔ x.1 = 0 ∧ Among x.2 rs := by
  constructor
  · rintro ⟨r, hr, hgroup, hin⟩
    exact ⟨hgroup.symm, r, hr, hin⟩
  · rintro ⟨hgroup, r, hr, hin⟩
    exact ⟨r, hr, hgroup.symm, hin⟩

variable {n : Nat}

theorem among_append {rs ss : List PortRange} : Among n (rs ++ ss) ↔ Among n rs ∨ Among n ss := by
  simp only [Among, mem_append, or_and_right, exists_or]

theorem among_merge {rs : List PortRange} : Among n (merge rs) ↔ Among n rs := by
  have h := Set.ext_iff.mp (held_merge rs) (0, n)
  rw [mem_held_iff, mem_held_iff] at h
  simpa using h

theorem among_gapBefore {start : UInt16} {cut : PortRange} :
    Among n (PortRange.gapBefore start cut) ↔ start.toNat ≤ n ∧ n < cut.start.toNat := by
  unfold PortRange.gapBefore
  split
  · rename_i hlt
    have := UInt16.lt_iff_toNat_lt.mp hlt
    simp only [Among, mem_singleton, exists_eq_left, toNat_pred hlt]
    omega
  · rename_i hlt
    have : cut.start.toNat ≤ start.toNat := UInt16.le_iff_toNat_le.mp (UInt16.not_lt.mp hlt)
    simp only [Among, not_mem_nil, false_and, exists_false, false_iff]
    omega

theorem past_cases (range cut : PortRange) : (∃ next, range.past cut = some next ∧ next.1.toNat = cut.stop.toNat + 1) ∨
      range.past cut = none ∧ range.stop.toNat ≤ cut.stop.toNat := by
  have hlt := cut.stop.toNat_lt
  have hrange := range.stop.toNat_lt
  have hmax : cut.stop = 65535 ↔ cut.stop.toNat = 65535 := UInt16.toNat_inj.symm
  have hsucc : cut.stop.toNat ≠ 65535 → (cut.stop + 1).toNat = cut.stop.toNat + 1 := by
    rw [UInt16.toNat_add, show (1 : UInt16).toNat = 1 from rfl]
    omega
  unfold PortRange.past
  split
  · rename_i h
    exact .inl ⟨_, rfl, hsucc fun heq => h.1 (hmax.mpr heq)⟩
  · rename_i h
    refine .inr ⟨rfl, ?_⟩
    by_cases heq : cut.stop.toNat = 65535
    · omega
    · have hnot : ¬ cut.stop + 1 ≤ range.stop := fun hle => h ⟨fun hstop => heq (hmax.mp hstop), hle⟩
      rw [UInt16.le_iff_toNat_le, hsucc heq] at hnot
      omega

variable (cuts : List PortRange)

theorem leftOf_none : range.leftOf none cuts = [] := by
  cases cuts <;> rfl

theorem lt_of_among_later {cut : PortRange} {cuts : List PortRange} (hcanon : Canonical (cut :: cuts))
    (h : Among n cuts) : cut.stop.toNat + 1 < n := by
  obtain ⟨later, hmem, hin⟩ := h
  rcases (pairwise_cons.mp hcanon).1 later hmem with hg | ⟨_, hapart⟩
  · exact absurd hg (lt_irrefl 0)
  · have : cut.stop.toNat + 1 < later.start.toNat := hapart
    omega

/-- **The pieces hold what is left of the range.** -/
theorem among_leftOf :
    ∀ {start : {n : UInt16 // n ≤ range.stop}}, Canonical cuts → (Among n (range.leftOf (some start) cuts) ↔
      start.1.toNat ≤ n ∧ n ≤ range.stop.toNat ∧ ¬ Among n cuts) := by
  induction cuts with
  | nil =>
    simp [PortRange.leftOf, Among]
  | cons cut cuts ih =>
    intro start hcanon
    have hcut := UInt16.le_iff_toNat_le.mp cut.start_le_stop
    have hlater := lt_of_among_later (n := n) hcanon
    have hcov : Among n (cut :: cuts) ↔ cut.start.toNat ≤ n ∧ n ≤ cut.stop.toNat ∨ Among n cuts := by simp [Among]
    rw [PortRange.leftOf, hcov]
    split
    · rename_i hskip
      have hbefore := UInt16.lt_iff_toNat_lt.mp hskip
      rw [ih hcanon.tail]
      refine and_congr_right fun hstart => and_congr_right fun _ => not_congr ?_
      exact ⟨.inr, fun h => h.resolve_left (by omega)⟩
    · rename_i hskip
      have hreach : start.1.toNat ≤ cut.stop.toNat := UInt16.le_iff_toNat_le.mp (UInt16.not_lt.mp hskip)
      split
      · rename_i hend
        have hpast := UInt16.lt_iff_toNat_lt.mp hend
        have hout : n ≤ range.stop.toNat → ¬ (cut.start.toNat ≤ n ∧ n ≤ cut.stop.toNat ∨ Among n cuts) := by
          rintro hle (hin | hin)
          · omega
          · have := hlater hin
            omega
        have hwhole : Among n [⟨start, range.stop, start.2⟩] ↔ start.1.toNat ≤ n ∧ n ≤ range.stop.toNat := by
          simp [Among]
        rw [hwhole]
        exact ⟨fun h => ⟨h.1, h.2, hout h.2⟩, fun h => ⟨h.1, h.2.1⟩⟩
      · rename_i hend
        have hinside : cut.start.toNat ≤ range.stop.toNat := UInt16.le_iff_toNat_le.mp (UInt16.not_lt.mp hend)
        have hnext : Among n (range.leftOf (range.past cut) cuts) ↔
            cut.stop.toNat + 1 ≤ n ∧ n ≤ range.stop.toNat ∧ ¬ Among n cuts := by
          rcases past_cases range cut with ⟨next, hnext, hval⟩ | ⟨hnone, hle⟩
          · rw [hnext, ih hcanon.tail, hval]
          · rw [hnone, leftOf_none]
            simp only [Among, not_mem_nil, false_and, exists_false, false_iff]
            omega
        rw [among_append, among_gapBefore, hnext]
        by_cases hin : Among n cuts
        · have := hlater hin
          simp only [hin, not_true, and_false, or_true, or_false, iff_false]
          omega
        · simp only [hin, not_false_eq_true, and_true, or_false]
          omega

theorem bounds_of_mem_leftOf {cuts : List PortRange} {piece : PortRange} {start : {n : UInt16 // n ≤ range.stop}}
    (hcanon : Canonical cuts) (h : piece ∈ range.leftOf (some start) cuts) :
    start.1.toNat ≤ piece.start.toNat ∧ piece.stop.toNat ≤ range.stop.toNat := by
  -- both ends of a piece are in it
  have hpiece := UInt16.le_iff_toNat_le.mp piece.start_le_stop
  have hlo := (among_leftOf cuts hcanon).mp ⟨piece, h, le_rfl, hpiece⟩
  have hhi := (among_leftOf cuts hcanon).mp ⟨piece, h, hpiece, le_rfl⟩
  exact ⟨hlo.1, hhi.2.1⟩

theorem canonical_leftOf (hcanon : Canonical cuts) {rest : Option {n : UInt16 // n ≤ range.stop}} :
    Canonical (range.leftOf rest cuts) := by
  induction cuts generalizing rest with
  | nil =>
    cases rest with
    | none => exact List.Pairwise.nil
    | some start => exact pairwise_singleton _ _
  | cons cut cuts ih =>
    cases rest with
    | none => exact List.Pairwise.nil
    | some start =>
      rw [PortRange.leftOf]
      split
      · exact ih hcanon.tail
      · split
        · exact pairwise_singleton _ _
        · refine pairwise_append.mpr ⟨?_, ih hcanon.tail, fun a ha b hb => ?_⟩
          · unfold PortRange.gapBefore
            split
            · exact pairwise_singleton _ _
            · exact List.Pairwise.nil
          · -- a gap ends before the cut, and what follows starts past it
            have hgap := among_gapBefore.mp ⟨a, ha, UInt16.le_iff_toNat_le.mp a.start_le_stop, le_rfl⟩
            have hcut := UInt16.le_iff_toNat_le.mp cut.start_le_stop
            rcases past_cases range cut with ⟨next, hnext, hval⟩ | ⟨hnone, -⟩
            · rw [hnext] at hb
              have hbounds := (bounds_of_mem_leftOf hcanon.tail hb).1
              exact .inr ⟨rfl, show a.stop.toNat + 1 < b.start.toNat by omega⟩
            · rw [hnone, leftOf_none] at hb
              cases hb

end Membership

namespace PortSet

def cutLane (ranges cuts : List PortRange) : List PortRange :=
  ranges.flatMap fun range => range.leftOf (some ⟨range.start, range.start_le_stop⟩) cuts

theorem canonical_cutLane {ranges cuts : List PortRange} (h : Canonical ranges) (hcanon : Canonical cuts) :
    Canonical (cutLane ranges cuts) := by
  rw [cutLane, Canonical, flatMap_def, pairwise_flatten]
  refine ⟨fun pieces hpieces => ?_, pairwise_map.mpr (h.imp fun {a b} hab x hx y hy => ?_)⟩
  · obtain ⟨range, -, rfl⟩ := mem_map.mp hpieces
    exact canonical_leftOf cuts hcanon
  · -- pieces stay inside their ranges, which are apart
    have hxb := (bounds_of_mem_leftOf hcanon hx).2
    have hyb : b.start.toNat ≤ y.start.toNat := (bounds_of_mem_leftOf hcanon hy).1
    rcases hab with hg | ⟨_, hapart⟩
    · exact absurd hg (lt_irrefl 0)
    · have hlt : a.stop.toNat + 1 < b.start.toNat := hapart
      exact .inr ⟨rfl, show x.stop.toNat + 1 < y.start.toNat by omega⟩

def difference (s t : PortSet) : PortSet :=
  ⟨cutLane s.tcp t.tcp, cutLane s.udp t.udp, cutLane s.sctp t.sctp, canonical_cutLane s.tcp_canonical t.tcp_canonical,
    canonical_cutLane s.udp_canonical t.udp_canonical, canonical_cutLane s.sctp_canonical t.sctp_canonical⟩

variable {s t : PortSet} {port : UInt16} {protocol : Protocol}

theorem contains_iff : s.contains port protocol = true ↔ Among port.toNat (s.ranges protocol) := by
  rw [contains, search_iff (s.ranges_canonical protocol) (oneGroup _), mem_held_iff]
  simp

theorem mem_portRange_iter {range : PortRange} {port : UInt16} :
    port ∈ range.iter ↔ range.start.toNat ≤ port.toNat ∧ port.toNat ≤ range.stop.toNat := by
  have hle := UInt16.le_iff_toNat_le.mp range.start_le_stop
  have hstop := range.stop.toNat_lt
  rw [PortRange.iter, mem_map]
  constructor
  · rintro ⟨n, hn, rfl⟩
    rw [mem_range'_1] at hn
    rw [UInt16.toNat_ofNat_of_lt' (show n < 2 ^ 16 by omega)]
    omega
  · intro h
    exact ⟨port.toNat, mem_range'_1.mpr (by omega), UInt16.ofNat_toNat⟩

theorem mem_toVec_iff : (port, protocol) ∈ s.toVec ↔ s.contains port protocol = true := by
  have hall : protocol ∈ Protocol.ALL := by cases protocol <;> decide
  simp only [toVec, iter, mem_flatMap, mem_map, Prod.mk.injEq, contains_iff, Among]
  constructor
  · rintro ⟨_, _, range, hrange, _, hport, rfl, rfl⟩
    exact ⟨range, hrange, mem_portRange_iter.mp hport⟩
  · rintro ⟨range, hrange, hport⟩
    exact ⟨protocol, hall, range, hrange, port, mem_portRange_iter.mpr hport, rfl, rfl⟩

/-- **A port set is determined by what it contains.** -/
theorem eq_iff_contains : s = t ↔ ∀ port protocol, s.contains port protocol = t.contains port protocol := by
  constructor
  · rintro rfl port protocol
    rfl
  · intro h
    refine ext_ranges fun protocol => (s.ranges_canonical protocol).ext (t.ranges_canonical protocol) ?_
    ext ⟨g, n⟩
    rw [mem_held_iff, mem_held_iff]
    refine and_congr_right fun _ => ?_
    -- a number some range holds is a port
    have hport : ∀ {u v : PortSet}, (∀ port protocol, u.contains port protocol = v.contains port protocol) →
        Among n (u.ranges protocol) → Among n (v.ranges protocol) := by
      rintro u v huv ⟨r, hr, hlo, hhi⟩
      have hlt : n < 2 ^ 16 := hhi.trans_lt r.stop.toNat_lt
      have hn : (UInt16.ofNat n).toNat = n := UInt16.toNat_ofNat_of_lt' hlt
      have hin : u.contains (UInt16.ofNat n) protocol = true := contains_iff.mpr ⟨r, hr, by omega, by omega⟩
      rw [huv, contains_iff, hn] at hin
      exact hin
    exact ⟨hport h, hport fun port protocol => (h port protocol).symm⟩

theorem contains_union :
    (s.union t).contains port protocol = (s.contains port protocol || t.contains port protocol) := by
  rw [Bool.eq_iff_iff, Bool.or_eq_true, contains_iff, contains_iff, contains_iff, union, Lanes.ranges_merged,
    among_merge]
  cases protocol <;> exact among_append

theorem contains_difference :
    (s.difference t).contains port protocol = (s.contains port protocol && !t.contains port protocol) := by
  have hranges : (s.difference t).ranges protocol = cutLane (s.ranges protocol) (t.ranges protocol) := by
    cases protocol <;> rfl
  rw [Bool.eq_iff_iff, Bool.and_eq_true, Bool.not_eq_true', contains_iff, contains_iff, hranges, ← Bool.not_eq_true,
    contains_iff]
  have hleft : ∀ range : PortRange, Among port.toNat (range.leftOf (some ⟨range.start, range.start_le_stop⟩)
      (t.ranges protocol)) ↔ range.start.toNat ≤ port.toNat ∧ port.toNat ≤ range.stop.toNat ∧
        ¬ Among port.toNat (t.ranges protocol) := fun range => among_leftOf _ (t.ranges_canonical protocol)
  constructor
  · rintro ⟨piece, hpiece, hin⟩
    obtain ⟨range, hrange, hmem⟩ := mem_flatMap.mp hpiece
    obtain ⟨hlo, hhi, hout⟩ := (hleft range).mp ⟨piece, hmem, hin⟩
    exact ⟨⟨range, hrange, hlo, hhi⟩, hout⟩
  · rintro ⟨⟨range, hrange, hlo, hhi⟩, hout⟩
    obtain ⟨piece, hmem, hin⟩ := (hleft range).mpr ⟨hlo, hhi, hout⟩
    exact ⟨piece, mem_flatMap.mpr ⟨range, hrange, hmem⟩, hin⟩

end PortSet

end Zond.Port

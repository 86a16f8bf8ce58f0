import ZondEngine.Lib.CycleWalk
import ZondEngine.Lib.Feistel
import ZondEngine.Lib.Word

/-!
# The order a plan's targets are asked in

`Permutation` of `model/order.rs`: a Feistel network of four rounds over a domain that holds `len`, cut down to `0..len`
by cycle walking. Shifts and subtractions are checked ones that never fail (`roundTrip_eq`), and the two walks undo each
other (`walk_unwalk`, `unwalk_walk`); the rest of the development uses `atIndex_eq_some_iff`.
-/

namespace Zond.Order

open Option Finset

def ROUNDS : Nat := 4

def GOLDEN : UInt64 := 0x9E3779B97F4A7C15

/-- The round function of the network. -/
def mix (seed : UInt64) (round : Nat) (value : UInt64) : UInt64 :=
  let mixed := value + seed + UInt64.ofNat round * GOLDEN
  let mixed := mixed ^^^ (mixed >>> 30)
  let mixed := mixed * 0xBF58476D1CE4E5B9
  let mixed := mixed ^^^ (mixed >>> 27)
  let mixed := mixed * 0x94D049BB133111EB
  mixed ^^^ (mixed >>> 31)

def leadingZeros (n : Nat) : Nat := if n = 0 then 64 else 63 - n.log2

/-- Half the bits of the smallest domain that holds `len`. -/
def halfWidth (len : Nat) : Nat :=
  if len ≤ 1 then 0
  else
    let width := 64 - leadingZeros (len - 1)
    (width + (width &&& 1)) / 2

/-- A keyed order of the positions below `len`. -/
structure Permutation where
  seed : UInt64
  (len half : Nat)
  len_lt : len < 2 ^ 64
  half_eq : half = halfWidth len
  deriving DecidableEq

namespace Permutation

def new (seed : UInt64) (len : Nat) (h : len < 2 ^ 64) : Permutation := ⟨seed, len, halfWidth len, h, rfl⟩

variable (p : Permutation)

/-- One pass of the network. -/
def roundTrip (value : Nat) : Option Nat := do
  let mask ← Word.checkedSub (← Word.shl 64 1 p.half) 1
  let left := (← Word.shr 64 value p.half) &&& mask
  let right := value &&& mask
  let halves := (List.range ROUNDS).foldl
    (fun x round => (x.2, x.1 ^^^ ((mix p.seed round (.ofNat x.2)).toNat &&& mask))) (left, right)
  return (← Word.shl 64 halves.1 p.half) ||| halves.2

/-- The pass undone. -/
def roundTripBack (value : Nat) : Option Nat := do
  let mask ← Word.checkedSub (← Word.shl 64 1 p.half) 1
  let left := (← Word.shr 64 value p.half) &&& mask
  let right := value &&& mask
  let halves := (List.range ROUNDS).reverse.foldl
    (fun x round => (x.2 ^^^ ((mix p.seed round (.ofNat x.1)).toNat &&& mask), x.1)) (left, right)
  return (← Word.shl 64 halves.1 p.half) ||| halves.2

def domain : Nat := 2 ^ p.half * 2 ^ p.half

/-- Passes through the network until inside the range. -/
def walk (index : Nat) : Option Nat :=
  if p.half = 0 then some index
  else CycleWalk.loopUntil p.roundTrip (fun position => decide (position < p.len)) p.domain index

def unwalk (position : Nat) : Option Nat :=
  if p.half = 0 then some position
  else CycleWalk.loopUntil p.roundTripBack (fun index => decide (index < p.len)) p.domain position

def atIndex (index : Nat) : Option Nat := if index < p.len then p.walk index else none

/-- When a position comes up. -/
def indexOf (position : Nat) : Option Nat := if position < p.len then p.unwalk position else none

def iterFrom (start : Nat) : List Nat :=
  (List.range' (min start p.len) (p.len - min start p.len)).filterMap p.walk

end Permutation

/-! ## The width of the domain -/

theorem width_eq {n : Nat} (h0 : n ≠ 0) (h : n < 2 ^ 64) : 64 - leadingZeros n = n.log2 + 1 := by
  have hlog : n.log2 < 64 := (Nat.log2_lt h0).mpr h
  simp only [leadingZeros, h0, if_false]
  omega

theorem halfWidth_le {len : Nat} (h : len < 2 ^ 64) : halfWidth len ≤ 32 := by
  unfold halfWidth
  split
  · omega
  · have h0 : len - 1 ≠ 0 := by omega
    have hlog : (len - 1).log2 < 64 := (Nat.log2_lt h0).mpr (by omega)
    simp only [width_eq h0 (by omega), Nat.and_one_is_mod]
    omega

theorem halfWidth_holds {len : Nat} (h : len < 2 ^ 64) : len ≤ 2 ^ halfWidth len * 2 ^ halfWidth len := by
  unfold halfWidth
  split
  · simpa using ‹len ≤ 1›
  · have h0 : len - 1 ≠ 0 := by omega
    simp only [width_eq h0 (by omega), Nat.and_one_is_mod, ← Nat.pow_add]
    have hle : (len - 1).log2 + 1 ≤ ((len - 1).log2 + 1 + ((len - 1).log2 + 1) % 2) / 2 +
        ((len - 1).log2 + 1 + ((len - 1).log2 + 1) % 2) / 2 := by omega
    have hlt : len - 1 < 2 ^ ((len - 1).log2 + 1) := Nat.lt_log2_self
    have := Nat.pow_le_pow_right (n := 2) (by omega) hle
    omega

namespace Permutation

variable (p : Permutation)

theorem half_le : p.half ≤ 32 := by rw [p.half_eq]; exact halfWidth_le p.len_lt

theorem len_le_domain : p.len ≤ p.domain := by
  unfold domain; rw [p.half_eq]; exact halfWidth_holds p.len_lt

theorem domain_le : p.domain ≤ 2 ^ 64 := by
  unfold domain
  rw [← Nat.pow_add]
  exact Nat.pow_le_pow_right (by omega) (by have := p.half_le; omega)

/-! ## One pass of the network -/

def roundFun (round value : Nat) : Nat := (mix p.seed round (.ofNat value)).toNat &&& (2 ^ p.half - 1)

variable (v : Nat)

def halves : Nat × Nat := (v / 2 ^ p.half, v % 2 ^ p.half)

def value (x : Nat × Nat) : Nat := x.1 * 2 ^ p.half + x.2

def pass : Nat := p.value (Feistel.rounds (· ^^^ ·) p.roundFun (List.range ROUNDS) (p.halves v))

def passBack : Nat := p.value (Feistel.unrounds (· ^^^ ·) p.roundFun (List.range ROUNDS) (p.halves v))

variable {p}

def Fits (p : Permutation) (x : Nat × Nat) : Prop := x.1 < 2 ^ p.half ∧ x.2 < 2 ^ p.half

variable {v}

theorem halves_fits (hv : v < p.domain) : p.Fits (p.halves v) :=
  ⟨Nat.div_lt_of_lt_mul hv, Nat.mod_lt _ (Nat.two_pow_pos _)⟩

theorem value_lt {x : Nat × Nat} (h : p.Fits x) : p.value x < p.domain := by
  have h2 : (x.1 + 1) * 2 ^ p.half ≤ 2 ^ p.half * 2 ^ p.half := Nat.mul_le_mul_right _ h.1
  have h3 := h.2
  rw [Nat.add_mul, Nat.one_mul] at h2
  unfold value domain
  omega

theorem halves_value {x : Nat × Nat} (h : p.Fits x) : p.halves (p.value x) = x := by
  have hpos := Nat.two_pow_pos p.half
  unfold halves value
  rw [Nat.mul_comm x.1, Nat.mul_add_div hpos, Nat.div_eq_of_lt h.2, Nat.mul_add_mod, Nat.mod_eq_of_lt h.2]
  rfl

theorem value_halves : p.value (p.halves v) = v := Nat.div_add_mod' v _

theorem xor_xor_self (a b : Nat) : a ^^^ b ^^^ b = a := by rw [Nat.xor_assoc, Nat.xor_self, Nat.xor_zero]

theorem roundFun_lt (i a b : Nat) (ha : a < 2 ^ p.half) : a ^^^ p.roundFun i b < 2 ^ p.half := by
  refine Nat.xor_lt_two_pow ha ?_
  unfold roundFun
  rw [Nat.and_two_pow_sub_one_eq_mod]
  exact Nat.mod_lt _ (Nat.two_pow_pos _)

theorem rounds_fits (is : List Nat) {x : Nat × Nat} (h : p.Fits x) :
    p.Fits (Feistel.rounds (· ^^^ ·) p.roundFun is x) := Feistel.rounds_inside roundFun_lt is h

theorem unrounds_fits (is : List Nat) {x : Nat × Nat} (h : p.Fits x) :
    p.Fits (Feistel.unrounds (· ^^^ ·) p.roundFun is x) := Feistel.unrounds_inside roundFun_lt is h

theorem pass_lt (hv : v < p.domain) : p.pass v < p.domain := value_lt (rounds_fits _ (halves_fits hv))

theorem passBack_lt (hv : v < p.domain) : p.passBack v < p.domain :=
  value_lt (unrounds_fits _ (halves_fits hv))

theorem passBack_pass (hv : v < p.domain) : p.passBack (p.pass v) = v := by
  unfold passBack pass
  rw [halves_value (rounds_fits _ (halves_fits hv)), Feistel.unrounds_rounds _ xor_xor_self, value_halves]

theorem pass_passBack (hv : v < p.domain) : p.pass (p.passBack v) = v := by
  unfold passBack pass
  rw [halves_value (unrounds_fits _ (halves_fits hv)), Feistel.rounds_unrounds _ xor_xor_self, value_halves]

/-! ### The code's arithmetic -/

theorem mask_eq : (Word.shl 64 1 p.half).bind (Word.checkedSub · 1) = some (2 ^ p.half - 1) := by
  have hh := p.half_le
  have hlt : 2 ^ p.half < 2 ^ 64 := Nat.pow_lt_pow_right (by omega) (by omega)
  have hpos := Nat.two_pow_pos p.half
  have h1 : Word.shl 64 1 p.half = some (2 ^ p.half) := by
    unfold Word.shl
    rw [if_pos (by omega), Nat.one_shiftLeft, Nat.mod_eq_of_lt hlt]
  rw [h1, bind_some]
  exact if_pos hpos

theorem left_eq (hv : v < p.domain) : v >>> p.half &&& (2 ^ p.half - 1) = (p.halves v).1 := by
  rw [Nat.shiftRight_eq_div_pow, Nat.and_two_pow_sub_one_eq_mod]
  exact Nat.mod_eq_of_lt (halves_fits hv).1

theorem right_eq : v &&& (2 ^ p.half - 1) = (p.halves v).2 := Nat.and_two_pow_sub_one_eq_mod _ _

theorem join_eq {x : Nat × Nat} (h : p.Fits x) :
    (Word.shl 64 x.1 p.half).bind (fun left => some (left ||| x.2)) = some (p.value x) := by
  have hh := p.half_le
  have hshift : x.1 <<< p.half < 2 ^ 64 := by
    have hv : x.1 * 2 ^ p.half + x.2 < p.domain := value_lt h
    have hd := p.domain_le
    omega
  unfold Word.shl
  rw [if_pos (by omega), bind_some, Nat.mod_eq_of_lt hshift, ← Nat.shiftLeft_add_eq_or_of_lt h.2, Nat.shiftLeft_eq]
  rfl

theorem trip_eq (step : Nat → Nat × Nat → Nat × Nat) (hv : v < p.domain)
    (hstep : p.Fits (step (2 ^ p.half - 1) (p.halves v))) :
    (do
      let mask ← Word.checkedSub (← Word.shl 64 1 p.half) 1
      let left := (← Word.shr 64 v p.half) &&& mask
      let halves := step mask (left, v &&& mask)
      return (← Word.shl 64 halves.1 p.half) ||| halves.2) = some (p.value (step (2 ^ p.half - 1) (p.halves v))) := by
  have hh : p.half < 64 := by have := p.half_le; omega
  have hjoin := join_eq hstep
  have hmask := mask_eq (p := p)
  simp only [bind_eq_bind, Option.pure_def] at hjoin hmask ⊢
  rw [← Option.bind_assoc, hmask, bind_some]
  unfold Word.shr
  rw [if_pos hh, bind_some, left_eq hv, right_eq]
  exact hjoin

/-- **A pass of the network overflows nothing.** -/
theorem roundTrip_eq (hv : v < p.domain) : p.roundTrip v = some (p.pass v) :=
  trip_eq (fun mask => Feistel.rounds (· ^^^ ·) (fun round value => (mix p.seed round (.ofNat value)).toNat &&& mask)
    (List.range ROUNDS)) hv (rounds_fits (List.range ROUNDS) (halves_fits hv))

theorem roundTripBack_eq (hv : v < p.domain) : p.roundTripBack v = some (p.passBack v) :=
  trip_eq (fun mask => Feistel.unrounds (· ^^^ ·) (fun round value => (mix p.seed round (.ofNat value)).toNat &&& mask)
    (List.range ROUNDS)) hv (unrounds_fits (List.range ROUNDS) (halves_fits hv))

/-! ## The walks -/

theorem inside {i : Nat} (hi : i < p.len) : i ∈ Finset.range p.domain :=
  mem_range.mpr (Nat.lt_of_lt_of_le hi p.len_le_domain)

theorem pass_maps : ∀ x ∈ Finset.range p.domain, p.pass x ∈ Finset.range p.domain :=
  fun _ hx => mem_range.mpr (pass_lt (mem_range.mp hx))

theorem passBack_maps : ∀ x ∈ Finset.range p.domain, p.passBack x ∈ Finset.range p.domain :=
  fun _ hx => mem_range.mpr (passBack_lt (mem_range.mp hx))

theorem roundTrip_steps : ∀ x ∈ Finset.range p.domain, p.roundTrip x = some (p.pass x) :=
  fun _ hx => roundTrip_eq (mem_range.mp hx)

theorem roundTripBack_steps : ∀ x ∈ Finset.range p.domain, p.roundTripBack x = some (p.passBack x) :=
  fun _ hx => roundTripBack_eq (mem_range.mp hx)

/-- **The walk from an index of the range ends inside the range, and the walk back ends at the index.** -/
theorem walk_unwalk {i : Nat} (hi : i < p.len) : ∃ q, p.walk i = some q ∧ q < p.len ∧ p.unwalk q = some i := by
  unfold walk unwalk
  by_cases h0 : p.half = 0
  · exact ⟨i, by simp [h0], hi, by simp [h0]⟩
  · simp only [h0, if_false]
    obtain ⟨q, hwalk, hstop, hback⟩ := CycleWalk.loopUntil_and_back pass_maps
      (fun x hx => passBack_pass (mem_range.mp hx)) (fun n => decide (n < p.len)) passBack_maps roundTrip_steps
        roundTripBack_steps (inside hi)
      (decide_eq_true hi)
    rw [card_range] at hwalk hback
    exact ⟨q, hwalk, of_decide_eq_true hstop, hback⟩

/-- **The walk back from a position of the range ends inside the range, and the walk ends at the position.** -/
theorem unwalk_walk {q : Nat} (hq : q < p.len) : ∃ i, p.unwalk q = some i ∧ i < p.len ∧ p.walk i = some q := by
  unfold walk unwalk
  by_cases h0 : p.half = 0
  · exact ⟨q, by simp [h0], hq, by simp [h0]⟩
  · simp only [h0, if_false]
    obtain ⟨i, hwalk, hstop, hback⟩ := CycleWalk.loopUntil_and_back passBack_maps
      (fun x hx => pass_passBack (mem_range.mp hx)) (fun n => decide (n < p.len)) pass_maps roundTripBack_steps
        roundTrip_steps (inside hq)
      (decide_eq_true hq)
    rw [card_range] at hwalk hback
    exact ⟨i, hwalk, of_decide_eq_true hstop, hback⟩

/-! ## Positions and indices -/

theorem atIndex_lt {i q : Nat} (h : p.atIndex i = some q) : i < p.len ∧ q < p.len := by
  rw [atIndex, ite_none_right_eq_some] at h
  obtain ⟨q', hw, hq', -⟩ := walk_unwalk h.1
  rw [hw, Option.some.injEq] at h
  exact ⟨h.1, h.2 ▸ hq'⟩

theorem atIndex_eq_some_iff {i q : Nat} : p.atIndex i = some q ↔ p.indexOf q = some i := by
  rw [atIndex, indexOf, ite_none_right_eq_some, ite_none_right_eq_some]
  constructor
  · rintro ⟨hi, h⟩
    obtain ⟨q', hw, hq', hback⟩ := walk_unwalk hi
    rw [hw, Option.some.injEq] at h
    subst h
    exact ⟨hq', hback⟩
  · rintro ⟨hq, h⟩
    obtain ⟨i', hw, hi', hback⟩ := unwalk_walk hq
    rw [hw, Option.some.injEq] at h
    subst h
    exact ⟨hi', hback⟩

theorem indexOf_lt {i q : Nat} (h : p.indexOf q = some i) : i < p.len ∧ q < p.len :=
  atIndex_lt (atIndex_eq_some_iff.mpr h)

theorem exists_atIndex {i : Nat} (hi : i < p.len) : ∃ q, p.atIndex i = some q := by
  obtain ⟨q, hw, -, -⟩ := walk_unwalk hi
  exact ⟨q, by rw [atIndex, if_pos hi, hw]⟩

theorem exists_indexOf {q : Nat} (hq : q < p.len) : ∃ i, p.indexOf q = some i := by
  obtain ⟨i, hw, -, -⟩ := unwalk_walk hq
  exact ⟨i, by rw [indexOf, if_pos hq, hw]⟩

theorem indexOf_eq_none_iff {q : Nat} : p.indexOf q = none ↔ p.len ≤ q := by
  constructor
  · intro h
    by_contra hq
    obtain ⟨i, hi⟩ := exists_indexOf (Nat.lt_of_not_le hq)
    rw [h] at hi
    cases hi
  · intro h
    rw [indexOf, if_neg (Nat.not_lt.mpr h)]

theorem atIndex_inj {i j q : Nat} (hi : p.atIndex i = some q) (hj : p.atIndex j = some q) : i = j := by
  rw [atIndex_eq_some_iff] at hi hj
  exact Option.some.inj (hi.symm.trans hj)

theorem iterFrom_eq (p : Permutation) (start : Nat) :
    p.iterFrom start = (List.range' (min start p.len) (p.len - min start p.len)).filterMap p.atIndex := by
  apply List.filterMap_congr
  intro i hi
  rw [List.mem_range'_1] at hi
  rw [atIndex, if_pos (by omega)]

theorem mem_iterFrom {start q : Nat} : q ∈ p.iterFrom start ↔ ∃ i, start ≤ i ∧ p.indexOf q = some i := by
  rw [iterFrom_eq, List.mem_filterMap]
  constructor
  · intro ⟨i, hi, hq⟩
    rw [List.mem_range'_1] at hi
    exact ⟨i, by omega, atIndex_eq_some_iff.mp hq⟩
  · intro ⟨i, hi, hq⟩
    have hlt := (indexOf_lt hq).1
    refine ⟨i, ?_, atIndex_eq_some_iff.mpr hq⟩
    rw [List.mem_range'_1]
    omega

theorem nodup_iterFrom (p : Permutation) (start : Nat) : (p.iterFrom start).Nodup := by
  rw [iterFrom_eq]
  exact List.Nodup.filterMap (fun _ _ _ hi hj => atIndex_inj hi hj) (List.nodup_range' _)

/-- **The order is a bijection** for every seed and length: `atIndex` maps the range onto itself
without an overflow, and `indexOf` is its inverse. -/
theorem atIndex_bijective (p : Permutation) :
    (∀ i < p.len, ∃ q < p.len, p.walk i = some q ∧ p.atIndex i = some q ∧ p.indexOf q = some i) ∧
    (∀ q < p.len, ∃ i < p.len, p.unwalk q = some i ∧ p.indexOf q = some i ∧ p.atIndex i = some q) ∧
    Set.BijOn p.atIndex (Set.Iio p.len) (some '' Set.Iio p.len) ∧
    (∀ n, p.len ≤ n → p.atIndex n = none ∧ p.indexOf n = none) := by
  refine ⟨fun i hi => ?_, fun q hq => ?_, ⟨fun i hi => ?_, fun i hi j _ h => ?_, ?_⟩, fun n hn => ?_⟩
  · obtain ⟨q, hw, hq, -⟩ := walk_unwalk hi
    have ha : p.atIndex i = some q := by rw [atIndex, if_pos hi, hw]
    exact ⟨q, hq, hw, ha, atIndex_eq_some_iff.mp ha⟩
  · obtain ⟨i, hw, hi, -⟩ := unwalk_walk hq
    have ha : p.indexOf q = some i := by rw [indexOf, if_pos hq, hw]
    exact ⟨i, hi, hw, ha, atIndex_eq_some_iff.mpr ha⟩
  · obtain ⟨q, hq⟩ := exists_atIndex hi
    exact ⟨q, (atIndex_lt hq).2, hq.symm⟩
  · obtain ⟨q, hq⟩ := exists_atIndex hi
    exact atIndex_inj hq (h ▸ hq)
  · rintro _ ⟨q, hq, rfl⟩
    obtain ⟨i, hi⟩ := exists_indexOf hq
    exact ⟨i, (indexOf_lt hi).1, atIndex_eq_some_iff.mpr hi⟩
  · exact ⟨if_neg (Nat.not_lt.mpr hn), if_neg (Nat.not_lt.mpr hn)⟩

end Permutation

end Zond.Order

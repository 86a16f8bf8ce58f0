import Mathlib.Order.Compare

/-!
# Binary search in a slice

The search of a sorted slice by halving. Against a list the comparison ascends through (`Ascending`) it succeeds exactly
when some element compares equal (`binarySearchBy_isOk_iff`), and `partitionPoint` finds the end of the elements a
predicate holds of (`lt_partitionPoint_iff`).
-/

namespace Zond.Bisect

open List

variable {α : Type}

variable (cmp : α → Ordering)

def cmpAt (xs : List α) (i : Nat) : Ordering := (xs[i]?.map cmp).getD .gt

def halve (at_ : Nat → Ordering) : (fuel size base : Nat) → Nat
  | 0, _, base => base
  | fuel + 1, size, base =>
    if size ≤ 1 then base
    else
      let half := size / 2
      let mid := base + half
      halve at_ fuel (size - half) (if at_ mid = .gt then base else mid)

def binarySearchBy (xs : List α) : Except Nat Nat :=
  if xs.isEmpty then .error 0
  else
    let base := halve (cmpAt cmp xs) xs.length xs.length 0
    match cmpAt cmp xs base with
    | .eq => .ok base
    | .lt => .error (base + 1)
    | .gt => .error base

def binarySearch [Ord α] (xs : List α) (x : α) : Except Nat Nat := binarySearchBy (fun y => compare y x) xs

def side (p : α → Bool) (x : α) : Ordering := if p x then .lt else .gt

def partitionPoint (p : α → Bool) (xs : List α) : Nat :=
  match binarySearchBy (side p) xs with
  | .ok i => i
  | .error i => i

def isOk : Except Nat Nat → Bool
  | .ok _ => true
  | .error _ => false

def floor : Except Nat Nat → Option Nat
  | .ok i => some i
  | .error 0 => none
  | .error (i + 1) => some i

def Ascending (xs : List α) : Prop :=
  xs.Pairwise fun a b => (cmp a = .gt → cmp b = .gt) ∧ (cmp b = .lt → cmp a = .lt)

/-! ## The halving loop -/

/-- What the loop keeps: the base is the first index or compares at most equal, and everything past the rest
compares greater. -/
def Kept (at_ : Nat → Ordering) (size base : Nat) : Prop :=
  (base = 0 ∨ at_ base ≠ .gt) ∧ ∀ j, base + size ≤ j → at_ j = .gt

theorem halve_kept {at_ : Nat → Ordering} (hup : ∀ i j, i ≤ j → at_ i = .gt → at_ j = .gt) :
    ∀ {fuel size base : Nat}, size ≤ fuel + 1 → Kept at_ size base → Kept at_ 1 (halve at_ fuel size base)
  | 0, size, base, hf, h => ⟨h.1, fun j hj => h.2 j (by simp only [halve] at hj; omega)⟩
  | fuel + 1, size, base, hf, h => by
    simp only [halve]
    split
    · exact ⟨h.1, fun j hj => h.2 j (by omega)⟩
    · refine halve_kept hup (by omega) ?_
      by_cases hmid : at_ (base + size / 2) = .gt
      · simp only [hmid, if_true]
        exact ⟨h.1, fun j hj => hup (base + size / 2) j (by omega) hmid⟩
      · simp only [hmid, if_false]
        exact ⟨.inr hmid, fun j hj => h.2 j (by omega)⟩

section Search

variable {cmp} {xs : List α}

theorem cmpAt_of_getElem? (cmp : α → Ordering) {i : Nat} {x : α} (h : xs[i]? = some x) : cmpAt cmp xs i = cmp x := by
  simp [cmpAt, h]

theorem exists_of_cmpAt_ne_gt {i : Nat} (h : cmpAt cmp xs i ≠ .gt) : ∃ x, xs[i]? = some x := by
  cases hx : xs[i]? with
  | none => simp [cmpAt, hx] at h
  | some x => exact ⟨x, rfl⟩

theorem cmpAt_length_le {i : Nat} (h : xs.length ≤ i) : cmpAt cmp xs i = .gt := by
  simp [cmpAt, getElem?_eq_none h]

theorem Ascending.gt_after (h : Ascending cmp xs) {i j : Nat} (hij : i ≤ j) (hi : cmpAt cmp xs i = .gt) :
    cmpAt cmp xs j = .gt := by
  rcases Nat.lt_or_ge j xs.length with hj | hj
  · rcases Nat.lt_or_eq_of_le hij with hlt | rfl
    · have hp := List.pairwise_iff_getElem.mp h i j (by omega) hj hlt
      rw [cmpAt_of_getElem? cmp (List.getElem?_eq_getElem (by omega))] at hi
      rw [cmpAt_of_getElem? cmp (List.getElem?_eq_getElem hj)]
      exact hp.1 hi
    · exact hi
  · exact cmpAt_length_le hj

theorem Ascending.lt_before (h : Ascending cmp xs) {i j : Nat} (hij : i ≤ j) (hj : cmpAt cmp xs j = .lt) :
    cmpAt cmp xs i = .lt := by
  have hne : cmpAt cmp xs j ≠ .gt := by rw [hj]; simp
  obtain ⟨x, hx⟩ := exists_of_cmpAt_ne_gt hne
  obtain ⟨hlt, -⟩ := List.getElem?_eq_some_iff.mp hx
  rcases Nat.lt_or_eq_of_le hij with hij | rfl
  · have hp := List.pairwise_iff_getElem.mp h i j (by omega) hlt hij
    rw [cmpAt_of_getElem? cmp (List.getElem?_eq_getElem hlt)] at hj
    rw [cmpAt_of_getElem? cmp (List.getElem?_eq_getElem (by omega))]
    exact hp.2 hj
  · exact hj

theorem binarySearchBy_ok {i : Nat} (h : binarySearchBy cmp xs = .ok i) : ∃ x, xs[i]? = some x ∧ cmp x = .eq := by
  unfold binarySearchBy at h
  split at h
  · cases h
  · simp only at h
    split at h
    · rename_i heq
      cases h
      obtain ⟨x, hx⟩ := exists_of_cmpAt_ne_gt (by rw [heq]; simp)
      exact ⟨x, hx, (cmpAt_of_getElem? cmp hx).symm.trans heq⟩
    · cases h
    · cases h

theorem binarySearchBy_error (hasc : Ascending cmp xs) {i : Nat} (h : binarySearchBy cmp xs = .error i) :
    (∀ j < i, cmpAt cmp xs j = .lt) ∧ ∀ j, i ≤ j → cmpAt cmp xs j = .gt := by
  unfold binarySearchBy at h
  split at h
  · rename_i hnil
    cases h
    refine ⟨fun j hj => absurd hj (Nat.not_lt_zero j), fun j _ => cmpAt_length_le ?_⟩
    rw [isEmpty_iff.mp hnil]
    exact Nat.zero_le j
  · have hk : Kept (cmpAt cmp xs) 1 (halve (cmpAt cmp xs) xs.length xs.length 0) :=
      halve_kept (fun i j hij hi => hasc.gt_after hij hi) (by omega)
        ⟨.inl rfl, fun j hj => cmpAt_length_le (by omega)⟩
    simp only at h
    split at h
    · cases h
    · rename_i hlt
      cases h
      exact ⟨fun j hj => hasc.lt_before (by omega) hlt, hk.2⟩
    · rename_i hgt
      cases h
      rcases hk.1 with hz | hz
      · rw [hz] at hgt ⊢
        exact ⟨fun j hj => absurd hj (Nat.not_lt_zero j), fun j _ => hasc.gt_after (Nat.zero_le j) hgt⟩
      · exact absurd hgt hz

/-- **A search succeeds exactly when an element compares equal.** -/
theorem binarySearchBy_isOk_iff (hasc : Ascending cmp xs) :
    isOk (binarySearchBy cmp xs) = true ↔ ∃ x ∈ xs, cmp x = .eq := by
  constructor
  · intro h
    cases hr : binarySearchBy cmp xs with
    | error i => rw [hr] at h; cases h
    | ok i =>
      obtain ⟨x, hx, heq⟩ := binarySearchBy_ok hr
      exact ⟨x, mem_of_getElem? hx, heq⟩
  · rintro ⟨x, hx, heq⟩
    cases hr : binarySearchBy cmp xs with
    | ok i => rfl
    | error i =>
      obtain ⟨hlt, hgt⟩ := binarySearchBy_error hasc hr
      obtain ⟨j, hj⟩ := getElem?_of_mem hx
      have hc := cmpAt_of_getElem? cmp hj
      rcases Nat.lt_or_ge j i with h | h
      · rw [hlt j h, heq] at hc; cases hc
      · rw [hgt j h, heq] at hc; cases hc

theorem binarySearch_isOk_iff {ns : List Nat} (hs : ns.Pairwise (· ≤ ·)) (n : Nat) :
    isOk (binarySearch ns n) = true ↔ n ∈ ns := by
  have hasc : Ascending (fun m => compare m n) ns := by
    refine hs.imp fun {a b} hab => ⟨fun h => ?_, fun h => ?_⟩
    · rw [Nat.compare_eq_gt] at h ⊢; omega
    · rw [Nat.compare_eq_lt] at h ⊢; omega
  rw [binarySearch, binarySearchBy_isOk_iff hasc]
  constructor
  · rintro ⟨m, hm, heq⟩
    rwa [← Nat.compare_eq_eq.mp heq]
  · intro hn
    exact ⟨n, hn, Nat.compare_eq_eq.mpr rfl⟩

end Search

section Partition

variable {p : α → Bool} {xs : List α}

theorem side_eq_lt_iff {x : α} : side p x = .lt ↔ p x = true := by
  unfold side
  cases p x <;> simp

theorem side_ne_eq (x : α) : side p x ≠ .eq := by
  unfold side
  cases p x <;> simp

theorem binarySearchBy_side (p : α → Bool) (xs : List α) :
    binarySearchBy (side p) xs = .error (partitionPoint p xs) := by
  unfold partitionPoint
  cases hr : binarySearchBy (side p) xs with
  | ok i =>
    obtain ⟨y, -, hy⟩ := binarySearchBy_ok hr
    exact absurd hy (side_ne_eq y)
  | error i => rfl

/-- **The elements before the partition point are those that satisfy the predicate.** -/
theorem lt_partitionPoint_iff (hp : xs.Pairwise fun a b => p b = true → p a = true) {j : Nat} {x : α}
    (hx : xs[j]? = some x) : j < partitionPoint p xs ↔ p x = true := by
  have hasc : Ascending (side p) xs := by
    refine hp.imp fun {a b} hab => ⟨fun h => ?_, fun h => ?_⟩
    · cases hb : p b with
      | true => simp [side, hab hb] at h
      | false => simp [side, hb]
    · exact side_eq_lt_iff.mpr (hab (side_eq_lt_iff.mp h))
  obtain ⟨hlt, hgt⟩ := binarySearchBy_error hasc (binarySearchBy_side p xs)
  have hc := cmpAt_of_getElem? (side p) hx
  constructor
  · intro h
    exact side_eq_lt_iff.mp (hc.symm.trans (hlt j h))
  · intro h
    by_contra hge
    have := hc.symm.trans (hgt j (Nat.le_of_not_lt hge))
    rw [side_eq_lt_iff.mpr h] at this
    cases this

end Partition

end Zond.Bisect

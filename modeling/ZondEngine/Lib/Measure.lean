import Mathlib.Data.Set.Card
import Mathlib.Order.Interval.Finset.Nat
import ZondEngine.Lib.Ranges

/-!
# How much a list of ranges holds, and where a range of it ends

For a canonical list the sizes of the ranges add up to the number of numbers it holds (`ncard_held`), and a range of it
is the whole stretch of held numbers around each of its numbers (`Canonical.exists_between_iff`).
-/

namespace Zond.Ranges

variable {R : Type} [Ranged R] {r : R} {rs : List R}

def size (rs : List R) : Nat := (rs.map fun r => hi r - lo r + 1).sum

/-! ## Counting -/

theorem inside_eq_image (r : R) : {x | Inside r x} = Prod.mk (group r) '' (Finset.Icc (lo r) (hi r) : Set Nat) := by
  ext ⟨g, n⟩
  simp only [Set.mem_ofPred_eq, Inside, Set.mem_image, Finset.coe_Icc, Set.mem_Icc, Prod.mk.injEq]
  constructor
  · rintro ⟨hg, hn⟩
    exact ⟨n, hn, hg, rfl⟩
  · rintro ⟨m, hm, hg, hmn⟩
    exact ⟨hg, hmn ▸ hm⟩

theorem finite_inside (r : R) : {x | Inside r x}.Finite := by
  rw [inside_eq_image]
  exact (Finset.finite_toSet _).image _

theorem ncard_inside (r : R) : {x | Inside r x}.ncard = hi r - lo r + 1 := by
  have hle := lo_le_hi r
  rw [inside_eq_image, Set.ncard_image_of_injective _ (Prod.mk_right_injective (group r)), Set.ncard_coe_finset,
    Nat.card_Icc]
  omega

theorem finite_held (rs : List R) : (held rs).Finite := by
  induction rs with
  | nil =>
    rw [held_nil]
    exact Set.finite_empty
  | cons r rs ih =>
    rw [held_cons]
    exact (finite_inside r).union ih

/-- **A canonical list holds as many numbers as its ranges are long.** -/
theorem ncard_held : ∀ {rs : List R}, Canonical rs → (held rs).ncard = size rs
  | [], _ => by simp [size]
  | r :: rs, h => by
    have hdisj : Disjoint {x | Inside r x} (held rs) := by
      rw [h.held_tail]
      exact Set.disjoint_sdiff_right
    rw [held_cons, Set.ncard_union_eq hdisj (finite_inside r) (finite_held rs), ncard_inside, ncard_held h.tail,
      size, size,
      List.map_cons, List.sum_cons]

theorem ncard_held_le (rs : List R) : (held rs).ncard ≤ size rs := by
  induction rs with
  | nil => simp [size]
  | cons r rs ih =>
    have hunion := Set.ncard_union_le {x | Inside r x} (held rs)
    rw [ncard_inside] at hunion
    rw [held_cons, size, List.map_cons, List.sum_cons]
    unfold size at ih
    omega

/-! ## The stretch around a number -/

theorem Canonical.pred_not_held (h : Canonical rs) (hr : r ∈ rs) {n : Nat} (hn : n + 1 = lo r) :
    (group r, n) ∉ held rs := by
  intro ⟨s, hs, hg, hlo, hhi⟩
  rcases h.apart_or_eq hr hs with hap | hap | heq
  · have := lo_le_hi r
    unfold Apart at hap
    omega
  · unfold Apart at hap
    omega
  · rw [heq] at hn
    omega

theorem Canonical.succ_not_held (h : Canonical rs) (hr : r ∈ rs) : (group r, hi r + 1) ∉ held rs := by
  intro ⟨s, hs, hg, hlo, hhi⟩
  rcases h.apart_or_eq hr hs with hap | hap | heq
  · unfold Apart at hap
    omega
  · have := lo_le_hi r
    unfold Apart at hap
    omega
  · rw [heq] at hhi
    omega

/-- **A range of a canonical list lies between two bounds when some number just below the lower and
some number just past the upper bound are not held.** -/
theorem Canonical.exists_between_iff (h : Canonical rs) (g m first last : Nat) (hfirst : 0 < first) :
    (∃ r ∈ rs, group r = g ∧ first ≤ lo r ∧ hi r ≤ last ∧ lo r ≤ m ∧ m ≤ hi r) ↔
      (g, m) ∈ held rs ∧ (∃ n, first ≤ n + 1 ∧ n ≤ m ∧ (g, n) ∉ held rs) ∧
        ∃ n, m ≤ n ∧ n ≤ last + 1 ∧ (g, n) ∉ held rs := by
  constructor
  · intro ⟨r, hr, hg, hlo, hhi, hin⟩
    subst hg
    refine ⟨⟨r, hr, rfl, hin⟩, ⟨lo r - 1, by omega, by omega, h.pred_not_held hr (by omega)⟩,
      hi r + 1, by omega, by omega, h.succ_not_held hr⟩
  · intro ⟨⟨r, hr, hg, hlo, hhi⟩, ⟨n, hn₁, hn₂, hn₃⟩, ⟨n', hn'₁, hn'₂, hn'₃⟩⟩
    refine ⟨r, hr, hg, ?_, ?_, hlo, hhi⟩
    · by_contra hout
      exact hn₃ ⟨r, hr, hg, by show lo r ≤ n; omega, by show n ≤ hi r; omega⟩
    · by_contra hout
      exact hn'₃ ⟨r, hr, hg, by show lo r ≤ n'; omega, by show n' ≤ hi r; omega⟩

end Zond.Ranges

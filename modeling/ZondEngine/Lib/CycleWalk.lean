import Mathlib.Data.Finset.Card
import Mathlib.Data.Nat.Find

/-!
# Cycle walking

`loopUntil` repeats a step until the value satisfies a test. Over a finite set that a function with an inverse maps into
itself it ends, and the loop along the inverse undoes it (`loopUntil_and_back`).
-/

namespace Zond.CycleWalk

variable {α : Type}

def loopUntil (step : α → Option α) (stop : α → Bool) : (fuel : Nat) → α → Option α
  | 0, _ => none
  | fuel + 1, x => (step x).bind fun y => if stop y then some y else loopUntil step stop fuel y

def FirstAt (f : α → α) (stop : α → Bool) (x : α) (k : Nat) : Prop :=
  stop (f^[k + 1] x) = true ∧ ∀ j < k, stop (f^[j + 1] x) = false

section Loop

variable {S : Finset α} {f : α → α} {step : α → Option α} {stop : α → Bool}

theorem iterate_mem (hmaps : ∀ x ∈ S, f x ∈ S) {x : α} (hx : x ∈ S) : ∀ n, f^[n] x ∈ S
  | 0 => hx
  | n + 1 => by rw [Function.iterate_succ_apply']; exact hmaps _ (iterate_mem hmaps hx n)

theorem loopUntil_of_firstAt (hstep : ∀ x ∈ S, step x = some (f x)) (hmaps : ∀ x ∈ S, f x ∈ S) :
    ∀ {fuel k : Nat} {x : α}, x ∈ S → k < fuel → FirstAt f stop x k →
      loopUntil step stop fuel x = some (f^[k + 1] x)
  | 0, _, _, _, hk, _ => absurd hk (Nat.not_lt_zero _)
  | fuel + 1, 0, x, hx, _, h => by
    have hs : stop (f x) = true := h.1
    simp [loopUntil, hstep x hx, hs]
  | fuel + 1, k + 1, x, hx, hk, h => by
    have hs : stop (f x) = false := h.2 0 (Nat.succ_pos k)
    have hnext : FirstAt f stop (f x) k := ⟨h.1, fun j hj => h.2 (j + 1) (by omega)⟩
    have ih := loopUntil_of_firstAt hstep hmaps (hmaps x hx) (by omega : k < fuel) hnext
    simp only [loopUntil, hstep x hx, Option.bind_some, hs, Bool.false_eq_true, if_false, ih]
    rfl

end Loop

section Return

variable {S : Finset α} {f : α → α} (hmaps : ∀ x ∈ S, f x ∈ S) (hinj : Set.InjOn f S)
include hmaps hinj

theorem iterate_cancel {x : α} (hx : x ∈ S) : ∀ {i d : Nat}, f^[i] x = f^[i + d] x → x = f^[d] x
  | 0, d, h => by simpa using h
  | i + 1, d, h => by
    have hd : i + 1 + d = i + d + 1 := by omega
    rw [hd, Function.iterate_succ_apply', Function.iterate_succ_apply'] at h
    have hmem := iterate_mem hmaps hx
    exact iterate_cancel hx (hinj (hmem i) (hmem (i + d)) h)

theorem exists_return {x : α} (hx : x ∈ S) : ∃ d, 0 < d ∧ d ≤ S.card ∧ f^[d] x = x := by
  have hcard : S.card < (Finset.range (S.card + 1)).card := by simp
  obtain ⟨i, hi, j, hj, hne, heq⟩ := Finset.exists_ne_map_eq_of_card_lt_of_maps_to hcard
    (f := fun n => f^[n] x) (fun n _ => iterate_mem hmaps hx n)
  simp only [Finset.mem_range] at hi hj
  rcases Nat.lt_or_gt_of_ne hne with h | h
  · refine ⟨j - i, by omega, by omega, (iterate_cancel hmaps hinj hx (i := i) ?_).symm⟩
    rw [show i + (j - i) = j by omega]; exact heq
  · refine ⟨i - j, by omega, by omega, (iterate_cancel hmaps hinj hx (i := j) ?_).symm⟩
    rw [show j + (i - j) = i by omega]; exact heq.symm

theorem exists_firstAt {stop : α → Bool} {x : α} (hx : x ∈ S) (hs : stop x = true) :
    ∃ k < S.card, FirstAt f stop x k := by
  obtain ⟨d, hd, hle, hret⟩ := exists_return hmaps hinj hx
  have hex : ∃ k, stop (f^[k + 1] x) = true := ⟨d - 1, by rw [Nat.sub_add_cancel hd, hret]; exact hs⟩
  refine ⟨Nat.find hex, ?_, Nat.find_spec hex, fun j hj => ?_⟩
  · have : Nat.find hex ≤ d - 1 := Nat.find_min' hex (by rw [Nat.sub_add_cancel hd, hret]; exact hs)
    omega
  · exact Bool.eq_false_iff.mpr (Nat.find_min hex hj)

end Return

section Back

variable {S : Finset α} {f g : α → α} (hf : ∀ x ∈ S, f x ∈ S) (hgf : ∀ x ∈ S, g (f x) = x)
include hf hgf

theorem iterate_back {x : α} (hx : x ∈ S) : ∀ {n j : Nat}, j ≤ n → g^[j] (f^[n] x) = f^[n - j] x
  | _, 0, _ => rfl
  | n, j + 1, hj => by
    have hn : n - j = (n - (j + 1)) + 1 := by omega
    rw [Function.iterate_succ_apply', iterate_back hx (by omega), hn, Function.iterate_succ_apply']
    exact hgf _ (iterate_mem hf hx _)

/-- **A loop started at a point that passes the test ends, and the loop backwards ends where it started.** -/
theorem loopUntil_and_back {step back : α → Option α} (stop : α → Bool) (hg : ∀ x ∈ S, g x ∈ S)
    (hstep : ∀ x ∈ S, step x = some (f x)) (hback : ∀ x ∈ S, back x = some (g x)) {x : α}
    (hx : x ∈ S) (hs : stop x = true) :
    ∃ y, loopUntil step stop S.card x = some y ∧ stop y = true ∧ loopUntil back stop S.card y = some x := by
  have hinj : Set.InjOn f S := fun a ha b hb h => by rw [← hgf a ha, h, hgf b hb]
  obtain ⟨k, hk, hfirst⟩ := exists_firstAt hf hinj hx hs
  have hfirst' : FirstAt g stop (f^[k + 1] x) k := by
    refine ⟨?_, fun j hj => ?_⟩
    · rw [iterate_back hf hgf hx (Nat.le_refl _), Nat.sub_self]; exact hs
    · rw [iterate_back hf hgf hx (by omega), show k + 1 - (j + 1) = (k - j - 1) + 1 by omega]
      exact hfirst.2 _ (by omega)
  refine ⟨_, loopUntil_of_firstAt hstep hf hx hk hfirst, hfirst.1, ?_⟩
  rw [loopUntil_of_firstAt hback hg (iterate_mem hf hx _) hk hfirst', iterate_back hf hgf hx (Nat.le_refl _),
    Nat.sub_self]
  rfl

end Back

end Zond.CycleWalk

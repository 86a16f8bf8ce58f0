import Mathlib.Data.Nat.Bitwise

/-!
# Machine words as natural numbers

A word of `w` bits is a natural number below `2 ^ w`; operations that can overflow are checked (no value), saturating
(`satAdd`) or wrapping (`%`).
-/

namespace Zond.Word

def top (w : Nat) : Nat := 2 ^ w - 1

def shl (w x k : Nat) : Option Nat := if k < w then some ((x <<< k) % 2 ^ w) else none

def shr (w x k : Nat) : Option Nat := if k < w then some (x >>> k) else none

def checkedSub (x y : Nat) : Option Nat := if y ≤ x then some (x - y) else none

def checkedAdd (w x y : Nat) : Option Nat := if x + y < 2 ^ w then some (x + y) else none

def checkedMul (w x y : Nat) : Option Nat := if x * y < 2 ^ w then some (x * y) else none

def satAdd (w x y : Nat) : Nat := min (x + y) (top w)

/-! Words of the widths in use can be written as numerals. -/

instance neZero_pow_32 : NeZero (2 ^ 32) := ⟨by decide⟩

instance neZero_pow_48 : NeZero (2 ^ 48) := ⟨by decide⟩

instance neZero_pow_128 : NeZero (2 ^ 128) := ⟨by decide⟩

theorem lt_pow_iff_le_top {w n : Nat} : n < 2 ^ w ↔ n ≤ top w := by
  have := Nat.two_pow_pos w
  unfold top; omega

theorem satAdd_of_le {w x y : Nat} (h : x + y ≤ top w) : satAdd w x y = x + y := Nat.min_eq_left h

theorem checkedAdd_eq_some_iff {w x y z : Nat} : checkedAdd w x y = some z ↔ x + y < 2 ^ w ∧ x + y = z := by
  unfold checkedAdd
  split
  · rename_i h
    rw [Option.some_inj]
    exact (and_iff_right h).symm
  · rename_i h
    exact ⟨fun hnone => (Option.some_ne_none _ hnone.symm).elim, fun hfit => absurd hfit.1 h⟩

theorem checkedAdd_isSome_iff {w x y : Nat} : (checkedAdd w x y).isSome = true ↔ x + y < 2 ^ w := by
  rw [Option.isSome_iff_exists]
  constructor
  · intro ⟨z, hz⟩
    exact (checkedAdd_eq_some_iff.mp hz).1
  · intro h
    exact ⟨x + y, checkedAdd_eq_some_iff.mpr ⟨h, rfl⟩⟩

theorem foldl_satAdd_eq_min {α : Type} (w : Nat) {f g : α → Nat} (h : ∀ x, f x = min (g x) (top w)) :
    ∀ (xs : List α) (t u : Nat), t = min u (top w) →
      xs.foldl (fun t x => satAdd w t (f x)) t = min (u + (xs.map g).sum) (top w)
  | [], _, _, ht => ht
  | x :: xs, t, u, ht => by
    have hnext : satAdd w t (f x) = min (u + g x) (top w) := by
      rw [satAdd, ht, h]
      omega
    rw [List.foldl_cons, foldl_satAdd_eq_min w h xs _ _ hnext, List.map_cons, List.sum_cons, Nat.add_assoc]

theorem le_satAdd_one_iff {w x y : Nat} (h : x ≤ top w) : x ≤ satAdd w y 1 ↔ x ≤ y + 1 := by
  unfold satAdd; omega

end Zond.Word

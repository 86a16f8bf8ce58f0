import ZondEngine.Lib.Bisect

/-!
# Items that lie end to end

`Tiles start len a xs b`: the items `xs`, none of them empty, lie end to end from `a` to `b`. A binary search finds the
item that holds a number (`Tiles.search`), and lists laid end to end are read by number (`Tiles.getElem?_flatMap`).
-/

namespace Zond.Tiling

open List

variable {α β : Type} {start len : α → Nat} {a b c p : Nat} {x y : α} {xs ys : List α}

inductive Tiles (start len : α → Nat) : Nat → List α → Nat → Prop
  | nil (a : Nat) : Tiles start len a [] a
  | cons {x : α} {xs : List α} {b : Nat} (hlen : 0 < len x) (h : Tiles start len (start x + len x) xs b) :
      Tiles start len (start x) (x :: xs) b

def Holds (start len : α → Nat) (p : Nat) (x : α) : Prop := start x ≤ p ∧ p < start x + len x

def compareAt (start len : α → Nat) (p : Nat) (x : α) : Ordering :=
  if start x + len x ≤ p then .lt else if p < start x then .gt else .eq

namespace Tiles

theorem le (h : Tiles start len a xs b) : a ≤ b := by
  induction h with
  | nil a => exact Nat.le_refl a
  | cons hlen _ ih => omega

theorem concat (h : Tiles start len a xs b) (hx : start x = b) (hlen : 0 < len x) :
    Tiles start len a (xs ++ [x]) (b + len x) := by
  induction h with
  | nil a =>
    subst hx
    exact .cons hlen (.nil _)
  | cons hlen' _ ih => exact .cons hlen' (ih hx)

theorem append (h : Tiles start len a xs b) (h' : Tiles start len b ys c) : Tiles start len a (xs ++ ys) c := by
  induction h with
  | nil a => exact h'
  | cons hlen _ ih => exact .cons hlen (ih h')

theorem of_append : ∀ {xs : List α} {a : Nat}, Tiles start len a (xs ++ ys) b →
    ∃ c, Tiles start len a xs c ∧ Tiles start len c ys b
  | [], a, h => ⟨a, .nil a, h⟩
  | x :: xs, _, h => by
    cases h with
    | cons hlen h =>
      obtain ⟨c, h₁, h₂⟩ := of_append h
      exact ⟨c, .cons hlen h₁, h₂⟩

theorem nil_iff : Tiles start len a [] b ↔ a = b := by
  constructor
  · intro h
    cases h
    rfl
  · intro h
    exact h ▸ .nil a

theorem cons_iff : Tiles start len a (x :: xs) b ↔ start x = a ∧ 0 < len x ∧ Tiles start len (a + len x) xs b := by
  constructor
  · intro h
    cases h with
    | cons hlen h => exact ⟨rfl, hlen, h⟩
  · intro ⟨hx, hlen, h⟩
    subst hx
    exact .cons hlen h

theorem mem (h : Tiles start len a xs b) (hx : x ∈ xs) : a ≤ start x ∧ start x + len x ≤ b ∧ 0 < len x := by
  induction h with
  | nil a => cases hx
  | cons hlen h ih =>
    have := h.le
    rcases mem_cons.mp hx with rfl | hx
    · exact ⟨Nat.le_refl _, this, hlen⟩
    · obtain ⟨h₁, h₂, h₃⟩ := ih hx
      exact ⟨by omega, h₂, h₃⟩

theorem pairwise (h : Tiles start len a xs b) : xs.Pairwise fun x y => start x + len x ≤ start y := by
  induction h with
  | nil a => exact List.Pairwise.nil
  | cons hlen h ih => exact pairwise_cons.mpr ⟨fun y hy => (h.mem hy).1, ih⟩

theorem exists_holds (h : Tiles start len a xs b) (ha : a ≤ p) (hb : p < b) : ∃ x ∈ xs, Holds start len p x := by
  induction h with
  | nil a => omega
  | @cons x xs b hlen h ih =>
    rcases Nat.lt_or_ge p (start x + len x) with hp | hp
    · exact ⟨x, by simp, ha, hp⟩
    · obtain ⟨y, hy, hold⟩ := ih hp hb
      exact ⟨y, mem_cons_of_mem x hy, hold⟩

theorem holds_unique (h : Tiles start len a xs b) (hx : x ∈ xs) (hy : y ∈ xs) (hpx : Holds start len p x)
    (hpy : Holds start len p y) : x = y := by
  obtain ⟨h₁, h₂⟩ := hpx
  obtain ⟨h₃, h₄⟩ := hpy
  induction h with
  | nil a => cases hx
  | cons hlen h ih =>
    rcases mem_cons.mp hx with rfl | hx'
    · rcases mem_cons.mp hy with rfl | hy'
      · rfl
      · have := (h.mem hy').1
        omega
    · rcases mem_cons.mp hy with rfl | hy'
      · have := (h.mem hx').1
        omega
      · exact ih hx' hy'

/-- **The items on either side of one that holds a number**: from it on they tile the rest and end past the
number, and those before it end by then. -/
theorem around {i : Nat} (h : Tiles start len a xs b) (hi : xs[i]? = some x) (hold : Holds start len p x) :
    Tiles start len (start x) (xs.drop i) b ∧ (∀ y ∈ xs.drop i, p < start y + len y) ∧
      ∀ y ∈ xs.take i, start y + len y ≤ p := by
  obtain ⟨hlt, hget⟩ := List.getElem?_eq_some_iff.mp hi
  have hsplit : xs = xs.take i ++ x :: xs.drop (i + 1) := by
    rw [← hget, ← List.drop_eq_getElem_cons hlt, List.take_append_drop]
  rw [List.drop_eq_getElem_cons hlt, hget]
  rw [hsplit] at h
  obtain ⟨c, hbefore, hafter⟩ := of_append h
  obtain ⟨rfl, hlen, hrest⟩ := cons_iff.mp hafter
  obtain ⟨hold₁, hold₂⟩ := hold
  refine ⟨hafter, fun y hy => ?_, fun y hy => ?_⟩
  · rcases mem_cons.mp hy with rfl | hy
    · exact hold₂
    · have := (hrest.mem hy).1
      omega
  · have := (hbefore.mem hy).2.1
    omega

/-! ## Finding the item that holds a number -/

theorem compareAt_eq_iff : compareAt start len p x = .eq ↔ Holds start len p x := by
  unfold compareAt Holds
  split
  · simp only [reduceCtorEq, false_iff]; omega
  · split
    · simp only [reduceCtorEq, false_iff]; omega
    · simp only [true_iff]; omega

theorem ascending_compareAt (h : Tiles start len a xs b) (p : Nat) : Bisect.Ascending (compareAt start len p) xs := by
  refine List.Pairwise.imp_of_mem (fun {x y} hx hy hxy => ?_) h.pairwise
  have hposy := (h.mem hy).2.2
  unfold compareAt
  constructor
  · intro hgt
    rw [if_neg (by split at hgt <;> first | omega | simp at hgt), if_pos (by split at hgt <;> grind)]
  · intro hlt
    rw [if_pos (by split at hlt <;> grind)]

/-- **A binary search finds the item that holds a number.** -/
theorem search (h : Tiles start len a xs b) (ha : a ≤ p) (hb : p < b) :
    ∃ i x, Bisect.binarySearchBy (compareAt start len p) xs = .ok i ∧ xs[i]? = some x ∧ Holds start len p x := by
  have hok : Bisect.isOk (Bisect.binarySearchBy (compareAt start len p) xs) = true := by
    apply (Bisect.binarySearchBy_isOk_iff (h.ascending_compareAt p)).mpr
    obtain ⟨x, hx, hold⟩ := h.exists_holds ha hb
    exact ⟨x, hx, compareAt_eq_iff.mpr hold⟩
  cases hr : Bisect.binarySearchBy (compareAt start len p) xs with
  | error i =>
    rw [hr] at hok
    cases hok
  | ok i =>
    obtain ⟨x, hx, heq⟩ := Bisect.binarySearchBy_ok hr
    exact ⟨i, x, rfl, hx, compareAt_eq_iff.mp heq⟩

theorem lt_partitionPoint (h : Tiles start len a xs b) (p : Nat) {j : Nat} (hx : xs[j]? = some x) :
    j < Bisect.partitionPoint (fun x => decide (start x + len x ≤ p)) xs ↔ start x + len x ≤ p := by
  rw [Bisect.lt_partitionPoint_iff _ hx, decide_eq_true_eq]
  refine List.Pairwise.imp_of_mem (fun {x y} _ hy hxy => ?_) h.pairwise
  simp only [decide_eq_true_eq]
  omega

theorem getElem?_partitionPoint (h : Tiles start len a xs b) (ha : a ≤ p) (hb : p < b) :
    ∃ x, xs[Bisect.partitionPoint (fun x => decide (start x + len x ≤ p)) xs]? = some x ∧ Holds start len p x := by
  obtain ⟨x, hx, hold⟩ := h.exists_holds ha hb
  obtain ⟨k, hk⟩ := List.mem_iff_getElem?.mp hx
  obtain ⟨hklt, hget⟩ := List.getElem?_eq_some_iff.mp hk
  have hle := (h.lt_partitionPoint p hk).not.mpr (Nat.not_le.mpr hold.2)
  have hge : k ≤ Bisect.partitionPoint (fun x => decide (start x + len x ≤ p)) xs := by
    rcases Nat.eq_zero_or_pos k with hz | hpos
    · omega
    · -- The item before it ends where it starts, or sooner.
      have hlt : k - 1 < xs.length := by omega
      have hprev : xs[k - 1]? = some xs[k - 1] := getElem?_eq_getElem hlt
      have hpair := pairwise_iff_getElem.mp h.pairwise (k - 1) k (by omega) hklt (by omega)
      have hstart := hold.1
      rw [hget] at hpair
      have := (h.lt_partitionPoint p hprev).mpr (by omega)
      omega
  have heq : Bisect.partitionPoint (fun x => decide (start x + len x ≤ p)) xs = k := by omega
  exact ⟨x, by rw [heq]; exact hk, hold⟩

theorem search_start (h : Tiles start len a xs b) (ha : a ≤ p) (hb : p < b) :
    ∃ i x, Bisect.floor (Bisect.binarySearchBy (fun x => compare (start x) p) xs) = some i ∧ xs[i]? = some x ∧
      Holds start len p x := by
  have hasc : Bisect.Ascending (fun x => compare (start x) p) xs := by
    refine h.pairwise.imp fun {x y} hxy => ⟨fun hgt => ?_, fun hlt => ?_⟩
    · rw [Nat.compare_eq_gt] at hgt ⊢
      omega
    · rw [Nat.compare_eq_lt] at hlt ⊢
      omega
  obtain ⟨x, hx, hold⟩ := h.exists_holds ha hb
  cases hr : Bisect.binarySearchBy (fun x => compare (start x) p) xs with
  | ok i =>
    obtain ⟨y, hy, heq⟩ := Bisect.binarySearchBy_ok hr
    have hpos := (h.mem (mem_of_getElem? hy)).2.2
    rw [Nat.compare_eq_eq] at heq
    exact ⟨i, y, rfl, hy, by omega, by omega⟩
  | error i =>
    obtain ⟨hlt, hgt⟩ := Bisect.binarySearchBy_error hasc hr
    obtain ⟨k, hk⟩ := List.mem_iff_getElem?.mp hx
    obtain ⟨hklt, hget⟩ := List.getElem?_eq_some_iff.mp hk
    have hki : k < i := by
      by_contra hle
      have := hgt k (Nat.le_of_not_lt hle)
      rw [Bisect.cmpAt_of_getElem? _ hk, Nat.compare_eq_gt] at this
      have := hold.1
      omega
    have hik : i = k + 1 := by
      by_contra hne
      -- An item after the holder starts past the number.
      have hnext := hlt (k + 1) (by omega)
      obtain ⟨y, hy⟩ := Bisect.exists_of_cmpAt_ne_gt (by rw [hnext]; simp)
      rw [Bisect.cmpAt_of_getElem? _ hy, Nat.compare_eq_lt] at hnext
      obtain ⟨hylt, hyget⟩ := List.getElem?_eq_some_iff.mp hy
      have hpair := pairwise_iff_getElem.mp h.pairwise k (k + 1) hklt hylt (by omega)
      rw [hget, hyget] at hpair
      have := hold.2
      omega
    subst hik
    exact ⟨k, x, rfl, hk, hold⟩

section FlatMap

variable {items : α → List β}

theorem length_flatMap (h : Tiles start len a xs b) (hitems : ∀ x ∈ xs, (items x).length = len x) :
    a + (xs.flatMap items).length = b := by
  induction h with
  | nil a => rfl
  | @cons x xs b hlen h ih =>
    have hx := hitems x (by simp)
    have := ih fun y hy => hitems y (mem_cons_of_mem x hy)
    rw [flatMap_cons, length_append]
    omega

/-- **The list of all items, read at a number.** -/
theorem getElem?_flatMap (h : Tiles start len a xs b) (hitems : ∀ x ∈ xs, (items x).length = len x) (hx : x ∈ xs)
    (hp : Holds start len p x) : (xs.flatMap items)[p - a]? = (items x)[p - start x]? := by
  obtain ⟨h₁, h₂⟩ := hp
  induction h with
  | nil a => cases hx
  | @cons y ys b hlen h ih =>
    have hy := hitems y (by simp)
    rw [flatMap_cons]
    rcases mem_cons.mp hx with rfl | hx
    · exact getElem?_append_left (by omega)
    · have hle := (h.mem hx).1
      rw [getElem?_append_right (by omega), hy, Nat.sub_sub]
      exact ih (fun z hz => hitems z (mem_cons_of_mem y hz)) hx

/-- **A span of the list of all items is the span's part of each item.** -/
theorem flatMap_slice (h : Tiles start len a xs b) (hitems : ∀ x ∈ xs, (items x).length = len x) (f e : Nat) :
    xs.flatMap (fun x => ((items x).take (e - start x)).drop (f - start x)) =
      ((xs.flatMap items).take (e - a)).drop (f - a) := by
  induction h with
  | nil a => simp
  | @cons x xs b hlen h ih =>
    have hx := hitems x (by simp)
    rw [flatMap_cons, flatMap_cons, take_append, drop_append, hx, length_take, hx,
      ih fun y hy => hitems y (mem_cons_of_mem x hy)]
    rcases Nat.le_total (len x) (e - start x) with hle | hle
    · rw [Nat.min_eq_right hle, Nat.sub_sub, Nat.sub_sub]
    · rw [show e - (start x + len x) = 0 by omega, show e - start x - len x = 0 by omega, take_zero, drop_nil, drop_nil]

end FlatMap

end Tiles

theorem mem_slice_iff {f e : Nat} : x ∈ (xs.drop f).take (e - f) ↔ ∃ i, f ≤ i ∧ i < e ∧ xs[i]? = some x := by
  rw [List.mem_iff_getElem?]
  constructor
  · intro ⟨j, hj⟩
    rw [getElem?_take] at hj
    split at hj
    · rw [getElem?_drop] at hj
      exact ⟨f + j, by omega, by omega, hj⟩
    · cases hj
  · intro ⟨i, h₁, h₂, hi⟩
    refine ⟨i - f, ?_⟩
    rw [getElem?_take, if_pos (by omega), getElem?_drop, Nat.add_sub_cancel' h₁, hi]

section Rows

variable {k : Nat} {row : α → List β}

theorem length_rows (hrow : ∀ x, (row x).length = k) (xs : List α) : (xs.flatMap row).length = xs.length * k := by
  induction xs with
  | nil => simp
  | cons x xs ih =>
    rw [flatMap_cons, length_append, hrow, ih, length_cons, Nat.succ_mul, Nat.add_comm]

/-- **Rows of one length laid end to end, read by division and remainder.** -/
theorem getElem?_rows (hrow : ∀ x, (row x).length = k) (hk : 0 < k) : ∀ (xs : List α) (n : Nat),
    (xs.flatMap row)[n]? = xs[n / k]?.bind fun x => (row x)[n % k]?
  | [], n => by simp
  | x :: xs, n => by
    rw [flatMap_cons]
    rcases Nat.lt_or_ge n k with hn | hn
    · rw [getElem?_append_left (by rw [hrow]; exact hn), Nat.div_eq_of_lt hn, Nat.mod_eq_of_lt hn]
      rfl
    · rw [getElem?_append_right (by rw [hrow]; exact hn), hrow, getElem?_rows hrow hk xs,
        Nat.mod_eq_sub_mod hn,
        Nat.div_eq_sub_div hk hn, getElem?_cons_succ]

end Rows

section Refine

variable {f g : Nat → Nat}

theorem tiles_range' {s k first : Nat} (hk : 0 < k) : ∀ (n : Nat),
    (∀ i < n, f (first + i) = s + i * k ∧ g (first + i) = k) → Tiles f g s (List.range' first n) (s + n * k)
  | 0, _ => by
    rw [Nat.zero_mul, Nat.add_zero]
    exact .nil s
  | n + 1, h => by
    have hlast := h n (Nat.lt_succ_self n)
    have := (tiles_range' hk n fun i hi => h i (by omega)).concat (x := first + n) hlast.1 (by rw [hlast.2]; exact hk)
    rw [hlast.2] at this
    rwa [range'_concat, Nat.one_mul, Nat.succ_mul, ← Nat.add_assoc]

/-- **Items that are each cut into rows of one width**: the rows of all of them lie end to end. -/
theorem Tiles.refine {first count width : α → Nat} {a' b' : Nat} (h : Tiles start len a xs b)
    (h' : Tiles first count a' xs b') (hlen : ∀ x ∈ xs, len x = count x * width x ∧ 0 < width x)
    (hfg : ∀ x ∈ xs, ∀ i < count x, f (first x + i) = start x + i * width x ∧ g (first x + i) = width x) :
    Tiles f g a (List.range' a' (b' - a')) b := by
  induction h generalizing a' with
  | nil a =>
    rw [Tiles.nil_iff.mp h', Nat.sub_self]
    exact .nil a
  | @cons x xs b hpos h ih =>
    obtain ⟨rfl, hcount, hrest⟩ := Tiles.cons_iff.mp h'
    obtain ⟨hx, hwidth⟩ := hlen x (by simp)
    have hhead : Tiles f g (start x) (List.range' (first x) (count x)) (start x + len x) := by
      rw [hx]
      exact tiles_range' hwidth (count x) (hfg x (by simp))
    have htail := ih hrest (fun y hy => hlen y (mem_cons_of_mem x hy)) (fun y hy => hfg y (mem_cons_of_mem x hy))
    have hle := hrest.le
    rw [show b' - first x = count x + (b' - (first x + count x)) by omega, ← range'_append_1]
    exact hhead.append htail

end Refine

end Zond.Tiling

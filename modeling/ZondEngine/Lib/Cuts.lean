import ZondEngine.Lib.Ranges

/-!
# Cutting intervals out of ranges

`subtractRun` takes merged cuts out of the ranges of one group in one pass over both lists. What is left is what the
ranges held and no cut covers (`held_subtractRun`), canonical again (`canonical_subtractRun`); in machine words the pass
never traps on canonical cuts (`subtractRunChecked_eq`).
-/

namespace Zond.Ranges

open List Option

structure Interval (w : Nat) where
  (lo hi : Nat)
  lo_le_hi : lo ≤ hi
  hi_le_top : hi ≤ Word.top w

namespace Interval

variable {w : Nat}

def extendTo (a b : Interval w) : Interval w :=
  ⟨a.lo, max a.hi b.hi, a.lo_le_hi.trans (Nat.le_max_left _ _), Nat.max_le.mpr ⟨a.hi_le_top, b.hi_le_top⟩⟩

instance : Joinable (Interval w) where
  width := w
  group _ := 0
  lo := Interval.lo
  hi := Interval.hi
  extendTo := extendTo
  lo_le_hi := Interval.lo_le_hi
  hi_le_top := Interval.hi_le_top
  group_extendTo _ _ := rfl
  lo_extendTo _ _ := rfl
  hi_extendTo _ _ := rfl
  eq_of_bounds := by
    rintro ⟨_, _, _, _⟩ ⟨_, _, _, _⟩ - hlo hhi
    obtain rfl : _ = _ := hlo
    obtain rfl : _ = _ := hhi
    rfl

def Le (a b : Interval w) : Prop := a.lo < b.lo ∨ a.lo = b.lo ∧ a.hi ≤ b.hi

instance : DecidableRel (Le (w := w)) := fun _ _ => inferInstanceAs (Decidable (_ ∨ _))

instance : Std.Total (Le (w := w)) := ⟨fun a b => by unfold Le; omega⟩

instance : IsTrans (Interval w) Le := ⟨fun a b c => by unfold Le; omega⟩

end Interval

variable {R : Type} [Ranged R] {w : Nat}

def Covers (cuts : List (Interval w)) (n : Nat) : Prop := ∃ c ∈ cuts, c.lo ≤ n ∧ n ≤ c.hi

def mergedIntervals (cuts : List (Interval w)) : List (Interval w) := mergeSorted (cuts.insertionSort Interval.Le)

/-- The pieces of the range `r` from `cursor` on that the cuts leave. -/
def carve (rebuild : R → Nat → Nat → R) (r : R) (cursor : Nat) : List (Interval w) → List R
  | [] => [rebuild r cursor (hi r)]
  | c :: cuts =>
    if c.lo ≤ hi r then
      let gap := if cursor < c.lo then [rebuild r cursor (c.lo - 1)] else []
      if hi r ≤ c.hi then gap else gap ++ carve rebuild r (c.hi + 1) cuts
    else [rebuild r cursor (hi r)]

/-- One pass over sorted ranges and sorted cuts. -/
def subtractRun (rebuild : R → Nat → Nat → R) : List R → List (Interval w) → List R
  | [], _ => []
  | r :: run, cuts =>
    let live := cuts.dropWhile fun c => c.hi < lo r
    carve rebuild r (lo r) live ++ subtractRun rebuild run live

def gapChecked (rebuild : R → Nat → Nat → Option R) (r : R) (cursor : Nat) (c : Interval w) : Option (List R) :=
  if cursor < c.lo then do return [← rebuild r cursor (← Word.checkedSub c.lo 1)] else some []

def carveChecked (rebuild : R → Nat → Nat → Option R) (r : R) (cursor : Nat) : List (Interval w) → Option (List R)
  | [] => do return [← rebuild r cursor (hi r)]
  | c :: cuts =>
    if c.lo ≤ hi r then do
      let gap ← gapChecked rebuild r cursor c
      if hi r ≤ c.hi then pure gap
      else return gap ++ (← carveChecked rebuild r (← Word.checkedAdd w c.hi 1) cuts)
    else do return [← rebuild r cursor (hi r)]

def subtractRunChecked (rebuild : R → Nat → Nat → Option R) : List R → List (Interval w) → Option (List R)
  | [], _ => some []
  | r :: run, cuts => do
    let live := cuts.dropWhile fun c => c.hi < lo r
    return (← carveChecked rebuild r (lo r) live) ++ (← subtractRunChecked rebuild run live)

structure Rebuilds (rebuild : R → Nat → Nat → R) : Prop where
  group_eq : ∀ {r : R} {a b : Nat}, lo r ≤ a → a ≤ b → b ≤ hi r → group (rebuild r a b) = group r
  lo_eq : ∀ {r : R} {a b : Nat}, lo r ≤ a → a ≤ b → b ≤ hi r → lo (rebuild r a b) = a
  hi_eq : ∀ {r : R} {a b : Nat}, lo r ≤ a → a ≤ b → b ≤ hi r → hi (rebuild r a b) = b

section Cuts

variable {cuts : List (Interval w)} {c : Interval w} {n : Nat}

theorem covers_iff_held : Covers cuts n ↔ (0, n) ∈ held cuts := by
  constructor
  · rintro ⟨c, hc, h⟩
    exact ⟨c, hc, rfl, h⟩
  · rintro ⟨c, hc, -, h⟩
    exact ⟨c, hc, h⟩

theorem keyLe_insertionSort (cuts : List (Interval w)) : (cuts.insertionSort Interval.Le).Pairwise KeyLe := by
  refine (pairwise_insertionSort Interval.Le cuts).imp fun {a b} hab => .inr ⟨rfl, ?_⟩
  show a.lo ≤ b.lo
  unfold Interval.Le at hab
  omega

theorem covers_mergedIntervals : Covers (mergedIntervals cuts) n ↔ Covers cuts n := by
  rw [covers_iff_held, covers_iff_held, mergedIntervals, held_mergeSorted (keyLe_insertionSort cuts),
    held_perm (perm_insertionSort _ _)]

theorem canonical_mergedIntervals (cuts : List (Interval w)) : Canonical (mergedIntervals cuts) :=
  canonical_mergeSorted (keyLe_insertionSort cuts)

theorem Canonical.cut_lt (h : Canonical (c :: cuts)) {d : Interval w} (hd : d ∈ cuts) : c.hi + 1 < d.lo := by
  rcases (pairwise_cons.mp h).1 d hd with hlt | ⟨-, hlt⟩
  · exact absurd hlt (lt_irrefl 0)
  · exact hlt

theorem dropWhile_spec (start : Nat) : ∀ {cuts : List (Interval w)}, Canonical cuts →
    Canonical (cuts.dropWhile fun c => c.hi < start) ∧
      (∀ c ∈ cuts.dropWhile fun c => c.hi < start, start ≤ c.hi) ∧
      ∀ n, start ≤ n → (Covers (cuts.dropWhile fun c => c.hi < start) n ↔ Covers cuts n)
  | [], h => ⟨h, fun _ hc => absurd hc (by simp), fun n _ => by simp⟩
  | c :: cuts, h => by
    by_cases hc : c.hi < start
    · simp only [dropWhile_cons, hc, decide_true, if_true]
      obtain ⟨h₁, h₂, h₃⟩ := dropWhile_spec start h.tail
      refine ⟨h₁, h₂, fun n hn => (h₃ n hn).trans ⟨?_, ?_⟩⟩
      · rintro ⟨d, hd, hdn⟩
        exact ⟨d, mem_cons_of_mem c hd, hdn⟩
      · rintro ⟨d, hd, hdn⟩
        rcases mem_cons.mp hd with rfl | hd
        · omega
        · exact ⟨d, hd, hdn⟩
    · simp only [dropWhile_cons, hc, decide_false, Bool.false_eq_true, if_false]
      refine ⟨h, fun d hd => ?_, fun _ _ => trivial⟩
      rcases mem_cons.mp hd with rfl | hd
      · omega
      · have := h.cut_lt hd
        have := d.lo_le_hi
        omega

end Cuts

/-! ## Carving one range -/

/-- Where the pass over a range stands: the cursor is in the range, and no cut to come ends before it. -/
structure Ready (r : R) (cursor : Nat) (cuts : List (Interval w)) : Prop where
  lo_le : lo r ≤ cursor
  le_hi : cursor ≤ hi r
  canonical : Canonical cuts
  le_cut : ∀ c ∈ cuts, cursor ≤ c.hi

theorem Ready.next {r : R} {cursor : Nat} {c : Interval w} {cuts : List (Interval w)} (h : Ready r cursor (c :: cuts))
    (hc : c.hi < hi r) : Ready r (c.hi + 1) cuts where
  lo_le := by
    have := h.le_cut c (by simp)
    have := h.lo_le
    omega
  le_hi := hc
  canonical := h.canonical.tail
  le_cut d hd := by
    have := h.canonical.cut_lt hd
    have := d.lo_le_hi
    omega

section Carve

variable {rebuild : R → Nat → Nat → R} (hb : Rebuilds rebuild) {r s : R}

include hb

variable {cursor : Nat}

theorem held_rest (hlo : lo r ≤ cursor) (hhi : cursor ≤ hi r) (x : Nat × Nat) :
    x ∈ held [rebuild r cursor (hi r)] ↔ group r = x.1 ∧ cursor ≤ x.2 ∧ x.2 ≤ hi r := by
  simp [Inside, hb.group_eq hlo hhi le_rfl, hb.lo_eq hlo hhi le_rfl, hb.hi_eq hlo hhi le_rfl]

theorem held_gap {c : Interval w} (hlo : lo r ≤ cursor) (hc : c.lo ≤ hi r) (x : Nat × Nat) :
    x ∈ held (if cursor < c.lo then [rebuild r cursor (c.lo - 1)] else []) ↔
      group r = x.1 ∧ cursor ≤ x.2 ∧ x.2 < c.lo := by
  split
  · simp only [mem_held, mem_singleton, exists_eq_left, Inside,
      hb.group_eq hlo (b := c.lo - 1) (by omega) (by omega),
      hb.lo_eq hlo (b := c.lo - 1) (by omega) (by omega), hb.hi_eq hlo (b := c.lo - 1) (by omega) (by omega)]
    omega
  · simp only [held_nil, Set.mem_empty_iff_false, false_iff]
    omega

theorem held_carve : ∀ {cuts : List (Interval w)} {cursor : Nat}, Ready r cursor cuts → ∀ x : Nat × Nat,
    x ∈ held (carve rebuild r cursor cuts) ↔ group r = x.1 ∧ cursor ≤ x.2 ∧ x.2 ≤ hi r ∧ ¬ Covers cuts x.2
  | [], cursor, h, x => by
    rw [carve, held_rest hb h.lo_le h.le_hi]
    simp [Covers]
  | c :: cuts, cursor, h, x => by
    have hcut := h.le_cut c (by simp)
    have hlater : Covers cuts x.2 → c.hi + 1 < x.2 := by
      rintro ⟨d, hd, hdx⟩
      have := h.canonical.cut_lt hd
      omega
    have hcov : Covers (c :: cuts) x.2 ↔ c.lo ≤ x.2 ∧ x.2 ≤ c.hi ∨ Covers cuts x.2 := by simp [Covers]
    have hlohi := c.lo_le_hi
    simp only [carve]
    split
    next hc =>
      split
      · rw [held_gap hb h.lo_le hc, hcov]
        grind
      · rw [held_append, Set.mem_union, held_gap hb h.lo_le hc, held_carve (h.next (by omega)), hcov]
        grind
    next hc =>
      have hnone : x.2 ≤ hi r → ¬ Covers cuts x.2 := fun hx hcx => by
        have := hlater hcx
        omega
      rw [held_rest hb h.lo_le h.le_hi, hcov]
      grind

theorem mem_carve {cuts : List (Interval w)} (h : Ready r cursor cuts) (hs : s ∈ carve rebuild r cursor cuts) :
    group s = group r ∧ cursor ≤ lo s ∧ hi s ≤ hi r := by
  obtain ⟨hgroup, hlo, -⟩ := (held_carve hb h (group s, lo s)).mp ⟨s, hs, rfl, le_rfl, lo_le_hi s⟩
  obtain ⟨-, -, hhi, -⟩ := (held_carve hb h (group s, hi s)).mp ⟨s, hs, rfl, lo_le_hi s, le_rfl⟩
  exact ⟨hgroup.symm, hlo, hhi⟩

theorem canonical_carve : ∀ {cuts : List (Interval w)} {cursor : Nat}, Ready r cursor cuts →
    Canonical (carve rebuild r cursor cuts)
  | [], _, _ => pairwise_singleton _ _
  | c :: cuts, cursor, h => by
    have hgap : Canonical (if cursor < c.lo then [rebuild r cursor (c.lo - 1)] else []) := by
      split
      · exact pairwise_singleton _ _
      · exact List.Pairwise.nil
    simp only [carve]
    split
    next hc =>
      split
      · exact hgap
      · refine pairwise_append.mpr ⟨hgap, canonical_carve (h.next (by omega)), fun a ha b hb' => ?_⟩
        obtain ⟨hgroup, -, hlt⟩ := (held_gap hb h.lo_le hc (group a, hi a)).mp ⟨a, ha, rfl, lo_le_hi a, le_rfl⟩
        obtain ⟨hgroup', hle, -⟩ := mem_carve hb (h.next (by omega)) hb'
        have := c.lo_le_hi
        exact .inr ⟨hgroup.symm.trans hgroup'.symm, by omega⟩
    · exact pairwise_singleton _ _

end Carve

section Subtract

variable {rebuild : R → Nat → Nat → R} (hb : Rebuilds rebuild)

theorem ready_live (r : R) {cuts : List (Interval w)} (h : Canonical cuts) :
    Ready r (lo r) (cuts.dropWhile fun c => c.hi < lo r) where
  lo_le := le_rfl
  le_hi := lo_le_hi r
  canonical := (dropWhile_spec (lo r) h).1
  le_cut := (dropWhile_spec (lo r) h).2.1

include hb

theorem mem_subtractRun {s : R} : ∀ {run : List R} {cuts : List (Interval w)}, Canonical cuts →
    s ∈ subtractRun rebuild run cuts → ∃ r ∈ run, group s = group r ∧ lo r ≤ lo s ∧ hi s ≤ hi r
  | [], _, _, hs => by cases hs
  | r :: run, cuts, hc, hs => by
    rcases mem_append.mp hs with hs | hs
    · exact ⟨r, by simp, mem_carve hb (ready_live r hc) hs⟩
    · obtain ⟨r', hr', h⟩ := mem_subtractRun (ready_live r hc).canonical hs
      exact ⟨r', mem_cons_of_mem r hr', h⟩

theorem canonical_subtractRun : ∀ {run : List R} {cuts : List (Interval w)}, Canonical run → Canonical cuts →
    Canonical (subtractRun rebuild run cuts)
  | [], _, _, _ => List.Pairwise.nil
  | r :: run, cuts, hr, hc => by
    have hready := ready_live r hc
    refine pairwise_append.mpr ⟨canonical_carve hb hready, canonical_subtractRun hr.tail hready.canonical,
      fun a ha b hb' => ?_⟩
    obtain ⟨ha₁, -, ha₃⟩ := mem_carve hb hready ha
    obtain ⟨r', hr', hb₁, hb₂, -⟩ := mem_subtractRun hb hready.canonical hb'
    have := (pairwise_cons.mp hr).1 r' hr'
    unfold Apart at this ⊢
    omega

/-- **What is left is what the ranges held and no cut covers.** -/
theorem held_subtractRun {g : Nat} : ∀ {run : List R} {cuts : List (Interval w)}, Canonical run → OneGroup run g →
    Canonical cuts → held (subtractRun rebuild run cuts) = {x | x ∈ held run ∧ ¬ Covers cuts x.2}
  | [], _, _, _, _ => by
    ext x
    simp [subtractRun]
  | r :: run, cuts, hr, hg, hc => by
    have hready := ready_live r hc
    have ih := held_subtractRun hr.tail (fun s hs => hg s (mem_cons_of_mem r hs)) hready.canonical
    -- The ranges to come start past this one, where the dropped cuts cover nothing.
    have hsame : ∀ x, x ∈ held (r :: run) → (Covers (cuts.dropWhile fun c => c.hi < lo r) x.2 ↔ Covers cuts x.2) := by
      rintro x ⟨s, hs, hin⟩
      refine (dropWhile_spec (lo r) hc).2.2 x.2 ?_
      have hgr := hg r (by simp)
      have hgs := hg s hs
      have := hr.head_le ⟨s, hs, hin⟩
      unfold Inside at hin
      omega
    ext x
    rw [subtractRun, held_append, Set.mem_union, held_carve hb hready, ih]
    constructor
    · rintro (⟨h₁, h₂, h₃, h₄⟩ | ⟨h₁, h₂⟩)
      · have hx : x ∈ held (r :: run) := ⟨r, by simp, h₁, h₂, h₃⟩
        exact ⟨hx, fun h => h₄ ((hsame x hx).mpr h)⟩
      · have hx : x ∈ held (r :: run) := held_cons r run ▸ .inr h₁
        exact ⟨hx, fun h => h₂ ((hsame x hx).mpr h)⟩
    · rintro ⟨hx, hn⟩
      have hn' : ¬ Covers (cuts.dropWhile fun c => c.hi < lo r) x.2 := fun h => hn ((hsame x hx).mp h)
      rw [held_cons] at hx
      rcases hx with hx | hx
      · exact .inl ⟨hx.1, hx.2.1, hx.2.2, hn'⟩
      · exact .inr ⟨hx, hn'⟩

end Subtract

section Checked

variable {rebuild : R → Nat → Nat → R} {rebuild? : R → Nat → Nat → Option R}
  (hr : ∀ {r : R} {a b : Nat}, lo r ≤ a → a ≤ b → b ≤ hi r → rebuild? r a b = some (rebuild r a b))

include hr

theorem gapChecked_eq {r : R} {cursor : Nat} {c : Interval w} (hlo : lo r ≤ cursor) (hc : c.lo ≤ hi r) :
    gapChecked rebuild? r cursor c = some (if cursor < c.lo then [rebuild r cursor (c.lo - 1)] else []) := by
  rw [gapChecked]
  by_cases hlt : cursor < c.lo
  · have hsub : Word.checkedSub c.lo 1 = some (c.lo - 1) := if_pos (by omega)
    have hpiece : rebuild? r cursor (c.lo - 1) = some (rebuild r cursor (c.lo - 1)) := hr hlo (by omega) (by omega)
    rw [if_pos hlt, if_pos hlt, hsub]
    simp only [bind_eq_bind, bind_some, hpiece]
    rfl
  · rw [if_neg hlt, if_neg hlt]

theorem carveChecked_eq {r : R} (hw : hi r ≤ Word.top w) : ∀ {cuts : List (Interval w)} {cursor : Nat},
    Ready r cursor cuts → carveChecked rebuild? r cursor cuts = some (carve rebuild r cursor cuts)
  | [], cursor, h => by
    simp only [carveChecked, carve, hr h.lo_le h.le_hi le_rfl]
    rfl
  | c :: cuts, cursor, h => by
    rw [carveChecked, carve]
    by_cases hc : c.lo ≤ hi r
    · rw [if_pos hc, if_pos hc, gapChecked_eq hr h.lo_le hc]
      simp only [bind_eq_bind, bind_some]
      by_cases hend : hi r ≤ c.hi
      · rw [if_pos hend, if_pos hend]
        rfl
      · have hadd : Word.checkedAdd w c.hi 1 = some (c.hi + 1) :=
          Word.checkedAdd_eq_some_iff.mpr ⟨Word.lt_pow_iff_le_top.mpr (by omega), rfl⟩
        rw [if_neg hend, if_neg hend, hadd]
        simp only [bind_some, carveChecked_eq hw (h.next (by omega))]
        rfl
    · rw [if_neg hc, if_neg hc, hr h.lo_le h.le_hi le_rfl]
      rfl

/-- **No step of the pass leaves the word**: in machine words it returns what it returns over the numbers. -/
theorem subtractRunChecked_eq : ∀ {run : List R} {cuts : List (Interval w)}, (∀ r ∈ run, hi r ≤ Word.top w) →
    Canonical cuts → subtractRunChecked rebuild? run cuts = some (subtractRun rebuild run cuts)
  | [], _, _, _ => rfl
  | r :: run, cuts, hw, hc => by
    have hready := ready_live r hc
    rw [subtractRunChecked, subtractRun]
    simp only [carveChecked_eq hr (hw r (by simp)) hready, bind_eq_bind, bind_some,
      subtractRunChecked_eq (fun s hs => hw s (mem_cons_of_mem r hs)) hready.canonical]
    rfl

end Checked

section Runs

variable {rebuild : R → Nat → Nat → R} (hb : Rebuilds rebuild) {rs : List R} {cuts : List (Interval w)}

include hb

theorem canonical_subtract_runs (hr : Canonical rs) (hc : Canonical cuts) :
    Canonical ((runs rs).flatMap (subtractRun rebuild · cuts)) := by
  have hruns : Canonical (runs rs).flatten := (flatten_runs hr).symm ▸ hr
  obtain ⟨-, hpair⟩ := pairwise_flatten.mp hruns
  rw [Canonical, flatMap_def, pairwise_flatten]
  refine ⟨fun ys hys => ?_, pairwise_map.mpr (hpair.imp fun {a b} hab x hx y hy => ?_)⟩
  · obtain ⟨run, hrun, rfl⟩ := mem_map.mp hys
    exact canonical_subtractRun hb (runs_canonical hr hrun) hc
  · obtain ⟨r, hra, hx₁, -, hx₃⟩ := mem_subtractRun hb hc hx
    obtain ⟨s, hsb, hy₁, hy₂, -⟩ := mem_subtractRun hb hc hy
    have := hab r hra s hsb
    unfold Apart at this ⊢
    omega

theorem held_subtract_runs (hr : Canonical rs) (hc : Canonical cuts) :
    held ((runs rs).flatMap (subtractRun rebuild · cuts)) = {x | x ∈ held rs ∧ ¬ Covers cuts x.2} := by
  ext x
  rw [flatMap_def, held_flatten]
  constructor
  · rintro ⟨ys, hys, hx⟩
    obtain ⟨run, hrun, rfl⟩ := mem_map.mp hys
    obtain ⟨g, hg⟩ := runs_group hr hrun
    rw [held_subtractRun hb (runs_canonical hr hrun) hg hc] at hx
    refine ⟨?_, hx.2⟩
    rw [← flatten_runs hr, held_flatten]
    exact ⟨run, hrun, hx.1⟩
  · rintro ⟨hx, hn⟩
    rw [← flatten_runs hr, held_flatten] at hx
    obtain ⟨run, hrun, hin⟩ := hx
    obtain ⟨g, hg⟩ := runs_group hr hrun
    refine ⟨_, mem_map.mpr ⟨run, hrun, rfl⟩, ?_⟩
    rw [held_subtractRun hb (runs_canonical hr hrun) hg hc]
    exact ⟨hin, hn⟩

omit hb in
theorem held_cutIfAny {out : List R} (h : held out = {x | x ∈ held rs ∧ ¬ Covers cuts x.2}) :
    held (if !rs.isEmpty && !cuts.isEmpty then out else rs) = {x | x ∈ held rs ∧ ¬ Covers cuts x.2} := by
  split
  · exact h
  · rename_i hn
    rcases Bool.and_eq_false_iff.mp (Bool.not_eq_true _ ▸ hn) with hn | hn
    · have hnil : rs = [] := by simpa using hn
      simp [hnil]
    · have hnil : cuts = [] := by simpa using hn
      have hnone : ∀ n, ¬ Covers cuts n := fun n ⟨c, hc, _⟩ => by
        rw [hnil] at hc
        cases hc
      exact Set.ext fun x => (and_iff_left (hnone x.2)).symm

end Runs

end Zond.Ranges

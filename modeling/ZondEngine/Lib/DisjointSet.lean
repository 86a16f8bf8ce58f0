import Mathlib.Algebra.Order.BigOperators.Group.List
import Mathlib.Algebra.Order.Group.Nat
import Mathlib.Algebra.Ring.Nat
import Mathlib.Data.Nat.Find
import Mathlib.Data.List.AList
import Mathlib.Data.Set.Insert

/-!
# Disjoint sets

Union-find over `0, …, n - 1`, by size and with paths halved; that sizes grow along parents is a field (`climbs`), so
every search ends. `Rooted` ties a set to the root of each element, and `Partitions` reads the classes as the
equivalence the unions generate. `classes` groups elements that share a label.
-/

namespace Zond

open List

namespace DisjointSet

/-! ## Forests -/

def up (parent : List ℕ) (i : ℕ) : ℕ := parent[i]?.getD i

def weight (size : List ℕ) (i : ℕ) : ℕ := size[i]?.getD 0

theorem up_set {parent : List ℕ} {i v j : ℕ} (hi : i < parent.length) :
    up (parent.set i v) j = if j = i then v else up parent j := by
  unfold up
  by_cases hj : j = i
  · rw [hj, if_pos rfl, getElem?_set_self hi, Option.getD_some]
  · rw [if_neg hj, getElem?_set_ne (Ne.symm hj)]

variable {size : List ℕ}

theorem weight_set_self {i v : ℕ} (hi : i < size.length) : weight (size.set i v) i = v := by
  unfold weight
  rw [getElem?_set_self hi, Option.getD_some]

theorem weight_set_ne {i v j : ℕ} (hj : j ≠ i) : weight (size.set i v) j = weight size j := by
  unfold weight
  rw [getElem?_set_ne (Ne.symm hj)]

theorem up_range (len i : ℕ) : up (List.range len) i = i := by
  unfold up
  by_cases hi : i < len
  · rw [getElem?_range hi, Option.getD_some]
  · rw [getElem?_eq_none (by rw [length_range]; exact Nat.le_of_not_lt hi), Option.getD_none]

theorem lt_length_of_up_ne {parent : List ℕ} {i : ℕ} (h : up parent i ≠ i) : i < parent.length := by
  by_contra hi
  refine h ?_
  unfold up
  rw [getElem?_eq_none (Nat.le_of_not_lt hi), Option.getD_none]

theorem lt_length_of_weight_pos {i : ℕ} (h : 0 < weight size i) : i < size.length := by
  by_contra hi
  unfold weight at h
  rw [getElem?_eq_none (Nat.le_of_not_lt hi)] at h
  exact absurd h (Nat.lt_irrefl 0)

theorem weight_le_sum (size : List ℕ) (i : ℕ) : weight size i ≤ size.sum := by
  unfold weight
  cases h : size[i]? with
  | none => exact Nat.zero_le _
  | some w => exact le_sum_of_mem (mem_of_getElem? h)

def Climbs (parent size : List ℕ) : Prop := ∀ i, up parent i ≠ i → weight size i < weight size (up parent i)

structure Rooted (parent : List ℕ) (root : ℕ → ℕ) : Prop where
  up : ∀ i, root (up parent i) = root i
  top : ∀ i, DisjointSet.up parent (root i) = root i
  self : ∀ i, DisjointSet.up parent i = i → root i = i
  within : ∀ i < parent.length, root i < parent.length

/-! ## Searching -/

def halve (parent : List ℕ) (i : ℕ) : List ℕ := parent.set i (up parent (up parent i))

def findFrom : ℕ → List ℕ → ℕ → ℕ × List ℕ
  | 0, parent, i => (i, parent)
  | fuel + 1, parent, i =>
    if up parent i = i then (i, parent) else findFrom fuel (halve parent i) (up (halve parent i) i)

section Halving

variable {parent size : List ℕ} {root : ℕ → ℕ} {i : ℕ}

theorem weight_lt_of_up_ne (hclimbs : Climbs parent size) (hi : up parent i ≠ i) :
    weight size i < weight size (up parent (up parent i)) := by
  by_cases htop : up parent (up parent i) = up parent i
  · rw [htop]
    exact hclimbs i hi
  · exact (hclimbs i hi).trans (hclimbs _ htop)

theorem climbs_halve (hclimbs : Climbs parent size) (hi : up parent i ≠ i) : Climbs (halve parent i) size := by
  intro j hj
  rw [halve, up_set (lt_length_of_up_ne hi)] at hj ⊢
  split
  next heq =>
    rw [heq]
    exact weight_lt_of_up_ne hclimbs hi
  next hne =>
    rw [if_neg hne] at hj
    exact hclimbs j hj

theorem rooted_halve (hclimbs : Climbs parent size) (hi : up parent i ≠ i) (hrooted : Rooted parent root) :
    Rooted (halve parent i) root where
  up j := by
    rw [halve, up_set (lt_length_of_up_ne hi)]
    split
    next heq => rw [heq, hrooted.up, hrooted.up]
    next => exact hrooted.up j
  top j := by
    rw [halve, up_set (lt_length_of_up_ne hi)]
    split
    next heq => exact absurd (heq ▸ hrooted.top j) hi
    next => exact hrooted.top j
  self j hj := by
    rw [halve, up_set (lt_length_of_up_ne hi)] at hj
    split at hj
    next heq =>
      -- The sizes forbid coming back to an element in two steps.
      have hlt := weight_lt_of_up_ne hclimbs hi
      rw [hj, heq] at hlt
      exact absurd hlt (Nat.lt_irrefl _)
    next => exact hrooted.self j hj
  within j hj := by
    unfold halve at hj ⊢
    rw [length_set] at hj ⊢
    exact hrooted.within j hj

theorem up_halve_of_top {r : ℕ} (hi : up parent i ≠ i) (hr : up parent r = r) : up (halve parent i) r = r := by
  rw [halve, up_set (lt_length_of_up_ne hi)]
  split
  next heq => exact absurd (heq ▸ hr) hi
  next => exact hr

end Halving

section Finding

theorem length_findFrom : ∀ (fuel : ℕ) (parent : List ℕ) (i : ℕ), (findFrom fuel parent i).2.length = parent.length
  | 0, _, _ => rfl
  | fuel + 1, parent, i => by
    unfold findFrom
    split
    · rfl
    · rw [length_findFrom fuel, halve, length_set]

theorem climbs_findFrom : ∀ (fuel : ℕ) {parent : List ℕ} (i : ℕ), Climbs parent size →
    Climbs (findFrom fuel parent i).2 size
  | 0, _, _, h => h
  | fuel + 1, parent, i, h => by
    unfold findFrom
    split
    · exact h
    next hi => exact climbs_findFrom fuel _ (climbs_halve h hi)

theorem up_findFrom_of_top : ∀ (fuel : ℕ) {parent : List ℕ} (i : ℕ) {r : ℕ}, up parent r = r →
    up (findFrom fuel parent i).2 r = r
  | 0, _, _, _, h => h
  | fuel + 1, parent, i, r, h => by
    unfold findFrom
    split
    · exact h
    next hi => exact up_findFrom_of_top fuel _ (up_halve_of_top hi h)

theorem climb_left {parent : List ℕ} {i fuel : ℕ} (h : Climbs parent size) (hi : up parent i ≠ i)
    (hfuel : size.sum - weight size i < fuel + 1) : size.sum - weight size (up (halve parent i) i) < fuel := by
  have hup : up (halve parent i) i = up parent (up parent i) := by
    rw [halve, up_set (lt_length_of_up_ne hi), if_pos rfl]
  have hlt := weight_lt_of_up_ne h hi
  have hle := weight_le_sum size (up parent (up parent i))
  rw [hup]
  omega

inductive Climbed : List ℕ → ℕ → ℕ → List ℕ → Prop
  | top {parent : List ℕ} {i : ℕ} (htop : up parent i = i) : Climbed parent i i parent
  | up {parent after : List ℕ} {i r : ℕ} (hi : up parent i ≠ i)
      (hrest : Climbed (halve parent i) (DisjointSet.up (halve parent i) i) r after) : Climbed parent i r after

theorem climbed_findFrom : ∀ (fuel : ℕ) {parent : List ℕ} {i : ℕ}, Climbs parent size →
    size.sum - weight size i < fuel → Climbed parent i (findFrom fuel parent i).1 (findFrom fuel parent i).2
  | 0, _, _, _, hfuel => absurd hfuel (Nat.not_lt_zero _)
  | fuel + 1, parent, i, h, hfuel => by
    unfold findFrom
    split
    next htop => exact .top htop
    next hi => exact .up hi (climbed_findFrom fuel (climbs_halve h hi) (climb_left h hi hfuel))

theorem Climbed.up_root {parent after : List ℕ} {i r : ℕ} (h : Climbed parent i r after) :
    DisjointSet.up after r = r := by
  induction h with
  | top htop => exact htop
  | up _ _ ih => exact ih

theorem Climbed.rooted {parent after : List ℕ} {i r : ℕ} (h : Climbed parent i r after) (hclimbs : Climbs parent size)
    {root : ℕ → ℕ} (hrooted : Rooted parent root) : r = root i ∧ Rooted after root := by
  induction h with
  | top htop => exact ⟨(hrooted.self _ htop).symm, hrooted⟩
  | up hi _ ih =>
    have hhalved := rooted_halve hclimbs hi hrooted
    obtain ⟨hfound, hafter⟩ := ih (climbs_halve hclimbs hi) hhalved
    exact ⟨hfound.trans (hhalved.up _), hafter⟩

end Finding

end DisjointSet

/-! ## The sets -/

open DisjointSet in
structure DisjointSet where
  (parent size : List ℕ)
  climbs : Climbs parent size
  positive : ∀ i < parent.length, 0 < weight size i

namespace DisjointSet

def new (len : ℕ) : DisjointSet where
  parent := List.range len
  size := List.replicate len 1
  climbs := fun i hi => absurd (up_range len i) hi
  positive := by
    intro i hi
    rw [length_range] at hi
    unfold weight
    rw [getElem?_replicate_of_lt hi]
    exact Nat.one_pos

variable (s : DisjointSet)

/-- The root of a class, the path to it halved. -/
def find (i : ℕ) : ℕ × DisjointSet :=
  let found := findFrom (s.size.sum + 1) s.parent i
  (found.1,
    { parent := found.2
      size := s.size
      climbs := climbs_findFrom _ _ s.climbs
      positive := by
        rw [length_findFrom]
        exact s.positive })

/-- **A search ends**, at the root `find` answers with. -/
theorem climbed_find (i : ℕ) : Climbed s.parent i (s.find i).1 (s.find i).2.parent :=
  climbed_findFrom _ s.climbs (Nat.lt_succ_of_le (Nat.sub_le _ _))

theorem up_find (i : ℕ) : up (s.find i).2.parent (s.find i).1 = (s.find i).1 := (s.climbed_find i).up_root

theorem climbs_raise {parent size : List ℕ} {a w : ℕ} (h : Climbs parent size) (ha : up parent a = a)
    (hw : weight size a ≤ w) : Climbs parent (size.set a w) := by
  intro i hi
  have hclimb := h i hi
  have hne : i ≠ a := by
    rintro rfl
    exact hi ha
  rw [weight_set_ne hne]
  by_cases hup : up parent i = a
  · rw [hup] at hclimb ⊢
    rw [weight_set_self (lt_length_of_weight_pos (Nat.zero_lt_of_lt hclimb))]
    exact hclimb.trans_le hw
  · rw [weight_set_ne hup]
    exact hclimb

theorem climbs_hang {parent size : List ℕ} {a b : ℕ} (h : Climbs parent size) (hb : b < parent.length)
    (hlt : weight size b < weight size a) : Climbs (parent.set b a) size := by
  intro i hi
  rw [up_set hb] at hi ⊢
  split
  next heq =>
    rw [heq]
    exact hlt
  next hne =>
    rw [if_neg hne] at hi
    exact h i hi

def link (a b : ℕ) (ha : up s.parent a = a) (hne : a ≠ b) (hle : weight s.size b ≤ weight s.size a) : DisjointSet where
  parent := s.parent.set b a
  size := s.size.set a (weight s.size a + weight s.size b)
  climbs := by
    have hraised := climbs_raise s.climbs ha (Nat.le_add_right _ (weight s.size b))
    by_cases hb : b < s.parent.length
    · have hpos := s.positive b hb
      refine climbs_hang hraised hb ?_
      rw [weight_set_self (lt_length_of_weight_pos (hpos.trans_le hle)), weight_set_ne (Ne.symm hne)]
      omega
    · rw [set_eq_of_length_le (Nat.le_of_not_lt hb)]
      exact hraised
  positive := by
    intro i hi
    rw [length_set] at hi
    have hpos := s.positive i hi
    by_cases hia : i = a
    · rw [hia] at hpos ⊢
      rw [weight_set_self (lt_length_of_weight_pos hpos)]
      exact Nat.add_pos_left hpos _
    · rw [weight_set_ne hia]
      exact hpos

/-- Joins two classes, the lighter under the heavier. -/
def union (a b : ℕ) : DisjointSet :=
  let first := s.find a
  let second := first.2.find b
  have hfirst : up second.2.parent first.1 = first.1 := up_findFrom_of_top _ _ (up_find s a)
  if hsame : first.1 = second.1 then second.2
  else if hlt : weight second.2.size first.1 < weight second.2.size second.1 then
    second.2.link second.1 first.1 (up_find _ _) (Ne.symm hsame) (Nat.le_of_lt hlt)
  else second.2.link first.1 second.1 hfirst hsame (Nat.le_of_not_lt hlt)

section Represents

variable {s} {root : ℕ → ℕ}

theorem find_spec (h : Rooted s.parent root) (i : ℕ) : (s.find i).1 = root i ∧ Rooted (s.find i).2.parent root :=
  (s.climbed_find i).rooted s.climbs h

@[simp] theorem length_find (s : DisjointSet) (i : ℕ) : (s.find i).2.parent.length = s.parent.length :=
  length_findFrom _ _ _

theorem parent_union (s : DisjointSet) (a b : ℕ) : (s.union a b).parent =
    if (s.find a).1 = ((s.find a).2.find b).1 then ((s.find a).2.find b).2.parent
    else if weight ((s.find a).2.find b).2.size (s.find a).1 <
        weight ((s.find a).2.find b).2.size ((s.find a).2.find b).1 then
      ((s.find a).2.find b).2.parent.set (s.find a).1 ((s.find a).2.find b).1
    else ((s.find a).2.find b).2.parent.set ((s.find a).2.find b).1 (s.find a).1 := by
  unfold union
  dsimp only
  split
  · rfl
  · split <;> rfl

@[simp] theorem length_union (s : DisjointSet) (a b : ℕ) : (s.union a b).parent.length = s.parent.length := by
  rw [parent_union]
  split
  · simp
  · split <;> simp

theorem rooted_link {parent : List ℕ} {a b : ℕ} (h : Rooted parent root) (ha : root a = a) (hb : root b = b)
    (hne : a ≠ b) (hain : a < parent.length) (hbin : b < parent.length) :
    Rooted (parent.set b a) fun i => if root i = b then a else root i where
  up i := by
    rw [up_set hbin]
    split
    next heq => rw [heq, ha, hb, if_neg hne, if_pos rfl]
    next => rw [h.up i]
  top i := by
    rw [up_set hbin]
    by_cases hi : root i = b
    · rw [if_pos hi, if_neg hne, ← ha]
      exact h.top a
    · rw [if_neg hi, if_neg hi]
      exact h.top i
  self i hi := by
    rw [up_set hbin] at hi
    split at hi
    next heq => exact absurd (hi.trans heq) hne
    next hib => rw [h.self i hi, if_neg hib]
  within i hi := by
    rw [length_set] at hi ⊢
    split
    · exact hain
    · exact h.within i hi

/-- **A union makes one class of two**: what is the same afterwards was the same before, or in the two classes. -/
theorem rooted_union (h : Rooted s.parent root) {x y : ℕ} (hx : x < s.parent.length) (hy : y < s.parent.length) :
    ∃ after, Rooted (s.union x y).parent after ∧ ∀ i j, after i = after j ↔
      root i = root j ∨ (root i = root x ∧ root j = root y) ∨ (root i = root y ∧ root j = root x) := by
  obtain ⟨hfirst, hafter⟩ := find_spec h x
  obtain ⟨hsecond, hrooted⟩ := find_spec hafter y
  have hlength : ((s.find x).2.find y).2.parent.length = s.parent.length := by simp
  have hself : ∀ i, root (root i) = root i := fun i => h.self _ (h.top i)
  have hkernel : ∀ a b i j : ℕ, ((if root i = b then a else root i) = if root j = b then a else root j) ↔
      root i = root j ∨ (root i = a ∧ root j = b) ∨ (root i = b ∧ root j = a) := by
    intro a b i j
    split <;> split <;> omega
  rw [parent_union, hfirst, hsecond]
  split
  next hsame =>
    refine ⟨root, hrooted, fun i j => ?_⟩
    rw [hsame]
    omega
  next hne =>
    have hxin : root x < ((s.find x).2.find y).2.parent.length := hlength ▸ h.within x hx
    have hyin : root y < ((s.find x).2.find y).2.parent.length := hlength ▸ h.within y hy
    split
    · refine ⟨_, rooted_link hrooted (hself y) (hself x) (Ne.symm hne) hyin hxin, fun i j => ?_⟩
      rw [hkernel]
      omega
    · exact ⟨_, rooted_link hrooted (hself x) (hself y) hne hxin hyin, hkernel _ _⟩

def Partitions (s : DisjointSet) (links : ℕ → ℕ → Prop) : Prop :=
  ∃ root, Rooted s.parent root ∧ ∀ i j, root i = root j ↔ Relation.EqvGen links i j

theorem partitions_new (len : ℕ) : (new len).Partitions fun _ _ => False := by
  have hup := up_range len
  refine ⟨id, ⟨hup, hup, fun i _ => rfl, fun i hi => hi⟩, fun i j => ⟨?_, fun hij => ?_⟩⟩
  · rintro rfl
    exact .refl _
  · exact congrArg (Quot.lift id fun _ _ hlink => hlink.elim) (Quot.eqvGen_sound hij)

theorem partitions_union {links : ℕ → ℕ → Prop} (h : s.Partitions links) {x y : ℕ} (hx : x < s.parent.length)
    (hy : y < s.parent.length) : (s.union x y).Partitions fun i j => links i j ∨ (i = x ∧ j = y) := by
  obtain ⟨root, hrooted, hclasses⟩ := h
  obtain ⟨after, hafter, hkernel⟩ := rooted_union hrooted hx hy
  have hold : ∀ {i j}, root i = root j → Relation.EqvGen (fun i j => links i j ∨ (i = x ∧ j = y)) i j :=
    fun hij => ((hclasses _ _).mp hij).mono fun _ _ => .inl
  have hnew : Relation.EqvGen (fun i j => links i j ∨ (i = x ∧ j = y)) x y := .rel _ _ (.inr ⟨rfl, rfl⟩)
  refine ⟨after, hafter, fun i j => ⟨fun hij => ?_, fun hij => ?_⟩⟩
  · rcases (hkernel i j).mp hij with hsame | ⟨hix, hjy⟩ | ⟨hiy, hjx⟩
    · exact hold hsame
    · exact (hold hix).trans _ _ _ (hnew.trans _ _ _ (hold hjy.symm))
    · exact (hold hiy).trans _ _ _ ((hnew.symm _ _).trans _ _ _ (hold hjx.symm))
  · have hlinks : ∀ i j, links i j ∨ (i = x ∧ j = y) → after i = after j := by
      rintro i j (hlink | ⟨rfl, rfl⟩)
      · exact (hkernel i j).mpr (.inl ((hclasses i j).mpr (.rel _ _ hlink)))
      · exact (hkernel i j).mpr (.inr (.inl ⟨rfl, rfl⟩))
    exact congrArg (Quot.lift after hlinks) (Quot.eqvGen_sound hij)

theorem Partitions.congr {links links' : ℕ → ℕ → Prop} (h : s.Partitions links)
    (hto : ∀ i j, links i j → Relation.EqvGen links' i j) (hback : ∀ i j, links' i j → Relation.EqvGen links i j) :
    s.Partitions links' := by
  obtain ⟨root, hrooted, hclasses⟩ := h
  refine ⟨root, hrooted, fun i j => (hclasses i j).trans ⟨fun hij => ?_, fun hij => ?_⟩⟩
  · exact (Relation.EqvGen.is_equivalence links').eqvGen_iff.mp (hij.mono hto)
  · exact (Relation.EqvGen.is_equivalence links).eqvGen_iff.mp (hij.mono hback)

end Represents

section Linking

variable {τ : Type} [DecidableEq τ]

/-- The sets while elements are linked by their labels, and the element first met for each label. -/
structure Linking (τ : Type) where
  sets : DisjointSet
  firstHolder : AList fun _ : τ => ℕ

def Linking.meet (i : ℕ) (l : Linking τ) (label : τ) : Linking τ :=
  match l.firstHolder.lookup label with
  | some held => { l with sets := l.sets.union held i }
  | none => { l with firstHolder := l.firstHolder.insert label i }

def linked (labels : ℕ → List τ) (count : ℕ) : Linking τ :=
  (List.range count).foldl (fun l i => (labels i).foldl (Linking.meet i) l) ⟨new count, ∅⟩

def Shares (met : Set (ℕ × τ)) (i j : ℕ) : Prop := ∃ label, (i, label) ∈ met ∧ (j, label) ∈ met

structure Linking.Holds (l : Linking τ) (count : ℕ) (met : Set (ℕ × τ)) : Prop where
  length : l.sets.parent.length = count
  within : ∀ i label, (i, label) ∈ met → i < count
  held : ∀ label i, l.firstHolder.lookup label = some i → (i, label) ∈ met
  free : ∀ label, l.firstHolder.lookup label = none → ∀ i, (i, label) ∉ met
  classes : l.sets.Partitions (Shares met)

theorem Linking.holds_new (count : ℕ) : (⟨new count, ∅⟩ : Linking τ).Holds count ∅ where
  length := length_range
  within _ _ h := h.elim
  held _ _ h := absurd h (by rw [AList.lookup_empty]; nofun)
  free _ _ _ h := h
  classes := (partitions_new count).congr (fun _ _ h => h.elim) fun _ _ h => h.elim fun _ hboth => hboth.1.elim

section Meeting

variable {s} {met : Set (ℕ × τ)} {i : ℕ} {label : τ}

omit [DecidableEq τ] in
theorem Shares.mono {met' : Set (ℕ × τ)} (hsub : met ⊆ met') {a b : ℕ} (h : Shares met a b) : Shares met' a b := by
  obtain ⟨other, ha, hb⟩ := h
  exact ⟨other, hsub ha, hsub hb⟩

omit [DecidableEq τ] in
theorem partitions_held (h : s.Partitions (Shares met)) {held : ℕ} (hmet : (held, label) ∈ met)
    (hheld : held < s.parent.length) (hi : i < s.parent.length) :
    (s.union held i).Partitions (Shares (insert (i, label) met)) := by
  refine (partitions_union h hheld hi).congr ?_ ?_
  · rintro a b (hshares | ⟨rfl, rfl⟩)
    · exact .rel _ _ (hshares.mono (Set.subset_insert _ _))
    · exact .rel _ _ ⟨label, .inr hmet, .inl rfl⟩
  · -- Whatever was met with the label shared it with the held element before.
    have hfirst : ∀ a, (a, label) ∈ insert (i, label) met →
        Relation.EqvGen (fun x y => Shares met x y ∨ (x = held ∧ y = i)) held a := by
      rintro a (heq | hmem)
      · exact .rel _ _ (.inr ⟨rfl, (Prod.mk.inj heq).1⟩)
      · exact .rel _ _ (.inl ⟨label, hmet, hmem⟩)
    rintro a b ⟨other, ha, hb⟩
    by_cases hother : other = label
    · subst hother
      exact ((hfirst a ha).symm _ _).trans _ _ _ (hfirst b hb)
    · have hold : ∀ c, (c, other) ∈ insert (i, label) met → (c, other) ∈ met :=
        fun c hc => hc.resolve_left fun heq => hother (Prod.mk.inj heq).2
      exact .rel _ _ (.inl ⟨other, hold a ha, hold b hb⟩)

omit [DecidableEq τ] in
theorem partitions_free (h : s.Partitions (Shares met)) (hfree : ∀ j, (j, label) ∉ met) :
    s.Partitions (Shares (insert (i, label) met)) := by
  refine h.congr (fun a b hshares => .rel _ _ (hshares.mono (Set.subset_insert _ _))) ?_
  rintro a b ⟨other, ha, hb⟩
  rcases ha with heqa | ha
  · obtain ⟨rfl, rfl⟩ := Prod.mk.inj heqa
    rcases hb with heqb | hb
    · rw [(Prod.mk.inj heqb).1]
      exact .refl _
    · exact absurd hb (hfree b)
  · rcases hb with heqb | hb
    · obtain ⟨_, rfl⟩ := Prod.mk.inj heqb
      exact absurd ha (hfree a)
    · exact .rel _ _ ⟨other, ha, hb⟩

theorem Linking.Holds.meet {l : Linking τ} {count : ℕ} (h : l.Holds count met) (hi : i < count) (label : τ) :
    (l.meet i label).Holds count (insert (i, label) met) := by
  have hwithin : ∀ j other, (j, other) ∈ insert (i, label) met → j < count := by
    rintro j other (heq | hmem)
    · exact (Prod.mk.inj heq).1 ▸ hi
    · exact h.within j other hmem
  unfold Linking.meet
  split
  next held hheld =>
    have hmet := h.held label held hheld
    have hclasses := partitions_held h.classes hmet (h.length ▸ h.within held label hmet) (h.length ▸ hi)
    refine ⟨by rw [length_union, h.length], hwithin, fun other j hj => .inr (h.held other j hj), ?_, hclasses⟩
    intro other hother j hj
    rcases hj with heq | hmem
    · obtain ⟨_, rfl⟩ := Prod.mk.inj heq
      rw [hheld] at hother
      cases hother
    · exact h.free other hother j hmem
  next hnone =>
    refine ⟨h.length, hwithin, fun other j hj => ?_, fun other hother j hj => ?_,
      partitions_free h.classes (h.free label hnone)⟩
    · by_cases heq : other = label
      · subst heq
        rw [AList.lookup_insert] at hj
        exact .inl (Prod.ext (Option.some.inj hj).symm rfl)
      · rw [AList.lookup_insert_ne heq] at hj
        exact .inr (h.held other j hj)
    · by_cases heq : other = label
      · subst heq
        rw [AList.lookup_insert] at hother
        cases hother
      · rw [AList.lookup_insert_ne heq] at hother
        exact h.free other hother j (hj.resolve_left fun hpair => heq (Prod.mk.inj hpair).2)

end Meeting

theorem Linking.Holds.meetAll {count i : ℕ} (hi : i < count) :
    ∀ {l : Linking τ} {met : Set (ℕ × τ)} (labels : List τ),
    l.Holds count met → (labels.foldl (Linking.meet i) l).Holds count (met ∪ {x | x.1 = i ∧ x.2 ∈ labels})
  | l, met, [], h => by
    have hnone : met ∪ {x : ℕ × τ | x.1 = i ∧ x.2 ∈ []} = met := by simp
    rw [hnone]
    exact h
  | l, met, label :: rest, h => by
    have hmore : insert (i, label) met ∪ {x : ℕ × τ | x.1 = i ∧ x.2 ∈ rest} =
        met ∪ {x | x.1 = i ∧ x.2 ∈ label :: rest} := by
      ext ⟨j, other⟩
      simp only [Set.mem_union, Set.mem_insert_iff, Set.mem_ofPred_eq, Prod.mk.injEq, mem_cons]
      tauto
    rw [foldl_cons, ← hmore]
    exact Linking.Holds.meetAll hi rest (h.meet hi label)

/-- **Elements that share a label are linked**, and no others are. -/
theorem holds_linked (labels : ℕ → List τ) (count : ℕ) :
    (linked labels count).Holds count {x | x.1 < count ∧ x.2 ∈ labels x.1} := by
  have hrun : ∀ (elements : List ℕ) {l : Linking τ} {met : Set (ℕ × τ)}, (∀ i ∈ elements, i < count) →
      l.Holds count met →
      (elements.foldl (fun l i => (labels i).foldl (Linking.meet i) l) l).Holds count
        (met ∪ {x | x.1 ∈ elements ∧ x.2 ∈ labels x.1}) := by
    intro elements
    induction elements with
    | nil =>
      intro l met _ h
      have hnone : met ∪ {x : ℕ × τ | x.1 ∈ ([] : List ℕ) ∧ x.2 ∈ labels x.1} = met := by simp
      rw [hnone]
      exact h
    | cons i rest ih =>
      intro l met hin h
      have hmore : met ∪ {x | x.1 = i ∧ x.2 ∈ labels i} ∪ {x | x.1 ∈ rest ∧ x.2 ∈ labels x.1} =
          met ∪ {x | x.1 ∈ i :: rest ∧ x.2 ∈ labels x.1} := by
        ext ⟨j, label⟩
        simp only [Set.mem_union, Set.mem_ofPred_eq, mem_cons]
        constructor
        · rintro ((hmet | ⟨rfl, hlabel⟩) | ⟨hj, hlabel⟩)
          · exact .inl hmet
          · exact .inr ⟨.inl rfl, hlabel⟩
          · exact .inr ⟨.inr hj, hlabel⟩
        · rintro (hmet | ⟨rfl | hj, hlabel⟩)
          · exact .inl (.inl hmet)
          · exact .inl (.inr ⟨rfl, hlabel⟩)
          · exact .inr ⟨hj, hlabel⟩
      rw [foldl_cons, ← hmore]
      refine ih (fun j hj => hin j (mem_cons_of_mem _ hj)) ?_
      exact h.meetAll (hin i mem_cons_self) (labels i)
  have hall := hrun (List.range count) (fun i hi => mem_range.mp hi) (Linking.holds_new count)
  simp only [Set.empty_union, mem_range] at hall
  exact hall

end Linking

/-! ## Listing the classes -/

/-- The classes so far: the members under each root, and the roots by their first member. -/
structure Gathering where
  sets : DisjointSet
  grouped : AList fun _ : ℕ => List ℕ
  order : List ℕ

def Gathering.take (g : Gathering) (i : ℕ) : Gathering :=
  let (root, sets) := g.sets.find i
  match g.grouped.lookup root with
  | some members => { sets, grouped := g.grouped.insert root (members ++ [i]), order := g.order }
  | none => { sets, grouped := g.grouped.insert root [i], order := g.order ++ [root] }

def gather (count : ℕ) : List (List ℕ) :=
  let gathered := (List.range count).foldl Gathering.take ⟨s, ∅, []⟩
  gathered.order.map fun root => (gathered.grouped.lookup root).getD []

section Gathering

variable {root : ℕ → ℕ}

def leaders (root : ℕ → ℕ) (count : ℕ) : List ℕ := (List.range count).filter fun i => ∀ j < i, root j ≠ root i

def members (root : ℕ → ℕ) (count r : ℕ) : List ℕ := (List.range count).filter fun i => root i = r

structure Gathering.Holds (g : Gathering) (root : ℕ → ℕ) (count : ℕ) : Prop where
  rooted : Rooted g.sets.parent root
  order : g.order = (leaders root count).map root
  found : ∀ i < count, g.grouped.lookup (root i) = some (members root count (root i))
  absent : ∀ r, (∀ i < count, root i ≠ r) → g.grouped.lookup r = none

theorem exists_leader (root : ℕ → ℕ) {count i : ℕ} (hi : i < count) :
    ∃ leader ∈ leaders root count, root leader = root i := by
  have hsome : ∃ j, root j = root i := ⟨i, rfl⟩
  refine ⟨Nat.find hsome, ?_, Nat.find_spec hsome⟩
  have hle : Nat.find hsome ≤ i := Nat.find_min' hsome rfl
  refine mem_filter.mpr ⟨mem_range.mpr (hle.trans_lt hi), decide_eq_true fun j hj heq => ?_⟩
  exact Nat.find_min hsome hj (heq.trans (Nat.find_spec hsome))

theorem ascending_leaders (root : ℕ → ℕ) (count : ℕ) : (leaders root count).Pairwise (· < ·) :=
  pairwise_lt_range.filter _

theorem pairwise_leaders (root : ℕ → ℕ) (count : ℕ) : (leaders root count).Pairwise fun i j => root i ≠ root j := by
  refine (ascending_leaders root count).imp_of_mem fun {i j} _ hj hlt => ?_
  exact of_decide_eq_true (mem_filter.mp hj).2 i hlt

theorem mem_members {root : ℕ → ℕ} {count r i : ℕ} : i ∈ members root count r ↔ i < count ∧ root i = r := by
  simp [members]

theorem ascending_members (root : ℕ → ℕ) (count r : ℕ) : (members root count r).Pairwise (· < ·) :=
  pairwise_lt_range.filter _

theorem head?_members {root : ℕ → ℕ} {count leader : ℕ} (h : leader ∈ leaders root count) :
    (members root count (root leader)).head? = some leader := by
  obtain ⟨hlt, hfirst⟩ := mem_filter.mp h
  have hmem : leader ∈ members root count (root leader) := mem_members.mpr ⟨mem_range.mp hlt, rfl⟩
  have hsorted := ascending_members root count (root leader)
  cases hlist : members root count (root leader) with
  | nil => rw [hlist] at hmem; cases hmem
  | cons head rest =>
    have hhead : head ∈ members root count (root leader) := by simp [hlist]
    rw [hlist] at hmem hsorted
    rcases mem_cons.mp hmem with heq | hrest
    · rw [head?_cons, heq]
    · -- Nothing of the class comes before its first element.
      have hlt := (pairwise_cons.mp hsorted).1 leader hrest
      exact absurd (mem_members.mp hhead).2 (of_decide_eq_true hfirst head hlt)

theorem members_succ (root : ℕ → ℕ) (count r : ℕ) :
    members root (count + 1) r = members root count r ++ if root count = r then [count] else [] := by
  unfold members
  rw [range_succ, filter_append, filter_singleton]
  simp

theorem leaders_succ (root : ℕ → ℕ) (count : ℕ) :
    leaders root (count + 1) = leaders root count ++ if ∀ j < count, root j ≠ root count then [count] else [] := by
  unfold leaders
  rw [range_succ, filter_append, filter_singleton]
  simp

theorem Gathering.Holds.file {g : Gathering} {count : ℕ} (h : g.Holds root count) {sets : DisjointSet}
    (hrooted : Rooted sets.parent root) {order : List ℕ} (horder : order = (leaders root (count + 1)).map root) :
    Gathering.Holds ⟨sets, g.grouped.insert (root count) (members root (count + 1) (root count)), order⟩ root
      (count + 1) := by
  refine ⟨hrooted, horder, fun i hi => ?_, fun r hr => ?_⟩
  · by_cases hroot : root i = root count
    · rw [hroot, AList.lookup_insert]
    · have hlt : i < count := by
        refine Nat.lt_of_le_of_ne (Nat.le_of_lt_succ hi) ?_
        rintro rfl
        exact hroot rfl
      rw [AList.lookup_insert_ne hroot, h.found i hlt, members_succ, if_neg (Ne.symm hroot), append_nil]
  · rw [AList.lookup_insert_ne (Ne.symm (hr count (Nat.lt_succ_self count)))]
    exact h.absent r fun i hi => hr i (Nat.lt_succ_of_lt hi)

theorem Gathering.Holds.take {g : Gathering} {count : ℕ} (h : g.Holds root count) :
    (g.take count).Holds root (count + 1) := by
  obtain ⟨hfind, hrooted⟩ := find_spec h.rooted count
  have hmembers := members_succ root count (root count)
  rw [if_pos rfl] at hmembers
  unfold Gathering.take
  dsimp only
  rw [hfind]
  split
  next filed hfiled =>
    -- An element of the class came before.
    have hbefore : ∃ i < count, root i = root count := by
      by_contra hnone
      push Not at hnone
      rw [h.absent _ hnone] at hfiled
      cases hfiled
    obtain ⟨i, hi, hroot⟩ := hbefore
    have hlookup := h.found i hi
    rw [hroot, hfiled] at hlookup
    rw [Option.some.inj hlookup, ← hmembers]
    refine h.file hrooted ?_
    rw [leaders_succ, if_neg fun hall => hall i hi hroot, append_nil]
    exact h.order
  next hnone =>
    have hleads : ∀ j < count, root j ≠ root count := by
      intro j hj hroot
      have hlookup := h.found j hj
      rw [hroot, hnone] at hlookup
      cases hlookup
    have hfirst : members root count (root count) = [] := by
      unfold members
      rw [filter_eq_nil_iff]
      intro j hj
      simpa using hleads j (mem_range.mp hj)
    rw [hfirst, nil_append] at hmembers
    rw [← hmembers]
    refine h.file hrooted ?_
    rw [leaders_succ, if_pos hleads, map_append, map_singleton, h.order]

/-- **The classes are listed** by their first members, each with all its members. -/
theorem gather_eq {s : DisjointSet} (h : Rooted s.parent root) (count : ℕ) :
    s.gather count = (leaders root count).map fun i => members root count (root i) := by
  have hholds : ∀ k, ((List.range k).foldl Gathering.take ⟨s, ∅, []⟩).Holds root k := by
    intro k
    induction k with
    | zero => exact ⟨h, rfl, fun i hi => absurd hi (Nat.not_lt_zero i), fun r _ => AList.lookup_empty r⟩
    | succ k ih =>
      rw [range_succ, foldl_append]
      exact ih.take
  unfold gather
  dsimp only
  rw [(hholds count).order, map_map]
  refine map_congr_left fun i hi => ?_
  have hlt := mem_range.mp (mem_filter.mp hi).1
  rw [Function.comp_apply, (hholds count).found i hlt, Option.getD_some]

theorem gather_congr {s t : DisjointSet} {links : ℕ → ℕ → Prop} (hs : s.Partitions links) (ht : t.Partitions links)
    (count : ℕ) : s.gather count = t.gather count := by
  obtain ⟨root, hrooted, hclasses⟩ := hs
  obtain ⟨root', hrooted', hclasses'⟩ := ht
  have hsame : ∀ i j, root i = root j ↔ root' i = root' j := fun i j => (hclasses i j).trans (hclasses' i j).symm
  have hleaders : leaders root count = leaders root' count := by
    unfold leaders
    simp only [ne_eq, hsame]
  rw [gather_eq hrooted, gather_eq hrooted', hleaders]
  unfold members
  simp only [hsame]

end Gathering

section Classes

variable {τ : Type} [DecidableEq τ] (labels : ℕ → List τ)

def classes (count : ℕ) : List (List ℕ) := (linked labels count).sets.gather count

/-- **The order in which an element names its labels does not decide the groups.** -/
theorem classes_congr {labels labels' : ℕ → List τ} {count : ℕ}
    (h : ∀ i < count, ∀ label, label ∈ labels i ↔ label ∈ labels' i) :
    classes labels count = classes labels' count := by
  have hmet : {x : ℕ × τ | x.1 < count ∧ x.2 ∈ labels x.1} = {x | x.1 < count ∧ x.2 ∈ labels' x.1} := by
    ext ⟨i, label⟩
    exact and_congr_right fun hi => h i hi label
  have hpartitions := (holds_linked labels count).classes
  rw [hmet] at hpartitions
  exact gather_congr hpartitions (holds_linked labels' count).classes count

def Meet (count : ℕ) : ℕ → ℕ → Prop := Shares {x | x.1 < count ∧ x.2 ∈ labels x.1}

/-- **The groups are the classes of elements that chains of shared labels join**, by their first members. -/
theorem classes_eq (count : ℕ) : ∃ root : ℕ → ℕ, (∀ i j, root i = root j ↔ Relation.EqvGen (Meet labels count) i j) ∧
      classes labels count = (leaders root count).map fun i => members root count (root i) := by
  obtain ⟨root, hrooted, hclasses⟩ := (holds_linked labels count).classes
  exact ⟨root, hclasses, gather_eq hrooted count⟩

theorem classes_of_disjoint {labels : ℕ → List τ} {count : ℕ} (h : ∀ i j, Meet labels count i j → i = j) :
    classes labels count = (List.range count).map fun i => [i] := by
  obtain ⟨root, hroot, heq⟩ := classes_eq labels count
  have hinj : ∀ i j, root i = root j ↔ i = j := by
    intro i j
    rw [hroot]
    exact ⟨fun hij => congrArg (Quot.lift id h) (Quot.eqvGen_sound hij), fun hij => hij ▸ .refl i⟩
  have hleaders : leaders root count = List.range count := by
    refine filter_eq_self.mpr fun i _ => ?_
    simpa [hinj] using fun j hj => Nat.ne_of_lt hj
  rw [heq, hleaders]
  refine map_congr_left fun i hi => ?_
  unfold members
  simp only [hinj]
  refine perm_singleton.mp ((perm_ext_iff_of_nodup (nodup_range.filter _) (nodup_singleton i)).mpr ?_)
  intro j
  rw [mem_filter, mem_singleton, decide_eq_true_eq]
  exact ⟨fun hj => hj.2, fun hj => ⟨hj ▸ hi, hj⟩⟩

end Classes

end DisjointSet

end Zond

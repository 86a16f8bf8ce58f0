import Mathlib.Data.List.Pairwise
import Mathlib.Data.List.Sort
import ZondEngine.Lib.Bisect
import ZondEngine.Lib.Word

/-!
# Lists of closed ranges

A range type (`Ranged`) has bounds that are words and a group. A list is *canonical* when the groups ascend and, in a
group, the ranges ascend, disjoint and not even adjacent; it is determined by what it holds (`Canonical.ext`). `merge`
makes one (`held_mergeSorted`, `canonical_mergeSorted`), `search` finds a number in one (`search_iff`).
-/

namespace Zond.Ranges

open List

class Ranged (R : Type) where
  width : Nat
  group : R → Nat
  lo : R → Nat
  hi : R → Nat
  lo_le_hi : ∀ r, lo r ≤ hi r
  hi_le_top : ∀ r, hi r ≤ Word.top width
  eq_of_bounds : ∀ r s, group r = group s → lo r = lo s → hi r = hi s → r = s

/-- Ranges that can be joined: `extendTo` moves the upper bound out to that of the second. -/
class Joinable (R : Type) extends Ranged R where
  extendTo : R → R → R
  group_extendTo : ∀ r s, group (extendTo r s) = group r
  lo_extendTo : ∀ r s, lo (extendTo r s) = lo r
  hi_extendTo : ∀ r s, hi (extendTo r s) = max (hi r) (hi s)

export Ranged (group lo hi lo_le_hi hi_le_top eq_of_bounds)

export Joinable (extendTo group_extendTo lo_extendTo hi_extendTo)

attribute [simp] group_extendTo lo_extendTo hi_extendTo

section Defs

variable {R : Type} [Ranged R]

def Inside (r : R) (x : Nat × Nat) : Prop := group r = x.1 ∧ lo r ≤ x.2 ∧ x.2 ≤ hi r

variable (rs : List R)

def held : Set (Nat × Nat) := {x | ∃ r ∈ rs, Inside r x}

def KeyLe (a b : R) : Prop := group a < group b ∨ group a = group b ∧ lo a ≤ lo b

instance : DecidableRel (KeyLe (R := R)) := fun _ _ => inferInstanceAs (Decidable (_ ∨ _))

def Apart (a b : R) : Prop := group a < group b ∨ group a = group b ∧ hi a + 1 < lo b

def Canonical : Prop := rs.Pairwise Apart

def compareTo (n : Nat) (r : R) : Ordering := if n < lo r then .gt else if hi r < n then .lt else .eq

def search (n : Nat) : Bool := Bisect.isOk (Bisect.binarySearchBy (compareTo n) rs)

def splitRun (r : R) (rs : List R) : List R × List R :=
  (r :: rs).splitAt (Bisect.partitionPoint (fun s => group s == group r) (r :: rs))

def runsFuel : Nat → List R → List (List R)
  | 0, _ => []
  | _ + 1, [] => []
  | fuel + 1, r :: rs => (splitRun r rs).1 :: runsFuel fuel (splitRun r rs).2

def runs : List (List R) := runsFuel rs.length rs

end Defs

section Merging

variable {R : Type} [Joinable R]

def mergeFrom (current : R) : List R → List R
  | [] => [current]
  | next :: rest =>
    if group next = group current ∧ lo next ≤ Word.satAdd (Ranged.width R) (hi current) 1 then
      mergeFrom (extendTo current next) rest
    else current :: mergeFrom next rest

def mergeSorted : List R → List R
  | [] => []
  | r :: rest => mergeFrom r rest

def merge (rs : List R) : List R := mergeSorted (rs.insertionSort KeyLe)

end Merging

variable {R : Type}

section Held

variable [Ranged R] {r s : R} {rs ss : List R} {x : Nat × Nat}

@[simp] theorem mem_held : x ∈ held rs ↔ ∃ r ∈ rs, Inside r x := Iff.rfl

@[simp] theorem held_nil : held ([] : List R) = ∅ := by
  ext x
  simp

theorem held_cons (r : R) (rs : List R) : held (r :: rs) = {x | Inside r x} ∪ held rs := by
  ext x
  simp

theorem held_append (rs ss : List R) : held (rs ++ ss) = held rs ∪ held ss := by
  ext x
  simp [or_and_right, exists_or]

theorem held_perm (h : rs.Perm ss) : held rs = held ss := by
  ext x
  simp only [mem_held, h.mem_iff]

theorem head_mem_held (r : R) (rs : List R) : (group r, lo r) ∈ held (r :: rs) :=
  ⟨r, by simp, rfl, le_rfl, lo_le_hi r⟩

theorem held_eq_empty_iff : held rs = ∅ ↔ rs = [] := by
  constructor
  · intro h
    cases rs with
    | nil => rfl
    | cons r rs =>
      have hx := head_mem_held r rs
      rw [h] at hx
      exact absurd hx (Set.notMem_empty _)
  · rintro rfl
    exact held_nil

theorem KeyLe.trans {a b c : R} (h : KeyLe a b) (h' : KeyLe b c) : KeyLe a c := by
  unfold KeyLe at *
  omega

theorem KeyLe.total (a b : R) : KeyLe a b ∨ KeyLe b a := by
  unfold KeyLe
  omega

theorem Apart.keyLe {a b : R} (h : Apart a b) : KeyLe a b := by
  have := lo_le_hi a
  unfold Apart at h
  unfold KeyLe
  omega

theorem Apart.disjoint {a b : R} (h : Apart a b) (ha : Inside a x) : ¬ Inside b x := by
  intro hb
  unfold Apart at h
  unfold Inside at ha hb
  omega

end Held

section Merge

variable [Joinable R] {current next r : R} {rs rest : List R} {x : Nat × Nat}

theorem joins_iff : (group next = group current ∧ lo next ≤ Word.satAdd (Ranged.width R) (hi current) 1) ↔
    group next = group current ∧ lo next ≤ hi current + 1 := by
  rw [Word.le_satAdd_one_iff ((lo_le_hi next).trans (hi_le_top next))]

theorem inside_extendTo (hkey : KeyLe current next) (hg : group next = group current) (hlo : lo next ≤ hi current + 1) :
    Inside (extendTo current next) x ↔ Inside current x ∨ Inside next x := by
  unfold KeyLe at hkey
  simp only [Inside, group_extendTo, lo_extendTo, hi_extendTo]
  omega

theorem KeyLe.extendTo_left (s : R) (h : KeyLe current r) : KeyLe (extendTo current s) r := by
  unfold KeyLe at *
  simpa only [group_extendTo, lo_extendTo] using h

theorem pairwise_extendTo (h : (current :: next :: rest).Pairwise KeyLe) :
    (extendTo current next :: rest).Pairwise KeyLe := by
  obtain ⟨hc, hrest⟩ := pairwise_cons.mp h
  exact pairwise_cons.mpr ⟨fun s hs => (hc s (mem_cons_of_mem _ hs)).extendTo_left next, hrest.tail⟩

theorem held_mergeFrom : ∀ (current : R) (rest : List R), (current :: rest).Pairwise KeyLe →
    held (mergeFrom current rest) = held (current :: rest)
  | current, [], _ => rfl
  | current, next :: rest, h => by
    obtain ⟨hc, hrest⟩ := pairwise_cons.mp h
    rw [mergeFrom]
    split
    · rename_i hj
      obtain ⟨hg, hlo⟩ := joins_iff.mp hj
      rw [held_mergeFrom _ rest (pairwise_extendTo h)]
      ext x
      simp only [mem_held, mem_cons, exists_eq_or_imp, inside_extendTo (hc next (by simp)) hg hlo, or_assoc]
    · rw [held_cons, held_cons, held_mergeFrom next rest hrest]

theorem keyLe_of_mem_mergeFrom (h : (current :: rest).Pairwise KeyLe) (hr : r ∈ mergeFrom current rest) :
    KeyLe current r := by
  have hin : (group r, lo r) ∈ held (mergeFrom current rest) := ⟨r, hr, rfl, le_rfl, lo_le_hi r⟩
  rw [held_mergeFrom _ _ h] at hin
  obtain ⟨s, hs, hg, hlo, -⟩ := hin
  rcases mem_cons.mp hs with rfl | hs
  · exact .inr ⟨hg, hlo⟩
  · exact ((pairwise_cons.mp h).1 s hs).trans (.inr ⟨hg, hlo⟩)

theorem canonical_mergeFrom : ∀ (current : R) (rest : List R), (current :: rest).Pairwise KeyLe →
    Canonical (mergeFrom current rest)
  | current, [], _ => pairwise_singleton _ _
  | current, next :: rest, h => by
    obtain ⟨hc, hrest⟩ := pairwise_cons.mp h
    rw [mergeFrom]
    split
    · exact canonical_mergeFrom _ rest (pairwise_extendTo h)
    · rename_i hj
      rw [joins_iff] at hj
      refine pairwise_cons.mpr ⟨fun r hr => ?_, canonical_mergeFrom next rest hrest⟩
      have hnext := hc next (by simp)
      have hr := keyLe_of_mem_mergeFrom hrest hr
      unfold KeyLe at hnext hr
      unfold Apart
      omega

/-- **The merge of a sorted list holds what the list held.** -/
theorem held_mergeSorted (h : rs.Pairwise KeyLe) : held (mergeSorted rs) = held rs := by
  cases rs with
  | nil => rfl
  | cons r rest => exact held_mergeFrom r rest h

/-- **The merge of a sorted list is canonical.** -/
theorem canonical_mergeSorted (h : rs.Pairwise KeyLe) : Canonical (mergeSorted rs) := by
  cases rs with
  | nil => exact List.Pairwise.nil
  | cons r rest => exact canonical_mergeFrom r rest h

instance : Std.Total (KeyLe (R := R)) := ⟨KeyLe.total⟩

instance : IsTrans R KeyLe := ⟨fun _ _ _ => KeyLe.trans⟩

theorem held_merge (rs : List R) : held (merge rs) = held rs := by
  rw [merge, held_mergeSorted (pairwise_insertionSort _ _), held_perm (perm_insertionSort _ _)]

theorem canonical_merge (rs : List R) : Canonical (merge rs) :=
  canonical_mergeSorted (pairwise_insertionSort _ _)

theorem held_mergeIfDirty (dirty : Bool) (rs : List R) :
    held (if dirty && !rs.isEmpty then merge rs else rs) = held rs := by
  split
  · exact held_merge rs
  · rfl

theorem canonical_mergeIfDirty {dirty : Bool} (h : dirty = false → Canonical rs) :
    Canonical (if dirty && !rs.isEmpty then merge rs else rs) := by
  split
  · exact canonical_merge rs
  · rename_i hn
    cases dirty with
    | false => exact h rfl
    | true =>
      have hnil : rs = [] := by simpa using hn
      rw [hnil]
      exact List.Pairwise.nil

end Merge

section Unique

variable [Ranged R] {r s : R} {rs ss : List R} {x : Nat × Nat}

theorem Canonical.nil : Canonical ([] : List R) := List.Pairwise.nil

theorem Canonical.tail (h : Canonical (r :: rs)) : Canonical rs := (pairwise_cons.mp h).2

theorem Canonical.apart_or_eq (h : Canonical rs) (hr : r ∈ rs) (hs : s ∈ rs) : Apart r s ∨ Apart s r ∨ r = s := by
  by_cases heq : r = s
  · exact .inr (.inr heq)
  · have : Std.Symm fun a b : R => Apart a b ∨ Apart b a := ⟨fun _ _ => Or.symm⟩
    have hpairs : rs.Pairwise fun a b => Apart a b ∨ Apart b a := h.imp Or.inl
    exact (hpairs.forall hr hs heq).imp_right .inl

theorem Canonical.head_le (h : Canonical (r :: rs)) (hx : x ∈ held (r :: rs)) :
    group r < x.1 ∨ group r = x.1 ∧ lo r ≤ x.2 := by
  obtain ⟨s, hs, hin⟩ := hx
  unfold Inside at hin
  rcases mem_cons.mp hs with rfl | hs
  · omega
  · have := ((pairwise_cons.mp h).1 s hs).keyLe
    unfold KeyLe at this
    omega

theorem Canonical.past_head (h : Canonical (r :: rs)) : (group r, hi r + 1) ∉ held (r :: rs) := by
  rintro ⟨s, hs, hin⟩
  simp only [Inside] at hin
  rcases mem_cons.mp hs with rfl | hs
  · omega
  · have := (pairwise_cons.mp h).1 s hs
    unfold Apart at this
    omega

theorem Canonical.held_tail (h : Canonical (r :: rs)) : held rs = held (r :: rs) \ {x | Inside r x} := by
  ext x
  constructor
  · rintro ⟨s, hs, hin⟩
    exact ⟨⟨s, mem_cons_of_mem r hs, hin⟩, fun hr => ((pairwise_cons.mp h).1 s hs).disjoint hr hin⟩
  · rintro ⟨⟨s, hs, hin⟩, hr⟩
    rcases mem_cons.mp hs with rfl | hs
    · exact absurd hin hr
    · exact ⟨s, hs, hin⟩

theorem Canonical.head_hi_le (h : Canonical (r :: rs)) (heq : held (r :: rs) = held (s :: ss)) (hg : group r = group s)
    (hlo : lo r = lo s) : hi s ≤ hi r := by
  by_contra hlt
  have hle := lo_le_hi r
  apply h.past_head
  rw [heq]
  exact ⟨s, by simp, hg.symm, by show lo s ≤ hi r + 1; omega, by show hi r + 1 ≤ hi s; omega⟩

/-- **A canonical list is determined by what it holds.** -/
theorem Canonical.ext : ∀ {rs ss : List R}, Canonical rs → Canonical ss → held rs = held ss → rs = ss
  | [], ss, _, _, heq => (held_eq_empty_iff.mp (heq.symm.trans held_nil)).symm
  | r :: rs, [], _, _, heq => held_eq_empty_iff.mp (heq.trans held_nil)
  | r :: rs, s :: ss, hr, hs, heq => by
    have h₁ := hr.head_le (heq ▸ head_mem_held s ss)
    have h₂ := hs.head_le (heq ▸ head_mem_held r rs)
    have hg : group r = group s := by simp only at h₁ h₂; omega
    have hlo : lo r = lo s := by simp only at h₁ h₂; omega
    have hhi : hi r = hi s :=
      Nat.le_antisymm (hs.head_hi_le heq.symm hg.symm hlo.symm) (hr.head_hi_le heq hg hlo)
    obtain rfl := eq_of_bounds r s hg hlo hhi
    rw [hr.tail.ext hs.tail (by rw [hr.held_tail, hs.held_tail, heq])]

theorem Canonical.merge_eq {R : Type} [Joinable R] {rs : List R} (h : Canonical rs) : merge rs = rs :=
  (canonical_merge rs).ext h (held_merge rs)

end Unique

section Search

variable [Ranged R] {r : R} {rs run : List R} {n : Nat}

def OneGroup (rs : List R) (g : Nat) : Prop := ∀ r ∈ rs, group r = g

theorem compareTo_eq_iff : compareTo n r = .eq ↔ lo r ≤ n ∧ n ≤ hi r := by
  unfold compareTo
  split
  · simp only [reduceCtorEq, false_iff]; omega
  · split
    · simp only [reduceCtorEq, false_iff]; omega
    · simp only [true_iff]; omega

theorem ascending_compareTo {g : Nat} (hc : Canonical rs) (hg : OneGroup rs g) (n : Nat) :
    Bisect.Ascending (compareTo n) rs := by
  refine List.Pairwise.imp_of_mem (fun {a b} ha hb hab => ?_) hc
  have hga := hg a ha
  have hgb := hg b hb
  have hla := lo_le_hi a
  unfold Apart at hab
  unfold compareTo
  constructor
  · split
    · rw [if_pos (by omega)]; exact id
    · split <;> simp
  · split
    · simp
    · split
      · rw [if_neg (by omega), if_pos (by omega)]; exact id
      · simp

/-- **The search answers whether the list holds the number.** -/
theorem search_iff {g : Nat} (hc : Canonical rs) (hg : OneGroup rs g) : search rs n = true ↔ (g, n) ∈ held rs := by
  rw [search, Bisect.binarySearchBy_isOk_iff (ascending_compareTo hc hg n)]
  constructor
  · rintro ⟨r, hr, heq⟩
    exact ⟨r, hr, hg r hr, compareTo_eq_iff.mp heq⟩
  · rintro ⟨r, hr, -, hin⟩
    exact ⟨r, hr, compareTo_eq_iff.mpr hin⟩

end Search

section Runs

variable [Ranged R] {r : R} {rs run : List R}

theorem Canonical.group_pairwise (h : Canonical (r :: rs)) :
    (r :: rs).Pairwise fun a b => (group b == group r) = true → (group a == group r) = true := by
  refine List.Pairwise.imp_of_mem (fun {a b} ha _ hab hb => ?_) h
  have hra : group r ≤ group a := by
    rcases mem_cons.mp ha with rfl | ha
    · exact le_rfl
    · have := (pairwise_cons.mp h).1 a ha
      unfold Apart at this
      omega
  unfold Apart at hab
  rw [beq_iff_eq] at hb ⊢
  omega

theorem splitRun_spec (h : Canonical (r :: rs)) :
    (splitRun r rs).1 ++ (splitRun r rs).2 = r :: rs ∧ (splitRun r rs).2.length ≤ rs.length ∧
      OneGroup (splitRun r rs).1 (group r) := by
  have hp := h.group_pairwise
  have hpos : 0 < Bisect.partitionPoint (fun s => group s == group r) (r :: rs) :=
    (Bisect.lt_partitionPoint_iff hp (j := 0) (x := r) rfl).mpr (beq_self_eq_true _)
  simp only [splitRun, splitAt_eq]
  refine ⟨take_append_drop _ _, ?_, fun s hs => ?_⟩
  · rw [length_drop, length_cons]
    omega
  · obtain ⟨j, hj⟩ := getElem?_of_mem hs
    rw [getElem?_take] at hj
    split at hj
    · rename_i hlt
      exact beq_iff_eq.mp ((Bisect.lt_partitionPoint_iff hp hj).mp hlt)
    · cases hj

theorem runsFuel_spec : ∀ (fuel : Nat) (rs : List R), rs.length ≤ fuel → Canonical rs →
    (runsFuel fuel rs).flatten = rs ∧ ∀ run ∈ runsFuel fuel rs, ∃ g, OneGroup run g
  | 0, [], _, _ => ⟨rfl, fun _ h => absurd h (by simp [runsFuel])⟩
  | _ + 1, [], _, _ => ⟨rfl, fun _ h => absurd h (by simp [runsFuel])⟩
  | fuel + 1, r :: rs, hf, h => by
    obtain ⟨happ, hlen, hg⟩ := splitRun_spec h
    have hc : Canonical (splitRun r rs).2 := (pairwise_append.mp (happ ▸ h : Canonical _)).2.1
    rw [length_cons] at hf
    obtain ⟨ih, ihg⟩ := runsFuel_spec fuel (splitRun r rs).2 (by omega) hc
    rw [runsFuel]
    refine ⟨by rw [flatten_cons, ih, happ], fun run hrun => ?_⟩
    rcases mem_cons.mp hrun with rfl | hrun
    · exact ⟨group r, hg⟩
    · exact ihg run hrun

/-- **The groups of a canonical list make it up.** -/
theorem flatten_runs (h : Canonical rs) : (runs rs).flatten = rs := (runsFuel_spec rs.length rs le_rfl h).1

theorem runs_group (h : Canonical rs) (hrun : run ∈ runs rs) : ∃ g, OneGroup run g :=
  (runsFuel_spec rs.length rs le_rfl h).2 run hrun

theorem runs_canonical (h : Canonical rs) (hrun : run ∈ runs rs) : Canonical run := by
  rw [← flatten_runs h] at h
  exact (pairwise_flatten.mp h).1 run hrun

theorem held_flatten (xss : List (List R)) : held xss.flatten = {x | ∃ xs ∈ xss, x ∈ held xs} := by
  ext x
  simp only [mem_held, mem_flatten, Set.mem_ofPred_eq]
  constructor
  · rintro ⟨r, ⟨xs, hxs, hr⟩, hin⟩
    exact ⟨xs, hxs, r, hr, hin⟩
  · rintro ⟨xs, hxs, r, hr, hin⟩
    exact ⟨r, ⟨xs, hxs, hr⟩, hin⟩

/-- **A search of every group answers whether the number is held in any.** -/
theorem any_search_iff (h : Canonical rs) (n : Nat) : (runs rs).any (search · n) = true ↔ ∃ g, (g, n) ∈ held rs := by
  simp only [any_eq_true]
  constructor
  · rintro ⟨run, hrun, hs⟩
    obtain ⟨g, hg⟩ := runs_group h hrun
    refine ⟨g, ?_⟩
    rw [← flatten_runs h, held_flatten]
    exact ⟨run, hrun, (search_iff (runs_canonical h hrun) hg).mp hs⟩
  · rintro ⟨g, hn⟩
    rw [← flatten_runs h, held_flatten] at hn
    obtain ⟨run, hrun, hin⟩ := hn
    obtain ⟨g', hg'⟩ := runs_group h hrun
    obtain ⟨r, hr, hin'⟩ := hin
    refine ⟨run, hrun, (search_iff (runs_canonical h hrun) hg').mpr ⟨r, hr, hg' r hr, hin'.2⟩⟩

end Runs

end Zond.Ranges

import Mathlib.Data.List.Dedup
import Mathlib.Data.List.Sort
import ZondEngine.Lib.Sorted

/-!
# Values kept in slots and found by their keys

A value that is read in is folded into the lowest of the slots its keys lead to, along with what the others of them
hold, and the keys of what the slot now holds are filed under it (`read_of_matched`, `read_of_unmatched`). Nothing is
ever taken out of the index, so an old key may lead to a slot that is empty by now.
-/

namespace Zond

open List

structure Slots (K σ : Type) [LT K] where
  cells : List (Option σ)
  slotOf : SortedMap K ℕ

namespace Slots

section Cells

variable {σ : Type}

def held (cells : List (Option σ)) (slot : ℕ) : Option σ := cells[slot]?.join

def mergeInto (fold : σ → σ → σ) (cells : List (Option σ)) (slot : ℕ) (value : σ) : List (Option σ) :=
  cells.modify slot fun cell => some (cell.elim value fun existing => fold existing value)

def absorb (fold : σ → σ → σ) (keep : ℕ) (cells : List (Option σ)) (other : ℕ) : List (Option σ) :=
  (held cells other).elim cells fun value => mergeInto fold (cells.set other none) keep value

variable {fold : σ → σ → σ} {cells : List (Option σ)} {slot keep other : ℕ} {value h : σ}

theorem lt_length_of_held (hheld : held cells slot = some h) : slot < cells.length := by
  by_contra hlt
  rw [held, getElem?_eq_none (Nat.le_of_not_lt hlt)] at hheld
  cases hheld

theorem held_append (i : ℕ) :
    held (cells ++ [some value]) i = if i = cells.length then some value else held cells i := by
  unfold held
  rw [getElem?_append]
  split
  next hi => rw [if_neg hi.ne]
  next hi =>
    split
    next heq => rw [heq, Nat.sub_self]; rfl
    next hne =>
      rw [getElem?_eq_none (by simp; omega), getElem?_eq_none (by omega)]

theorem held_set_none (i : ℕ) : held (cells.set other none) i = if i = other then none else held cells i := by
  unfold held
  rw [getElem?_set]
  by_cases hi : i = other
  · subst hi
    rw [if_pos rfl, if_pos rfl]
    split <;> rfl
  · rw [if_neg (Ne.symm hi), if_neg hi]

theorem held_mergeInto (fold : σ → σ → σ) (value : σ) (hheld : held cells slot = some h) (i : ℕ) :
    held (mergeInto fold cells slot value) i = if i = slot then some (fold h value) else held cells i := by
  unfold held mergeInto at *
  rw [getElem?_modify]
  by_cases hi : i = slot
  · subst hi
    obtain ⟨cell, hcell⟩ : ∃ cell, cells[i]? = some cell := ⟨_, getElem?_eq_getElem (lt_length_of_held hheld)⟩
    rw [hcell] at hheld ⊢
    obtain rfl : cell = some h := hheld
    simp
  · rw [if_neg hi]
    simp [Ne.symm hi]

@[simp] theorem length_mergeInto : (mergeInto fold cells slot value).length = cells.length := length_modify _ _ _

@[simp] theorem length_absorb : (absorb fold keep cells other).length = cells.length := by
  unfold absorb
  cases held cells other with
  | none => rfl
  | some value => simp

theorem held_absorb (fold : σ → σ → σ) (hheld : held cells keep = some h) (hne : other ≠ keep) (i : ℕ) :
    held (absorb fold keep cells other) i =
      if i = keep then some ((held cells other).elim h (fold h)) else if i = other then none else held cells i := by
  unfold absorb
  cases hother : held cells other with
  | none =>
    dsimp only [Option.elim_none]
    split
    next hi => rw [hi, hheld]
    · split
      next hi => rw [hi, hother]
      · rfl
  | some value =>
    dsimp only [Option.elim_some]
    rw [held_mergeInto fold value (h := h) (by rw [held_set_none, if_neg hne.symm, hheld]), held_set_none]

theorem held_foldl_absorb (fold : σ → σ → σ) : ∀ {rest : List ℕ} {cells : List (Option σ)} {h : σ},
    held cells keep = some h → rest.Nodup → keep ∉ rest → ∀ i, held (rest.foldl (absorb fold keep) cells) i =
      if i = keep then some ((rest.filterMap (held cells)).foldl fold h) else if i ∈ rest then none else held cells i
  | [], cells, h, hheld, _, _, i => by
    by_cases hi : i = keep
    · rw [hi, if_pos rfl]
      exact hheld
    · simp [hi]
  | other :: rest, cells, h, hheld, hnodup, hkeep, i => by
    rw [mem_cons, not_or] at hkeep
    obtain ⟨hother, hnodup⟩ := nodup_cons.mp hnodup
    have hstep := held_absorb fold hheld (Ne.symm hkeep.1)
    have hrest : rest.filterMap (held (absorb fold keep cells other)) = rest.filterMap (held cells) := by
      refine filterMap_congr fun j hj => ?_
      have hjk : j ≠ keep := fun heq => hkeep.2 (heq ▸ hj)
      have hjo : j ≠ other := fun heq => hother (heq ▸ hj)
      rw [hstep, if_neg hjk, if_neg hjo]
    rw [foldl_cons, held_foldl_absorb fold ((hstep keep).trans (if_pos rfl)) hnodup hkeep.2, hrest, hstep]
    by_cases hi : i = keep
    · rw [if_pos hi, if_pos hi, filterMap_cons]
      cases held cells other <;> rfl
    · rw [if_neg hi, if_neg hi, if_neg hi]
      by_cases hmem : i ∈ rest
      · rw [if_pos hmem, if_pos (mem_cons_of_mem _ hmem)]
      · simp [hmem]

theorem length_foldl_absorb (rest : List ℕ) (cells : List (Option σ)) :
    (rest.foldl (absorb fold keep) cells).length = cells.length :=
  List.foldlRecOn rest (absorb fold keep) (motive := fun held => held.length = cells.length) rfl fun _ hlength _ _ => by
    rw [length_absorb, hlength]

end Cells

section Read

variable {K σ : Type} [LinearOrder K] (keysOf : σ → List K) (merge later : σ → σ → σ)

def matched (s : Slots K σ) (value : σ) : List ℕ :=
  (((keysOf value).filterMap s.slotOf.get?).insertionSort (· ≤ ·)).dedup

def file (slotOf : SortedMap K ℕ) (keys : List K) (slot : ℕ) : SortedMap K ℕ :=
  keys.foldl (fun slotOf key => slotOf.insert key slot) slotOf

def read (s : Slots K σ) (value : σ) : Slots K σ :=
  let (cells, slot) :=
    match matched keysOf s value with
    | keep :: rest => (mergeInto later (rest.foldl (absorb merge keep) s.cells) keep value, keep)
    | [] => (s.cells ++ [some value], s.cells.length)
  match held cells slot with
  | some settled => ⟨cells, file s.slotOf (keysOf settled) slot⟩
  | none => ⟨cells, s.slotOf⟩

def readAll (values : List σ) : Slots K σ := values.foldl (read keysOf merge later) ⟨[], SortedMap.empty⟩

def values (s : Slots K σ) : List σ := s.cells.filterMap id

variable {keysOf} {s : Slots K σ} {value h : σ} {keep slot : ℕ} {rest : List ℕ}

theorem mem_values : h ∈ s.values ↔ ∃ slot, held s.cells slot = some h := by
  unfold values held
  rw [mem_filterMap]
  simp only [id_eq, exists_eq_right, mem_iff_getElem?, Option.join_eq_some_iff]

theorem mem_matched : slot ∈ matched keysOf s value ↔ ∃ key ∈ keysOf value, s.slotOf.get? key = some slot := by
  unfold matched
  rw [mem_dedup, mem_insertionSort, mem_filterMap]

theorem pairwise_matched (keysOf : σ → List K) (s : Slots K σ) (value : σ) :
    (matched keysOf s value).Pairwise (· < ·) := by
  have hle := (pairwise_insertionSort (· ≤ ·) ((keysOf value).filterMap s.slotOf.get?)).sublist (dedup_sublist _)
  exact (hle.and (nodup_dedup _)).imp fun h => lt_of_le_of_ne h.1 h.2

theorem get?_file (key : K) : ∀ {keys : List K} {slotOf : SortedMap K ℕ},
    (file slotOf keys slot).get? key = if key ∈ keys then some slot else slotOf.get? key
  | [], _ => by simp [file]
  | other :: keys, slotOf => by
    show (file (slotOf.insert other slot) keys slot).get? key = _
    rw [get?_file key, SortedMap.get?_insert]
    by_cases hmem : key ∈ keys
    · rw [if_pos hmem, if_pos (mem_cons_of_mem _ hmem)]
    · by_cases heq : key = other
      · simp [heq]
      · simp [hmem, heq]

/-- **A value none of whose keys is filed.** -/
theorem read_of_unmatched (hmatched : matched keysOf s value = []) :
    (read keysOf merge later s value).cells = s.cells ++ [some value] ∧
      ∀ key, (read keysOf merge later s value).slotOf.get? key =
        if key ∈ keysOf value then some s.cells.length else s.slotOf.get? key := by
  unfold read
  rw [hmatched]
  dsimp only
  rw [held_append, if_pos rfl]
  exact ⟨rfl, fun key => get?_file key⟩

def gathered (cells : List (Option σ)) (rest : List ℕ) (h value : σ) : σ :=
  later ((rest.filterMap (held cells)).foldl merge h) value

/-- **A value whose keys lead to slots.** -/
theorem read_of_matched (hmatched : matched keysOf s value = keep :: rest) (hheld : held s.cells keep = some h) :
    (read keysOf merge later s value).cells.length = s.cells.length ∧
      (∀ i, held (read keysOf merge later s value).cells i =
        if i = keep then some (gathered merge later s.cells rest h value)
        else if i ∈ rest then none else held s.cells i) ∧ ∀ key, (read keysOf merge later s value).slotOf.get? key =
        if key ∈ keysOf (gathered merge later s.cells rest h value) then some keep else s.slotOf.get? key := by
  have hlt := hmatched ▸ pairwise_matched keysOf s value
  have hkeep : keep ∉ rest := fun hmem => lt_irrefl _ ((pairwise_cons.mp hlt).1 keep hmem)
  have hgather := held_foldl_absorb merge hheld (pairwise_cons.mp hlt).2.nodup hkeep
  have hcells := held_mergeInto later value ((hgather keep).trans (if_pos rfl))
  unfold read
  rw [hmatched]
  dsimp only
  rw [hcells, if_pos rfl]
  refine ⟨by rw [length_mergeInto, length_foldl_absorb], fun i => ?_, fun key => get?_file key⟩
  rw [hcells, hgather]
  split <;> rfl

end Read

end Slots

end Zond

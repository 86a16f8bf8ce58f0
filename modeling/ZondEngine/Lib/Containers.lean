import Mathlib.Data.List.AList
import Mathlib.Algebra.Order.BigOperators.Group.List
import Mathlib.Algebra.Order.Group.Nat
import Mathlib.Algebra.Ring.Nat
import Mathlib.Data.List.MinMax

/-!
# Tables and heaps

A table is Mathlib's `AList`; `weigh` adds up a weight over its values. A `Heap` is any priority queue over lists, and
`Heap.searched` one to evaluate with.
-/

namespace Zond

open List

/-! ## Tables -/

namespace Table

variable {K V : Type}

def weigh (w : V → Nat) (t : AList fun _ : K => V) : Nat := (t.entries.map fun entry => w entry.2).sum

theorem weigh_le {w w' : V → Nat} (h : ∀ v, w v ≤ w' v) (t : AList fun _ : K => V) : weigh w t ≤ weigh w' t :=
  sum_le_sum fun entry _ => h entry.2

theorem weigh_ite (p : V → Prop) [DecidablePred p] (t : AList fun _ : K => V) :
    weigh (fun v => if p v then 1 else 0) t = t.entries.countP fun entry => p entry.2 := by
  unfold weigh
  induction t.entries with
  | nil => rfl
  | cons entry entries ih =>
    rw [map_cons, sum_cons, countP_cons, ih, Nat.add_comm]
    simp

variable [DecidableEq K] {t : AList fun _ : K => V} {key : K} {v : V}

theorem lookup_insert_cases {key' : K} {v' : V} (h : (t.insert key v).lookup key' = some v') :
    key' = key ∧ v' = v ∨ key' ≠ key ∧ t.lookup key' = some v' := by
  by_cases hkey : key' = key
  · rw [hkey, AList.lookup_insert, Option.some_inj] at h
    exact .inl ⟨hkey, h.symm⟩
  · rw [AList.lookup_insert_ne hkey] at h
    exact .inr ⟨hkey, h⟩

theorem lookup_erase_cases {key' : K} {v' : V} (h : (t.erase key).lookup key' = some v') :
    key' ≠ key ∧ t.lookup key' = some v' := by
  by_cases hkey : key' = key
  · rw [hkey, AList.lookup_erase] at h
    cases h
  · rw [AList.lookup_erase_ne hkey] at h
    exact ⟨hkey, h⟩

theorem entries_perm (h : t.lookup key = some v) : t.entries.Perm (⟨key, v⟩ :: (t.erase key).entries) := by
  have hmem : key ∈ t.entries.keys := AList.mem_keys.mpr (AList.lookup_isSome.mp (by rw [h]; rfl))
  obtain ⟨v', before, after, hnot, heq, herase⟩ := exists_of_kerase hmem
  have hv : v' = v := by
    have hin : (⟨key, v'⟩ : Sigma fun _ : K => V) ∈ t.entries := by rw [heq]; simp
    have := AList.mem_lookup_iff.mpr hin
    rw [h] at this
    exact (Option.some_inj.mp this).symm
  subst hv
  show t.entries.Perm (⟨key, v'⟩ :: List.kerase key t.entries)
  rw [herase, heq]
  exact perm_middle

variable (w : V → Nat)

theorem weigh_erase (h : t.lookup key = some v) : weigh w (t.erase key) + w v = weigh w t := by
  rw [weigh, weigh, ((entries_perm h).map _).sum_eq, map_cons, sum_cons, Nat.add_comm]

theorem weigh_insert (h : t.lookup key = none) (v : V) : weigh w (t.insert key v) = weigh w t + w v := by
  rw [weigh, AList.entries_insert_of_notMem (AList.lookup_eq_none.mp h), map_cons, sum_cons, Nat.add_comm, weigh]

theorem weigh_replace (h : t.lookup key = some v) (v' : V) : weigh w (t.insert key v') + w v = weigh w t + w v' := by
  have hins : weigh w (t.insert key v') = w v' + weigh w (t.erase key) := by
    rfl
  rw [hins, ← weigh_erase w h]
  omega

def modify (t : AList fun _ : K => V) (key : K) (default : V) (f : V → V) : AList fun _ : K => V :=
  t.insert key (f ((t.lookup key).getD default))

theorem weigh_modify {default : V} (hdefault : w default = 0) (t : AList fun _ : K => V) (key : K)
    (f : V → V) : weigh w (modify t key default f) + w ((t.lookup key).getD default) =
      weigh w t + w (f ((t.lookup key).getD default)) := by
  unfold modify
  cases h : t.lookup key with
  | none => rw [Option.getD_none, weigh_insert w h, hdefault, Nat.add_zero]
  | some v => exact weigh_replace w h _

theorem le_weigh (h : t.lookup key = some v) : w v ≤ weigh w t := by
  have := weigh_erase w h
  omega

theorem getD_le_weigh {default : V} (hdefault : w default = 0) (t : AList fun _ : K => V) (key : K) :
    w ((t.lookup key).getD default) ≤ weigh w t := by
  cases h : t.lookup key with
  | none => exact hdefault ▸ Nat.zero_le _
  | some v => exact le_weigh w h

def mapValues (f : V → V) (t : AList fun _ : K => V) : AList fun _ : K => V where
  entries := t.entries.map fun entry => ⟨entry.1, f entry.2⟩
  nodupKeys := by
    have h := t.nodupKeys
    unfold List.NodupKeys List.keys at h ⊢
    rwa [map_map]

omit [DecidableEq K] in
theorem weigh_mapValues (w : V → Nat) (f : V → V) (t : AList fun _ : K => V) :
    weigh w (mapValues f t) = weigh (fun v => w (f v)) t := by
  unfold weigh mapValues
  rw [map_map]
  rfl

def retain (p : V → Bool) (t : AList fun _ : K => V) : AList fun _ : K => V where
  entries := t.entries.filter fun entry => p entry.2
  nodupKeys := t.nodupKeys.sublist filter_sublist

omit [DecidableEq K] in
theorem weigh_retain {w : V → Nat} {p : V → Bool} (h : ∀ v, p v = false → w v = 0) (t : AList fun _ : K => V) :
    weigh w (retain p t) = weigh w t := by
  unfold weigh retain
  dsimp only
  induction t.entries with
  | nil => rfl
  | cons entry entries ih =>
    rw [map_cons, sum_cons, ← ih]
    cases hp : p entry.2 with
    | true => rw [filter_cons_of_pos (by simpa using hp), map_cons, sum_cons]
    | false => rw [filter_cons_of_neg (by simp [hp]), h _ hp, Nat.zero_add]

def rekey {K' : Type} [DecidableEq K'] (f : K → K') (t : AList fun _ : K => V) : AList fun _ : K' => V :=
  t.entries.foldl (fun table entry => table.insert (f entry.1) entry.2) ∅

omit [DecidableEq K] in
theorem weigh_rekey {K' : Type} [DecidableEq K'] {f : K → K'} (hf : Function.Injective f) (w : V → Nat)
    (t : AList fun _ : K => V) : weigh w (rekey f t) = weigh w t := by
  have hrun : ∀ (entries : List (Sigma fun _ : K => V)) (table : AList fun _ : K' => V), entries.NodupKeys →
      (∀ entry ∈ entries, table.lookup (f entry.1) = none) →
      weigh w (entries.foldl (fun table entry => table.insert (f entry.1) entry.2) table) =
        weigh w table + (entries.map fun entry => w entry.2).sum := by
    intro entries
    induction entries with
    | nil => intro table _ _; rfl
    | cons entry entries ih =>
      intro table hkeys hfresh
      obtain ⟨hnot, hkeys⟩ := nodupKeys_cons.mp hkeys
      rw [foldl_cons, ih _ hkeys, weigh_insert w (hfresh entry mem_cons_self), map_cons, sum_cons, Nat.add_assoc]
      intro other hother
      have hne : f other.1 ≠ f entry.1 := fun heq => hnot (hf heq ▸ mem_map_of_mem hother)
      rw [AList.lookup_insert_ne hne]
      exact hfresh other (mem_cons_of_mem _ hother)
  rw [rekey, hrun t.entries ∅ t.nodupKeys fun _ _ => AList.lookup_empty _]
  exact Nat.zero_add _

omit [DecidableEq K] in
theorem exists_of_mem_rekey {K' : Type} [DecidableEq K'] {f : K → K'} {t : AList fun _ : K => V}
    {entry : Sigma fun _ : K' => V} (h : entry ∈ (rekey f t).entries) : ∃ old ∈ t.entries, old.2 = entry.2 := by
  have hrun : ∀ (entries : List (Sigma fun _ : K => V)) (table : AList fun _ : K' => V),
      entry ∈ (entries.foldl (fun table old => table.insert (f old.1) old.2) table).entries →
      entry ∈ table.entries ∨ ∃ old ∈ entries, old.2 = entry.2 := by
    intro entries
    induction entries with
    | nil => exact fun table hmem => .inl hmem
    | cons old entries ih =>
      intro table hmem
      rcases ih _ hmem with hmem | ⟨found, hfound, heq⟩
      · rw [AList.entries_insert, mem_cons] at hmem
        rcases hmem with rfl | hmem
        · exact .inr ⟨old, mem_cons_self, rfl⟩
        · exact .inl ((kerase_sublist _ _).subset hmem)
      · exact .inr ⟨found, mem_cons_of_mem _ hfound, heq⟩
  rcases hrun t.entries ∅ h with hmem | hold
  · cases hmem
  · exact hold

theorem mem_keys_iff : key ∈ t.keys ↔ (t.lookup key).isSome = true :=
  AList.mem_keys.symm.trans AList.lookup_isSome.symm

end Table

/-! ## Heaps -/

structure Heap (α : Type) (rank : α → Nat) where
  push : List α → α → List α
  pop : List α → Option (α × List α)
  push_perm : ∀ xs x, (push xs x).Perm (x :: xs)
  pop_none : ∀ xs, pop xs = none → xs = []
  pop_perm : ∀ xs x rest, pop xs = some (x, rest) → xs.Perm (x :: rest)
  pop_least : ∀ xs x rest, pop xs = some (x, rest) → ∀ y ∈ xs, rank x ≤ rank y

theorem Heap.filter_mark {α β : Type} [DecidableEq β] (mark : α → β) {xs : List α}
    (hnodup : (xs.map mark).Nodup) {x : α} (hx : x ∈ xs) : xs.filter (fun y => mark y = mark x) = [x] := by
  induction xs with
  | nil => cases hx
  | cons y ys ih =>
    obtain ⟨hnot, hnodup⟩ := nodup_cons.mp hnodup
    rcases mem_cons.mp hx with rfl | hx
    · rw [filter_cons_of_pos (by simp), filter_eq_nil_iff.mpr]
      intro z hz heq
      exact hnot (mem_map.mpr ⟨z, hz, of_decide_eq_true heq⟩)
    · rw [filter_cons_of_neg, ih hnodup hx]
      intro heq
      exact hnot (mem_map.mpr ⟨x, hx, (of_decide_eq_true heq).symm⟩)

def Heap.searched {α : Type} [DecidableEq α] (rank : α → Nat) : Heap α rank where
  push xs x := xs ++ [x]
  pop xs := (xs.argmin rank).map fun x => (x, xs.erase x)
  push_perm xs x := perm_append_singleton x xs
  pop_none xs h := argmin_eq_none.mp (Option.map_eq_none_iff.mp h)
  pop_perm xs x rest h := by
    obtain ⟨y, hy, heq⟩ := Option.map_eq_some_iff.mp h
    obtain ⟨rfl, rfl⟩ := Prod.mk.inj heq
    exact perm_cons_erase (argmin_mem hy)
  pop_least xs x rest h := by
    obtain ⟨y, hy, heq⟩ := Option.map_eq_some_iff.mp h
    obtain ⟨rfl, rfl⟩ := Prod.mk.inj heq
    intro z hz
    exact le_of_mem_argmin hz hy

end Zond

import ZondEngine.Lib.Sorted

/-!
# Maps of maps

An ordered map of ordered maps, read and written under two keys (`get?₂_insert₂`), and made again from its entries if
none of the inner maps is empty (`foldl_insert₂_flat`).
-/

namespace Zond.SortedMap

open List

variable {K L V W : Type} [LinearOrder K] [LinearOrder L]

/-! ## Mapping the values -/

def map (f : V → W) (m : SortedMap K V) : SortedMap K W :=
  ⟨m.entries.map fun entry => (entry.1, f entry.2), pairwise_map.mpr m.ascending⟩

theorem get?_map (f : V → W) (m : SortedMap K V) (key : K) : (m.map f).get? key = (m.get? key).map f := by
  unfold map get?
  rw [find?_map, Option.map_map, Option.map_map]
  rfl

theorem keys_map (f : V → W) (m : SortedMap K V) : (m.map f).keys = m.keys := by
  unfold map keys
  rw [map_map]
  rfl

theorem keys_eq_of_mem {m : SortedMap K V} {n : SortedMap K W} (h : ∀ key, key ∈ m.keys ↔ key ∈ n.keys) :
    m.keys = n.keys := by
  have hset : m.map (fun _ => ()) = n.map (fun _ => ()) := SortedSet.eq_of_contains fun key => by
    rw [Bool.eq_iff_iff, contains_iff, contains_iff, keys_map, keys_map]
    exact h key
  rw [← keys_map (fun _ => ()) m, hset, keys_map]

theorem insert_insert (m : SortedMap K V) (key : K) (value value' : V) :
    (m.insert key value).insert key value' = m.insert key value' := by
  refine eq_of_get? fun other => ?_
  rw [get?_insert, get?_insert, get?_insert]
  split <;> rfl

/-! ## Two keys -/

variable (m : SortedMap K (SortedMap L V))

def get?₂ (outer : K) (inner : L) : Option V := (m.get? outer).bind (·.get? inner)

def insert₂ (outer : K) (inner : L) (value : V) : SortedMap K (SortedMap L V) :=
  m.insert outer (((m.get? outer).getD empty).insert inner value)

def flat : List (K × L × V) :=
  m.entries.flatMap fun held => held.2.entries.map fun entry => (held.1, entry.1, entry.2)

def Inhabited₂ : Prop := ∀ held ∈ m.entries, held.2.entries ≠ []

theorem get?₂_insert₂ (outer : K) (inner : L) (value : V) (outer' : K) (inner' : L) :
    (m.insert₂ outer inner value).get?₂ outer' inner' =
      if outer' = outer ∧ inner' = inner then some value else m.get?₂ outer' inner' := by
  unfold get?₂ insert₂
  rw [get?_insert]
  by_cases houter : outer' = outer
  · subst houter
    rw [if_pos rfl, Option.bind_some, get?_insert]
    by_cases hinner : inner' = inner
    · rw [if_pos hinner, if_pos ⟨rfl, hinner⟩]
    · rw [if_neg hinner, if_neg fun h => hinner h.2]
      cases m.get? outer' with
      | none => exact get?_empty inner'
      | some held => rfl
  · rw [if_neg houter, if_neg fun h => houter h.1]

theorem insert_ne_nil (m : SortedMap K V) (key : K) (value : V) : (m.insert key value).entries ≠ [] := by
  intro h
  have hget : (m.insert key value).get? key = some value := by rw [get?_insert, if_pos rfl]
  have hmem := get?_eq_some_iff.mp hget
  rw [h] at hmem
  exact not_mem_nil hmem

theorem inhabited₂_insert₂ {m : SortedMap K (SortedMap L V)} (h : m.Inhabited₂) (outer : K) (inner : L) (value : V) :
    (m.insert₂ outer inner value).Inhabited₂ := by
  rintro ⟨key, held⟩ hmem
  have hget := get?_eq_some_iff.mpr hmem
  unfold insert₂ at hget
  rw [get?_insert] at hget
  split at hget
  · cases hget
    exact insert_ne_nil _ _ _
  · exact h _ (get?_eq_some_iff.mp hget)

theorem foldl_insert₂ (outer : K) : ∀ {entries : List (L × V)} {m : SortedMap K (SortedMap L V)}, entries ≠ [] →
    entries.foldl (fun m entry => m.insert₂ outer entry.1 entry.2) m =
      m.insert outer (entries.foldl (fun n entry => n.insert entry.1 entry.2) ((m.get? outer).getD empty))
  | [], _, hne => absurd rfl hne
  | [_], _, _ => rfl
  | first :: second :: rest, m, _ => by
    have hget : ((m.insert₂ outer first.1 first.2).get? outer).getD empty =
        ((m.get? outer).getD empty).insert first.1 first.2 := by
      rw [insert₂, get?_insert, if_pos rfl, Option.getD_some]
    rw [foldl_cons, foldl_insert₂ outer (cons_ne_nil second rest), hget, insert₂, insert_insert]
    rfl

/-- **A map of maps is made again from its entries**, where none of the maps in it is empty. -/
theorem foldl_insert₂_flat {m : SortedMap K (SortedMap L V)} (h : m.Inhabited₂) :
    m.flat.foldl (fun n entry => n.insert₂ entry.1 entry.2.1 entry.2.2) empty = m := by
  unfold flat
  rw [foldl_flatMap]
  refine m.foldl_entries fun n held hheld hnew _ => ?_
  rw [foldl_map, foldl_insert₂ held.1 (h held hheld), hnew]
  exact congrArg (n.insert held.1) (ofList_of_perm (List.Perm.refl _))

end Zond.SortedMap

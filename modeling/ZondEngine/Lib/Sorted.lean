import Mathlib.Order.Lattice
import Mathlib.Data.List.Nodup

/-!
# Ordered maps and sets

Maps and sets as lists of entries in ascending order, which is a field. `get?_insert` and `get?_erase` say what an
update does to a lookup; `foldl_entries` and `foldl_keys` make a map or a set again from what is read front to back.
-/

namespace Zond

open List

theorem view_foldl_concat {σ α : Type} {R : α → α → Prop} (view : σ → List α) (step : σ → α → σ) : ∀ {rest : List α},
    (∀ s, ∀ x ∈ rest, (∀ y ∈ view s, R y x) → view (step s x) = view s ++ [x]) →
    ∀ {s : σ}, (view s ++ rest).Pairwise R → view (rest.foldl step s) = view s ++ rest
  | [], _, _, _ => (append_nil _).symm
  | x :: rest, hstep, s, hpairs => by
    have hview : view (step s x) = view s ++ [x] :=
      hstep s x mem_cons_self fun y hy => (pairwise_append.mp hpairs).2.2 y hy x mem_cons_self
    rw [foldl_cons, view_foldl_concat view step (fun t y hy => hstep t y (mem_cons_of_mem _ hy)), hview,
      append_assoc, singleton_append]
    rwa [hview, append_assoc, singleton_append]

/-! ## Putting a value in its place -/

namespace Ranked

variable {α K : Type} [LinearOrder K] {rank : α → K} {renew : α → α → α} {x : α}

/-- Puts a value in ascending order by rank, or renews the one that has its rank. -/
def put (rank : α → K) (renew : α → α → α) (x : α) : List α → List α
  | [] => [x]
  | held :: rest =>
    if rank held < rank x then held :: put rank renew x rest
    else if rank held = rank x then renew held x :: rest
    else x :: held :: rest

theorem mem_put (hrenew : ∀ held, renew held x = x ∨ renew held x = held) {y : α} : ∀ {held : List α},
    y ∈ put rank renew x held → y = x ∨ y ∈ held
  | [], h => .inl (mem_singleton.mp h)
  | first :: rest, h => by
    unfold put at h
    split at h
    · rcases mem_cons.mp h with rfl | h
      · exact .inr mem_cons_self
      · exact (mem_put hrenew h).imp_right (mem_cons_of_mem _)
    · split at h
      · rcases mem_cons.mp h with rfl | h
        · exact (hrenew first).imp_right fun heq => mem_cons.mpr (.inl heq)
        · exact .inr (mem_cons_of_mem _ h)
      · exact mem_cons.mp h

theorem pairwise_put (hrenew : ∀ held, renew held x = x ∨ renew held x = held) : ∀ {held : List α},
    (held.Pairwise fun a b => rank a < rank b) → (put rank renew x held).Pairwise fun a b => rank a < rank b
  | [], _ => pairwise_singleton _ _
  | first :: rest, h => by
    obtain ⟨hfirst, hrest⟩ := pairwise_cons.mp h
    unfold put
    split
    next hlt =>
      refine pairwise_cons.mpr ⟨fun y hy => ?_, pairwise_put hrenew hrest⟩
      exact (mem_put hrenew hy).elim (fun heq => heq ▸ hlt) (hfirst y)
    next hnlt =>
      split
      next heq =>
        have hrank : rank (renew first x) = rank first := by
          rcases hrenew first with h | h <;> rw [h]
          exact heq.symm
        exact pairwise_cons.mpr ⟨fun y hy => hrank ▸ hfirst y hy, hrest⟩
      next hne =>
        have hlt := lt_of_le_of_ne (not_lt.mp hnlt) (Ne.symm hne)
        exact pairwise_cons.mpr ⟨forall_mem_cons.mpr ⟨hlt, fun y hy => hlt.trans (hfirst y hy)⟩, h⟩

theorem put_of_lt : ∀ {held : List α}, (∀ y ∈ held, rank y < rank x) → put rank renew x held = held ++ [x]
  | [], _ => rfl
  | first :: rest, h => by
    obtain ⟨hfirst, hrest⟩ := forall_mem_cons.mp h
    rw [put, if_pos hfirst, put_of_lt hrest, cons_append]

variable [DecidableEq K]

omit [LinearOrder K] in
theorem find?_cons_rank (rank : α → K) (first : α) (rest : List α) (key : K) :
    (first :: rest).find? (fun y => rank y == key) =
      if rank first = key then some first else rest.find? fun y => rank y == key := by
  rw [find?_cons]
  by_cases h : rank first = key
  · rw [beq_iff_eq.mpr h, if_pos h]
  · rw [beq_eq_false_iff_ne.mpr h, if_neg h]

theorem find?_put (x : α) (key : K) : ∀ held : List α,
    (put rank (fun _ new => new) x held).find? (fun y => rank y == key) =
      if rank x = key then some x else held.find? fun y => rank y == key
  | [] => find?_cons_rank rank x [] key
  | first :: rest => by
    unfold put
    split
    next hlt =>
      rw [find?_cons_rank, find?_put x key rest, find?_cons_rank]
      split
      next hfirst => rw [if_neg fun heq => hlt.ne (hfirst.trans heq.symm)]
      · rfl
    · split
      next hsame =>
        rw [find?_cons_rank, find?_cons_rank, hsame]
        split <;> rfl
      · exact find?_cons_rank rank x (first :: rest) key

end Ranked

structure SortedMap (K V : Type) [LT K] where
  entries : List (K × V)
  ascending : entries.Pairwise fun a b => a.1 < b.1
  deriving DecidableEq

namespace SortedMap

variable {K V : Type} [LinearOrder K]

/-! ## Placing an entry -/

def place (key : K) (value : V) : List (K × V) → List (K × V)
  | [] => [(key, value)]
  | entry :: rest =>
    if key < entry.1 then (key, value) :: entry :: rest
    else if key = entry.1 then (key, value) :: rest
    else entry :: place key value rest

theorem place_eq_put (key : K) (value : V) : ∀ entries : List (K × V),
    place key value entries = Ranked.put Prod.fst (fun _ new => new) (key, value) entries
  | [] => rfl
  | first :: rest => by
    rw [place, Ranked.put, place_eq_put key value rest]
    rcases lt_trichotomy key first.1 with hlt | heq | hgt
    · rw [if_pos hlt, if_neg (lt_asymm hlt), if_neg (ne_of_gt hlt)]
    · simp [heq]
    · rw [if_neg (lt_asymm hgt), if_neg (ne_of_gt hgt), if_pos hgt]

theorem ascending_place (key : K) (value : V) {entries : List (K × V)} (h : entries.Pairwise fun a b => a.1 < b.1) :
    (place key value entries).Pairwise fun a b => a.1 < b.1 :=
  place_eq_put key value entries ▸ Ranked.pairwise_put (fun _ => .inl rfl) h

/-! ## Operations -/

def empty : SortedMap K V := ⟨[], List.Pairwise.nil⟩

variable (m : SortedMap K V) (key : K) (value : V)

def insert : SortedMap K V :=
  ⟨place key value m.entries, ascending_place key value m.ascending⟩

def get? : Option V := (m.entries.find? fun entry => entry.1 == key).map Prod.snd

def contains : Bool := (m.get? key).isSome

def retain (p : K → V → Bool) : SortedMap K V :=
  ⟨m.entries.filter fun entry => p entry.1 entry.2, m.ascending.sublist filter_sublist⟩

def erase : SortedMap K V := m.retain fun other _ => other != key

variable (combine : V → V → V)

def insertWith (m : SortedMap K V) (key : K) (value : V) : SortedMap K V :=
  m.insert key
    (match m.get? key with
    | some held => combine held value
    | none => value)

def mapValues (f : V → V) (m : SortedMap K V) : SortedMap K V :=
  ⟨m.entries.map fun entry => (entry.1, f entry.2), pairwise_map.mpr m.ascending⟩

def len : Nat := m.entries.length

def keys : List K := m.entries.map Prod.fst

def values : List V := m.entries.map Prod.snd

def ofList (entries : List (K × V)) : SortedMap K V := entries.foldl (fun m entry => m.insert entry.1 entry.2) empty

/-! ## Lookups -/

theorem nodup_keys : m.keys.Nodup :=
  (pairwise_map.mpr m.ascending).imp fun h => ne_of_lt h

@[simp] theorem get?_empty : (empty : SortedMap K V).get? key = none := rfl

theorem get?_eq_some_iff {m : SortedMap K V} {key : K} {value : V} :
    m.get? key = some value ↔ (key, value) ∈ m.entries := by
  unfold get?
  rw [Option.map_eq_some_iff]
  constructor
  · rintro ⟨entry, hfind, rfl⟩
    have hkey : entry.1 = key := by simpa using find?_some hfind
    exact hkey ▸ mem_of_find?_eq_some hfind
  · intro hmem
    cases hfind : m.entries.find? fun entry => entry.1 == key with
    | none => exact absurd (find?_eq_none.mp hfind _ hmem) (by simp)
    | some entry =>
      have hkey : entry.1 = key := by simpa using find?_some hfind
      have heq := inj_on_of_nodup_map m.nodup_keys (mem_of_find?_eq_some hfind) hmem hkey
      exact ⟨entry, rfl, by rw [heq]⟩

theorem get?_insert (other : K) :
    (m.insert key value).get? other = if other = key then some value else m.get? other := by
  show ((place key value m.entries).find? fun entry => entry.1 == other).map Prod.snd = _
  rw [place_eq_put, Ranked.find?_put, if_congr eq_comm rfl rfl]
  split <;> rfl

theorem forall_get?_insert {m : SortedMap K V} {key : K} {value : V} {P : K → V → Prop}
    (h : ∀ other held, m.get? other = some held → P other held) (hnew : P key value) :
    ∀ other held, (m.insert key value).get? other = some held → P other held := by
  intro other held hget
  rw [get?_insert] at hget
  split at hget
  next heq => exact heq ▸ Option.some.inj hget ▸ hnew
  · exact h other held hget

theorem get?_erase (key other : K) : (m.erase key).get? other = if other = key then none else m.get? other := by
  have hiff : ∀ value, (m.erase key).get? other = some value ↔ other ≠ key ∧ m.get? other = some value := by
    intro value
    rw [get?_eq_some_iff, get?_eq_some_iff]
    simp only [erase, retain, mem_filter, bne_iff_ne]
    exact and_comm
  apply Option.ext
  intro value
  rw [hiff]
  split
  next heq => exact ⟨fun h => absurd heq h.1, nofun⟩
  next hne => exact ⟨fun h => h.2, fun h => ⟨hne, h⟩⟩

theorem get?_insertWith (m : SortedMap K V) (key : K) (value : V) (other : K) :
    (m.insertWith combine key value).get? other =
      if other = key then some ((m.get? key).elim value (combine · value)) else m.get? other := by
  unfold insertWith
  rw [get?_insert]
  cases m.get? key <;> rfl

theorem get?_foldl_insertWith (combine : V → V → V) (keyOf : V → K) (key : K) (isKey : K → Bool)
    (hkey : ∀ other, isKey other = true ↔ other = key) : ∀ (values : List V) (m : SortedMap K V),
    (values.foldl (fun m value => m.insertWith combine (keyOf value) value) m).get? key =
      (values.filter fun value => isKey (keyOf value)).foldl
        (fun held value => some (held.elim value (combine · value))) (m.get? key)
  | [], _ => rfl
  | value :: rest, m => by
    rw [foldl_cons, get?_foldl_insertWith combine keyOf key isKey hkey rest, get?_insertWith]
    by_cases heq : keyOf value = key
    · rw [filter_cons, if_pos ((hkey _).mpr heq), foldl_cons, if_pos heq.symm, heq]
    · rw [filter_cons, if_neg fun htrue => heq ((hkey _).mp htrue), if_neg (Ne.symm heq)]

theorem mem_values {m : SortedMap K V} {value : V} : value ∈ m.values ↔ ∃ key, m.get? key = some value := by
  unfold values
  rw [mem_map]
  constructor
  · rintro ⟨entry, hentry, rfl⟩
    exact ⟨entry.1, get?_eq_some_iff.mpr hentry⟩
  · rintro ⟨key, hget⟩
    exact ⟨_, get?_eq_some_iff.mp hget, rfl⟩

theorem mem_values_foldl_insertWith {keyOf : V → K} {filed : List V} (hkeys : (filed.map keyOf).Nodup) {value : V} :
    value ∈ (filed.foldl (fun m value => m.insertWith combine (keyOf value) value) empty).values ↔ value ∈ filed := by
  -- Under a key are the values of that key, of which there is at most one.
  have hone : ∀ found ∈ filed, (filed.filter fun other => keyOf other == keyOf found) = [found] := by
    intro found hfound
    have hsplit : ∀ other ∈ filed, keyOf other = keyOf found ↔ other = found :=
      fun other hother => ⟨fun heq => inj_on_of_nodup_map hkeys hother hfound heq, fun heq => heq ▸ rfl⟩
    refine perm_singleton.mp ((perm_ext_iff_of_nodup ?_ (nodup_singleton found)).mpr fun other => ?_)
    · exact (List.Nodup.of_map keyOf hkeys).filter _
    · rw [mem_filter, mem_singleton, beq_iff_eq]
      refine ⟨fun hother => (hsplit other hother.1).mp hother.2, ?_⟩
      rintro rfl
      exact ⟨hfound, rfl⟩
  rw [mem_values]
  simp only [get?_foldl_insertWith combine keyOf _ _ fun _ => beq_iff_eq]
  constructor
  · rintro ⟨key, hget⟩
    cases hcase : filed.filter fun other => keyOf other == key with
    | nil =>
      rw [hcase] at hget
      exact absurd hget (Option.some_ne_none value).symm
    | cons first rest =>
      obtain ⟨hfirst, hkey⟩ := mem_filter.mp (hcase ▸ mem_cons_self : first ∈ filed.filter _)
      rw [← beq_iff_eq.mp hkey, hone first hfirst] at hget
      exact Option.some.inj hget ▸ hfirst
  · intro hmem
    exact ⟨keyOf value, by rw [hone value hmem]; rfl⟩

theorem get?_mapValues (f : V → V) (m : SortedMap K V) (key : K) : (m.mapValues f).get? key = (m.get? key).map f := by
  unfold mapValues get?
  rw [find?_map, Option.map_map, Option.map_map]
  rfl

theorem contains_iff {m : SortedMap K V} {key : K} : m.contains key = true ↔ key ∈ m.keys := by
  unfold contains keys
  rw [Option.isSome_iff_exists, mem_map]
  constructor
  · rintro ⟨value, h⟩
    exact ⟨_, get?_eq_some_iff.mp h, rfl⟩
  · rintro ⟨entry, h, rfl⟩
    exact ⟨entry.2, get?_eq_some_iff.mpr h⟩

theorem mem_keys_insert {m : SortedMap K V} {key other : K} {value : V} :
    other ∈ (m.insert key value).keys ↔ other = key ∨ other ∈ m.keys := by
  rw [← contains_iff, ← contains_iff, contains, contains, get?_insert]
  split
  next heq => simp [heq]
  next hne => simp [hne]

/-! ## Sizes -/

theorem nodup_entries : m.entries.Nodup := List.Nodup.of_map Prod.fst m.nodup_keys

theorem get?_eq_none_iff {m : SortedMap K V} {key : K} : m.get? key = none ↔ key ∉ m.keys := by
  rw [← contains_iff, contains, Bool.not_eq_true, Option.isSome_eq_false_iff, Option.isNone_iff_eq_none]

theorem perm_erase {m : SortedMap K V} {key : K} {value : V} (h : m.get? key = some value) :
    m.entries.Perm ((key, value) :: (m.erase key).entries) := by
  have hnew : (key, value) ∉ (m.erase key).entries := by
    rw [← get?_eq_some_iff, get?_erase, if_pos rfl]
    nofun
  rw [perm_ext_iff_of_nodup m.nodup_entries (nodup_cons.mpr ⟨hnew, nodup_entries _⟩)]
  rintro ⟨other, held⟩
  rw [mem_cons, ← get?_eq_some_iff, ← get?_eq_some_iff, get?_erase, Prod.mk.injEq]
  split
  next heq =>
    subst heq
    rw [h]
    simp [eq_comm]
  next hne => simp [hne]

theorem erase_of_get?_eq_none {m : SortedMap K V} {key : K} (h : m.get? key = none) :
    (m.erase key).entries = m.entries := by
  refine filter_eq_self.mpr fun entry hentry => bne_iff_ne.mpr ?_
  rintro rfl
  exact get?_eq_none_iff.mp h (mem_map_of_mem hentry)

theorem filter_key {key : K} {isKey : K → Bool} (hkey : ∀ other, isKey other = true ↔ other = key) :
    m.entries.filter (fun entry => isKey entry.1) = (m.get? key).toList.map (key, ·) := by
  cases hget : m.get? key with
  | none =>
    refine filter_eq_nil_iff.mpr fun entry hentry hsame => get?_eq_none_iff.mp hget ?_
    exact (hkey _).mp hsame ▸ mem_map_of_mem hentry
  | some value =>
    have hrest : (m.erase key).entries.filter (fun entry => isKey entry.1) = [] := by
      refine filter_eq_nil_iff.mpr fun entry hentry hsame => ?_
      exact bne_iff_ne.mp (mem_filter.mp hentry).2 ((hkey _).mp hsame)
    have hperm := (perm_erase hget).filter fun entry => isKey entry.1
    rw [filter_cons, if_pos (show isKey (key, value).1 = true from (hkey key).mpr rfl), hrest] at hperm
    exact perm_singleton.mp hperm

theorem perm_insert : (m.insert key value).entries.Perm ((key, value) :: (m.erase key).entries) := by
  have herase : ((m.insert key value).erase key).entries.Perm (m.erase key).entries := by
    rw [perm_ext_iff_of_nodup (nodup_entries _) (nodup_entries _)]
    rintro ⟨other, held⟩
    rw [← get?_eq_some_iff, ← get?_eq_some_iff, get?_erase, get?_erase, get?_insert]
    split <;> rfl
  exact (perm_erase (by rw [get?_insert, if_pos rfl])).trans (herase.cons _)

theorem countP_insert (q : V → Bool) (m : SortedMap K V) (key : K) (value : V) :
    (m.insert key value).values.countP q + (m.get? key).toList.countP q = m.values.countP q + [value].countP q := by
  have hnew := ((perm_insert m key value).map Prod.snd).countP_eq q
  rw [map_cons, countP_cons] at hnew
  unfold values
  rw [hnew]
  cases hget : m.get? key with
  | none =>
    rw [erase_of_get?_eq_none hget]
    simp
  | some held =>
    have hheld := ((perm_erase hget).map Prod.snd).countP_eq q
    rw [map_cons, countP_cons] at hheld
    rw [hheld]
    simp only [Option.toList_some, countP_cons, countP_nil]
    omega

theorem len_eq_countP : m.len = m.values.countP fun _ => true := by
  rw [countP_true, values, length_map, len]

theorem len_insert : (m.insert key value).len = if (m.get? key).isSome then m.len else m.len + 1 := by
  have hcount := countP_insert (fun _ => true) m key value
  rw [← len_eq_countP, ← len_eq_countP] at hcount
  cases hget : m.get? key with
  | none => simpa [hget] using hcount
  | some held => simpa [hget] using hcount

theorem get?_of_get?_retain {m : SortedMap K V} {p : K → V → Bool} {key : K} {value : V}
    (h : (m.retain p).get? key = some value) : m.get? key = some value :=
  get?_eq_some_iff.mpr (mem_filter.mp (get?_eq_some_iff.mp h)).1

theorem len_retain_le (p : K → V → Bool) : (m.retain p).len ≤ m.len := length_filter_le _ _

theorem len_erase {m : SortedMap K V} {key : K} (h : m.contains key = true) : (m.erase key).len + 1 = m.len := by
  obtain ⟨value, hvalue⟩ := Option.isSome_iff_exists.mp h
  have hlen := (perm_erase hvalue).length_eq
  exact hlen.symm

/-! ## Building a map anew -/

theorem eq_of_entries : ∀ {m n : SortedMap K V}, m.entries = n.entries → m = n
  | ⟨_, _⟩, ⟨_, _⟩, rfl => rfl

theorem eq_of_get? {m n : SortedMap K V} (h : ∀ key, m.get? key = n.get? key) : m = n := by
  have hperm : m.entries.Perm n.entries := by
    rw [perm_ext_iff_of_nodup m.nodup_entries n.nodup_entries]
    rintro ⟨key, value⟩
    rw [← get?_eq_some_iff, ← get?_eq_some_iff, h]
  refine eq_of_entries (hperm.eq_of_pairwise (fun a b _ _ hab hba => ?_) m.ascending n.ascending)
  exact absurd hab (lt_asymm hba)

theorem get?_foldl_insert {key : K} {value : V} : ∀ {entries : List (K × V)} {m : SortedMap K V},
    (entries.map Prod.fst).Nodup → ((entries.foldl (fun m entry => m.insert entry.1 entry.2) m).get? key = some value ↔
      (key, value) ∈ entries ∨ key ∉ entries.map Prod.fst ∧ m.get? key = some value)
  | [], _, _ => by simp
  | (first, held) :: rest, m, hnodup => by
    rw [map_cons, nodup_cons] at hnodup
    rw [foldl_cons, get?_foldl_insert hnodup.2, get?_insert]
    by_cases hkey : key = first
    · subst hkey
      have hout : (key, value) ∉ rest := fun hmem => hnodup.1 (mem_map.mpr ⟨_, hmem, rfl⟩)
      simp [hnodup.1, hout, eq_comm]
    · simp [hkey]

theorem ofList_of_perm {entries : List (K × V)} {m : SortedMap K V} (hperm : entries.Perm m.entries) :
    ofList entries = m := by
  have hnodup : (entries.map Prod.fst).Nodup := (hperm.map Prod.fst).nodup_iff.mpr m.nodup_keys
  refine eq_of_get? fun key => Option.ext fun value => ?_
  rw [ofList, get?_foldl_insert hnodup, hperm.mem_iff, ← get?_eq_some_iff]
  simp

theorem foldl_entries {step : SortedMap K V → K × V → SortedMap K V} (m : SortedMap K V)
    (hstep : ∀ n : SortedMap K V, ∀ entry ∈ m.entries, n.get? entry.1 = none → n.len < m.len →
      step n entry = n.insert entry.1 entry.2) : m.entries.foldl step empty = m := by
  have hrun : ∀ (rest : List (K × V)) (n : SortedMap K V), n.entries ++ rest = m.entries → rest.foldl step n = m := by
    intro rest
    induction rest with
    | nil =>
      intro n hn
      exact eq_of_entries (by rwa [append_nil] at hn)
    | cons entry rest ih =>
      intro n hn
      have hbefore : ∀ other ∈ n.entries, other.1 < entry.1 := by
        intro other hother
        have hpairs := m.ascending
        rw [← hn] at hpairs
        exact (pairwise_append.mp hpairs).2.2 other hother entry mem_cons_self
      have hnew : n.get? entry.1 = none := by
        refine get?_eq_none_iff.mpr fun hmem => ?_
        obtain ⟨other, hother, hkey⟩ := mem_map.mp hmem
        exact lt_irrefl _ (hkey ▸ hbefore other hother)
      have hroom : n.len < m.len := by
        unfold len
        rw [← hn, length_append, length_cons]
        omega
      have hmem : entry ∈ m.entries := hn ▸ mem_append_right _ mem_cons_self
      rw [foldl_cons, hstep n entry hmem hnew hroom]
      refine ih _ ?_
      show place entry.1 entry.2 n.entries ++ rest = m.entries
      rw [place_eq_put, Ranked.put_of_lt hbefore, append_assoc]
      exact hn
  exact hrun m.entries empty rfl

theorem values_mapValues (f : V → V) (m : SortedMap K V) : (m.mapValues f).values = m.values.map f := by
  unfold values mapValues
  rw [map_map, map_map]
  rfl

theorem foldl_values {step : SortedMap K V → V → SortedMap K V} {keyOf : V → K} (m : SortedMap K V)
    (hfiled : ∀ key value, m.get? key = some value → keyOf value = key)
    (hstep : ∀ n : SortedMap K V, ∀ value ∈ m.values, n.get? (keyOf value) = none → n.len < m.len →
      step n value = n.insert (keyOf value) value) : m.values.foldl step empty = m := by
  unfold values
  rw [foldl_map]
  refine m.foldl_entries fun n entry hentry hnew hroom => ?_
  have hkey := hfiled entry.1 entry.2 (get?_eq_some_iff.mpr hentry)
  rw [hstep n entry.2 (mem_map_of_mem hentry) (hkey ▸ hnew) hroom, hkey]

end SortedMap

/-! ## Sets -/

abbrev SortedSet (K : Type) [LT K] := SortedMap K Unit

namespace SortedSet

variable {K : Type} [LinearOrder K]

def add (s : SortedSet K) (key : K) : SortedSet K := s.insert key ()

def collect (keys : List K) : SortedSet K := keys.foldl add SortedMap.empty

def difference (s t : SortedSet K) : List K := s.keys.filter fun key => !t.contains key

variable {s : SortedSet K}

theorem contains_add {key other : K} : (s.add key).contains other = true ↔ other = key ∨ s.contains other = true := by
  unfold add SortedMap.contains
  rw [SortedMap.get?_insert]
  split
  next h => simp [h]
  next h => simp [h]

theorem contains_foldl_add {key : K} : ∀ {rest : List K} {s : SortedSet K},
    (rest.foldl add s).contains key = true ↔ key ∈ rest ∨ s.contains key = true
  | [], _ => ⟨.inr, fun h => h.resolve_left not_mem_nil⟩
  | first :: rest, s => by
    rw [foldl_cons, contains_foldl_add, contains_add, mem_cons, or_assoc, or_left_comm]

theorem contains_collect {keys : List K} {key : K} : (collect keys).contains key = true ↔ key ∈ keys := by
  unfold collect
  rw [contains_foldl_add]
  exact or_iff_left Bool.false_ne_true

theorem len_eq_zero_iff : s.len = 0 ↔ ∀ key, s.contains key = false := by
  unfold SortedMap.len
  rw [length_eq_zero_iff]
  constructor
  · intro hnil key
    rw [Bool.eq_false_iff, Ne, SortedMap.contains_iff, SortedMap.keys, hnil]
    exact not_mem_nil
  · intro hnone
    refine eq_nil_iff_forall_not_mem.mpr fun entry hentry => ?_
    exact Bool.false_ne_true ((hnone entry.1).symm.trans (SortedMap.contains_iff.mpr (mem_map_of_mem hentry)))

theorem contains_erase_of_ne {key other : K} (h : other ≠ key) : (s.erase key).contains other = s.contains other := by
  unfold SortedMap.contains
  rw [SortedMap.get?_erase, if_neg h]

theorem eq_of_contains {s t : SortedSet K} (h : ∀ key, s.contains key = t.contains key) : s = t := by
  refine SortedMap.eq_of_get? fun key => ?_
  have hkey := h key
  unfold SortedMap.contains at hkey
  cases hs : s.get? key with
  | none =>
    cases ht : t.get? key with
    | none => rfl
    | some held => rw [hs, ht] at hkey; exact Bool.noConfusion hkey
  | some held =>
    cases ht : t.get? key with
    | none => rw [hs, ht] at hkey; exact Bool.noConfusion hkey
    | some other => rfl

theorem add_of_contains {key : K} (h : s.contains key = true) : s.add key = s := by
  refine eq_of_contains fun other => ?_
  rw [Bool.eq_iff_iff, contains_add]
  exact ⟨fun hother => hother.elim (fun heq => heq ▸ h) fun hheld => hheld, .inr⟩

theorem foldl_keys {step : SortedSet K → K → SortedSet K} (s : SortedSet K)
    (hstep : ∀ t : SortedSet K, ∀ key ∈ s.keys, t.contains key = false → t.len < s.len → step t key = t.add key) :
    s.keys.foldl step SortedMap.empty = s := by
  unfold SortedMap.keys
  rw [foldl_map]
  refine s.foldl_entries fun t entry hentry hnew hroom => ?_
  exact hstep t entry.1 (mem_map_of_mem hentry) (by rw [SortedMap.contains, hnew]; rfl) hroom

theorem difference_self (s : SortedSet K) : difference s s = [] := by
  unfold difference
  rw [filter_eq_nil_iff]
  intro key hkey
  rw [SortedMap.contains_iff.mpr hkey]
  exact Bool.false_ne_true

end SortedSet

end Zond

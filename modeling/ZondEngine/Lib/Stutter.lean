import Mathlib.Data.List.Destutter

/-!
# Removing neighbours of one key

Removing an element whose key is that of the element before it leaves each key once exactly when no key comes back after
another (`nodup_destutter_iff`, and `nodup_map_destutter_iff` for a list sorted by something else).
-/

namespace Zond.Stutter

open List

variable {α K : Type}

/-! ## A list of keys -/

theorem returns_cons_self {a : K} {rest : List K}
    (h : ∀ x y, [x, y, x].Sublist (a :: rest) → y = x) : ∀ x y, [x, y, x].Sublist (a :: a :: rest) → y = x := by
  intro x y hsub
  cases hsub with
  | cons _ hsub => exact h x y hsub
  | cons_cons _ hsub =>
    cases hsub with
    | cons _ hsub => exact h _ y (hsub.cons_cons _)
    | cons_cons _ _ => rfl

variable [DecidableEq K]

theorem mem_destutter_ne {k : K} : ∀ {ks : List K}, k ∈ ks.destutter (· ≠ ·) ↔ k ∈ ks
  | [] => Iff.rfl
  | [_] => Iff.rfl
  | a :: b :: rest => by
    have ih : k ∈ (b :: rest).destutter (· ≠ ·) ↔ k ∈ b :: rest := mem_destutter_ne
    rw [destutter_cons'] at ih
    rw [destutter_cons_cons]
    by_cases hab : a = b
    · subst hab
      rw [if_neg (not_not.mpr rfl), ih]
      simp only [mem_cons, or_self_left]
    · rw [if_pos hab, mem_cons, ih]
      exact mem_cons.symm

/-- **Keys are left once each exactly when none comes back after another.** -/
theorem nodup_destutter_iff : ∀ {ks : List K},
    (ks.destutter (· ≠ ·)).Nodup ↔ ∀ x y, [x, y, x].Sublist ks → y = x
  | [] => iff_of_true nodup_nil fun _ _ h => by cases h
  | [a] => iff_of_true (nodup_singleton a) fun x y h => by
    have hlen := h.length_le
    simp at hlen
  | a :: b :: rest => by
    have ih : ((b :: rest).destutter (· ≠ ·)).Nodup ↔ ∀ x y, [x, y, x].Sublist (b :: rest) → y = x :=
      nodup_destutter_iff
    rw [destutter_cons'] at ih
    rw [destutter_cons_cons]
    by_cases hab : a = b
    · subst hab
      rw [if_neg (not_not.mpr rfl), ih]
      exact ⟨returns_cons_self, fun h x y hsub => h x y (hsub.cons a)⟩
    · have hmem : a ∈ List.destutter' (· ≠ ·) b rest ↔ a ∈ b :: rest := by
        rw [← destutter_cons', mem_destutter_ne]
      rw [if_pos hab, nodup_cons, ih, hmem]
      constructor
      · rintro ⟨hnew, hrest⟩ x y hsub
        cases hsub with
        | cons _ hsub => exact hrest x y hsub
        | cons_cons _ hsub => exact absurd (hsub.subset (by simp)) hnew
      · intro h
        refine ⟨fun hin => ?_, fun x y hsub => h x y (hsub.cons a)⟩
        rcases mem_cons.mp hin with heq | hin
        · exact hab heq
        · -- the key is back behind its neighbour
          exact hab (h a b ((singleton_sublist.mpr hin).cons_cons b |>.cons_cons a)).symm

section Sorted

variable {le : α → α → Prop} {l : List α}

theorem pair_sublist (hrefl : ∀ a, le a a) : ∀ {l : List α}, l.Pairwise le → ∀ {a b : α}, a ∈ l → b ∈ l → ¬ le b a →
    [a, b].Sublist l
  | [], _, _, _, ha, _, _ => absurd ha not_mem_nil
  | first :: rest, hsorted, a, b, ha, hb, hnot => by
    obtain ⟨hfirst, hrest⟩ := pairwise_cons.mp hsorted
    rcases mem_cons.mp ha with rfl | hina
    · rcases mem_cons.mp hb with rfl | hinb
      · exact absurd (hrefl b) hnot
      · exact (singleton_sublist.mpr hinb).cons_cons a
    · rcases mem_cons.mp hb with rfl | hinb
      · exact absurd (hfirst a hina) hnot
      · exact (pair_sublist hrefl hrest hina hinb hnot).cons first

theorem triple_sublist (hrefl : ∀ a, le a a) : ∀ {l : List α}, l.Pairwise le → ∀ {a b c : α}, a ∈ l → b ∈ l → c ∈ l →
    ¬ le b a → ¬ le c b → [a, b, c].Sublist l
  | [], _, _, _, _, ha, _, _, _, _ => absurd ha not_mem_nil
  | first :: rest, hsorted, a, b, c, ha, hb, hc, hab, hbc => by
    obtain ⟨hfirst, hrest⟩ := pairwise_cons.mp hsorted
    rcases mem_cons.mp hc with rfl | hinc
    · rcases mem_cons.mp hb with rfl | hinb
      · exact absurd (hrefl b) hbc
      · exact absurd (hfirst b hinb) hbc
    · rcases mem_cons.mp ha with rfl | hina
      · rcases mem_cons.mp hb with rfl | hinb
        · exact absurd (hrefl b) hab
        · exact (pair_sublist hrefl hrest hinb hinc hbc).cons_cons a
      · rcases mem_cons.mp hb with rfl | hinb
        · exact absurd (hfirst a hina) hab
        · exact (triple_sublist hrefl hrest hina hinb hinc hab hbc).cons first

/-- **Removing neighbours of one key from a sorted list leaves each key once exactly when no other
key is in order between two of one key.** -/
theorem nodup_map_destutter_iff (key : α → K) (hrefl : ∀ a, le a a)
    (hkey : ∀ a b, le a b → le b a → key a = key b) (hsorted : l.Pairwise le) :
    ((l.destutter fun a b => key a ≠ key b).map key).Nodup ↔
      ∀ a ∈ l, ∀ b ∈ l, ∀ c ∈ l, key a = key c → le a b → le b c → key b = key a := by
  have hmap : (l.destutter fun a b => key a ≠ key b).map key = (l.map key).destutter (· ≠ ·) :=
    map_destutter fun _ _ _ _ => Iff.rfl
  rw [hmap, nodup_destutter_iff]
  constructor
  · intro h a ha b hb c hc hac hab hbc
    by_contra hne
    have hba : ¬ le b a := fun hba => hne (hkey b a hba hab)
    have hcb : ¬ le c b := fun hcb => hne ((hkey b c hbc hcb).trans hac.symm)
    have hsub := (triple_sublist hrefl hsorted ha hb hc hba hcb).map key
    simp only [map_cons, map_nil, ← hac] at hsub
    exact hne (h _ _ hsub)
  · intro h x y hsub
    obtain ⟨found, hfound, heq⟩ := sublist_map_iff.mp hsub
    obtain ⟨a, b, c, rfl⟩ : ∃ a b c, found = [a, b, c] := by
      have hlen := congrArg List.length heq
      rw [length_map] at hlen
      exact length_eq_three.mp hlen.symm
    simp only [map_cons, map_nil, List.cons.injEq, and_true] at heq
    obtain ⟨rfl, rfl, hc⟩ := heq
    have horder := hsorted.sublist hfound
    simp only [pairwise_cons, mem_cons, not_mem_nil, or_false, forall_eq_or_imp, forall_eq] at horder
    exact h a (hfound.subset (by simp)) b (hfound.subset (by simp)) c (hfound.subset (by simp)) hc horder.1.1 horder.2.1

end Sorted

end Zond.Stutter

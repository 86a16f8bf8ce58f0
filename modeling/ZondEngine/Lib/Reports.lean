import Mathlib.Order.Nat

/-!
# Changes that report themselves

A step `Reports` a change where it comes to that change and raises the flag exactly where the change is one. Two steps
do where the second cannot undo the first (`Reports.andThen`, `Reports.part`, `Reports.foldl`).
-/

namespace Zond

structure Lens (σ β : Type) where
  get : σ → β
  set : β → σ → σ
  get_set : ∀ part s, get (set part s) = part := by intros; rfl
  set_get : ∀ s, set (get s) s = s := by intros; rfl
  set_set : ∀ part part' s, set part (set part' s) = set part s := by intros; rfl

namespace Lens

variable {σ β : Type} (A : Lens σ β)

def modify (change : β → β) (s : σ) : σ := A.set (change (A.get s)) s

variable {A}

theorem get_modify (change : β → β) (s : σ) : A.get (A.modify change s) = change (A.get s) := A.get_set _ s

theorem modify_eq_self_iff {change : β → β} {s : σ} : A.modify change s = s ↔ change (A.get s) = A.get s := by
  constructor
  · intro h
    rw [← get_modify change s, h]
  · intro h
    unfold modify
    rw [h, A.set_get]

theorem modify_modify (change change' : β → β) (s : σ) :
    A.modify change' (A.modify change s) = A.modify (change' ∘ change) s := by
  unfold modify
  rw [A.get_set, A.set_set]
  rfl

end Lens

section Reports

variable {σ : Type} [DecidableEq σ]

def Reports (step : σ × Bool → σ × Bool) (change : σ → σ) : Prop :=
  ∀ s, step s = (change s.1, s.2 || decide (change s.1 ≠ s.1))

variable {step rest : σ × Bool → σ × Bool} {change further : σ → σ}

theorem Reports.nothing : Reports (fun s : σ × Bool => s) fun s => s := by
  intro s
  simp

theorem Reports.fresh (h : Reports step change) {s s' : σ} (hs : change s = s') :
    step (s, false) = (s', decide (s' ≠ s)) := by
  rw [h, hs, Bool.false_or]

theorem Reports.andThen (h : Reports step change) (h' : Reports rest further)
    (hkept : ∀ s, further (change s) = s → change s = s) :
    Reports (fun s => rest (step s)) fun s => further (change s) := by
  intro s
  dsimp only
  rw [h s, h' _, Bool.or_assoc]
  refine congrArg (fun flag => (further (change s.1), s.2 || flag)) ?_
  rw [Bool.eq_iff_iff, Bool.or_eq_true, decide_eq_true_iff, decide_eq_true_iff, decide_eq_true_iff]
  constructor
  · rintro (hfirst | hsecond) hboth
    · exact hfirst (hkept s.1 hboth)
    · exact hsecond (hboth.trans (hkept s.1 hboth).symm)
  · intro hboth
    by_cases hfirst : change s.1 = s.1
    · exact .inr fun hsecond => hboth (hsecond.trans hfirst)
    · exact .inl hfirst

theorem Reports.part {β : Type} {A : Lens σ β} {update : β → β} (h : Reports step (A.modify update))
    (h' : Reports rest further) (hleaves : ∀ s, A.get (further s) = A.get s) :
    Reports (fun s => rest (step s)) fun s => further (A.modify update s) := by
  refine h.andThen h' fun s hboth => ?_
  have hpart := congrArg A.get hboth
  rw [hleaves, Lens.get_modify] at hpart
  exact Lens.modify_eq_self_iff.mpr hpart

theorem Reports.foldl {ι β : Type} {A : Lens σ β} {steps : σ × Bool → ι → σ × Bool} {updates : β → ι → β}
    (size : β → Nat) (hone : ∀ i, Reports (fun s => steps s i) (A.modify fun part => updates part i))
    (hgrows : ∀ i part, updates part i ≠ part → size part < size (updates part i)) :
    ∀ is : List ι, Reports (fun s => is.foldl steps s) (A.modify fun part => is.foldl updates part)
  | [] => fun s => by
    have hsame : A.modify (fun part => part) s.1 = s.1 := Lens.modify_eq_self_iff.mpr rfl
    simp [hsame]
  | i :: is => by
    have hsize : ∀ (is : List ι) (part : β), size part ≤ size (is.foldl updates part) := fun is part =>
      List.foldlRecOn (motive := fun reached => size part ≤ size reached) is updates le_rfl fun reached hle j _ => by
        by_cases hsame : updates reached j = reached
        · rw [hsame]
          exact hle
        · exact hle.trans (hgrows j reached hsame).le
    have hboth := (hone i).andThen (Reports.foldl size hone hgrows is) fun s heq => by
      rw [Lens.modify_modify] at heq
      refine Lens.modify_eq_self_iff.mpr (by_contra fun hmoved => ?_)
      -- The part is larger than it was, and no later change makes it smaller.
      have hpart : is.foldl updates (updates (A.get s) i) = A.get s := Lens.modify_eq_self_iff.mp heq
      have hlarger := (hgrows i (A.get s) hmoved).trans_le (hsize is _)
      rw [hpart] at hlarger
      exact lt_irrefl _ hlarger
    intro s
    rw [← show A.modify (fun part => is.foldl updates part) (A.modify (fun part => updates part i) s.1) =
      A.modify (fun part => (i :: is).foldl updates part) s.1 from Lens.modify_modify _ _ s.1]
    exact hboth s

end Reports

end Zond

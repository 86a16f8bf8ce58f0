
/-!
# Feistel networks over an arbitrary round function

A round swaps two halves and mixes one into the other by an operation that undoes itself, so any list of rounds can be
undone (`unrounds_rounds`, `rounds_unrounds`).
-/

namespace Zond.Feistel

open List

variable {α ι : Type} (op : α → α → α) (f : ι → α → α)

def round (i : ι) (x : α × α) : α × α := (x.2, op x.1 (f i x.2))

def unround (i : ι) (x : α × α) : α × α := (op x.2 (f i x.1), x.1)

def rounds (is : List ι) (x : α × α) : α × α := is.foldl (fun x i => round op f i x) x

def unrounds (is : List ι) (x : α × α) : α × α := is.reverse.foldl (fun x i => unround op f i x) x

section Inverse

variable {op} (hop : ∀ a b, op (op a b) b = a)
include hop

theorem unround_round (i : ι) (x : α × α) : unround op f i (round op f i x) = x := by
  simp only [unround, round, hop]

theorem round_unround (i : ι) (x : α × α) : round op f i (unround op f i x) = x := by
  simp only [unround, round, hop]

theorem unrounds_rounds (is : List ι) (x : α × α) : unrounds op f is (rounds op f is x) = x := by
  induction is generalizing x with
  | nil => rfl
  | cons i is ih =>
    have h := ih (round op f i x)
    simp only [unrounds, rounds, reverse_cons, foldl_cons, foldl_append, foldl_nil] at h ⊢
    rw [h]
    exact unround_round f hop i x

theorem rounds_unrounds (is : List ι) (x : α × α) : rounds op f is (unrounds op f is x) = x := by
  induction is generalizing x with
  | nil => rfl
  | cons i is ih =>
    simp only [unrounds, rounds, reverse_cons, foldl_cons, foldl_append, foldl_nil] at ih ⊢
    rw [round_unround f hop i]
    exact ih x

end Inverse

section Inside

variable {op f} {P : α → Prop} (hP : ∀ i a b, P a → P (op a (f i b)))
include hP

theorem round_inside (i : ι) {x : α × α} (h : P x.1 ∧ P x.2) : P (round op f i x).1 ∧ P (round op f i x).2 :=
  ⟨h.2, hP i _ _ h.1⟩

theorem unround_inside (i : ι) {x : α × α} (h : P x.1 ∧ P x.2) : P (unround op f i x).1 ∧ P (unround op f i x).2 :=
  ⟨hP i _ _ h.2, h.1⟩

theorem rounds_inside (is : List ι) {x : α × α} (h : P x.1 ∧ P x.2) :
    P (rounds op f is x).1 ∧ P (rounds op f is x).2 := by
  induction is generalizing x with
  | nil => exact h
  | cons i is ih => exact ih (round_inside hP i h)

theorem unrounds_inside (is : List ι) {x : α × α} (h : P x.1 ∧ P x.2) :
    P (unrounds op f is x).1 ∧ P (unrounds op f is x).2 := by
  unfold unrounds
  generalize is.reverse = js
  induction js generalizing x with
  | nil => exact h
  | cons i is ih => exact ih (unround_inside hP i h)

end Inside

end Zond.Feistel

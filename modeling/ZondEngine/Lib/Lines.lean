import Mathlib.Data.List.Basic

/-!
# Lines

A list is cut into lines, each of which ends with a terminator, but for the last. A list that is nothing or ends with a
terminator is `Whole`: the lines of what follows it are lines of their own (`lines_append`).
-/

namespace Zond.Lines

open List

variable {α : Type} [DecidableEq α] {sep : α} {xs ys : List α}

def cut (sep : α) : List α → List α × List α
  | [] => ([], [])
  | a :: xs => if a = sep then ([a], xs) else (a :: (cut sep xs).1, (cut sep xs).2)

def lines (sep : α) : List α → List (List α)
  | [] => []
  | a :: xs => if a = sep then [a] :: lines sep xs else
      match lines sep xs with
      | [] => [[a]]
      | line :: rest => (a :: line) :: rest

def Whole (sep : α) (xs : List α) : Prop := ∀ a ∈ xs.getLast?, a = sep

omit [DecidableEq α] in
theorem Whole.getLast? (h : Whole sep xs) (hne : xs ≠ []) : xs.getLast? = some sep := by
  have hlast := getLast?_eq_getLast_of_ne_nil hne
  rw [hlast]
  exact congrArg some (h _ hlast)

omit [DecidableEq α] in
theorem Whole.mem (h : Whole sep xs) (hne : xs ≠ []) : sep ∈ xs := mem_of_getLast? (h.getLast? hne)

theorem cut_append (sep : α) (xs : List α) : (cut sep xs).1 ++ (cut sep xs).2 = xs := by
  induction xs with
  | nil => rfl
  | cons a xs ih =>
    rw [cut]
    split
    · rfl
    · exact congrArg (a :: ·) ih

theorem cut_take (sep : α) (n : Nat) (xs : List α) : (cut sep (xs.take n)).1 = (cut sep xs).1.take n := by
  induction xs generalizing n with
  | nil => simp [cut]
  | cons a xs ih =>
    cases n with
    | zero => simp [cut]
    | succ n =>
      rw [take_succ_cons, cut, cut]
      split
      · simp
      · rw [take_succ_cons, ih]

theorem lines_eq_cut (hne : xs ≠ []) : lines sep xs = (cut sep xs).1 :: lines sep (cut sep xs).2 := by
  induction xs with
  | nil => exact absurd rfl hne
  | cons a xs ih =>
    rw [lines, cut]
    split
    · rfl
    · cases xs with
      | nil => rfl
      | cons b xs => rw [ih (cons_ne_nil b xs)]

theorem cut_ne_nil (hne : xs ≠ []) : (cut sep xs).1 ≠ [] := by
  cases xs with
  | nil => exact absurd rfl hne
  | cons a xs =>
    rw [cut]
    split <;> exact cons_ne_nil _ _

theorem cut_of_not_mem (h : sep ∉ xs) : cut sep xs = (xs, []) := by
  induction xs with
  | nil => rfl
  | cons a xs ih =>
    have hne : a ≠ sep := fun heq => h (heq ▸ mem_cons_self)
    rw [cut, if_neg hne, ih fun hmem => h (mem_cons_of_mem a hmem)]

theorem cut_terminated (h : sep ∉ xs) (ys : List α) : cut sep (xs ++ sep :: ys) = (xs ++ [sep], ys) := by
  induction xs with
  | nil => rw [nil_append, cut, if_pos rfl, nil_append]
  | cons a xs ih =>
    have hne : a ≠ sep := fun heq => h (heq ▸ mem_cons_self)
    rw [cons_append, cut, if_neg hne, ih fun hmem => h (mem_cons_of_mem a hmem), cons_append]

theorem cut_cases (sep : α) (xs : List α) :
    (∃ line, (cut sep xs).1 = line ++ [sep] ∧ sep ∉ line) ∨ sep ∉ xs ∧ cut sep xs = (xs, []) := by
  by_cases hmem : sep ∈ xs
  · obtain ⟨line, rest, rfl, hline⟩ := eq_append_cons_of_mem hmem
    exact .inl ⟨line, by rw [cut_terminated hline], hline⟩
  · exact .inr ⟨hmem, cut_of_not_mem hmem⟩

theorem lines_of_not_mem (hne : xs ≠ []) (h : sep ∉ xs) : lines sep xs = [xs] := by
  rw [lines_eq_cut hne, cut_of_not_mem h]
  rfl

theorem lines_terminated (h : sep ∉ xs) (ys : List α) :
    lines sep (xs ++ sep :: ys) = (xs ++ [sep]) :: lines sep ys := by
  rw [lines_eq_cut (by simp), cut_terminated h]

/-- **What follows whole lines is lines of its own.** -/
theorem lines_append (h : Whole sep xs) (ys : List α) : lines sep (xs ++ ys) = lines sep xs ++ lines sep ys := by
  induction xs with
  | nil => rfl
  | cons a xs ih =>
    cases xs with
    | nil =>
      have ha : a = sep := h a rfl
      rw [ha, cons_append, nil_append, lines, lines, if_pos rfl, if_pos rfl]
      rfl
    | cons b xs =>
      have hwhole : Whole sep (b :: xs) := fun c hc => h c (by rwa [getLast?_cons_cons])
      have hrest := ih hwhole
      rw [cons_append, lines, lines, hrest]
      split
      · rfl
      · rw [lines_eq_cut (cons_ne_nil b xs)]
        rfl

end Zond.Lines

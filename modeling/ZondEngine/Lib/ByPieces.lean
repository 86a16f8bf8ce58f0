import Mathlib.Logic.Function.Iterate

/-!
# Comparing piece by piece

A comparison that takes a leading piece off both sides, compares the two and goes on with what is left (`Unrolls`). It
is a total preorder as soon as the comparison of the pieces is (`Unrolls.transCmp`, `Unrolls.restrict`).
-/

namespace Zond.ByPieces

open Std List

def firstDifference (n : Nat) (answer : Nat → Ordering) : Ordering :=
  (((List.range n).map answer).find? (·.isNe)).getD .eq

theorem firstDifference_succ (n : Nat) (answer : Nat → Ordering) :
    firstDifference (n + 1) answer = (answer 0).then (firstDifference n fun i => answer (i + 1)) := by
  rw [firstDifference, range_succ_eq_map, map_cons, map_map, find?_cons]
  cases h : answer 0 <;> rfl

/-- `cmp` compares the pieces `head` takes off both sides, and then what `rest` leaves of them. -/
structure Unrolls {α β : Type} (cmp : α → α → Ordering) (pieceCmp : β → β → Ordering) (head : α → β) (rest : α → α)
    (size : α → Nat) : Prop where
  step : ∀ a b, cmp a b = (pieceCmp (head a) (head b)).then (cmp (rest a) (rest b))
  done : ∀ a b, size a = 0 → size b = 0 → cmp a b = .eq
  shrinks : ∀ a, size (rest a) ≤ size a - 1

/-- A total preorder on some values: it turns around with its arguments, and goes through a third, strictly if a step is
strict. -/
structure PreorderOn {α : Type} (S : α → Prop) (cmp : α → α → Ordering) : Prop where
  swap : ∀ a b, S a → S b → cmp a b = (cmp b a).swap
  trans : ∀ a b c, S a → S b → S c → (cmp a b).isLE = true → (cmp b c).isLE = true → (cmp a c).isLE = true
  strict : ∀ a b c, S a → S b → S c → (cmp a b).isLE = true → (cmp b c).isLE = true →
    cmp a b = .lt ∨ cmp b c = .lt → cmp a c = .lt

section Laws

variable {α β : Type} {cmp : α → α → Ordering} {pieceCmp : β → β → Ordering}

theorem transCmp_on (cmp : α → α → Ordering) [TransCmp cmp] (f : β → α) : TransCmp fun a b => cmp (f a) (f b) where
  eq_swap {a b} := (OrientedCmp.eq_swap : cmp (f a) (f b) = _)
  isLE_trans {a _ c} hab hbc := (TransCmp.isLE_trans hab hbc : (cmp (f a) (f c)).isLE = true)

theorem PreorderOn.of_transCmp {S : α → Prop} (h : TransCmp fun a b : { a // S a } => cmp a b) : PreorderOn S cmp where
  swap a b ha hb := h.eq_swap (a := ⟨a, ha⟩) (b := ⟨b, hb⟩)
  trans a b c ha hb hc := h.isLE_trans (a := ⟨a, ha⟩) (b := ⟨b, hb⟩) (c := ⟨c, hc⟩)
  strict a b c ha hb hc hab hbc hstrict := by
    generalize hsub : (fun a b : { a // S a } => cmp a b) = sub at h
    have hcmp : ∀ x y : { a // S a }, cmp x y = sub x y := fun x y => by rw [← hsub]
    rw [hcmp ⟨a, ha⟩ ⟨b, hb⟩] at hab hstrict
    rw [hcmp ⟨b, hb⟩ ⟨c, hc⟩] at hbc hstrict
    rw [hcmp ⟨a, ha⟩ ⟨c, hc⟩]
    rcases hstrict with hlt | hlt
    · exact TransCmp.lt_of_lt_of_isLE hlt hbc
    · exact TransCmp.lt_of_isLE_of_lt hab hlt

theorem then_isLE_trans [TransCmp pieceCmp] {x y z : β} {xy yz xz : Ordering}
    (h : xy.isLE = true → yz.isLE = true → xz.isLE = true)
    (hxy : ((pieceCmp x y).then xy).isLE = true) (hyz : ((pieceCmp y z).then yz).isLE = true) :
    ((pieceCmp x z).then xz).isLE = true := by
  -- A strict piece on either side makes the outer one strict; two equal pieces leave it to what follows.
  cases h₁ : pieceCmp x y with
  | gt => simp [h₁, Ordering.then] at hxy
  | lt =>
    cases h₂ : pieceCmp y z with
    | gt => simp [h₂, Ordering.then] at hyz
    | lt => rw [TransCmp.lt_trans h₁ h₂]; rfl
    | eq => rw [TransCmp.lt_of_lt_of_eq h₁ h₂]; rfl
  | eq =>
    rw [h₁] at hxy
    cases h₂ : pieceCmp y z with
    | gt => simp [h₂, Ordering.then] at hyz
    | lt => rw [TransCmp.lt_of_eq_of_lt h₁ h₂]; rfl
    | eq =>
      rw [h₂] at hyz
      rw [TransCmp.eq_trans h₁ h₂]
      exact h hxy hyz

namespace Unrolls

variable {head : α → β} {rest : α → α} {size : α → Nat} (h : Unrolls cmp pieceCmp head rest size)

include h

theorem eq_swap [OrientedCmp pieceCmp] : ∀ (n : Nat) (a b : α), size a ≤ n → size b ≤ n → cmp a b = (cmp b a).swap
  | 0, a, b, ha, hb => by
    rw [h.done a b (by omega) (by omega), h.done b a (by omega) (by omega)]
    rfl
  | n + 1, a, b, ha, hb => by
    have hra := h.shrinks a
    have hrb := h.shrinks b
    have hpiece : pieceCmp (head a) (head b) = _ := OrientedCmp.eq_swap
    rw [h.step a b, h.step b a, Ordering.swap_then, ← hpiece, eq_swap n (rest a) (rest b) (by omega) (by omega)]

theorem isLE_trans [TransCmp pieceCmp] : ∀ (n : Nat) (a b c : α), size a ≤ n → size b ≤ n → size c ≤ n →
    (cmp a b).isLE = true → (cmp b c).isLE = true → (cmp a c).isLE = true
  | 0, a, b, c, ha, hb, hc, _, _ => by
    rw [h.done a c (by omega) (by omega)]
    rfl
  | n + 1, a, b, c, ha, hb, hc, hab, hbc => by
    have hra := h.shrinks a
    have hrb := h.shrinks b
    have hrc := h.shrinks c
    rw [h.step] at hab hbc ⊢
    exact then_isLE_trans (isLE_trans n (rest a) (rest b) (rest c) (by omega) (by omega) (by omega)) hab hbc

/-- **A comparison by pieces is a total preorder when the comparison of the pieces is.** -/
theorem transCmp [TransCmp pieceCmp] : TransCmp cmp where
  eq_swap {a b} := by
    apply h.eq_swap (size a + size b)
    · omega
    · omega
  isLE_trans {a b c} := by
    apply h.isLE_trans (size a + size b + size c)
    · omega
    · omega
    · omega

theorem eq_iff {a b : α} : cmp a b = .eq ↔ ∀ i, pieceCmp (head (rest^[i] a)) (head (rest^[i] b)) = .eq := by
  have hstep : ∀ n (a b : α), size a ≤ n → size b ≤ n →
      (cmp a b = .eq ↔ ∀ i, pieceCmp (head (rest^[i] a)) (head (rest^[i] b)) = .eq) := by
    intro n
    induction n with
    | zero =>
      intro a b ha hb
      -- Nothing is left, and what follows nothing is nothing.
      have hdone : ∀ i, size (rest^[i] a) = 0 ∧ size (rest^[i] b) = 0 := by
        intro i
        induction i with
        | zero => exact ⟨by simpa using ha, by simpa using hb⟩
        | succ i ih =>
          have hra := h.shrinks (rest^[i] a)
          have hrb := h.shrinks (rest^[i] b)
          rw [Function.iterate_succ_apply', Function.iterate_succ_apply']
          omega
      refine iff_of_true (h.done a b (by omega) (by omega)) fun i => ?_
      have hequal := h.done _ _ (hdone i).1 (hdone i).2
      rw [h.step, Ordering.then_eq_eq] at hequal
      exact hequal.1
    | succ n ih =>
      intro a b ha hb
      have hra := h.shrinks a
      have hrb := h.shrinks b
      rw [h.step, Ordering.then_eq_eq, ih (rest a) (rest b) (by omega) (by omega)]
      refine ⟨fun heq i => ?_, fun heq => ⟨heq 0, fun i => heq (i + 1)⟩⟩
      cases i with
      | zero => exact heq.1
      | succ i => exact heq.2 i
  exact hstep (size a + size b) a b (by omega) (by omega)

theorem restrict {S : α → Prop} {T : β → Prop} (hhead : ∀ a, S a → T (head a)) (hrest : ∀ a, S a → S (rest a)) :
    Unrolls (fun a b : { a // S a } => cmp a b) (fun x y : { x // T x } => pieceCmp x y)
      (fun a => ⟨head a, hhead a a.2⟩) (fun a => ⟨rest a, hrest a a.2⟩) fun a => size a where
  step a b := h.step a b
  done a b := h.done a b
  shrinks a := h.shrinks a

end Unrolls

end Laws

section Missing

variable {α : Type}

def optionCmp (atNone : Ordering) (cmp : α → α → Ordering) : Option α → Option α → Ordering
  | none, none => .eq
  | none, some _ => atNone
  | some _, none => atNone.swap
  | some a, some b => cmp a b

theorem transCmp_optionCmp {atNone : Ordering} (hne : atNone ≠ .eq) (cmp : α → α → Ordering) [TransCmp cmp] :
    TransCmp (optionCmp atNone cmp) where
  eq_swap {a b} := by
    have hflip : ∀ a b, cmp a b = (cmp b a).swap := fun _ _ => OrientedCmp.eq_swap
    cases a <;> cases b
    · rfl
    · exact Ordering.swap_swap.symm
    · rfl
    · exact hflip _ _
  isLE_trans {a b c} hab hbc := by
    cases a <;> cases b <;> cases c <;> simp only [optionCmp] at hab hbc ⊢
    all_goals first | rfl | assumption | exact TransCmp.isLE_trans hab hbc | skip
    all_goals cases atNone <;> simp_all

theorem optionCmp_pmap (atNone : Ordering) (cmp : α → α → Ordering) {S : α → Prop} {a b : Option α} (ha : ∀ x ∈ a, S x)
    (hb : ∀ x ∈ b, S x) : optionCmp atNone cmp a b =
      optionCmp atNone (fun x y : { x // S x } => cmp x y) (a.pmap Subtype.mk ha) (b.pmap Subtype.mk hb) := by
  cases a <;> cases b <;> rfl

end Missing

section Padded

variable {α β : Type} [Ord β] (weigh : Option α → β)

def comparePadded (a b : List α) : Ordering :=
  firstDifference (max a.length b.length) fun i => compare (weigh a[i]?) (weigh b[i]?)

omit [Ord β] in
theorem unrolls_firstDifference {cmp : β → β → Ordering} (hpad : cmp (weigh none) (weigh none) = .eq) :
    Unrolls (fun a b : List α => firstDifference (max a.length b.length) fun i => cmp (weigh a[i]?) (weigh b[i]?)) cmp
      (fun a => weigh a.head?) List.tail List.length where
  step a b := by
    cases hn : max a.length b.length with
    | zero =>
      obtain ⟨rfl, rfl⟩ : a = [] ∧ b = [] := by
        constructor <;> rw [← length_eq_zero_iff] <;> omega
      simp [firstDifference, hpad]
    | succ n =>
      have htail : max a.tail.length b.tail.length = n := by
        rw [length_tail, length_tail]
        omega
      rw [firstDifference_succ, htail]
      simp only [getElem?_tail, head?_eq_getElem?]
  done a b ha hb := by
    rw [ha, hb]
    rfl
  shrinks _ := Nat.le_of_eq length_tail

theorem unrolls_comparePadded [Std.ReflOrd β] :
    Unrolls (comparePadded weigh) compare (fun a => weigh a.head?) List.tail List.length :=
  unrolls_firstDifference weigh Std.ReflCmp.compare_self

theorem transCmp_comparePadded [Std.TransOrd β] : TransCmp (comparePadded weigh) :=
  (unrolls_comparePadded weigh).transCmp

end Padded

end Zond.ByPieces

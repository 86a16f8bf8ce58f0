import Mathlib.Data.Char
import Mathlib.Data.List.Lex
import ZondEngine.Lib.Text

/-!
# Texts of one length that sort as what they say

An encoding `KeepsOrder` when it writes all values in one length, and a smaller value as what sorts first; so do two in
a row (`KeepsOrder.seq`) and numbers in a fixed number of digits (`keepsOrder_padded`).
-/

namespace Zond

open List

variable {α β γ B : Type*}

structure KeepsOrder [LT α] [LT B] (P : α → Prop) (encode : α → List B) : Prop where
  length_eq : ∀ a b, P a → P b → (encode a).length = (encode b).length
  lt : ∀ a b, P a → P b → a < b → encode a < encode b

theorem append_lt_append [LT B] {s t : List B} : ∀ {x y : List B}, x.length = y.length → x < y → x ++ s < y ++ t
  | [], [], _, h => absurd h (not_lt_nil [])
  | a :: x, b :: y, hlength, h => by
    rw [cons_append, cons_append, cons_lt_cons_iff]
    rcases cons_lt_cons_iff.mp h with hlt | ⟨rfl, hlt⟩
    · exact .inl hlt
    · exact .inr ⟨rfl, append_lt_append (Nat.succ.inj hlength) hlt⟩

namespace KeepsOrder

variable [LT α] [LT β] [LT γ] [LT B] {P : α → Prop} {Q : β → Prop} {f : α → List B} {g : β → List B}

theorem seq (hf : KeepsOrder P f) (hg : KeepsOrder Q g) {p : γ → α} {q : γ → β} {R : γ → Prop}
    (hp : ∀ c, R c → P (p c)) (hq : ∀ c, R c → Q (q c))
    (hlt : ∀ c d, R c → R d → c < d → p c < p d ∨ p c = p d ∧ q c < q d) :
    KeepsOrder R fun c => f (p c) ++ g (q c) where
  length_eq c d hc hd := by
    rw [length_append, length_append, hf.length_eq _ _ (hp c hc) (hp d hd), hg.length_eq _ _ (hq c hc) (hq d hd)]
  lt c d hc hd hcd := by
    rcases hlt c d hc hd hcd with hlt | ⟨heq, hlt⟩
    · exact append_lt_append (hf.length_eq _ _ (hp c hc) (hp d hd)) (hf.lt _ _ (hp c hc) (hp d hd) hlt)
    · rw [heq]
      exact append_left_lt (hg.lt _ _ (hq c hc) (hq d hd) hlt)

theorem cons (hf : KeepsOrder P f) (head : B) : KeepsOrder P fun a => head :: f a where
  length_eq a b ha hb := congrArg Nat.succ (hf.length_eq a b ha hb)
  lt a b ha hb hab := cons_lt_cons_iff.mpr (.inr ⟨rfl, hf.lt a b ha hb hab⟩)

theorem append (hf : KeepsOrder P f) (tail : List B) : KeepsOrder P fun a => f a ++ tail where
  length_eq a b ha hb := by rw [length_append, length_append, hf.length_eq a b ha hb]
  lt a b ha hb hab := append_lt_append (hf.length_eq a b ha hb) (hf.lt a b ha hb hab)

end KeepsOrder

/-! ## Numbers -/

def padded (width n : Nat) : Text :=
  List.replicate (width - (Text.decimal n).length) '0' ++ Text.decimal n

theorem decimal_of_lt {n : Nat} (h : n < 10) : Text.decimal n = [Nat.digitChar n] := Nat.toDigits_of_lt_base h

theorem padded_succ {width n : Nat} (hwidth : 0 < width) :
    padded (width + 1) n = padded width (n / 10) ++ [Nat.digitChar (n % 10)] := by
  unfold padded
  by_cases hn : n < 10
  · rw [decimal_of_lt hn, Nat.div_eq_of_lt hn, Nat.mod_eq_of_lt hn, decimal_of_lt (by decide)]
    obtain ⟨k, rfl⟩ := Nat.exists_eq_add_of_le' hwidth
    simp [replicate_succ']
  · have hdecimal : Text.decimal n = Text.decimal (n / 10) ++ [Nat.digitChar (n % 10)] :=
      Nat.toDigits_of_base_le (by decide) (by omega)
    rw [hdecimal, length_append, length_singleton, Nat.add_sub_add_right, append_assoc]

theorem length_padded {width n : Nat} (hwidth : 0 < width) (h : n < 10 ^ width) : (padded width n).length = width := by
  have hlength : (Text.decimal n).length ≤ width := (Nat.length_toDigits_le_iff (by decide) hwidth).mpr h
  rw [padded, length_append, length_replicate]
  omega

theorem isDigit_of_mem_padded {width n : Nat} {c : Char} (h : c ∈ padded width n) : c.isDigit = true := by
  rcases mem_append.mp h with h | h
  · rw [eq_of_mem_replicate h]
    rfl
  · exact Text.isDigit_of_mem_decimal h

theorem ofDigitChars_padded (width n : Nat) : Nat.ofDigitChars 10 (padded width n) 0 = n := by
  have hzeros (k : Nat) : Nat.ofDigitChars 10 (List.replicate k '0') 0 = 0 := by
    induction k with
    | zero => rfl
    | succ k ih => rw [replicate_succ, Nat.ofDigitChars_cons]; exact ih
  rw [padded, Nat.ofDigitChars_append, hzeros]
  exact Nat.ofDigitChars_toDigits (by decide) (by decide)

theorem keepsOrder_digit : KeepsOrder (· < 10) fun n => [Nat.digitChar n] where
  length_eq _ _ _ _ := rfl
  lt a b ha hb hab := by
    have hdigit : ∀ b < 10, ∀ a < b, Nat.digitChar a < Nat.digitChar b := by decide
    exact List.Lex.rel (hdigit b hb a hab)

/-- **Numbers of a fixed width sort as they count.** -/
theorem keepsOrder_padded (width : Nat) (hwidth : 0 < width) : KeepsOrder (· < 10 ^ width) (padded width) := by
  induction width with
  | zero => exact absurd hwidth (lt_irrefl 0)
  | succ width ih =>
    rcases Nat.eq_zero_or_pos width with rfl | hpos
    · refine ⟨fun a b ha hb => ?_, fun a b ha hb hab => ?_⟩
      · rw [length_padded (by decide) ha, length_padded (by decide) hb]
      · have hone {n : Nat} (hn : n < 10) : padded 1 n = [Nat.digitChar n] := by simp [padded, decimal_of_lt hn]
        rw [zero_add, hone ha, hone hb]
        exact keepsOrder_digit.lt a b ha hb hab
    · have hboth := (ih hpos).seq keepsOrder_digit (p := (· / 10)) (q := (· % 10)) (R := (· < 10 ^ (width + 1)))
        (fun n hn => Nat.div_lt_of_lt_mul (by rwa [pow_succ, mul_comm] at hn)) (fun n _ => Nat.mod_lt n (by decide))
        (fun a b _ _ hab => by omega)
      exact ⟨fun a b ha hb => by simpa only [padded_succ hpos] using hboth.length_eq a b ha hb,
        fun a b ha hb hab => by simpa only [padded_succ hpos] using hboth.lt a b ha hb hab⟩

end Zond

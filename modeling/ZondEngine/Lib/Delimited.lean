import Mathlib.Algebra.Ring.Nat

/-!
# Encodings that tell where they end

An encoding is `Delimited` when what it writes tells both the value and where the value ends, whatever follows. It is
closed under sequences (`seq`), tags (`cons`) and lists behind their count (`counted`).
-/

namespace Zond

open List

variable {α β γ B : Type*}

def Delimited (P : α → Prop) (encode : α → List B) : Prop :=
  ∀ a b, P a → P b → ∀ rest rest', encode a ++ rest = encode b ++ rest' → a = b ∧ rest = rest'

namespace Delimited

variable {P : α → Prop} {Q : β → Prop} {f : α → List B} {g : β → List B}

theorem weaken {P' : α → Prop} (h : Delimited P f) (hsub : ∀ a, P' a → P a) : Delimited P' f :=
  fun a b ha hb => h a b (hsub a ha) (hsub b hb)

theorem of_length {n : Nat} (hlength : ∀ a, (f a).length = n) (hinj : ∀ a b, P a → P b → f a = f b → a = b) :
    Delimited P f := by
  intro a b ha hb rest rest' h
  obtain ⟨henc, hrest⟩ := append_inj h (by rw [hlength, hlength])
  exact ⟨hinj a b ha hb henc, hrest⟩

theorem seq (hf : Delimited P f) (hg : Delimited Q g) {p : γ → α} {q : γ → β}
    (hinj : ∀ c d, p c = p d → q c = q d → c = d) :
    Delimited (fun c => P (p c) ∧ Q (q c)) (fun c => f (p c) ++ g (q c)) := by
  intro c d hc hd rest rest' h
  rw [append_assoc, append_assoc] at h
  obtain ⟨hfirst, h⟩ := hf _ _ hc.1 hd.1 _ _ h
  obtain ⟨hsecond, hrest⟩ := hg _ _ hc.2 hd.2 _ _ h
  exact ⟨hinj c d hfirst hsecond, hrest⟩

theorem cons (hf : Delimited P f) (tag : B) : Delimited P (fun a => tag :: f a) := by
  intro a b ha hb rest rest' h
  simp only [cons_append, List.cons.injEq, true_and] at h
  exact hf a b ha hb rest rest' h

theorem comp (hg : Delimited Q g) {p : α → β} (hinj : Function.Injective p) :
    Delimited (fun a => Q (p a)) (fun a => g (p a)) := by
  intro a b ha hb rest rest' h
  obtain ⟨heq, hrest⟩ := hg _ _ ha hb _ _ h
  exact ⟨hinj heq, hrest⟩

theorem option (hf : Delimited P f) {some? none? : B} (hne : some? ≠ none?) :
    Delimited (fun o : Option α => ∀ a ∈ o, P a) (fun o => o.elim [none?] fun a => some? :: f a) := by
  intro o o' ho ho' rest rest' h
  cases o with
  | none =>
    cases o' with
    | none => simpa using h
    | some b => simp [hne.symm] at h
  | some a =>
    cases o' with
    | none => simp [hne] at h
    | some b =>
      obtain ⟨rfl, hrest⟩ := hf.cons some? a b (ho a rfl) (ho' b rfl) rest rest' h
      exact ⟨rfl, hrest⟩

theorem flatMap (hf : Delimited P f) : ∀ {l l' : List α}, l.length = l'.length → (∀ a ∈ l, P a) → (∀ a ∈ l', P a) →
    ∀ rest rest', l.flatMap f ++ rest = l'.flatMap f ++ rest' → l = l' ∧ rest = rest'
  | [], [], _, _, _, _, _, h => ⟨rfl, h⟩
  | a :: l, b :: l', hlength, hl, hl', rest, rest', h => by
    rw [flatMap_cons, flatMap_cons, append_assoc, append_assoc] at h
    obtain ⟨hhead, htail⟩ := hf a b (hl a mem_cons_self) (hl' b mem_cons_self) _ _ h
    obtain ⟨hl, hrest⟩ := flatMap hf (Nat.succ.inj hlength) (fun c hc => hl c (mem_cons_of_mem a hc))
      (fun c hc => hl' c (mem_cons_of_mem b hc)) _ _ htail
    exact ⟨by rw [hhead, hl], hrest⟩

/-- **A list behind its count.** -/
theorem counted {N : Nat → Prop} {count : Nat → List B} (hcount : Delimited N count) (hf : Delimited P f) :
    Delimited (fun l : List α => N l.length ∧ ∀ a ∈ l, P a) (fun l => count l.length ++ l.flatMap f) := by
  intro l l' hl hl' rest rest' h
  rw [append_assoc, append_assoc] at h
  obtain ⟨hlength, h⟩ := hcount _ _ hl.1 hl'.1 _ _ h
  exact hf.flatMap hlength hl.2 hl'.2 _ _ h

end Delimited

/-! ## Numbers -/

def littleEndian : Nat → Nat → List UInt8
  | 0, _ => []
  | width + 1, n => UInt8.ofNat n :: littleEndian width (n / 256)

theorem length_littleEndian (width n : Nat) : (littleEndian width n).length = width := by
  induction width generalizing n with
  | zero => rfl
  | succ width ih => rw [littleEndian, length_cons, ih]

theorem littleEndian_inj {width : Nat} : ∀ {m n : Nat}, m < 256 ^ width → n < 256 ^ width →
    littleEndian width m = littleEndian width n → m = n := by
  induction width with
  | zero =>
    intro m n hm hn _
    simp only [pow_zero, Nat.lt_one_iff] at hm hn
    rw [hm, hn]
  | succ width ih =>
    intro m n hm hn h
    obtain ⟨hlow, hhigh⟩ := List.cons.inj h
    have hlow : m % 256 = n % 256 := by simpa using congrArg UInt8.toNat hlow
    have hhigh := ih (Nat.div_lt_of_lt_mul (by omega)) (Nat.div_lt_of_lt_mul (by omega)) hhigh
    omega

theorem delimited_littleEndian (width : Nat) : Delimited (· < 256 ^ width) (littleEndian width) :=
  .of_length (length_littleEndian width) fun _ _ hm hn h => littleEndian_inj hm hn h

end Zond

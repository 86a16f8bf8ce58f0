import Mathlib.Data.Nat.Bitwise

/-!
# Bitmaps of 64-bit words

A bitmap marks numbers, a bit each, and is read back word by word: the numbers read are the numbers marked
(`mem_marks_foldl`), in ascending order (`marks_foldl_ascending`).
-/

namespace Zond.Bitmap

open List Option

def trailingZeros (word : Nat) : Nat := ((List.range 64).find? word.testBit).getD 64

def ones (word : Nat) : List Nat := if word = 0 then [] else trailingZeros word :: ones (word &&& (word - 1))
termination_by word
decreasing_by
  have : word &&& (word - 1) ≤ word - 1 := Nat.and_le_right
  omega

def zeroed (n : Nat) : List Nat := List.replicate ((n + 63) / 64) 0

variable (bits : List Nat)

def mark (k : Nat) : List Nat := bits.modify (k / 64) (· ||| 1 <<< (k % 64))

def marks : List Nat := bits.zipIdx.flatMap fun word => (ones word.1).map (word.2 * 64 + ·)

def marked (k : Nat) : Bool := (bits[k / 64]?.getD 0).testBit (k % 64)

section Word

variable {word : Nat}

theorem testBit_lt (hlt : word < 2 ^ 64) {k : Nat} (hk : word.testBit k = true) : k < 64 := by
  by_contra hge
  rw [Nat.testBit_lt_two_pow (hlt.trans_le (Nat.pow_le_pow_right (by decide) (Nat.le_of_not_lt hge)))] at hk
  cases hk

theorem trailingZeros_spec (hne : word ≠ 0) (hlt : word < 2 ^ 64) :
    word.testBit (trailingZeros word) = true ∧ ∀ i < trailingZeros word, word.testBit i = false := by
  obtain ⟨k, hk⟩ := Nat.exists_testBit_of_ne_zero hne
  have hk64 : k < 64 := testBit_lt hlt hk
  unfold trailingZeros
  cases hf : (List.range 64).find? word.testBit with
  | none =>
    have := find?_eq_none.mp hf k (mem_range.mpr hk64)
    exact absurd hk this
  | some t =>
    refine ⟨find?_some hf, fun i hi => ?_⟩
    rw [Option.getD_some] at hi
    obtain ⟨-, j, hj, hget, hbefore⟩ := find?_eq_some_iff_getElem.mp hf
    rw [getElem_range] at hget
    have := hbefore i (by omega)
    simpa using this

theorem eq_of_lowest {t : Nat} (ht : word.testBit t = true) (hlow : ∀ i < t, word.testBit i = false) :
    word = 2 ^ (t + 1) * (word / 2 ^ (t + 1)) + 2 ^ t := by
  have hmod : word % 2 ^ (t + 1) = 2 ^ t := by
    apply Nat.eq_of_testBit_eq
    intro i
    rcases Nat.lt_trichotomy i t with hi | hi | hi
    · simp [hlow i hi, Nat.ne_of_gt hi]
    · subst hi
      simp [ht]
    · simp [Nat.not_lt.mpr (Nat.succ_le_of_lt hi), Nat.ne_of_lt hi]
  conv_lhs => rw [← Nat.div_add_mod word (2 ^ (t + 1)), hmod]

theorem testBit_and_sub_one {t : Nat} (ht : word.testBit t = true) (hlow : ∀ i < t, word.testBit i = false) (i : Nat) :
    (word &&& (word - 1)).testBit i = (word.testBit i && decide (i ≠ t)) := by
  have hlt : 2 ^ t < 2 ^ (t + 1) := Nat.pow_lt_pow_right (by decide) (Nat.lt_succ_self t)
  have hword := eq_of_lowest ht hlow
  have hpred : word - 1 = 2 ^ (t + 1) * (word / 2 ^ (t + 1)) + (2 ^ t - 1) := by omega
  rw [Nat.testBit_and]
  rcases Nat.lt_trichotomy i t with hi | hi | hi
  · rw [hlow i hi, Bool.false_and, Bool.false_and]
  · subst hi
    have hzero : (word - 1).testBit i = false := by
      rw [hpred, Nat.testBit_two_pow_mul_add _ (by omega), if_pos (Nat.lt_succ_self i), Nat.testBit_two_pow_sub_one]
      simp
    simp [hzero]
  · have hsame : (word - 1).testBit i = word.testBit i := by
      conv_rhs => rw [hword]
      rw [hpred, Nat.testBit_two_pow_mul_add _ (by omega), Nat.testBit_two_pow_mul_add _ hlt,
        if_neg (by omega), if_neg (by omega)]
    rw [hsame, Bool.and_self, decide_eq_true (Nat.ne_of_gt hi), Bool.and_true]

/-- **The bits read off a word are its set bits.** -/
theorem mem_ones (word k : Nat) (hlt : word < 2 ^ 64) : k ∈ ones word ↔ word.testBit k = true := by
  fun_induction ones word with
  | case1 => simp
  | case2 word hne ih =>
    obtain ⟨ht, hlow⟩ := trailingZeros_spec hne hlt
    have hle : word &&& (word - 1) ≤ word := Nat.and_le_left
    rw [mem_cons, ih (by omega), testBit_and_sub_one ht hlow]
    by_cases hk : k = trailingZeros word
    · simp [hk, ht]
    · simp [hk]

theorem ones_ascending (word : Nat) (hlt : word < 2 ^ 64) : (ones word).Pairwise (· < ·) := by
  fun_induction ones word with
  | case1 => exact .nil
  | case2 word hne ih =>
    obtain ⟨ht, hlow⟩ := trailingZeros_spec hne hlt
    have hle : word &&& (word - 1) ≤ word := Nat.and_le_left
    refine pairwise_cons.mpr ⟨fun k hk => ?_, ih (by omega)⟩
    rw [mem_ones _ k (by omega), testBit_and_sub_one ht hlow, Bool.and_eq_true, decide_eq_true_eq] at hk
    by_contra hge
    have := hlow k (by omega)
    rw [hk.1] at this
    cases this

end Word

section Marks

variable {bits}

theorem marked_zeroed (n k : Nat) : marked (zeroed n) k = false := by
  unfold marked zeroed
  rw [getElem?_replicate]
  split <;> simp

theorem length_mark (bits : List Nat) (k : Nat) : (mark bits k).length = bits.length := length_modify _ _ _

theorem marked_mark {k : Nat} (hk : k / 64 < bits.length) (j : Nat) :
    marked (mark bits k) j = (marked bits j || decide (j = k)) := by
  unfold marked mark
  rw [getElem?_modify]
  by_cases hw : k / 64 = j / 64
  · rw [hw] at hk
    simp only [hw, if_true, getElem?_eq_getElem hk, Option.map_eq_map, Option.map_some, Option.getD_some,
      Nat.testBit_or, Nat.shiftLeft_eq, Nat.one_mul, Nat.testBit_two_pow]
    congr 1
    rw [decide_eq_decide]
    omega
  · have hne : j ≠ k := fun h => hw (by rw [h])
    simp [hw, hne]

theorem mark_lt {k : Nat} (h : ∀ word ∈ bits, word < 2 ^ 64) : ∀ word ∈ mark bits k, word < 2 ^ 64 := by
  intro word hword
  obtain ⟨i, hi⟩ := mem_iff_getElem?.mp hword
  rw [mark, getElem?_modify] at hi
  obtain ⟨old, hold, heq⟩ := map_eq_some_iff.mp hi
  have hlt := h old (mem_of_getElem? hold)
  split at heq
  · rw [← heq, Nat.shiftLeft_eq, Nat.one_mul]
    exact Nat.or_lt_two_pow hlt (Nat.pow_lt_pow_right (by decide) (Nat.mod_lt _ (by decide)))
  · exact heq ▸ hlt

theorem mem_marks (h : ∀ word ∈ bits, word < 2 ^ 64) (k : Nat) : k ∈ marks bits ↔ marked bits k = true := by
  unfold marks marked
  rw [mem_flatMap]
  constructor
  · intro ⟨⟨word, i⟩, hword, hk⟩
    obtain ⟨b, hb, rfl⟩ := mem_map.mp hk
    have hget : bits[i]? = some word := mk_mem_zipIdx_iff_getElem?.mp hword
    have hlt := h word (mem_of_getElem? hget)
    have hbit := (mem_ones word b hlt).mp hb
    have hb64 : b < 64 := testBit_lt hlt hbit
    rw [show (i * 64 + b) / 64 = i by omega, show (i * 64 + b) % 64 = b by omega, hget, Option.getD_some, hbit]
  · intro hk
    cases hget : bits[k / 64]? with
    | none => simp [hget] at hk
    | some word =>
      rw [hget, Option.getD_some] at hk
      refine ⟨(word, k / 64), mk_mem_zipIdx_iff_getElem?.mpr hget, mem_map.mpr ⟨k % 64, ?_, by omega⟩⟩
      exact (mem_ones word _ (h word (mem_of_getElem? hget))).mpr hk

theorem marks_from_ascending : ∀ (bits : List Nat) (start : Nat), (∀ word ∈ bits, word < 2 ^ 64) →
    ((bits.zipIdx start).flatMap fun word => (ones word.1).map (word.2 * 64 + ·)).Pairwise (· < ·) ∧
      ∀ k ∈ (bits.zipIdx start).flatMap fun word => (ones word.1).map (word.2 * 64 + ·), start * 64 ≤ k
  | [], _, _ => ⟨.nil, fun _ hk => by cases hk⟩
  | word :: bits, start, h => by
    have hlt := h word (by simp)
    obtain ⟨hasc, hge⟩ := marks_from_ascending bits (start + 1) fun w hw => h w (mem_cons_of_mem word hw)
    have hhead : ∀ k ∈ (ones word).map (start * 64 + ·), start * 64 ≤ k ∧ k < (start + 1) * 64 := by
      intro k hk
      obtain ⟨b, hb, rfl⟩ := mem_map.mp hk
      have := testBit_lt hlt ((mem_ones word b hlt).mp hb)
      omega
    rw [zipIdx_cons, flatMap_cons]
    refine ⟨pairwise_append.mpr ⟨?_, hasc, fun a ha b hb => ?_⟩, fun k hk => ?_⟩
    · exact pairwise_map.mpr ((ones_ascending word hlt).imp fun hab => by omega)
    · exact (hhead a ha).2.trans_le (hge b hb)
    · rcases mem_append.mp hk with hk | hk
      · exact (hhead k hk).1
      · have := hge k hk
        omega

theorem foldl_mark_lt : ∀ {ks bits : List Nat}, (∀ word ∈ bits, word < 2 ^ 64) →
    ∀ word ∈ ks.foldl mark bits, word < 2 ^ 64
  | [], _, h => h
  | k :: ks, bits, h => by
    rw [foldl_cons]
    exact foldl_mark_lt (mark_lt h)

theorem zeroed_lt (n : Nat) : ∀ word ∈ zeroed n, word < 2 ^ 64 := by
  intro word hword
  rw [eq_of_mem_replicate hword]
  decide

theorem marks_foldl_ascending (ks : List Nat) (n : Nat) : (marks (ks.foldl mark (zeroed n))).Pairwise (· < ·) :=
  (marks_from_ascending _ 0 (foldl_mark_lt (zeroed_lt n))).1

/-- **Numbers marked one after another are the numbers read back.** -/
theorem mem_marks_foldl {n : Nat} {ks : List Nat} (hks : ∀ k ∈ ks, k < n) (k : Nat) :
    k ∈ marks (ks.foldl mark (zeroed n)) ↔ k ∈ ks := by
  have hrun : ∀ (ks bits : List Nat), (∀ word ∈ bits, word < 2 ^ 64) → (∀ k ∈ ks, k / 64 < bits.length) →
      (k ∈ marks (ks.foldl mark bits) ↔ k ∈ ks ∨ marked bits k = true) := by
    intro ks
    induction ks with
    | nil =>
      intro bits hlt _
      simp [mem_marks hlt]
    | cons j ks ih =>
      intro bits hlt hin
      rw [foldl_cons, ih _ (mark_lt hlt) fun k hk => by
        rw [length_mark]
        exact hin k (mem_cons_of_mem j hk), marked_mark (hin j (by simp)), mem_cons]
      simp only [Bool.or_eq_true, decide_eq_true_eq]
      constructor
      · intro h
        rcases h with h | h | h
        · exact .inl (.inr h)
        · exact .inr h
        · exact .inl (.inl h)
      · intro h
        rcases h with (h | h) | h
        · exact .inr (.inr h)
        · exact .inl h
        · exact .inr (.inl h)
  rw [hrun ks (zeroed n), marked_zeroed]
  · simp
  · exact zeroed_lt n
  · intro k hk
    have := hks k hk
    rw [zeroed, length_replicate]
    omega

end Marks

end Zond.Bitmap

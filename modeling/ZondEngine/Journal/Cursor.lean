import Mathlib.Data.Finset.Sort
import Mathlib.Order.Interval.Finset.Nat
import ZondEngine.Lib.Bisect
import ZondEngine.Model.Order

/-!
# How far a scan got

The cursor of `journal/cursor.rs`: a plan watermark, a second one along the order the scan asks in (`Walked`), and the
settled positions neither has reached. `Counts` is kept by every operation, so it holds along every run (`run_counts`).
-/

namespace Zond.Journal

open Zond.Order Finset Permutation

/-! ## Walks, checkpoints and cursors -/

/-- How far along its order a walk has come. -/
@[ext]
structure Walked where
  seed : UInt64
  (len reached ahead : Nat)
  len_lt : len < 2 ^ 64

instance : DecidableEq Walked := fun _ _ => decidable_of_iff _ Walked.ext_iff.symm

namespace Walked

def start (order : Permutation) : Walked := ⟨order.seed, order.len, 0, 0, order.len_lt⟩

def order (w : Walked) : Permutation := Permutation.new w.seed w.len w.len_lt

def covers (w : Walked) (position : Nat) : Bool :=
  (w.order.indexOf position).any fun index => decide (index < w.reached)

def clamped (w : Walked) (watermark : Nat) : Walked :=
  let reached := min w.reached w.len
  { w with reached := reached, ahead := min (min w.ahead reached) (w.len - watermark) }

end Walked

/-- A cursor as it is written down. -/
structure Checkpoint where
  watermark : Nat
  settledAbove : List Nat
  walked : Option Walked
  deriving DecidableEq

namespace Checkpoint

def isSettled (c : Checkpoint) (position : Nat) : Bool :=
  decide (position < c.watermark) || Bisect.isOk (Bisect.binarySearch c.settledAbove position) ||
    c.walked.any (·.covers position)

def settledCount (c : Checkpoint) : Nat :=
  let walked := c.walked.map (·.clamped c.watermark)
  let above := ((c.settledAbove.filter fun position => decide (c.watermark ≤ position)).filter
    fun position => !walked.any (·.covers position)).length
  Word.satAdd 64 (Word.satAdd 64 c.watermark ((walked.map (·.ahead)).getD 0)) above

end Checkpoint

/-- Which positions of a plan are settled, as they settle. -/
structure Cursor where
  watermark : Nat
  above : Finset Nat
  walk : Option Walked

namespace Cursor

def new : Cursor := ⟨0, ∅, none⟩

def covers (c : Cursor) (position : Nat) : Bool := c.walk.any (·.covers position)

def ahead (c : Cursor) : Nat := (c.walk.map (·.ahead)).getD 0

def isSettled (c : Cursor) (position : Nat) : Bool :=
  decide (position < c.watermark) || decide (position ∈ c.above) || c.covers position

def settledCount (c : Cursor) : Nat := Word.satAdd 64 (Word.satAdd 64 c.watermark c.ahead) c.above.card

def checkpoint (c : Cursor) : Checkpoint := ⟨c.watermark, c.above.sort (· ≤ ·), c.walk⟩

theorem covers_lt {w : Walked} {position : Nat} (h : w.covers position = true) : position < w.len := by
  obtain ⟨i, hi, -⟩ := (Option.any_eq_true ..).mp h
  exact (indexOf_lt hi).2

def advance (c : Cursor) : Cursor :=
  if c.watermark ∈ c.above then
    advance { c with above := c.above.erase c.watermark, watermark := Word.satAdd 64 c.watermark 1 }
  else
    match c.walk with
    | none => c
    | some w =>
      if w.covers c.watermark then
        advance { c with walk := some { w with ahead := w.ahead - 1 }, watermark := Word.satAdd 64 c.watermark 1 }
      else c
termination_by (c.above.card, Word.top 64 - c.watermark)
decreasing_by
  · rename_i hmem
    exact Prod.Lex.left _ _ (card_erase_lt_of_mem hmem)
  · rename_i hcov
    have h1 := covers_lt hcov
    have h2 := w.len_lt
    refine Prod.Lex.right _ ?_
    simp only [Word.satAdd, Word.top]
    omega

def follow (watermark : Nat) (above : Finset Nat) (w : Walked) : Finset Nat × Walked :=
  match _h : w.order.atIndex w.reached with
  | none => (above, w)
  | some position =>
    if position < watermark then follow watermark above { w with reached := w.reached + 1 }
    else if position ∈ above then
      follow watermark (above.erase position)
        { w with reached := w.reached + 1, ahead := Word.satAdd 64 w.ahead 1 }
    else (above, w)
termination_by w.len - w.reached
decreasing_by
  all_goals
    have hlt : w.reached < w.len := (atIndex_lt _h).1
    omega

def left (c : Cursor) : Nat := (c.walk.map fun w => w.len - w.reached).getD 0

theorem left_advance (c : Cursor) : c.advance.left = c.left := by
  fun_induction advance c with
  | case1 c h ih => exact ih
  | case2 c h hw => rfl
  | case3 c h w hw hc ih => rw [ih]; simp [left, hw]
  | case4 c h w hw hc => rfl

theorem follow_reached (watermark : Nat) (above : Finset Nat) (w : Walked) :
    (follow watermark above w).2.seed = w.seed ∧ (follow watermark above w).2.len = w.len ∧
      w.reached ≤ (follow watermark above w).2.reached ∧
      ((follow watermark above w).2.reached = w.reached ∨ (follow watermark above w).2.reached ≤ w.len) := by
  fun_induction follow watermark above w with
  | case1 above w h => simp
  | case2 above w position h hlt ih | case3 above w position h hlt hmem ih =>
    have hr : w.reached < w.len := (atIndex_lt h).1
    obtain ⟨hseed, hlen, hle, hend⟩ := ih
    exact ⟨hseed, hlen, Nat.le_of_succ_le hle, .inr (hend.elim (fun he => he.le.trans hr) id)⟩
  | case4 above w position h hlt hmem => simp

/-- Moves the watermark past everything settled. -/
def catchUp (c : Cursor) : Cursor :=
  match _h : c.advance.walk with
  | none => c.advance
  | some w =>
    let walked := follow c.advance.watermark c.advance.above w
    if walked.2.reached = w.reached then { c.advance with above := walked.1, walk := some walked.2 }
    else catchUp { c.advance with above := walked.1, walk := some walked.2 }
termination_by c.left
decreasing_by
  rename_i hmoved
  have hleft := left_advance c
  obtain ⟨-, hlen, hle, hend⟩ := follow_reached c.advance.watermark c.advance.above w
  have hmoved' : (follow c.advance.watermark c.advance.above w).2.reached ≠ w.reached := hmoved
  simp only [left, _h, Option.map_some, Option.getD_some] at hleft ⊢
  omega

def along (c : Cursor) (order : Permutation) : Cursor :=
  match c.walk with
  | none => catchUp { c with walk := some (Walked.start order) }
  | some _ => c

def walking (order : Permutation) : Cursor := new.along order

/-- Takes up where a checkpoint stopped. -/
def fromCheckpoint (checkpoint : Checkpoint) : Cursor :=
  let walk := checkpoint.walked.map (·.clamped checkpoint.watermark)
  catchUp {
    watermark := checkpoint.watermark
    above := ((checkpoint.settledAbove.filter fun position => decide (checkpoint.watermark ≤ position)).filter
      fun position => !walk.any (·.covers position)).toFinset
    walk := walk }

def settle (c : Cursor) (position : Nat) : Cursor :=
  if c.isSettled position then c else catchUp { c with above := insert position c.above }

/-! ## The invariant -/

/-- The positions a walk has settled ahead of the watermark. -/
abbrev aheadOf (c : Cursor) (S : Finset Nat) : Finset Nat := S.filter fun q => c.watermark ≤ q ∧ c.covers q = true

/-- **The cursor counts exactly the positions in `S`.** -/
structure Counts (c : Cursor) (S : Finset Nat) : Prop where
  mem_iff : ∀ q, q ∈ S ↔ c.isSettled q = true
  small : ∀ q ∈ S, q < Word.top 64
  above_ge : ∀ q ∈ c.above, c.watermark ≤ q
  above_uncovered : ∀ q ∈ c.above, c.covers q = false
  reached_le : ∀ w, c.walk = some w → w.reached ≤ w.len
  ahead_eq : c.ahead = (c.aheadOf S).card

theorem isSettled_iff (c : Cursor) (q : Nat) :
    c.isSettled q = true ↔ q < c.watermark ∨ q ∈ c.above ∨ c.covers q = true := by
  simp [isSettled, or_assoc]

theorem Counts.mem_iff_of {c c' : Cursor} {S : Finset Nat} (h : Counts c S)
    (hiff : ∀ q, c'.isSettled q = true ↔ c.isSettled q = true) : ∀ q, q ∈ S ↔ c'.isSettled q = true :=
  fun q => (h.mem_iff q).trans (hiff q).symm

theorem covers_some {c : Cursor} {w : Walked} (h : c.walk = some w) (q : Nat) : c.covers q = w.covers q := by
  simp [covers, h]

theorem ahead_some {c : Cursor} {w : Walked} (h : c.walk = some w) : c.ahead = w.ahead := by
  simp [ahead, h]

namespace Counts

variable {c : Cursor} {S : Finset Nat}

theorem count (h : Counts c S) : c.watermark + c.ahead + c.above.card = S.card := by
  have hsplit : S = Finset.range c.watermark ∪ (c.aheadOf S ∪ c.above) := by
    ext q
    simp only [mem_union, mem_range, mem_filter, h.mem_iff, isSettled_iff]
    by_cases hq : q < c.watermark
    · simp [hq]
    · simp only [hq, false_or]
      constructor
      · rintro (hm | hc)
        · exact .inr hm
        · exact .inl ⟨.inr hc, by omega, hc⟩
      · rintro (⟨-, -, hc⟩ | hm)
        · exact .inr hc
        · exact .inl hm
  have hinner : Disjoint (c.aheadOf S) c.above := by
    rw [disjoint_left]
    intro q hq hm
    have := h.above_uncovered q hm
    rw [(mem_filter.mp hq).2.2] at this
    cases this
  have houter : Disjoint (Finset.range c.watermark) (c.aheadOf S ∪ c.above) := by
    rw [disjoint_left]
    intro q hq hm
    have hlt := mem_range.mp hq
    rcases mem_union.mp hm with hm | hm
    · have := (mem_filter.mp hm).2.1; omega
    · have := h.above_ge q hm; omega
  have hcard : S.card = c.watermark + ((c.aheadOf S).card + c.above.card) := by
    conv_lhs => rw [hsplit]
    rw [card_union_of_disjoint houter, card_union_of_disjoint hinner, card_range]
  rw [hcard, h.ahead_eq, Nat.add_assoc]

theorem card_le (h : Counts c S) : S.card ≤ Word.top 64 := by
  have hsub : S ⊆ Finset.range (Word.top 64) := fun q hq => mem_range.mpr (h.small q hq)
  simpa using card_le_card hsub

theorem settledCount_eq (h : Counts c S) : c.settledCount = S.card := by
  have hcount := h.count
  have hle := h.card_le
  unfold settledCount
  rw [Word.satAdd_of_le (x := c.watermark) (by omega), Word.satAdd_of_le (by omega), hcount]

/-! ## What the watermarks do -/

theorem pass (h : Counts c S) {c' : Cursor} (hin : c.watermark ∈ S) (hmark : c'.watermark = c.watermark + 1)
    (habove : c'.above = c.above.erase c.watermark) (hcov : ∀ q, c'.covers q = c.covers q)
    (hreached : ∀ w, c'.walk = some w → w.reached ≤ w.len)
    (hahead : c'.ahead = if c.covers c.watermark then c.ahead - 1 else c.ahead) : Counts c' S := by
  refine ⟨h.mem_iff_of fun q => ?_, h.small, fun q hq => ?_, fun q hq => ?_, hreached, ?_⟩
  · by_cases hq : q = c.watermark
    · subst hq
      exact ⟨fun _ => (h.mem_iff _).mp hin, fun _ => (isSettled_iff c' _).mpr (.inl (by omega))⟩
    · have hlt : q < c'.watermark ↔ q < c.watermark := by omega
      simp only [isSettled_iff, habove, hcov, hlt, mem_erase, ne_eq, hq, not_false_eq_true, true_and]
  · rw [habove] at hq
    have hne := ne_of_mem_erase hq
    have hge := h.above_ge q (mem_of_mem_erase hq)
    omega
  · rw [habove] at hq
    rw [hcov]
    exact h.above_uncovered q (mem_of_mem_erase hq)
  · have herase : c'.aheadOf S = (c.aheadOf S).erase c.watermark := by
      ext q
      simp only [mem_filter, mem_erase, hcov, hmark]
      constructor
      · rintro ⟨hq, hle, hc⟩
        exact ⟨by omega, hq, by omega, hc⟩
      · rintro ⟨hne, hq, hle, hc⟩
        exact ⟨hq, by omega, hc⟩
    rw [herase, hahead, h.ahead_eq]
    split
    · rename_i hc
      exact (card_erase_of_mem (mem_filter.mpr ⟨hin, Nat.le_refl _, hc⟩)).symm
    · rename_i hc
      rw [erase_eq_of_notMem fun hm => hc (mem_filter.mp hm).2.2]

theorem satAdd_watermark (h : Counts c S) (hin : c.watermark ∈ S) :
    Word.satAdd 64 c.watermark 1 = c.watermark + 1 := Word.satAdd_of_le (h.small _ hin)

theorem advance (h : Counts c S) : Counts c.advance S := by
  fun_induction Cursor.advance c with
  | case1 c hmem ih =>
    have hin : c.watermark ∈ S := (h.mem_iff _).mpr ((isSettled_iff c _).mpr (.inr (.inl hmem)))
    have hunc := h.above_uncovered _ hmem
    exact ih (h.pass hin (h.satAdd_watermark hin) rfl (fun _ => rfl) h.reached_le (by rw [hunc]; rfl))
  | case2 c hmem hw => exact h
  | case3 c hmem w hw hcov ih =>
    have hc : c.covers c.watermark = true := by rw [covers_some hw]; exact hcov
    have hin : c.watermark ∈ S := (h.mem_iff _).mpr ((isSettled_iff c _).mpr (.inr (.inr hc)))
    refine ih (h.pass hin (h.satAdd_watermark hin) (erase_eq_of_notMem hmem).symm (fun q => ?_) ?_ ?_)
    · rw [covers_some hw]; rfl
    · rintro _ ⟨⟩
      exact h.reached_le w hw
    · rw [hc, ahead_some hw]; rfl
  | case4 c hmem w hw hcov => exact h

theorem step (h : Counts c S) {c' : Cursor} {position : Nat} (hin : position ∈ S) (hnew : c.covers position = false)
    (hmark : c'.watermark = c.watermark) (habove : c'.above = c.above.erase position)
    (hcov : ∀ q, c'.covers q = true ↔ c.covers q = true ∨ q = position)
    (hreached : ∀ w, c'.walk = some w → w.reached ≤ w.len)
    (hahead : c'.ahead = if position < c.watermark then c.ahead else c.ahead + 1) : Counts c' S := by
  refine ⟨h.mem_iff_of fun q => ?_, h.small, fun q hq => ?_, fun q hq => ?_, hreached, ?_⟩
  · by_cases hq : q = position
    · subst hq
      exact ⟨fun _ => (h.mem_iff _).mp hin,
        fun _ => (isSettled_iff c' _).mpr (.inr (.inr ((hcov q).mpr (.inr rfl))))⟩
    · simp only [isSettled_iff, habove, hcov, hmark, mem_erase, ne_eq, hq, not_false_eq_true, true_and, or_false]
  · rw [habove] at hq
    rw [hmark]
    exact h.above_ge q (mem_of_mem_erase hq)
  · rw [habove] at hq
    have hunc := h.above_uncovered q (mem_of_mem_erase hq)
    refine Bool.eq_false_iff.mpr fun hc => ?_
    rcases (hcov q).mp hc with hc | hc
    · rw [hc] at hunc; cases hunc
    · exact ne_of_mem_erase hq hc
  · rw [hahead, h.ahead_eq]
    split
    · congr 1
      ext q
      simp only [mem_filter, hmark, hcov]
      refine and_congr_right fun _ => and_congr_right fun hle => (or_iff_left fun hc => ?_).symm
      omega
    · have hinsert : c'.aheadOf S = insert position (c.aheadOf S) := by
        ext q
        simp only [mem_filter, mem_insert, hmark, hcov]
        constructor
        · rintro ⟨hq, hle, hc | hc⟩
          · exact .inr ⟨hq, hle, hc⟩
          · exact .inl hc
        · rintro (hq | ⟨hq, hle, hc⟩)
          · subst hq
            exact ⟨hin, by omega, .inr rfl⟩
          · exact ⟨hq, hle, .inl hc⟩
      rw [hinsert, card_insert_of_notMem]
      intro hm
      rw [(mem_filter.mp hm).2.2] at hnew
      cases hnew

end Counts

theorem covers_succ {w : Walked} {position : Nat} (hp : w.order.atIndex w.reached = some position)
    (ahead q : Nat) :
    ({ w with reached := w.reached + 1, ahead := ahead } : Walked).covers q = true ↔
      w.covers q = true ∨ q = position := by
  simp only [Walked.covers, Option.any_eq_true, decide_eq_true_eq]
  show (∃ i, w.order.indexOf q = some i ∧ i < w.reached + 1) ↔ _
  constructor
  · rintro ⟨i, hi, hlt⟩
    rcases Nat.lt_or_eq_of_le (Nat.le_of_lt_succ hlt) with hlt | rfl
    · exact .inl ⟨i, hi, hlt⟩
    · rw [← atIndex_eq_some_iff, hp] at hi
      exact .inr (Option.some.inj hi).symm
  · rintro (⟨i, hi, hlt⟩ | rfl)
    · exact ⟨i, hi, by omega⟩
    · exact ⟨w.reached, atIndex_eq_some_iff.mp hp, by omega⟩

theorem covers_next {w : Walked} {position : Nat} (hp : w.order.atIndex w.reached = some position) :
    w.covers position = false := by
  refine Bool.eq_false_iff.mpr fun h => ?_
  obtain ⟨i, hi, hlt⟩ := (Option.any_eq_true ..).mp h
  rw [atIndex_eq_some_iff.mp hp] at hi
  cases hi
  simp at hlt

theorem follow_counts {watermark : Nat} {above : Finset Nat} {w : Walked} {S : Finset Nat}
    (h : Counts ⟨watermark, above, some w⟩ S) :
    Counts ⟨watermark, (follow watermark above w).1, some (follow watermark above w).2⟩ S := by
  fun_induction follow watermark above w with
  | case1 above w hp => exact h
  | case2 above w position hp hlt ih =>
    have hin : position ∈ S := (h.mem_iff _).mpr ((isSettled_iff _ _).mpr (.inl hlt))
    have hnot : position ∉ above := fun hm => absurd (h.above_ge _ hm) (Nat.not_le.mpr hlt)
    refine ih (h.step hin (covers_next hp) rfl (erase_eq_of_notMem hnot).symm
      (covers_succ hp _) ?_ (by rw [if_pos hlt]; rfl))
    rintro _ ⟨⟩
    exact (atIndex_lt hp).1
  | case3 above w position hp hge hmem ih =>
    have hin : position ∈ S := (h.mem_iff _).mpr ((isSettled_iff _ _).mpr (.inr (.inl hmem)))
    have hbound : w.ahead + 1 ≤ Word.top 64 := by
      have hcount := h.count
      have hle := h.card_le
      have hpos := card_pos.mpr ⟨position, hmem⟩
      simp only [ahead, Option.map_some, Option.getD_some] at hcount
      omega
    refine ih (h.step hin (covers_next hp) rfl rfl (covers_succ hp _) ?_ ?_)
    · rintro _ ⟨⟩
      exact (atIndex_lt hp).1
    · rw [if_neg hge]
      exact Word.satAdd_of_le hbound
  | case4 above w position hp hge hmem => exact h

/-- **Catching up settles nothing and forgets nothing.** -/
theorem catchUp_counts {c : Cursor} {S : Finset Nat} (h : Counts c S) : Counts c.catchUp S := by
  have hfollow : ∀ {c : Cursor} {w : Walked}, Counts c S → c.advance.walk = some w →
      Counts ⟨c.advance.watermark, (follow c.advance.watermark c.advance.above w).1,
        some (follow c.advance.watermark c.advance.above w).2⟩ S := by
    intro c w h hw
    have ha := h.advance
    rw [show c.advance = ⟨c.advance.watermark, c.advance.above, some w⟩ by rw [← hw]] at ha
    exact follow_counts ha
  fun_induction catchUp c with
  | case1 c hw => exact h.advance
  | case2 c w hw walked hstill => exact hfollow h hw
  | case3 c w hw walked hmoved ih => exact ih (hfollow h hw)

/-! ## Operations -/

variable {c : Cursor} {S : Finset Nat}

theorem new_counts : Counts new ∅ := by
  refine ⟨fun q => ?_, nofun, nofun, nofun, nofun, rfl⟩
  simp [new, isSettled, covers]

theorem settle_counts (h : Counts c S) {p : Nat} (hp : p < Word.top 64) : Counts (c.settle p) (insert p S) := by
  unfold settle
  split
  · rename_i hs
    rw [insert_eq_of_mem ((h.mem_iff p).mpr hs)]
    exact h
  · rename_i hs
    rw [isSettled_iff] at hs
    obtain ⟨hge, hnot, hunc⟩ : ¬ p < c.watermark ∧ p ∉ c.above ∧ ¬ c.covers p = true := by
      simpa [not_or] using hs
    refine catchUp_counts ⟨fun q => ?_, fun q hq => ?_, fun q hq => ?_, fun q hq => ?_, h.reached_le, ?_⟩
    · simp only [isSettled_iff, mem_insert, h.mem_iff, or_assoc]
      exact or_left_comm
    · rcases mem_insert.mp hq with rfl | hq
      · exact hp
      · exact h.small q hq
    · rcases mem_insert.mp hq with rfl | hq
      · exact Nat.le_of_not_lt hge
      · exact h.above_ge q hq
    · rcases mem_insert.mp hq with rfl | hq
      · exact Bool.eq_false_iff.mpr hunc
      · exact h.above_uncovered q hq
    · show c.ahead = (c.aheadOf (insert p S)).card
      rw [aheadOf, filter_insert, if_neg fun hc => hunc hc.2]
      exact h.ahead_eq

theorem along_counts (h : Counts c S) (order : Permutation) : Counts (c.along order) S := by
  unfold along
  split
  · rename_i hw
    have hnone : ∀ q, c.covers q = false := fun q => by simp [covers, hw]
    have hstart : ∀ q, (Walked.start order).covers q = false := by
      intro q
      refine Bool.eq_false_iff.mpr fun hc => ?_
      obtain ⟨i, -, hlt⟩ := (Option.any_eq_true ..).mp hc
      simp [Walked.start] at hlt
    refine catchUp_counts ⟨h.mem_iff_of fun q => ?_, h.small, h.above_ge, fun q _ => hstart q, ?_, ?_⟩
    · simp only [isSettled_iff, hnone]
      show q < c.watermark ∨ q ∈ c.above ∨ (Walked.start order).covers q = true ↔ _
      rw [hstart]
    · rintro _ ⟨⟩
      exact Nat.zero_le _
    · refine (card_eq_zero.mpr (filter_eq_empty_iff.mpr fun q _ hq => ?_)).symm
      have hc := hq.2
      rw [show Cursor.covers _ q = (Walked.start order).covers q from rfl, hstart] at hc
      cases hc
  · exact h

/-! ## Checkpoints -/

theorem Counts.clamped_eq (h : Counts c S) {w : Walked} (hw : c.walk = some w) : w.clamped c.watermark = w := by
  have hreached := h.reached_le w hw
  have hahead := h.ahead_eq
  rw [ahead_some hw] at hahead
  have hsub : c.aheadOf S ⊆ Finset.Ico c.watermark w.len := by
    intro q hq
    obtain ⟨-, hle, hc⟩ := mem_filter.mp hq
    rw [covers_some hw] at hc
    exact mem_Ico.mpr ⟨hle, covers_lt hc⟩
  have hpast : w.ahead ≤ w.len - c.watermark := by
    rw [hahead, ← Nat.card_Ico]
    exact card_le_card hsub
  have hbehind : w.ahead ≤ w.reached := by
    rw [hahead, ← card_range w.reached]
    refine card_le_card_of_injOn (fun q => (w.order.indexOf q).getD 0) (fun q hq => ?_) ?_
    · obtain ⟨-, -, hc⟩ := mem_filter.mp hq
      rw [covers_some hw] at hc
      obtain ⟨i, hi, hlt⟩ := (Option.any_eq_true ..).mp hc
      simpa [hi] using hlt
    · intro q hq q' hq' heq
      have hc := (mem_filter.mp hq).2.2
      have hc' := (mem_filter.mp hq').2.2
      rw [covers_some hw] at hc hc'
      obtain ⟨i, hi, -⟩ := (Option.any_eq_true ..).mp hc
      obtain ⟨i', hi', -⟩ := (Option.any_eq_true ..).mp hc'
      simp only [hi, hi', Option.getD_some] at heq
      subst heq
      rw [← atIndex_eq_some_iff] at hi hi'
      exact Option.some.inj (hi.symm.trans hi')
  cases w
  simp only [Walked.clamped, Walked.mk.injEq, true_and] at *
  omega

theorem Counts.walk_clamped (h : Counts c S) : c.walk.map (·.clamped c.watermark) = c.walk := by
  cases hw : c.walk with
  | none => rfl
  | some w => rw [Option.map_some, h.clamped_eq hw]

theorem Counts.above_filter (h : Counts c S) :
    ((c.above.sort (· ≤ ·)).filter fun q => decide (c.watermark ≤ q)).filter (fun q => !c.walk.any (·.covers q)) =
      c.above.sort (· ≤ ·) := by
  rw [List.filter_filter, List.filter_eq_self]
  intro q hq
  rw [mem_sort] at hq
  have hunc := h.above_uncovered q hq
  rw [covers] at hunc
  simp [h.above_ge q hq, hunc]

theorem checkpoint_isSettled (c : Cursor) (q : Nat) : c.checkpoint.isSettled q = c.isSettled q := by
  have hs : (c.above.sort (· ≤ ·)).Pairwise (· ≤ ·) := pairwise_sort _ _
  have hb : Bisect.isOk (Bisect.binarySearch (c.above.sort (· ≤ ·)) q) = decide (q ∈ c.above) := by
    rw [Bool.eq_iff_iff, Bisect.binarySearch_isOk_iff hs, mem_sort, decide_eq_true_eq]
  simp only [Checkpoint.isSettled, isSettled, checkpoint, hb]
  rfl

theorem Counts.checkpoint_settledCount (h : Counts c S) : c.checkpoint.settledCount = c.settledCount := by
  show Word.satAdd 64 (Word.satAdd 64 c.watermark (((c.walk.map (·.clamped c.watermark)).map (·.ahead)).getD 0))
    (((c.above.sort (· ≤ ·)).filter fun q => decide (c.watermark ≤ q)).filter
      fun q => !(c.walk.map (·.clamped c.watermark)).any (·.covers q)).length = _
  rw [h.walk_clamped, h.above_filter, length_sort]
  rfl

theorem Counts.fromCheckpoint_eq (h : Counts c S) : fromCheckpoint c.checkpoint = c.catchUp := by
  show catchUp ⟨c.watermark, (((c.above.sort (· ≤ ·)).filter fun q => decide (c.watermark ≤ q)).filter
    fun q => !(c.walk.map (·.clamped c.watermark)).any (·.covers q)).toFinset,
    c.walk.map (·.clamped c.watermark)⟩ = _
  rw [h.walk_clamped, h.above_filter, sort_toFinset]

theorem resume_counts (h : Counts c S) : Counts (fromCheckpoint c.checkpoint) S := by
  rw [h.fromCheckpoint_eq]
  exact catchUp_counts h

/-! ## Runs -/

inductive Op
  | settle (position : Nat)
  | along (order : Permutation)
  | resume

def Op.apply (c : Cursor) : Op → Cursor
  | .settle position => c.settle position
  | .along order => c.along order
  | .resume => fromCheckpoint c.checkpoint

def run (c : Cursor) (ops : List Op) : Cursor := ops.foldl Op.apply c

def settledBy : List Op → Finset Nat
  | [] => ∅
  | .settle position :: ops => insert position (settledBy ops)
  | .along _ :: ops => settledBy ops
  | .resume :: ops => settledBy ops

theorem mem_settledBy {q : Nat} : ∀ ops : List Op, q ∈ settledBy ops ↔ .settle q ∈ ops
  | [] => by simp [settledBy]
  | .settle p :: ops => by simp [settledBy, mem_settledBy ops]
  | .along order :: ops => by simp [settledBy, mem_settledBy ops]
  | .resume :: ops => by simp [settledBy, mem_settledBy ops]

theorem run_counts {ops : List Op} (hops : ∀ p, .settle p ∈ ops → p < Word.top 64) (h : Counts c S) :
    Counts (run c ops) (S ∪ settledBy ops) := by
  induction ops generalizing c S with
  | nil => simpa [run, settledBy] using h
  | cons op ops ih =>
    have hrest : ∀ p, .settle p ∈ ops → p < Word.top 64 := fun p hp => hops p (List.mem_cons_of_mem _ hp)
    cases op with
    | settle p =>
      have := ih hrest (settle_counts h (hops p List.mem_cons_self))
      rw [insert_union, ← union_insert] at this
      exact this
    | along order => exact ih hrest (along_counts h order)
    | resume => exact ih hrest (resume_counts h)

/-- **Cursor exactness over every run.** After any settlements, walks attached and checkpoints read
back, the positions settled are answered settled and counted once, and no others are. -/
theorem run_exact (start : Cursor) (hstart : start = new ∨ ∃ order, start = walking order) (ops : List Op)
    (hops : ∀ p, .settle p ∈ ops → p < Word.top 64) : (∀ q, (run start ops).isSettled q = true ↔ .settle q ∈ ops) ∧
    (∀ q, (run start ops).checkpoint.isSettled q = true ↔ .settle q ∈ ops) ∧
    (run start ops).settledCount = (settledBy ops).card ∧
    (run start ops).checkpoint.settledCount = (settledBy ops).card := by
  have hfresh : Counts start ∅ := by
    rcases hstart with rfl | ⟨order, rfl⟩
    · exact new_counts
    · exact along_counts new_counts order
  have h := run_counts hops hfresh
  rw [empty_union] at h
  have hmem : ∀ q, (run start ops).isSettled q = true ↔ .settle q ∈ ops := by
    intro q
    rw [← h.mem_iff]
    exact mem_settledBy ops
  refine ⟨hmem, fun q => ?_, h.settledCount_eq, ?_⟩
  · rw [checkpoint_isSettled]
    exact hmem q
  · rw [h.checkpoint_settledCount]
    exact h.settledCount_eq

/-- A walk attached after the first settlement, one position settled twice and a checkpoint read back in
between. -/
theorem run_exact_interleaved :
    (run new [.settle 3, .along (Permutation.new 7 5 (by decide)), .settle 0, .resume,
      .settle 3]).checkpoint.settledCount
      = 2 :=
  (run_exact new (.inl rfl) [.settle 3, .along (Permutation.new 7 5 (by decide)), .settle 0, .resume, .settle 3]
    (by intro p hp; simp only [List.mem_cons, Op.settle.injEq, reduceCtorEq, List.not_mem_nil, or_false, false_or] at hp
        unfold Word.top; omega)).2.2.2

end Cursor

end Zond.Journal

import Mathlib.Data.List.Basic

/-!
# Reading through a buffer

A reader takes one element at a time until it stops; the source hands its elements out in buffers of any sizes. What the
reader ends with, and where it leaves the source, is what it would be with all of them in one buffer (`drive_eq_scan`).
-/

namespace Zond

open List

/-- What is left to read, and the sizes of the buffers still to come, each less one: only the end gives an empty one. -/
structure Input (B : Type*) where
  rest : List B
  sizes : ℕ → ℕ

namespace Input

variable {B σ : Type*} (feed : σ → B → σ) (stopped : σ → Bool)

def fillBuf (source : Input B) : List B := source.rest.take (source.sizes 0 + 1)

def consume (source : Input B) (taken : ℕ) : Input B := ⟨source.rest.drop taken, fun i => source.sizes (i + 1)⟩

/-- One buffer: the state it leaves, and how much of it was taken. -/
def scan : σ → List B → σ × ℕ
  | state, [] => (state, 0)
  | state, b :: rest =>
    if stopped (feed state b) then (feed state b, 1)
    else ((scan (feed state b) rest).1, (scan (feed state b) rest).2 + 1)

/-- Buffer after buffer, until the reader stops or the source is at its end. -/
def drive : (fuel : ℕ) → σ → Input B → σ × Input B
  | 0, state, source => (state, source)
  | fuel + 1, state, source =>
    if source.fillBuf = [] then (state, source)
    else
      let read := scan feed stopped state source.fillBuf
      if stopped read.1 then (read.1, source.consume read.2) else drive fuel read.1 (source.consume read.2)

variable {feed stopped}

theorem scan_cons {state : σ} {b : B} (h : stopped (feed state b) = false) (rest : List B) :
    scan feed stopped state (b :: rest) =
      ((scan feed stopped (feed state b) rest).1, (scan feed stopped (feed state b) rest).2 + 1) :=
  if_neg (by simp [h])

theorem scan_append {state : σ} (h : stopped state = false) (xs ys : List B) : scan feed stopped state (xs ++ ys) =
      if stopped (scan feed stopped state xs).1 then scan feed stopped state xs
      else ((scan feed stopped (scan feed stopped state xs).1 ys).1,
        (scan feed stopped state xs).2 + (scan feed stopped (scan feed stopped state xs).1 ys).2) := by
  induction xs generalizing state with
  | nil => simp [scan, h]
  | cons x xs ih =>
    by_cases hx : stopped (feed state x) = true
    · simp [scan, hx]
    · have hx := Bool.eq_false_iff.mpr hx
      rw [cons_append, scan_cons hx, scan_cons hx, ih hx]
      split <;> simp [Nat.add_right_comm]

theorem scan_taken (state : σ) (xs : List B) (h : stopped (scan feed stopped state xs).1 = false) :
    (scan feed stopped state xs).2 = xs.length := by
  induction xs generalizing state with
  | nil => rfl
  | cons x xs ih =>
    by_cases hx : stopped (feed state x) = true
    · simp [scan, hx] at h
    · rw [scan_cons (Bool.eq_false_iff.mpr hx)] at h ⊢
      rw [ih _ h, length_cons]

/-- The rule for a text made of pieces: what every piece preserves, the text preserves. -/
theorem scan_flatMap {A : Type*} {P : List A → σ → Prop} {f : A → List B} (hgo : ∀ done s, P done s → stopped s = false)
    {all : List A} (hstep : ∀ done x s, x ∈ all → P done s → P (done ++ [x]) (scan feed stopped s (f x)).1)
    (done : List A) {s : σ} (h : P done s) : P (done ++ all) (scan feed stopped s (all.flatMap f)).1 := by
  induction all generalizing done s with
  | nil => simpa [scan] using h
  | cons x all ih =>
    have hx := hstep done x s mem_cons_self h
    have hall := ih (fun done y s hy => hstep done y s (mem_cons_of_mem x hy)) _ hx
    rw [flatMap_cons, scan_append (hgo _ _ h), hgo _ _ hx]
    simpa using hall

variable (feed stopped)

/-- **However the source is cut into buffers**, reading ends as with one. -/
theorem drive_eq_scan : ∀ (fuel : ℕ) (state : σ) (source : Input B), stopped state = false → source.rest.length ≤ fuel →
    (drive feed stopped fuel state source).1 = (scan feed stopped state source.rest).1 ∧
      (drive feed stopped fuel state source).2.rest = source.rest.drop (scan feed stopped state source.rest).2
  | 0, state, ⟨[], _⟩, _, _ => ⟨rfl, rfl⟩
  | fuel + 1, state, source, hstate, hfuel => by
    by_cases hnil : source.fillBuf = []
    · have : source.rest = [] := by simpa [fillBuf] using hnil
      simp [drive, hnil, this, scan]
    have happend := @scan_append _ _ feed stopped state hstate source.fillBuf (source.rest.drop (source.sizes 0 + 1))
    rw [show source.fillBuf ++ _ = source.rest from take_append_drop _ _] at happend
    rw [drive, if_neg hnil, happend]
    by_cases hstop : stopped (scan feed stopped state source.fillBuf).1 = true
    · simp [hstop, consume]
    · have hstop := Bool.eq_false_iff.mpr hstop
      have htaken := scan_taken state source.fillBuf hstop
      have hpos := length_pos_iff.mpr hnil
      have hrest : (source.consume source.fillBuf.length).rest = source.rest.drop (source.sizes 0 + 1) := by
        simp only [consume, fillBuf, length_take, drop_eq_drop_iff]
        omega
      have ih := drive_eq_scan fuel _ (source.consume source.fillBuf.length) hstop (by simp [consume]; omega)
      rw [hrest] at ih
      simp only [hstop, htaken, ih, Bool.false_eq_true, if_false, true_and]
      simp only [drop_drop, fillBuf, length_take, drop_eq_drop_iff]
      omega

end Input

end Zond

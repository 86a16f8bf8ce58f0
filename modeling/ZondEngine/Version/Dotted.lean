import ZondEngine.Version

/-!
# Ordering the versions services state

`version.rs`'s lax order of dotted versions. A run of digits is compared as a number only while it fits 64 bits on both
sides, and by its length once one side does not (`numberRunCmp`), so the order is a total preorder exactly where no
three runs are misread (`versionCmp_preorder_iff`).
-/

namespace Zond.VersionOrder

open Std Zond.ByPieces List

/-! ## The order -/

variable (s : Text)

def startsWithDigit : Bool := s.head?.any Char.isDigit

def splitPreRelease : Text → Text × Option Text
  | [] => ([], none)
  | c :: rest =>
    if c = '-' ∧ startsWithDigit rest = false then ([], some rest)
    else (c :: (splitPreRelease rest).1, (splitPreRelease rest).2)

def takeRun (wantDigits : Bool) : Text × Text := s.span fun c => c.isDigit == wantDigits

def lengthCmp (x y : Text) : Ordering :=
  (compare (Utf8.encode x).length (Utf8.encode y).length).then (compare (Utf8.encode x) (Utf8.encode y))

def numberRunCmp (x y : Text) : Ordering :=
  match (Text.parseUnsigned (2 ^ 64) x).toOption, (Text.parseUnsigned (2 ^ 64) y).toOption with
  | some m, some n => compare m n
  | _, _ => lengthCmp x y

def componentLoop : ℕ → Text → Text → Ordering
  | 0, _, _ => .eq
  | n + 1, a, b =>
    if a.isEmpty || b.isEmpty then compare (Utf8.encode a).length (Utf8.encode b).length
    else
      match startsWithDigit a, startsWithDigit b with
      | true, true =>
        let (x, restA) := takeRun a true
        let (y, restB) := takeRun b true
        let ordering := numberRunCmp x y
        if ordering.isNe then ordering else componentLoop n restA restB
      | false, false =>
        let (x, restA) := takeRun a false
        let (y, restB) := takeRun b false
        let ordering := compare (Utf8.encode x) (Utf8.encode y)
        if ordering.isNe then ordering else componentLoop n restA restB
      | true, false => .gt
      | false, true => .lt

def componentCmp (a b : Text) : Ordering := componentLoop (a.length + 1) a b

def components (a b : Text) : Ordering :=
  let a := a.splitOnP fun c => c == '.' || c == '-'
  let b := b.splitOnP fun c => c == '.' || c == '-'
  firstDifference (max a.length b.length) fun i => componentCmp (a[i]?.getD ['0']) (b[i]?.getD ['0'])

/-- Compares dotted versions. -/
def versionCmp (a b : Text) : Ordering :=
  let (aRelease, aPre) := splitPreRelease a
  let (bRelease, bPre) := splitPreRelease b
  let release := components aRelease bRelease
  if release.isNe then release
  else
    match aPre, bPre with
    | none, none => .eq
    | some _, none => .lt
    | none, some _ => .gt
    | some x, some y => components x y

/-! ## Runs of digits -/

def IsDigitRun (x : Text) : Prop := x ≠ [] ∧ ∀ c ∈ x, c.isDigit = true

def Fits (x : Text) : Prop := Nat.ofDigitChars 10 x 0 < 2 ^ 64

instance : DecidablePred Fits := fun _ => inferInstanceAs (Decidable (_ < _))

/-- Runs read inconsistently: `y` alone does not fit 64 bits, and `x`, no larger than `z`, has more digits than `y`. -/
structure Misread (x z y : Text) : Prop where
  runs : IsDigitRun x ∧ IsDigitRun z ∧ IsDigitRun y
  fits : Fits x ∧ Fits z ∧ ¬ Fits y
  number : Nat.ofDigitChars 10 x 0 ≤ Nat.ofDigitChars 10 z 0
  length : z.length ≤ y.length ∧ y.length < x.length

instance : TransCmp lengthCmp :=
  inferInstanceAs (TransCmp (compareLex (compareOn fun a : Text => (Utf8.encode a).length)
    (compareOn fun a : Text => Utf8.encode a)))

section Numbers

variable {x y z : Text}

theorem numberRunCmp_eq (hx : IsDigitRun x) (hy : IsDigitRun y) : numberRunCmp x y =
    if Fits x ∧ Fits y then compare (Nat.ofDigitChars 10 x 0) (Nat.ofDigitChars 10 y 0) else lengthCmp x y := by
  unfold numberRunCmp Fits
  rw [Text.toOption_parseUnsigned (by decide) hx.1 hx.2, Text.toOption_parseUnsigned (by decide) hy.1 hy.2]
  by_cases hfx : Nat.ofDigitChars 10 x 0 < 2 ^ 64 <;> by_cases hfy : Nat.ofDigitChars 10 y 0 < 2 ^ 64 <;>
    simp only [hfx, hfy, if_true, if_false, and_self, and_true, and_false]

theorem lengthCmp_of_fits (hx : IsDigitRun x) (hy : IsDigitRun y) (hfx : Fits x) (hfy : ¬ Fits y) :
    lengthCmp x y = if x.length ≤ y.length then .lt else .gt := by
  unfold lengthCmp
  rw [DigitRuns.length_encode_digits hx.2, DigitRuns.length_encode_digits hy.2]
  rcases Nat.lt_trichotomy x.length y.length with hlt | heq | hlt
  · rw [compare_lt_iff_lt.mpr hlt, if_pos hlt.le]
    rfl
  · have hlen : (Utf8.encode x).length = (Utf8.encode y).length := by
      rw [DigitRuns.length_encode_digits hx.2, DigitRuns.length_encode_digits hy.2, heq]
    rw [Nat.compare_eq_eq.mpr heq, if_pos heq.le, DigitRuns.compare_of_length_eq (DigitRuns.allDigits_encode hx.2)
      (DigitRuns.allDigits_encode hy.2) hlen, DigitRuns.number_encode hx.2, DigitRuns.number_encode hy.2,
      compare_lt_iff_lt.mpr (hfx.trans_le (Nat.le_of_not_lt hfy))]
    rfl
  · rw [compare_gt_iff_gt.mpr hlt, if_neg (Nat.not_le_of_lt hlt)]
    rfl

theorem isLE_lengthCmp_iff (hx : IsDigitRun x) (hy : IsDigitRun y) (hfx : Fits x) (hfy : ¬ Fits y) :
    (lengthCmp x y).isLE = true ↔ x.length ≤ y.length := by
  rw [lengthCmp_of_fits hx hy hfx hfy]
  split <;> simp [*]

theorem isLE_lengthCmp_iff' (hx : IsDigitRun x) (hy : IsDigitRun y) (hfx : Fits x) (hfy : ¬ Fits y) :
    (lengthCmp y x).isLE = true ↔ y.length < x.length := by
  have hflip : lengthCmp y x = (lengthCmp x y).swap := OrientedCmp.eq_swap
  rw [hflip, lengthCmp_of_fits hx hy hfx hfy, ← Nat.not_le]
  split <;> simp [*]

theorem numberRunCmp_swap (hx : IsDigitRun x) (hy : IsDigitRun y) : numberRunCmp x y = (numberRunCmp y x).swap := by
  rw [numberRunCmp_eq hx hy, numberRunCmp_eq hy hx]
  by_cases hfits : Fits x ∧ Fits y
  · rw [if_pos hfits, if_pos hfits.symm]
    exact OrientedCmp.eq_swap
  · rw [if_neg hfits, if_neg fun h => hfits h.symm]
    exact OrientedCmp.eq_swap

/-- **Runs of digits are read consistently where none of three is misread.** -/
theorem numberRunCmp_isLE_trans (hx : IsDigitRun x) (hy : IsDigitRun y) (hz : IsDigitRun z) (hxyz : ¬ Misread x y z)
    (hzxy : ¬ Misread z x y) (hyzx : ¬ Misread y z x) (hxy : (numberRunCmp x y).isLE = true)
    (hyz : (numberRunCmp y z).isLE = true) : (numberRunCmp x z).isLE = true := by
  rw [numberRunCmp_eq hx hy] at hxy
  rw [numberRunCmp_eq hy hz] at hyz
  rw [numberRunCmp_eq hx hz]
  by_cases hfx : Fits x <;> by_cases hfy : Fits y <;> by_cases hfz : Fits z <;>
    simp only [hfx, hfy, hfz, and_self, and_true, and_false, if_true, if_false] at hxy hyz ⊢
  · exact TransCmp.isLE_trans hxy hyz
  · -- Only the last run does not fit: the first is no longer than it, or it is misread.
    rw [isLE_lengthCmp_iff hy hz hfy hfz] at hyz
    rw [isLE_lengthCmp_iff hx hz hfx hfz]
    rw [Nat.isLE_compare] at hxy
    by_contra hlong
    exact hxyz ⟨⟨hx, hy, hz⟩, ⟨hfx, hfy, hfz⟩, hxy, hyz, Nat.lt_of_not_le hlong⟩
  · rw [isLE_lengthCmp_iff hx hy hfx hfy] at hxy
    rw [isLE_lengthCmp_iff' hz hy hfz hfy] at hyz
    rw [Nat.isLE_compare]
    by_contra hlarge
    exact hzxy ⟨⟨hz, hx, hy⟩, ⟨hfz, hfx, hfy⟩, (Nat.lt_of_not_le hlarge).le, hxy, hyz⟩
  · exact TransCmp.isLE_trans hxy hyz
  · rw [isLE_lengthCmp_iff' hy hx hfy hfx] at hxy
    rw [isLE_lengthCmp_iff' hz hx hfz hfx]
    rw [Nat.isLE_compare] at hyz
    by_contra hshort
    exact hyzx ⟨⟨hy, hz, hx⟩, ⟨hfy, hfz, hfx⟩, hyz, Nat.le_of_not_lt hshort, hxy⟩
  · exact TransCmp.isLE_trans hxy hyz
  · exact TransCmp.isLE_trans hxy hyz
  · exact TransCmp.isLE_trans hxy hyz

theorem Misread.circle (h : Misread x z y) : (numberRunCmp x z).isLE = true ∧ (numberRunCmp z y).isLE = true ∧
    (numberRunCmp x y).isLE = false := by
  obtain ⟨⟨hx, hz, hy⟩, ⟨hfx, hfz, hfy⟩, hnumber, hlen, hlong⟩ := h
  rw [numberRunCmp_eq hx hz, numberRunCmp_eq hz hy, numberRunCmp_eq hx hy, if_pos ⟨hfx, hfz⟩, if_neg fun h => hfy h.2,
    if_neg fun h => hfy h.2, lengthCmp_of_fits hz hy hfz hfy, lengthCmp_of_fits hx hy hfx hfy, if_pos hlen,
    if_neg (Nat.not_le_of_lt hlong)]
  exact ⟨Nat.isLE_compare.mpr hnumber, rfl, rfl⟩

end Numbers

/-! ## Components as pieces -/

inductive Piece where
  | ending
  | text (x : Text)
  | digits (x : Text)

def pieceCmp : Piece → Piece → Ordering
  | .ending, .ending => .eq
  | .ending, _ => .lt
  | _, .ending => .gt
  | .text x, .text y => compare (Utf8.encode x) (Utf8.encode y)
  | .text _, .digits _ => .lt
  | .digits _, .text _ => .gt
  | .digits x, .digits y => numberRunCmp x y

def firstPiece : Piece :=
  if s.isEmpty then .ending
  else if startsWithDigit s then .digits (takeRun s true).1 else .text (takeRun s false).1

def afterPiece : Text := (takeRun s (startsWithDigit s)).2

theorem length_afterPiece : (afterPiece s).length ≤ s.length - 1 := by
  cases s with
  | nil => exact Nat.le_refl 0
  | cons c s =>
    rw [afterPiece, takeRun, span_eq_takeWhile_dropWhile]
    rw [dropWhile_cons_of_pos (by simp [startsWithDigit])]
    exact length_dropWhile_le _ _

theorem length_encode_pos {s : Text} (h : s ≠ []) : 0 < (Utf8.encode s).length := by
  cases s with
  | nil => exact absurd rfl h
  | cons c s =>
    rw [Utf8.encode_cons, length_append, String.length_utf8EncodeChar]
    exact Nat.add_pos_left (Char.utf8Size_pos c) _

theorem componentLoop_succ (n : ℕ) (a b : Text) : componentLoop (n + 1) a b =
    (pieceCmp (firstPiece a) (firstPiece b)).then (componentLoop n (afterPiece a) (afterPiece b)) := by
  have hnil : ∀ n, componentLoop n [] [] = .eq := by
    intro n
    cases n <;> rfl
  have hthen : ∀ o next : Ordering, (if o.isNe then o else next) = o.then next := by
    intro o next
    cases o <;> rfl
  cases a with
  | nil =>
    cases b with
    | nil => exact (hnil n).symm
    | cons d b =>
      have hpos := length_encode_pos (cons_ne_nil d b)
      have hlt : compare (Utf8.encode []).length (Utf8.encode (d :: b)).length = .lt := Nat.compare_eq_lt.mpr hpos
      have hpiece : pieceCmp (firstPiece []) (firstPiece (d :: b)) = .lt := by
        rw [firstPiece, firstPiece]
        cases startsWithDigit (d :: b) <;> rfl
      rw [hpiece, componentLoop]
      exact hlt
  | cons c a =>
    cases b with
    | nil =>
      have hpos := length_encode_pos (cons_ne_nil c a)
      have hgt : compare (Utf8.encode (c :: a)).length (Utf8.encode []).length = .gt := Nat.compare_eq_gt.mpr hpos
      have hpiece : pieceCmp (firstPiece (c :: a)) (firstPiece []) = .gt := by
        rw [firstPiece, firstPiece]
        cases startsWithDigit (c :: a) <;> rfl
      rw [hpiece, componentLoop]
      exact hgt
    | cons d b =>
      rw [componentLoop, firstPiece, firstPiece, afterPiece, afterPiece]
      cases hc : startsWithDigit (c :: a) <;> cases hd : startsWithDigit (d :: b)
      · exact hthen _ _
      · rfl
      · rfl
      · exact hthen _ _

theorem componentLoop_eq : ∀ {n m : ℕ} {a b : Text}, a.length < n → n ≤ m → componentLoop m a b = componentLoop n a b
  | 0, _, _, _, ha, _ => absurd ha (Nat.not_lt_zero _)
  | _ + 1, 0, _, _, _, hm => absurd hm (Nat.not_succ_le_zero _)
  | n + 1, m + 1, a, b, ha, hm => by
    by_cases hempty : a = []
    · subst hempty
      rfl
    · have hra := length_afterPiece a
      have hpos := length_pos_iff.mpr hempty
      rw [componentLoop_succ, componentLoop_succ, componentLoop_eq (n := n) (by omega) (by omega)]

theorem unrolls_component : Unrolls componentCmp pieceCmp firstPiece afterPiece List.length where
  step a b := by
    have hra := length_afterPiece a
    unfold componentCmp
    rw [← componentLoop_eq (m := a.length + 2) (by omega) (by omega), componentLoop_succ,
      componentLoop_eq (n := (afterPiece a).length + 1) (by omega) (by omega)]
  done a b ha hb := by
    rw [length_eq_zero_iff.mp ha, length_eq_zero_iff.mp hb]
    rfl
  shrinks := length_afterPiece

/-! ## The runs of a version -/

def digitRuns : List Text := (s.splitOnP fun c => !c.isDigit).filter fun run => !run.isEmpty

def Spelled (D : Set Text) (s : Text) : Prop := ∀ run ∈ digitRuns s, run ∈ D

section Spelling

variable {D : Set Text}

theorem digitRuns_append {c : Char} (hc : c.isDigit = false) (a b : Text) :
    digitRuns (a ++ c :: b) = digitRuns a ++ digitRuns b := by
  unfold digitRuns
  rw [splitOnP_append_cons _ _ (by simp [hc]), filter_append]

theorem digitRuns_of_isDigitRun {x : Text} (hx : IsDigitRun x) : digitRuns x = [x] := by
  unfold digitRuns
  rw [splitOnP_eq_singleton fun c hc => by simp [hx.2 c hc]]
  simp [hx.1]

theorem spelled_nil : Spelled D [] := nofun

theorem spelled_append {c : Char} (hc : c.isDigit = false) {a b : Text} :
    Spelled D (a ++ c :: b) ↔ Spelled D a ∧ Spelled D b := by
  unfold Spelled
  rw [digitRuns_append hc]
  exact forall_mem_append

theorem digitRuns_text_append {x : Text} (hx : ∀ c ∈ x, c.isDigit = false) (b : Text) :
    digitRuns (x ++ b) = digitRuns b := by
  induction x with
  | nil => rfl
  | cons c x ih =>
    have hc := hx c mem_cons_self
    exact (digitRuns_append hc [] (x ++ b)).trans (ih fun d hd => hx d (mem_cons_of_mem _ hd))

def Piece.Spelled (D : Set Text) : Piece → Prop
  | .digits x => IsDigitRun x ∧ x ∈ D
  | _ => True

theorem spelled_pieces {s : Text} (h : Spelled D s) : (firstPiece s).Spelled D ∧ Spelled D (afterPiece s) := by
  cases s with
  | nil => exact ⟨trivial, h⟩
  | cons c s =>
    have hsplit := takeWhile_append_dropWhile (p := fun d => d.isDigit == startsWithDigit (c :: s)) (l := c :: s)
    rw [firstPiece, afterPiece, takeRun, takeRun, takeRun, span_eq_takeWhile_dropWhile,
      span_eq_takeWhile_dropWhile, span_eq_takeWhile_dropWhile, if_neg (by simp)]
    have hfirst : c.isDigit = startsWithDigit (c :: s) := rfl
    cases hdigit : startsWithDigit (c :: s) with
    | true =>
      rw [hdigit] at hsplit hfirst
      have hrun : IsDigitRun ((c :: s).takeWhile fun d => d.isDigit == true) := by
        refine ⟨by simp [hfirst], fun d hd => ?_⟩
        simpa using mem_takeWhile_imp hd
      have hruns := digitRuns_of_isDigitRun hrun
      -- The run ends with the text or at a character that parts it from what follows.
      cases hrest : (c :: s).dropWhile fun d => d.isDigit == true with
      | nil =>
        rw [hrest, append_nil] at hsplit
        rw [hsplit] at hrun hruns ⊢
        exact ⟨⟨hrun, h _ (by rw [hruns]; exact mem_singleton_self _)⟩, spelled_nil⟩
      | cons d rest =>
        have hd : d.isDigit = false := by
          have hne : (c :: s).dropWhile (fun d => d.isDigit == true) ≠ [] := by
            rw [hrest]
            exact cons_ne_nil d rest
          have hnot := head_dropWhile_not (fun d : Char => d.isDigit == true) hne
          simp only [hrest, head_cons] at hnot
          simpa using hnot
        rw [hrest] at hsplit
        have hboth := (spelled_append hd).mp (hsplit ▸ h)
        refine ⟨⟨hrun, hboth.1 _ (by rw [hruns]; exact mem_singleton_self _)⟩, ?_⟩
        exact (spelled_append hd).mpr ⟨spelled_nil, hboth.2⟩
    | false =>
      rw [hdigit] at hsplit
      refine ⟨trivial, fun run hmem => h run ?_⟩
      have htext : ∀ d ∈ (c :: s).takeWhile (fun d => d.isDigit == false), d.isDigit = false := fun d hd => by
        simpa using mem_takeWhile_imp hd
      rw [← hsplit, digitRuns_text_append htext]
      exact hmem

theorem spelled_splitOnP {p : Char → Bool} (hp : ∀ c, p c = true → c.isDigit = false) : ∀ (n : ℕ) {s : Text},
    s.length ≤ n → Spelled D s → ∀ part ∈ s.splitOnP p, Spelled D part := by
  intro n
  induction n with
  | zero =>
    intro s hlen h part hpart
    obtain rfl := length_eq_zero_iff.mp (Nat.le_zero.mp hlen)
    obtain rfl : part = [] := by simpa using hpart
    exact h
  | succ n ih =>
    intro s hlen h part hpart
    by_cases hsep : ∃ c ∈ s, p c = true
    · obtain ⟨c, hc, hsep⟩ := hsep
      obtain ⟨a, b, rfl⟩ := append_of_mem hc
      rw [length_append, length_cons] at hlen
      obtain ⟨ha, hb⟩ := (spelled_append (hp c hsep)).mp h
      rw [splitOnP_append_cons _ _ hsep, mem_append] at hpart
      rcases hpart with hpart | hpart
      · exact ih (by omega) ha part hpart
      · exact ih (by omega) hb part hpart
    · have hnone : ∀ c ∈ s, p c = false := fun c hc => by simpa using fun h => hsep ⟨c, hc, h⟩
      rw [splitOnP_eq_singleton hnone, mem_singleton] at hpart
      exact hpart ▸ h

theorem splitPreRelease_eq : ∀ version : Text, version = (splitPreRelease version).1 ++
    (splitPreRelease version).2.elim [] fun pre => '-' :: pre
  | [] => rfl
  | c :: rest => by
    rw [splitPreRelease]
    split
    next hsplit => rw [hsplit.1]; rfl
    next => exact congrArg (c :: ·) (splitPreRelease_eq rest)

theorem spelled_splitPreRelease {version : Text} (h : Spelled D version) :
    Spelled D (splitPreRelease version).1 ∧ ∀ pre ∈ (splitPreRelease version).2, Spelled D pre := by
  have heq := splitPreRelease_eq version
  cases hpre : (splitPreRelease version).2 with
  | none =>
    rw [hpre, Option.elim_none, append_nil] at heq
    exact ⟨heq ▸ h, nofun⟩
  | some pre =>
    rw [hpre, Option.elim_some] at heq
    obtain ⟨hrelease, hpre⟩ := (spelled_append (by decide)).mp (heq ▸ h)
    exact ⟨hrelease, fun other hother => Option.some.inj hother ▸ hpre⟩

end Spelling

section Restricted

variable {D : Set Text}

theorem pieceCmp_swap {p q : Piece} (hp : p.Spelled D) (hq : q.Spelled D) : pieceCmp p q = (pieceCmp q p).swap := by
  have hflip : ∀ x y : Text, compare (Utf8.encode x) (Utf8.encode y) = (compare (Utf8.encode y) (Utf8.encode x)).swap :=
    fun _ _ => OrientedCmp.eq_swap
  cases p <;> cases q <;> first | rfl | exact hflip _ _ | exact numberRunCmp_swap hp.1 hq.1

theorem pieceCmp_isLE_trans (hD : ∀ x ∈ D, ∀ z ∈ D, ∀ y ∈ D, ¬ Misread x z y) {p q r : Piece} (hp : p.Spelled D)
    (hq : q.Spelled D) (hr : r.Spelled D) (hpq : (pieceCmp p q).isLE = true) (hqr : (pieceCmp q r).isLE = true) :
    (pieceCmp p r).isLE = true := by
  -- The kinds of the three pieces decide, unless all are text or all are digits.
  cases p <;> cases q <;> cases r <;>
    first
    | rfl
    | exact absurd hpq Bool.false_ne_true
    | exact absurd hqr Bool.false_ne_true
    | skip
  · exact TransOrd.isLE_trans hpq hqr
  · exact numberRunCmp_isLE_trans hp.1 hq.1 hr.1 (hD _ hp.2 _ hq.2 _ hr.2) (hD _ hr.2 _ hp.2 _ hq.2)
      (hD _ hq.2 _ hr.2 _ hp.2) hpq hqr

theorem transCmp_pieceCmp (hD : ∀ x ∈ D, ∀ z ∈ D, ∀ y ∈ D, ¬ Misread x z y) :
    TransCmp fun p q : { p : Piece // p.Spelled D } => pieceCmp p q where
  eq_swap {p q} := pieceCmp_swap p.2 q.2
  isLE_trans {p q r} := pieceCmp_isLE_trans hD p.2 q.2 r.2

theorem transCmp_componentCmp (hD : ∀ x ∈ D, ∀ z ∈ D, ∀ y ∈ D, ¬ Misread x z y) :
    TransCmp fun a b : { s // Spelled D s } => componentCmp a b :=
  have := transCmp_pieceCmp hD
  (unrolls_component.restrict (fun _ hs => (spelled_pieces hs).1) fun _ hs => (spelled_pieces hs).2).transCmp

def partsCmp (a b : List Text) : Ordering :=
  firstDifference (max a.length b.length) fun i => componentCmp (a[i]?.getD ['0']) (b[i]?.getD ['0'])

theorem transCmp_components (hzero : ['0'] ∈ D) (hD : ∀ x ∈ D, ∀ z ∈ D, ∀ y ∈ D, ¬ Misread x z y) :
    TransCmp fun a b : { s // Spelled D s } => components a b := by
  have hpad : Spelled D ['0'] := by
    intro run hrun
    rw [digitRuns_of_isDigitRun ⟨by simp, fun c hc => mem_singleton.mp hc ▸ rfl⟩, mem_singleton] at hrun
    exact hrun ▸ hzero
  have hself : componentCmp ['0'] ['0'] = .eq := by decide +kernel
  have hunrolls := (unrolls_firstDifference (fun part : Option Text => part.getD ['0']) hself).restrict
    (S := fun parts => ∀ part ∈ parts, Spelled D part) (T := Spelled D)
    (fun parts hparts => by
      cases parts with
      | nil => exact hpad
      | cons part parts => exact hparts part mem_cons_self)
    fun parts hparts part hpart => hparts part (mem_of_mem_tail hpart)
  have := transCmp_componentCmp hD
  have : TransCmp fun a b : { parts : List Text // ∀ part ∈ parts, Spelled D part } => partsCmp a b := hunrolls.transCmp
  have hdot : ∀ c : Char, (c == '.' || c == '-') = true → c.isDigit = false := by
    intro c hc
    rcases Bool.or_eq_true_iff.mp hc with hc | hc <;> · rw [beq_iff_eq.mp hc]; rfl
  exact transCmp_on (fun a b : { parts : List Text // ∀ part ∈ parts, Spelled D part } => partsCmp a b)
    fun s : { s // Spelled D s } =>
      ⟨s.1.splitOnP fun c => c == '.' || c == '-', spelled_splitOnP hdot _ le_rfl s.2⟩

theorem versionCmp_eq (a b : Text) : versionCmp a b = (components (splitPreRelease a).1 (splitPreRelease b).1).then
      (optionCmp .gt components (splitPreRelease a).2 (splitPreRelease b).2) := by
  unfold versionCmp
  dsimp only
  cases components (splitPreRelease a).1 (splitPreRelease b).1 with
  | lt => rfl
  | gt => rfl
  | eq => cases (splitPreRelease a).2 <;> cases (splitPreRelease b).2 <;> rfl

/-- **The order is a total preorder on the versions of runs of digits none of which are misread.** -/
theorem preorderOn_versionCmp (hzero : ['0'] ∈ D) (hD : ∀ x ∈ D, ∀ z ∈ D, ∀ y ∈ D, ¬ Misread x z y) :
    PreorderOn (Spelled D) versionCmp := by
  have hcomponents := transCmp_components hzero hD
  have hoption : TransCmp (optionCmp .gt fun a b : { s // Spelled D s } => components a b) :=
    transCmp_optionCmp (by decide) _
  let release (v : { s // Spelled D s }) : { s // Spelled D s } :=
    ⟨(splitPreRelease v).1, (spelled_splitPreRelease v.2).1⟩
  let pre (v : { s // Spelled D s }) : Option { s // Spelled D s } :=
    (splitPreRelease v).2.pmap Subtype.mk (spelled_splitPreRelease v.2).2
  have hfirst := transCmp_on (fun a b : { s // Spelled D s } => components a b) release
  have hsecond := transCmp_on (optionCmp .gt fun a b : { s // Spelled D s } => components a b) pre
  have heq : (fun a b : { s // Spelled D s } => versionCmp a b) =
      compareLex (fun a b => components (release a) (release b))
        fun a b => optionCmp .gt (fun a b : { s // Spelled D s } => components a b) (pre a) (pre b) := by
    funext a b
    rw [versionCmp_eq, optionCmp_pmap .gt components (spelled_splitPreRelease a.2).2 (spelled_splitPreRelease b.2).2]
    rfl
  refine .of_transCmp ?_
  rw [heq]
  infer_instance

end Restricted

/-! ## Where the order is one -/

theorem versionCmp_digits {x y : Text} (hx : IsDigitRun x) (hy : IsDigitRun y) : versionCmp x y = numberRunCmp x y := by
  have hpre : ∀ {s : Text}, (∀ c ∈ s, c.isDigit = true) → splitPreRelease s = (s, none) := by
    intro s hs
    induction s with
    | nil => rfl
    | cons c s ih =>
      have hc : c ≠ '-' := by
        rintro rfl
        exact absurd (hs _ mem_cons_self) (by decide)
      rw [splitPreRelease, if_neg fun h => hc h.1, ih fun d hd => hs d (mem_cons_of_mem _ hd)]
  have hparts : ∀ {s : Text}, (∀ c ∈ s, c.isDigit = true) → s.splitOnP (fun c => c == '.' || c == '-') = [s] := by
    intro s hs
    refine splitOnP_eq_singleton fun c hc => ?_
    have hdigit := hs c hc
    rw [Bool.or_eq_false_iff, beq_eq_false_iff_ne, beq_eq_false_iff_ne]
    constructor <;> · rintro rfl; exact absurd hdigit (by decide)
  have hpieces : ∀ {s : Text}, IsDigitRun s → firstPiece s = .digits s ∧ afterPiece s = [] := by
    intro s hs
    have htaken : takeRun s true = (s, []) := by
      have hall : ∀ c ∈ s, (c.isDigit == true) = true := fun c hc => by simp [hs.2 c hc]
      rw [takeRun, span_eq_takeWhile_dropWhile, takeWhile_eq_self_iff.mpr hall, dropWhile_eq_nil_iff.mpr hall]
    have hstarts : startsWithDigit s = true := by
      cases s with
      | nil => exact absurd rfl hs.1
      | cons c s => exact hs.2 c mem_cons_self
    rw [firstPiece, afterPiece, hstarts, htaken, if_neg (by simp [hs.1])]
    exact ⟨rfl, rfl⟩
  have hcomponent : componentCmp x y = numberRunCmp x y := by
    rw [unrolls_component.step, (hpieces hx).1, (hpieces hy).1, (hpieces hx).2, (hpieces hy).2]
    exact Ordering.then_eq
  rw [versionCmp_eq, hpre hx.2, hpre hy.2]
  have hcomponents : components x y = componentCmp x y := by
    unfold components
    rw [hparts hx.2, hparts hy.2]
    exact (firstDifference_succ 0 _).trans Ordering.then_eq
  rw [hcomponents, hcomponent]
  exact Ordering.then_eq

/-- **The order is a total preorder on the versions spelled with some runs of digits exactly where no three of the runs
are misread.** A missing component is read as the run `0`. -/
theorem versionCmp_preorder_iff (D : Set Text) : PreorderOn (Spelled (insert ['0'] D)) versionCmp ↔
    ¬ ∃ x ∈ insert ['0'] D, ∃ z ∈ insert ['0'] D, ∃ y ∈ insert ['0'] D, Misread x z y := by
  constructor
  · rintro h ⟨x, hx, z, hz, y, hy, hmisread⟩
    obtain ⟨hxz, hzy, hxy⟩ := hmisread.circle
    obtain ⟨hrx, hrz, hry⟩ := hmisread.runs
    rw [← versionCmp_digits hrx hrz] at hxz
    rw [← versionCmp_digits hrz hry] at hzy
    rw [← versionCmp_digits hrx hry] at hxy
    have hspelled : ∀ {s : Text}, IsDigitRun s → s ∈ insert ['0'] D → Spelled (insert ['0'] D) s := by
      intro s hs hmem run hrun
      rw [digitRuns_of_isDigitRun hs, mem_singleton] at hrun
      exact hrun ▸ hmem
    have hle := h.trans x z y (hspelled hrx hx) (hspelled hrz hz) (hspelled hry hy) hxz hzy
    rw [hxy] at hle
    cases hle
  · intro h
    exact preorderOn_versionCmp (Set.mem_insert _ _) fun x hx z hz y hy hmisread =>
      h ⟨x, hx, z, hz, y, hy, hmisread⟩

/-- Zeros are read as zero, and as more than `2 ^ 64` when they are more: `0`, twenty-one zeros and `2 ^ 64` come in a
circle. -/
theorem versionCmp_zeros : versionCmp (List.replicate 21 '0') ['0'] = .eq ∧
    versionCmp ['0'] (Text.decimal (2 ^ 64)) = .lt ∧
    versionCmp (List.replicate 21 '0') (Text.decimal (2 ^ 64)) = .gt := by
  decide +kernel

example : versionCmp ['1', '.', '0', '-', 'r', 'c', '1'] ['1', '.', '0'] = .lt := by decide +kernel

end Zond.VersionOrder

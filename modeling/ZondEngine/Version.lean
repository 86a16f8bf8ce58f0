import Mathlib.Data.List.TakeDrop
import ZondEngine.Lib.ByPieces
import ZondEngine.Lib.DigitRuns

/-!
# Ordering package versions

`version.rs`'s order of Debian package versions, `[epoch:]upstream[-revision]`: it is total and transitive on all texts
(`dpkgCmp_transCmp`), equal up to leading zeros (`dpkgCmp_eq_iff`), and `~` makes a version an earlier one unless a
hyphen behind it moves the revision (`dpkgCmp_append_tilde`).
-/

namespace Zond.VersionOrder

open Std Zond.ByPieces Zond.Utf8 List

def isDigit (b : UInt8) : Bool := 48 ≤ b && b ≤ 57

def isAlphabetic (b : UInt8) : Bool := (65 ≤ b && b ≤ 90) || (97 ≤ b && b ≤ 122)

def digitRunCmp (a b : Bytes) : Ordering :=
  let a := a.dropWhile (· == 48)
  let b := b.dropWhile (· == 48)
  (compare a.length b.length).then (compare a b)

variable (s : Bytes)

def splitRun (digits : Bool) : Bytes × Bytes := s.span fun b => isDigit b == digits

/-- Where a byte of a non-digit run sorts: `~` below its end, letters above, other bytes above letters. -/
def dpkgWeight : Option UInt8 → Int
  | none => 0
  | some c => if c = 126 then -1 else if isAlphabetic c then c.toNat else c.toNat + 256

def textCmp (a b : Bytes) : Ordering := comparePadded dpkgWeight a b

def dpkgPartLoop : Nat → Bytes → Bytes → Ordering
  | 0, _, _ => .eq
  | n + 1, a, b =>
    if a.isEmpty && b.isEmpty then .eq
    else
      let (aText, aRest) := splitRun a false
      let (bText, bRest) := splitRun b false
      let text := textCmp aText bText
      if text.isNe then text
      else
        let (aDigits, aRest) := splitRun aRest true
        let (bDigits, bRest) := splitRun bRest true
        let number := digitRunCmp aDigits bDigits
        if number.isNe then number else dpkgPartLoop n aRest bRest

/-- Compares one part of a package version, the upstream version or the revision. -/
def dpkgPartCmp (a b : Text) : Ordering :=
  let a := Utf8.encode a
  let b := Utf8.encode b
  dpkgPartLoop (max a.length b.length) a b

variable (version : Text)

/-- Epoch, upstream version and revision. -/
def dpkgParts : Text × Text × Text :=
  let (epoch, rest) :=
    match Text.splitOnce ':' version with
    | some (epoch, rest) => if !epoch.isEmpty && epoch.all Char.isDigit then (epoch, rest) else (['0'], version)
    | none => (['0'], version)
  match Text.rsplitOnce '-' rest with
  | some (upstream, revision) => (epoch, upstream, revision)
  | none => (epoch, rest, ['0'])

/-- The revision of a package version. -/
def dpkgRevision : Text := (dpkgParts version).2.2

/-- Compares package versions as `dpkg` does. -/
def dpkgCmp (a b : Text) : Ordering :=
  let (aEpoch, aUpstream, aRevision) := dpkgParts a
  let (bEpoch, bUpstream, bRevision) := dpkgParts b
  ((digitRunCmp (Utf8.encode aEpoch) (Utf8.encode bEpoch)).then (dpkgPartCmp aUpstream bUpstream)).then
    (dpkgPartCmp aRevision bRevision)

/-! ## The runs of a part -/

def leadingRuns : Bytes × Bytes := ((splitRun s false).1, (splitRun (splitRun s false).2 true).1)

def afterRuns : Bytes := (splitRun (splitRun s false).2 true).2

def runsCmp (a b : Bytes × Bytes) : Ordering := (textCmp a.1 b.1).then (digitRunCmp a.2 b.2)

theorem length_afterRuns : (afterRuns s).length ≤ s.length - 1 := by
  cases s with
  | nil => exact Nat.le_refl 0
  | cons c s =>
    rw [afterRuns, splitRun, splitRun, span_eq_takeWhile_dropWhile, span_eq_takeWhile_dropWhile]
    by_cases hc : isDigit c = true
    · rw [dropWhile_cons_of_neg (by simp [hc]), dropWhile_cons_of_pos (by simp [hc])]
      exact length_dropWhile_le _ _
    · rw [dropWhile_cons_of_pos (by simpa using hc)]
      exact (length_dropWhile_le _ _).trans (length_dropWhile_le _ _)

instance : TransCmp textCmp := transCmp_comparePadded dpkgWeight

instance : TransCmp digitRunCmp :=
  inferInstanceAs (TransCmp (compareLex (compareOn fun a : Bytes => (a.dropWhile (· == 48)).length)
    (compareOn fun a : Bytes => a.dropWhile (· == 48))))

instance : TransCmp runsCmp :=
  have := transCmp_on textCmp (Prod.fst : Bytes × Bytes → Bytes)
  have := transCmp_on digitRunCmp (Prod.snd : Bytes × Bytes → Bytes)
  inferInstanceAs (TransCmp (compareLex (fun a b : Bytes × Bytes => textCmp a.1 b.1) fun a b => digitRunCmp a.2 b.2))

theorem dpkgPartLoop_succ (n : Nat) (a b : Bytes) : dpkgPartLoop (n + 1) a b =
      (runsCmp (leadingRuns a) (leadingRuns b)).then (dpkgPartLoop n (afterRuns a) (afterRuns b)) := by
  have hnil : ∀ n, dpkgPartLoop n [] [] = .eq := by
    intro n
    cases n <;> rfl
  rw [dpkgPartLoop]
  split
  · rename_i he
    rw [Bool.and_eq_true, List.isEmpty_iff, List.isEmpty_iff] at he
    rw [he.1, he.2]
    exact (hnil n).symm
  · simp only [runsCmp, leadingRuns, afterRuns]
    cases textCmp (splitRun a false).1 (splitRun b false).1 with
    | lt => rfl
    | gt => rfl
    | eq =>
      cases digitRunCmp (splitRun (splitRun a false).2 true).1 (splitRun (splitRun b false).2 true).1 <;> rfl

theorem dpkgPartLoop_eq : ∀ {n m : Nat} {a b : Bytes}, a.length ≤ n → b.length ≤ n → n ≤ m →
    dpkgPartLoop m a b = dpkgPartLoop n a b
  | 0, m, a, b, ha, hb, _ => by
    rw [length_eq_zero_iff.mp (by omega : a.length = 0), length_eq_zero_iff.mp (by omega : b.length = 0)]
    cases m <;> rfl
  | n + 1, 0, _, _, _, _, hm => by omega
  | n + 1, m + 1, a, b, ha, hb, hm => by
    have hra := length_afterRuns a
    have hrb := length_afterRuns b
    rw [dpkgPartLoop_succ, dpkgPartLoop_succ, dpkgPartLoop_eq (n := n) (by omega) (by omega) (by omega)]

theorem unrolls_dpkgPart :
    Unrolls (fun a b : Bytes => dpkgPartLoop (max a.length b.length) a b) runsCmp leadingRuns afterRuns
      List.length where
  step a b := by
    have hra := length_afterRuns a
    have hrb := length_afterRuns b
    rw [← dpkgPartLoop_eq (m := max a.length b.length + 1) (by omega) (by omega) (by omega), dpkgPartLoop_succ,
      dpkgPartLoop_eq (n := max (afterRuns a).length (afterRuns b).length) (by omega) (by omega) (by omega)]
  done a b ha hb := by
    rw [ha, hb]
    rfl
  shrinks := length_afterRuns

instance dpkgPartCmp_transCmp : TransCmp dpkgPartCmp :=
  have := unrolls_dpkgPart.transCmp
  transCmp_on (fun a b : Bytes => dpkgPartLoop (max a.length b.length) a b) Utf8.encode

/-- **The order of package versions is total and transitive**, on all texts. -/
instance dpkgCmp_transCmp : TransCmp dpkgCmp :=
  have := transCmp_on digitRunCmp fun v => Utf8.encode (dpkgParts v).1
  have := transCmp_on dpkgPartCmp fun v => (dpkgParts v).2.1
  have := transCmp_on dpkgPartCmp fun v => (dpkgParts v).2.2
  inferInstanceAs (TransCmp (compareLex
    (compareLex (fun a b => digitRunCmp (Utf8.encode (dpkgParts a).1) (Utf8.encode (dpkgParts b).1))
      fun a b => dpkgPartCmp (dpkgParts a).2.1 (dpkgParts b).2.1)
    fun a b => dpkgPartCmp (dpkgParts a).2.2 (dpkgParts b).2.2))

/-! ## What compares equal -/

def runsAt (part : Text) (i : ℕ) : Bytes × Bytes := leadingRuns (afterRuns^[i] (Utf8.encode part))

def SameRuns (a b : Text) : Prop :=
  ∀ i, (runsAt a i).1 = (runsAt b i).1 ∧ DigitRuns.stripped (runsAt a i).2 = DigitRuns.stripped (runsAt b i).2

theorem dpkgWeight_some (c : UInt8) : (c.toNat = 126 ∧ dpkgWeight (some c) = -1) ∨
    (65 ≤ c.toNat ∧ c.toNat ≤ 122 ∧ dpkgWeight (some c) = c.toNat) ∨ dpkgWeight (some c) = c.toNat + 256 := by
  have hletter : isAlphabetic c = true → 65 ≤ c.toNat ∧ c.toNat ≤ 122 := by
    simp only [isAlphabetic, Bool.or_eq_true, Bool.and_eq_true, decide_eq_true_eq, UInt8.le_iff_toNat_le]
    rintro (⟨hlow, hhigh⟩ | ⟨hlow, hhigh⟩)
    · exact ⟨hlow, hhigh.trans (by decide)⟩
    · exact ⟨Nat.le_trans (by decide) hlow, hhigh⟩
  simp only [dpkgWeight]
  split
  next htilde => exact .inl ⟨congrArg UInt8.toNat htilde, rfl⟩
  next =>
    split
    next halpha => exact .inr (.inl ⟨(hletter halpha).1, (hletter halpha).2, rfl⟩)
    next => exact .inr (.inr rfl)

theorem dpkgWeight_injective : Function.Injective dpkgWeight := by
  have hnone : dpkgWeight none = 0 := rfl
  rintro (_ | a) (_ | b) h
  · rfl
  · have hb := dpkgWeight_some b
    omega
  · have ha := dpkgWeight_some a
    omega
  · have ha := dpkgWeight_some a
    have hb := dpkgWeight_some b
    rw [Option.some.injEq, ← UInt8.toNat_inj]
    omega

theorem textCmp_cons (x y : UInt8) (a b : Bytes) :
    textCmp (x :: a) (y :: b) = (compare (dpkgWeight (some x)) (dpkgWeight (some y))).then (textCmp a b) :=
  (unrolls_comparePadded dpkgWeight).step _ _

theorem textCmp_eq_iff {a b : Bytes} : textCmp a b = .eq ↔ a = b := by
  refine ⟨fun h => ?_, fun h => h ▸ ReflCmp.compare_self⟩
  induction a generalizing b with
  | nil =>
    cases b with
    | nil => rfl
    | cons y b =>
      have hstep := (unrolls_comparePadded dpkgWeight).step [] (y :: b)
      rw [show comparePadded dpkgWeight [] (y :: b) = .eq from h, eq_comm, Ordering.then_eq_eq,
        LawfulEqCmp.compare_eq_iff_eq] at hstep
      cases dpkgWeight_injective hstep.1
  | cons x a ih =>
    cases b with
    | nil =>
      have hstep := (unrolls_comparePadded dpkgWeight).step (x :: a) []
      rw [show comparePadded dpkgWeight (x :: a) [] = .eq from h, eq_comm, Ordering.then_eq_eq,
        LawfulEqCmp.compare_eq_iff_eq] at hstep
      cases dpkgWeight_injective hstep.1
    | cons y b =>
      rw [textCmp_cons, Ordering.then_eq_eq, LawfulEqCmp.compare_eq_iff_eq] at h
      cases dpkgWeight_injective h.1
      rw [ih h.2]

theorem digitRunCmp_eq_iff {a b : Bytes} : digitRunCmp a b = .eq ↔ DigitRuns.stripped a = DigitRuns.stripped b := by
  show (compare (DigitRuns.stripped a).length (DigitRuns.stripped b).length).then
    (compare (DigitRuns.stripped a) (DigitRuns.stripped b)) = .eq ↔ _
  rw [Ordering.then_eq_eq, LawfulEqCmp.compare_eq_iff_eq, LawfulEqCmp.compare_eq_iff_eq]
  exact ⟨fun h => h.2, fun h => ⟨congrArg List.length h, h⟩⟩

theorem dpkgPartCmp_eq_iff {a b : Text} : dpkgPartCmp a b = .eq ↔ SameRuns a b := by
  refine unrolls_dpkgPart.eq_iff.trans (forall_congr' fun i => ?_)
  rw [runsCmp, Ordering.then_eq_eq, textCmp_eq_iff, digitRunCmp_eq_iff]
  rfl

def epochAndRest : Text × Text :=
  match Text.splitOnce ':' version with
  | some (epoch, rest) => if !epoch.isEmpty && epoch.all Char.isDigit then (epoch, rest) else (['0'], version)
  | none => (['0'], version)

theorem dpkgParts_eq : dpkgParts version =
    match Text.rsplitOnce '-' (epochAndRest version).2 with
    | some (upstream, revision) => ((epochAndRest version).1, upstream, revision)
    | none => ((epochAndRest version).1, (epochAndRest version).2, ['0']) := rfl

theorem fst_dpkgParts : (dpkgParts version).1 = (epochAndRest version).1 := by
  rw [dpkgParts_eq]
  split <;> rfl

theorem isDigit_epoch {version : Text} : ∀ c ∈ (dpkgParts version).1, c.isDigit = true := by
  rw [fst_dpkgParts, epochAndRest]
  split
  · split
    next hdigits => exact all_eq_true.mp (Bool.and_eq_true_iff.mp hdigits).2
    next => exact forall_mem_singleton.mpr rfl
  · exact forall_mem_singleton.mpr rfl

/-- **Versions are equal where their epochs are as numbers and their parts run by run**, up to leading zeros. -/
theorem dpkgCmp_eq_iff {a b : Text} : dpkgCmp a b = .eq ↔
    Nat.ofDigitChars 10 (dpkgParts a).1 0 = Nat.ofDigitChars 10 (dpkgParts b).1 0 ∧
      SameRuns (dpkgParts a).2.1 (dpkgParts b).2.1 ∧ SameRuns (dpkgParts a).2.2 (dpkgParts b).2.2 := by
  have hepochs : digitRunCmp (Utf8.encode (dpkgParts a).1) (Utf8.encode (dpkgParts b).1) = _ :=
    DigitRuns.compare_stripped (DigitRuns.allDigits_encode isDigit_epoch) (DigitRuns.allDigits_encode isDigit_epoch)
  rw [DigitRuns.number_encode isDigit_epoch, DigitRuns.number_encode isDigit_epoch] at hepochs
  unfold dpkgCmp
  rw [Ordering.then_eq_eq, Ordering.then_eq_eq, hepochs, LawfulEqCmp.compare_eq_iff_eq, dpkgPartCmp_eq_iff,
    dpkgPartCmp_eq_iff, and_assoc]

section Continued

variable {c : UInt8}

theorem compare_dpkgWeight_ne (c : UInt8) : compare (dpkgWeight (some c)) (dpkgWeight none) ≠ .eq := by
  rw [Ne, LawfulEqCmp.compare_eq_iff_eq]
  exact fun heq => nomatch dpkgWeight_injective heq

theorem then_of_ne {o : Ordering} (h : o ≠ .eq) (next : Ordering) : o.then next = o := by
  cases o with
  | lt => rfl
  | eq => exact absurd rfl h
  | gt => rfl

theorem textCmp_append (a t : Bytes) : textCmp (a ++ c :: t) a = compare (dpkgWeight (some c)) (dpkgWeight none) := by
  induction a with
  | nil =>
    refine ((unrolls_comparePadded dpkgWeight).step _ _).trans ?_
    exact then_of_ne (compare_dpkgWeight_ne c) _
  | cons x a ih =>
    have hsame : compare (dpkgWeight (some x)) (dpkgWeight (some x)) = .eq := ReflCmp.compare_self
    rw [cons_append, textCmp_cons, ih, hsame]
    rfl

theorem leadingRuns_append (hc : isDigit c = false) (t : Bytes) {a : Bytes} (ha : ∃ b ∈ a, isDigit b = true) :
    leadingRuns (a ++ c :: t) = leadingRuns a ∧ afterRuns (a ++ c :: t) = afterRuns a ++ c :: t := by
  have hrest : ¬ a.dropWhile (fun b => isDigit b == false) = [] := by
    rw [dropWhile_eq_nil_iff]
    intro hall
    obtain ⟨b, hb, hdigit⟩ := ha
    simpa [hdigit] using hall b hb
  have htext : (splitRun (a ++ c :: t) false) = ((splitRun a false).1, (splitRun a false).2 ++ c :: t) := by
    unfold splitRun
    rw [span_eq_takeWhile_dropWhile, span_eq_takeWhile_dropWhile, takeWhile_append, if_neg,
      dropWhile_append, if_neg (by simpa using hrest)]
    intro hlen
    refine hrest (dropWhile_eq_nil_iff.mpr (takeWhile_eq_self_iff.mp ?_))
    exact (takeWhile_sublist _).eq_of_length hlen
  have hdigits : ∀ s : Bytes, splitRun (s ++ c :: t) true = ((splitRun s true).1, (splitRun s true).2 ++ c :: t) := by
    intro s
    unfold splitRun
    rw [span_eq_takeWhile_dropWhile, span_eq_takeWhile_dropWhile, takeWhile_append, dropWhile_append]
    split
    next hlen =>
      have hall := takeWhile_eq_self_iff.mp ((takeWhile_sublist _).eq_of_length hlen)
      have hnil := dropWhile_eq_nil_iff.mpr hall
      rw [hnil, (takeWhile_sublist _).eq_of_length hlen]
      simp [hc]
    next hlen =>
      rw [if_neg]
      intro hnil
      refine hlen (congrArg List.length (takeWhile_eq_self_iff.mpr (dropWhile_eq_nil_iff.mp ?_)))
      exact List.isEmpty_iff.mp hnil
  unfold leadingRuns afterRuns
  rw [htext, hdigits]
  exact ⟨rfl, rfl⟩

theorem leadingRuns_append_of_text (hc : isDigit c = false) (t : Bytes) {a : Bytes} (ha : ∀ b ∈ a, isDigit b = false) :
    (leadingRuns a).1 = a ∧ ∃ u, (leadingRuns (a ++ c :: t)).1 = a ++ c :: u := by
  have hall : ∀ b ∈ a, (isDigit b == false) = true := fun b hb => by simp [ha b hb]
  have htext : ∀ s : Bytes, (leadingRuns s).1 = s.takeWhile fun b => isDigit b == false := fun s => by
    rw [leadingRuns, splitRun, span_eq_takeWhile_dropWhile]
  rw [htext, htext]
  refine ⟨takeWhile_eq_self_iff.mpr hall, t.takeWhile fun b => isDigit b == false, ?_⟩
  rw [takeWhile_append_of_pos hall, takeWhile_cons_of_pos (by simp [hc])]

/-- **A part that goes on with a non-digit compares to itself as that byte to the end of a run.** -/
theorem dpkgPart_append (hc : isDigit c = false) (t : Bytes) : ∀ (n : ℕ) (a : Bytes), a.length ≤ n →
    dpkgPartLoop (max (a ++ c :: t).length a.length) (a ++ c :: t) a =
      compare (dpkgWeight (some c)) (dpkgWeight none) := by
  intro n
  induction n with
  | zero =>
    intro a ha
    obtain rfl := length_eq_zero_iff.mp (Nat.le_zero.mp ha)
    obtain ⟨hself, u, hruns⟩ := leadingRuns_append_of_text hc t (a := []) (by simp)
    refine (unrolls_dpkgPart.step _ _).trans ?_
    rw [runsCmp, hruns, hself, textCmp_append, Ordering.then_assoc]
    exact then_of_ne (compare_dpkgWeight_ne c) _
  | succ n ih =>
    intro a ha
    refine (unrolls_dpkgPart.step _ _).trans ?_
    by_cases hdigit : ∃ b ∈ a, isDigit b = true
    · obtain ⟨hruns, hafter⟩ := leadingRuns_append hc t hdigit
      have hshorter := length_afterRuns a
      rw [hruns, hafter, ih _ (by omega), show runsCmp (leadingRuns a) (leadingRuns a) = .eq from ReflCmp.compare_self]
      rfl
    · have htext : ∀ b ∈ a, isDigit b = false := fun b hb => by simpa using fun h => hdigit ⟨b, hb, h⟩
      obtain ⟨hself, u, hruns⟩ := leadingRuns_append_of_text hc t htext
      rw [runsCmp, hruns, hself, textCmp_append, Ordering.then_assoc]
      exact then_of_ne (compare_dpkgWeight_ne c) _

theorem dpkgPartCmp_tilde (part tail : Text) : dpkgPartCmp (part ++ '~' :: tail) part = .lt := by
  unfold dpkgPartCmp
  rw [Utf8.encode_append]
  exact dpkgPart_append (c := 126) rfl (Utf8.encode tail) _ _ le_rfl

theorem dpkgPartCmp_hyphen (part tail : Text) : dpkgPartCmp (part ++ '-' :: tail) part = .gt := by
  unfold dpkgPartCmp
  rw [Utf8.encode_append]
  exact dpkgPart_append (c := 45) rfl (Utf8.encode tail) _ _ le_rfl

theorem epochAndRest_append {c : Char} (hdigit : c.isDigit = false) (hcolon : ':' ≠ c) (version tail : Text) :
    epochAndRest (version ++ c :: tail) = ((epochAndRest version).1, (epochAndRest version).2 ++ c :: tail) := by
  unfold epochAndRest
  cases hsplit : Text.splitOnce ':' version with
  | some parts =>
    rw [Text.splitOnce_append_of_mem hsplit]
    dsimp only
    split <;> rfl
  | none =>
    rw [Text.splitOnce_append_of_notMem (Text.splitOnce_eq_none_iff.mp hsplit),
      show c :: tail = [c] ++ tail from rfl, Text.splitOnce_append_of_notMem (by simpa using hcolon)]
    cases Text.splitOnce ':' tail with
    | none => rfl
    | some parts =>
      -- A colon after it ends nothing that is all digits.
      simp [hdigit]

theorem mem_epochAndRest (version : Text) : '-' ∈ (epochAndRest version).2 ↔ '-' ∈ version := by
  unfold epochAndRest
  split
  next epoch rest hsplit =>
    split
    next hdigits =>
      have hepoch : '-' ∉ epoch := fun hmem =>
        absurd (all_eq_true.mp (Bool.and_eq_true_iff.mp hdigits).2 _ hmem) (by decide)
      rw [Text.eq_of_splitOnce hsplit]
      simp [hepoch]
    next => rfl
  next => rfl

/-- **What follows a version with `~` makes it an earlier one**, unless a hyphen in it takes the revision the version
has for part of the upstream version: then it is a later one. -/
theorem dpkgCmp_append_tilde (version tail : Text) : dpkgCmp (version ++ '~' :: tail) version =
    if '-' ∈ version ∧ '-' ∈ tail then .gt else .lt := by
  have hepoch : digitRunCmp (Utf8.encode (epochAndRest version).1) (Utf8.encode (epochAndRest version).1) = .eq :=
    ReflCmp.compare_self
  have hpart : ∀ part, dpkgPartCmp part part = .eq := fun part => ReflCmp.compare_self
  have hversion := mem_epochAndRest version
  unfold dpkgCmp
  rw [dpkgParts_eq, dpkgParts_eq, epochAndRest_append rfl (by decide)]
  generalize (epochAndRest version).2 = rest at hversion ⊢
  cases htail : Text.rsplitOnce '-' tail with
  | some after =>
    obtain ⟨upstream, revision⟩ := after
    have hmem : '-' ∈ tail := by
      rw [Text.eq_of_rsplitOnce htail]
      simp
    have hlast : Text.rsplitOnce '-' ('~' :: tail) = some ('~' :: upstream, revision) :=
      Text.rsplitOnce_append_of_mem (a := ['~']) htail
    rw [Text.rsplitOnce_append_of_mem hlast]
    cases hrest : Text.rsplitOnce '-' rest with
    | some parts =>
      obtain ⟨upstream', revision'⟩ := parts
      have heq := Text.eq_of_rsplitOnce hrest
      have hlater : dpkgPartCmp (rest ++ '~' :: upstream) upstream' = .gt := by
        rw [heq, append_assoc, cons_append]
        exact dpkgPartCmp_hyphen _ _
      have hmem' : '-' ∈ rest := by
        rw [heq]
        simp
      rw [if_pos ⟨hversion.mp hmem', hmem⟩]
      simp only [hepoch, hlater]
      rfl
    | none =>
      rw [if_neg fun h => Text.rsplitOnce_eq_none_iff.mp hrest (hversion.mpr h.1)]
      simp only [hepoch, dpkgPartCmp_tilde]
      rfl
  | none =>
    have hnot := Text.rsplitOnce_eq_none_iff.mp htail
    rw [if_neg fun h => hnot h.2, Text.rsplitOnce_append_of_notMem (by simpa using hnot)]
    cases Text.rsplitOnce '-' rest with
    | some parts =>
      simp only [Option.map_some, hepoch, hpart, dpkgPartCmp_tilde]
      rfl
    | none =>
      simp only [Option.map_none, hepoch, dpkgPartCmp_tilde]
      rfl

end Continued

/-- **The order of package versions is a total preorder**, and what follows a version with `~`
makes it an earlier one, unless a hyphen in it moves the revision. -/
theorem dpkgCmp_laws : PreorderOn (fun _ => True) dpkgCmp ∧ (∀ a b, dpkgCmp a b = .eq ↔
      Nat.ofDigitChars 10 (dpkgParts a).1 0 = Nat.ofDigitChars 10 (dpkgParts b).1 0 ∧
        SameRuns (dpkgParts a).2.1 (dpkgParts b).2.1 ∧ SameRuns (dpkgParts a).2.2 (dpkgParts b).2.2) ∧
    ∀ version tail, dpkgCmp (version ++ '~' :: tail) version = if '-' ∈ version ∧ '-' ∈ tail then .gt else .lt :=
  ⟨.of_transCmp (transCmp_on dpkgCmp Subtype.val), fun _ _ => dpkgCmp_eq_iff, dpkgCmp_append_tilde⟩

/-- A second hyphen moves the revision: `1-1~-` comes after `1-1`. -/
theorem dpkgCmp_tilde_hyphen : dpkgCmp (['1', '-', '1'] ++ '~' :: ['-']) ['1', '-', '1'] = .gt := by decide

example : dpkgCmp ['0', ':', '1', '.', '0', '2'] ['1', '.', '2', '-', '0'] = .eq := by decide

end Zond.VersionOrder

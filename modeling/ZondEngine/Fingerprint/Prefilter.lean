import ZondEngine.Fingerprint.Hir
import ZondEngine.Lib.Bitmap
import Mathlib.Data.List.Sort
import Mathlib.Data.List.ReduceOption

/-!
# The literal prefilter

From each pattern the prefilter takes a set of literals one of which every match holds (`guarded_requiredLiterals`), and
it selects the signatures one of whose literals the response holds, with those no set could be found for.
-/

namespace Zond.Fingerprint

open List hiding set product concat_cons

open Spans Option

def minLiteralLen : Nat := 3

def maxAlternationLiterals : Nat := 32

/-! ## Case classes -/

def casePair (c : Class) : Option UInt8 :=
  match c.members.take 3 with
  | [upper, lower] =>
    if lower < 256 then
      let lower := UInt8.ofNat lower
      if isAsciiLowercase lower ∧ (toAsciiUppercase lower).toNat = upper then some lower else none
    else none
  | _ => none

/-- The spellings of a letter whose class case folding widens past its two cases: `k` with the Kelvin sign, `s`
with the long s. -/
def caseTriple (c : Class) : Option (List Bytes) :=
  match c with
  | .bytes _ => none
  | .unicode _ =>
    match c.members.take 4 with
    | [0x4B, 0x6B, 0x212A] => some [[0x6B], utf8 (Char.ofNat 0x212A)]
    | [0x53, 0x73, 0x17F] => some [[0x73], utf8 (Char.ofNat 0x17F)]
    | _ => none

section Extraction

variable (crates : Crates)

mutual

/-- The pattern with letters of either case in lower case. -/
def folded : Hir → Hir
  | .class c => match casePair c with
    | some lower => crates.literal [lower]
    | none => .class c
  | .repetition min max greedy sub => crates.repetition min max greedy (folded sub)
  | .capture index name sub => crates.capture index name (folded sub)
  | .concat parts => crates.concat (foldedAll parts)
  | .alternation branches => crates.alternation (foldedAll branches)
  | .empty => .empty
  | .literal bytes => .literal bytes
  | .look assertion => .look assertion

def foldedAll : List Hir → List Hir
  | [] => []
  | h :: hs => folded h :: foldedAll hs

end

def joined (before after : List Bytes) : Option (List Bytes) :=
  if before.length * after.length > maxAlternationLiterals then none else some (product before after)

mutual

/-- The literals a pattern spells, where they are few. -/
def exactSet : Hir → Option (List Bytes)
  | .literal bytes => some [bytes]
  | .class c => caseTriple c
  | .capture _ _ sub => exactSet sub
  | .concat parts => (exactSets parts).foldlM (fun run set => do joined run (← set)) [[]]
  | .alternation branches => do
    let set ← (exactSets branches).foldlM (fun set more => do return set ++ (← more)) []
    if set.length ≤ maxAlternationLiterals then some set else none
  | _ => none

def exactSets : List Hir → List (Option (List Bytes))
  | [] => []
  | h :: hs => exactSet h :: exactSets hs

end

def exactRunsFrom (run : Option (List Bytes)) : List Hir → List (List Bytes)
  | [] => run.toList
  | part :: parts => match exactSet part, run with
    | some set, some before => match joined before set with
      | some longer => exactRunsFrom (some longer) parts
      | none => before :: exactRunsFrom (some set) parts
    | some set, none => exactRunsFrom (some set) parts
    | none, before => before.toList ++ exactRunsFrom none parts

def exactRuns (parts : List Hir) : List (List Bytes) := exactRunsFrom none parts

def compareSets (a b : List Bytes) : Ordering :=
  (compare (a.map List.length).min? (b.map List.length).min?).then (compare b.length a.length)

def maxBy {β : Type} (cmp : β → β → Ordering) : List β → Option β
  | [] => none
  | x :: xs => some (xs.foldl (fun best y => if cmp best y = .gt then best else y) x)

mutual

/-- Literals of which every match holds one. -/
def requiredSet : Hir → Option (List Bytes)
  | .literal bytes => if bytes.length ≥ minLiteralLen then some [bytes] else none
  | .capture _ _ sub => requiredSet sub
  | .repetition min _ _ sub => if min ≥ 1 then requiredSet sub else none
  | .concat parts =>
    let sets := (requiredSets parts).reduceOption ++ exactRuns parts
    maxBy compareSets (sets.filter fun set => set.all fun literal => decide (literal.length ≥ minLiteralLen))
  | .alternation branches => do
    let set ← (requiredSets branches).foldlM (fun set more => do return set ++ (← more)) []
    if set.length ≤ maxAlternationLiterals then some set else none
  | _ => none

def requiredSets : List Hir → List (Option (List Bytes))
  | [] => []
  | h :: hs => requiredSet h :: requiredSets hs

end

def literalSet (h : Hir) (kind : ExtractKind) : Option (List Bytes) := do
  let literals ← crates.extract kind h
  if literals.isEmpty then none
  else if literals.any List.isEmpty then none
  else some literals

/-- The literals to look for before a pattern is tried. -/
def requiredLiterals (pattern : String) : Option (List Bytes) := do
  let h := folded crates (← crates.parse pattern)
  match literalSet crates h .prefixes with
  | some set => some set
  | none => match requiredSet h with
    | some inner => some inner
    | none => literalSet crates h .suffixes

end Extraction

/-! ## The prefilter -/

structure Signature where
  pattern : String

structure LiteralPrefilter where
  /-- The patterns of the automaton. -/
  literals : List Bytes
  /-- A pattern's number to the signature that contributed it. -/
  literalOwner : List Nat
  /-- Signatures without a required literal. -/
  alwaysRun : List Nat
  signatureCount : Nat

variable (crates : Crates)

def index (pf : LiteralPrefilter) (idx : Nat) (signature : Signature) : LiteralPrefilter :=
  match requiredLiterals crates signature.pattern with
  | some lits => { pf with
      literals := pf.literals ++ lits
      literalOwner := pf.literalOwner ++ lits.map fun _ => idx }
  | none => { pf with alwaysRun := pf.alwaysRun ++ [idx] }

def buildFrom (crates : Crates) (pf : LiteralPrefilter) (idx : Nat) : List Signature → LiteralPrefilter
  | [] => pf
  | signature :: signatures => buildFrom crates (index crates pf idx signature) (idx + 1) signatures

def LiteralPrefilter.build (signatures : List Signature) : LiteralPrefilter :=
  buildFrom crates ⟨[], [], [], signatures.length⟩ 0 signatures

/-- What selection has so far: the bitset of signatures and the candidates in the order they were found. -/
structure Selection where
  (selected candidates : List Nat)

def markOwner (selected : List Nat) (owner : Nat) : Option (List Nat) :=
  if owner / 64 < selected.length then some (Bitmap.mark selected owner) else none

def hit (pf : LiteralPrefilter) (s : Selection) (pattern : Nat) : Option Selection := do
  let owner ← pf.literalOwner[pattern]?
  let marked ← markOwner s.selected owner
  if Bitmap.marked s.selected owner then return s else return ⟨marked, s.candidates ++ [owner]⟩

def LiteralPrefilter.candidates (crates : Crates) (pf : LiteralPrefilter) (response : Bytes) : Option (List Nat) := do
  let zeroed := List.replicate (max ((pf.signatureCount + 63) / 64) 1) 0
  let selected ← pf.alwaysRun.foldlM markOwner zeroed
  let s ← (crates.findOverlapping pf.literals response).foldlM (hit pf) ⟨selected, pf.alwaysRun⟩
  return s.candidates.mergeSort

/-! ## Folding -/

theorem foldedAll_eq_map (hs : List Hir) : foldedAll crates hs = hs.map (folded crates) := by
  induction hs with
  | nil => rfl
  | cons h hs ih => rw [foldedAll, ih, map_cons]

theorem exactSets_eq_map (hs : List Hir) : exactSets hs = hs.map exactSet := by
  induction hs with
  | nil => rfl
  | cons h hs ih => rw [exactSets, ih, map_cons]

theorem requiredSets_eq_map (hs : List Hir) : requiredSets hs = hs.map requiredSet := by
  induction hs with
  | nil => rfl
  | cons h hs ih => rw [requiredSets, ih, map_cons]

theorem eq_of_take_eq {β : Type} {l piece : List β} {n : Nat} (h : l.take n = piece) (hlt : piece.length < n) :
    l = piece := by
  rw [← h] at hlt ⊢
  rw [length_take] at hlt
  exact (take_of_length_le (by omega)).symm

theorem mem_range'_of_between {lo hi x : Nat} (h1 : lo ≤ x) (h2 : x ≤ hi) : x ∈ List.range' lo (hi + 1 - lo) :=
  mem_range'_1.mpr ⟨h1, by omega⟩

theorem Class.span_cases {c : Class} {before word after : Bytes} (h : c.span before word after) :
    (∃ ch : Char, ch.toNat ∈ c.members ∧ word = utf8 ch) ∨
      ∃ ranges b, c = .bytes ranges ∧ b.toNat ∈ c.members ∧ word = [b] := by
  cases c with
  | unicode ranges =>
    obtain ⟨range, hrange, ch, hlo, hhi, hword⟩ := h
    exact .inl ⟨ch, mem_flatMap.mpr ⟨range, hrange, mem_range'_of_between hlo hhi⟩, hword⟩
  | bytes ranges =>
    obtain ⟨range, hrange, b, hlo, hhi, hword⟩ := h
    refine .inr ⟨ranges, b, rfl, mem_flatMap.mpr ⟨range, hrange, mem_range'_of_between ?_ ?_⟩, hword⟩
    · exact UInt8.le_iff_toNat_le.mp hlo
    · exact UInt8.le_iff_toNat_le.mp hhi

theorem casePair_eq_some {c : Class} {lower : UInt8} (h : casePair c = some lower) :
    isAsciiLowercase lower = true ∧ c.members = [(toAsciiUppercase lower).toNat, lower.toNat] := by
  unfold casePair at h
  split at h
  next upper low htake =>
    obtain ⟨hlow, h⟩ := ite_none_right_eq_some.mp h
    obtain ⟨hpair, h⟩ := ite_none_right_eq_some.mp h
    cases h
    exact ⟨hpair.1, by rw [eq_of_take_eq htake (by simp), hpair.2, UInt8.toNat_ofNat_of_lt' hlow]⟩
  next => cases h

theorem toAsciiLowercase_of_pair {lower b : UInt8} (hlower : isAsciiLowercase lower = true)
    (hb : b.toNat ∈ [(toAsciiUppercase lower).toNat, lower.toNat]) : toAsciiLowercase b = toAsciiLowercase lower := by
  have hrange := of_decide_eq_true hlower
  rw [mem_cons, mem_singleton, UInt8.toNat_inj, UInt8.toNat_inj, toAsciiUppercase, if_pos hrange] at hb
  rcases hb with rfl | rfl
  · simp only [toAsciiLowercase, UInt8.le_iff_toNat_le, ← UInt8.toNat_inj, UInt8.reduceToNat,
      apply_ite UInt8.toNat, UInt8.toNat_add, UInt8.toNat_sub] at hrange ⊢
    split <;> split <;> omega
  · rfl

theorem lt_of_mem_pair {lower : UInt8} (hlower : isAsciiLowercase lower = true) {n : Nat}
    (hn : n ∈ [(toAsciiUppercase lower).toNat, lower.toNat]) : n < 128 := by
  have hrange := of_decide_eq_true hlower
  rw [mem_cons, mem_singleton, toAsciiUppercase, if_pos hrange] at hn
  simp only [UInt8.le_iff_toNat_le, UInt8.reduceToNat, UInt8.toNat_sub] at hrange hn
  omega

theorem reads_casePair {c : Class} {lower : UInt8} (h : casePair c = some lower) :
    Reads toAsciiLowercase c.span (exactly [lower]) := by
  obtain ⟨hlower, hmembers⟩ := casePair_eq_some h
  intro before word after hword
  refine ⟨[lower], ?_, rfl⟩
  have hone : ∃ b : UInt8, b.toNat ∈ c.members ∧ word = [b] := by
    rcases Class.span_cases hword with ⟨ch, hch, rfl⟩ | ⟨_, b, _, hb, rfl⟩
    · have hlt : ch.toNat < 128 := lt_of_mem_pair hlower (hmembers ▸ hch)
      refine ⟨UInt8.ofNat ch.toNat, ?_, utf8_of_lt hlt⟩
      rwa [UInt8.toNat_ofNat_of_lt' (hlt.trans (by decide))]
    · exact ⟨b, hb, rfl⟩
  obtain ⟨b, hb, rfl⟩ := hone
  rw [map_singleton, map_singleton, toAsciiLowercase_of_pair hlower (hmembers ▸ hb)]

section Folding

variable {crates}

/-- **A form and its folding match the same up to ASCII case.** -/
theorem reads_folded (lawful : crates.Lawful) (h : Hir) :
    Reads toAsciiLowercase (h.span crates.wide) ((folded crates h).span crates.wide) := by
  induction h using Hir.induction with
  | empty => exact Reads.refl _
  | literal bytes => exact Reads.refl _
  | «class» c =>
    rw [folded]
    cases hpair : casePair c with
    | none => exact Reads.refl _
    | some lower =>
      rw [lawful.literal]
      exact reads_casePair hpair
  | look assertion => exact Reads.refl _
  | repetition min max greedy sub ih =>
    rw [folded, lawful.repetition]
    exact ih.repeated (Hir.blind_span _ _) min max
  | capture index name sub ih =>
    rw [folded, lawful.capture]
    exact ih
  | concat parts ih =>
    rw [folded, lawful.concat, foldedAll_eq_map, Hir.span, Hir.span, Hir.spans_eq_map, Hir.spans_eq_map, List.map_map]
    exact reads_concat ih fun _ _ => Hir.blind_span _ _
  | alternation branches ih =>
    rw [folded, lawful.alternation, foldedAll_eq_map, Hir.span, Hir.span, Hir.spans_eq_map, Hir.spans_eq_map,
      List.map_map]
    exact reads_either ih

end Folding

section Exact

variable {wide : Char → Bool}

theorem joined_eq_some {before after set : List Bytes} (h : joined before after = some set) :
    set = product before after := (Option.some.inj (ite_none_left_eq_some.mp h).2).symm

theorem spelled_triple {ranges : List (Char × Char)} {upper lower third : Nat} {small : UInt8}
    (hmembers : (Class.unicode ranges).members = [upper, lower, third]) (hupper : upper < 128) (hlower : lower < 128)
    (hup : toAsciiLowercase (UInt8.ofNat upper) = toAsciiLowercase small)
    (hlow : toAsciiLowercase (UInt8.ofNat lower) = toAsciiLowercase small) :
    Spelled toAsciiLowercase (Class.unicode ranges).span [[small], utf8 (Char.ofNat third)] := by
  intro before word after hword
  rcases Class.span_cases hword with ⟨ch, hch, rfl⟩ | ⟨_, _, hbytes, _⟩
  · rw [hmembers, mem_cons, mem_cons, mem_singleton] at hch
    rcases hch with hch | hch | hch
    · refine ⟨[small], by simp, ?_⟩
      rw [utf8_of_lt (hch ▸ hupper), map_singleton, map_singleton, hch, hup]
    · refine ⟨[small], by simp, ?_⟩
      rw [utf8_of_lt (hch ▸ hlower), map_singleton, map_singleton, hch, hlow]
    · refine ⟨utf8 (Char.ofNat third), by simp, ?_⟩
      rw [← hch, Char.ofNat_toNat]
  · cases hbytes

theorem spelled_caseTriple {c : Class} {set : List Bytes} (h : caseTriple c = some set) :
    Spelled toAsciiLowercase c.span set := by
  cases c with
  | bytes ranges => cases h
  | unicode ranges =>
    rw [caseTriple] at h
    split at h
    iterate 2
      next htake =>
        cases h
        exact spelled_triple (eq_of_take_eq htake (by decide)) (by decide) (by decide) (by decide) (by decide)
    next => cases h

theorem spelled_foldlM_joined {parts : List Hir}
    (ih : ∀ part ∈ parts, ∀ {set}, exactSet part = some set → Spelled toAsciiLowercase (part.span wide) set)
    {R : Span UInt8} {run set : List Bytes} (hR : Spelled toAsciiLowercase R run)
    (hset : (parts.map exactSet).foldlM (fun run set => do joined run (← set)) run = some set) :
    Spelled toAsciiLowercase (seq R (concat (parts.map (Hir.span wide)))) set := by
  induction parts generalizing R run with
  | nil =>
    cases hset
    exact hR.seq_empty
  | cons part parts ihparts =>
    obtain ⟨longer, hlonger, hrest⟩ := bind_eq_some_iff.mp hset
    obtain ⟨spellings, hpart, hjoined⟩ := bind_eq_some_iff.mp hlonger
    have hspelled := hR.seq (ih part mem_cons_self hpart)
    rw [← joined_eq_some hjoined] at hspelled
    have hall := ihparts (fun q hq => ih q (mem_cons_of_mem _ hq)) hspelled hrest
    rw [map_cons, concat_cons]
    exact hall.of_imp seq_assoc

theorem subset_foldlM_append {β : Type} {f : β → Option (List Bytes)} {branches : List β} {acc set : List Bytes}
    (hset : (branches.map f).foldlM (fun set more => do return set ++ (← more)) acc = some set) :
    acc ⊆ set ∧ ∀ branch ∈ branches, ∃ part, f branch = some part ∧ part ⊆ set := by
  induction branches generalizing acc with
  | nil =>
    cases hset
    exact ⟨List.Subset.refl _, fun branch hbranch => by cases hbranch⟩
  | cons branch branches ih =>
    obtain ⟨next, hnext, hrest⟩ := bind_eq_some_iff.mp hset
    obtain ⟨part, hpart, hjoin⟩ := bind_eq_some_iff.mp hnext
    cases hjoin
    obtain ⟨hacc, hbranches⟩ := ih hrest
    refine ⟨fun l hl => hacc (mem_append_left _ hl), fun b hb => ?_⟩
    rcases mem_cons.mp hb with rfl | hb
    · exact ⟨part, hpart, fun l hl => hacc (mem_append_right _ hl)⟩
    · exact hbranches b hb

theorem eq_some_of_bounded {x : Option (List Bytes)} {set : List Bytes}
    (h : (do let all ← x; if all.length ≤ maxAlternationLiterals then some all else none) = some set) :
    x = some set := by
  obtain ⟨all, hall, hset⟩ := bind_eq_some_iff.mp h
  rw [hall, (ite_none_right_eq_some.mp hset).2]

/-- **An exact set spells every match.** -/
theorem spelled_exactSet {h : Hir} {set : List Bytes} (hset : exactSet h = some set) :
    Spelled toAsciiLowercase (h.span wide) set := by
  induction h using Hir.induction generalizing set with
  | empty | look | repetition => cases hset
  | literal bytes =>
    cases hset
    exact spelled_exactly bytes
  | «class» c => exact spelled_caseTriple hset
  | capture index name sub ih => exact ih hset
  | concat parts ih =>
    rw [exactSet, exactSets_eq_map] at hset
    have hall := spelled_foldlM_joined ih spelled_empty hset
    rw [Hir.span, Hir.spans_eq_map]
    exact hall.of_imp fun {before word after} hword => ⟨[], word, rfl, rfl, by rwa [append_nil]⟩
  | alternation branches ih =>
    rw [exactSet, exactSets_eq_map] at hset
    obtain ⟨-, hbranches⟩ := subset_foldlM_append (eq_some_of_bounded hset)
    rw [Hir.span, Hir.spans_eq_map]
    rintro before word after ⟨P, hP, hword⟩
    obtain ⟨branch, hbranch, rfl⟩ := mem_map.mp hP
    obtain ⟨part, hpart, hsub⟩ := hbranches branch hbranch
    obtain ⟨literal, hliteral, hsame⟩ := ih branch hbranch hpart hword
    exact ⟨literal, hsub hliteral, hsame⟩

theorem guarded_exactRunsFrom (parts : List Hir) :
    (∀ {R : Span UInt8} {run : List Bytes}, Spelled toAsciiLowercase R run → ∀ set ∈ exactRunsFrom (some run) parts,
      Guarded toAsciiLowercase (seq R (concat (parts.map (Hir.span wide)))) set) ∧
    ∀ set ∈ exactRunsFrom none parts, Guarded toAsciiLowercase (concat (parts.map (Hir.span wide))) set := by
  induction parts with
  | nil =>
    constructor
    · intro R run hR set hset
      rw [exactRunsFrom, toList_some, mem_singleton] at hset
      subst hset
      exact hR.guarded.seq_left _
    · intro set hset
      cases hset
  | cons part parts ih =>
    obtain ⟨ihopen, ihnone⟩ := ih
    constructor
    · intro R run hR set hset
      cases hpart : exactSet part with
      | none =>
        -- the part ends the run, which is given out
        simp only [exactRunsFrom, hpart, toList_some, singleton_append, mem_cons] at hset
        rcases hset with rfl | hset
        · exact hR.guarded.seq_left _
        · exact ((ihnone set hset).seq_right _).seq_right _
      | some spellings =>
        have hspelled : Spelled toAsciiLowercase (part.span wide) spellings := spelled_exactSet hpart
        cases hjoined : joined run spellings with
        | some longer =>
          simp only [exactRunsFrom, hpart, hjoined] at hset
          have hlonger := hR.seq hspelled
          rw [← joined_eq_some hjoined] at hlonger
          exact (ihopen hlonger set hset).of_imp seq_assoc
        | none =>
          -- the run is cut here, and the part opens the next
          simp only [exactRunsFrom, hpart, hjoined, mem_cons] at hset
          rcases hset with rfl | hset
          · exact hR.guarded.seq_left _
          · exact (ihopen hspelled set hset).seq_right _
    · intro set hset
      cases hpart : exactSet part with
      | none =>
        simp only [exactRunsFrom, hpart, toList_none, nil_append] at hset
        exact (ihnone set hset).seq_right _
      | some spellings =>
        simp only [exactRunsFrom, hpart] at hset
        exact ihopen (spelled_exactSet hpart) set hset

theorem guarded_exactRuns {parts : List Hir} {set : List Bytes} (h : set ∈ exactRuns parts) :
    Guarded toAsciiLowercase (concat (parts.map (Hir.span wide))) set :=
  (guarded_exactRunsFrom parts).2 set h

end Exact

section Required

variable {crates} {wide : Char → Bool}

theorem foldl_keep_mem {β : Type} (keep : β → β → Bool) (xs : List β) (x : β) :
    xs.foldl (fun best y => if keep best y then best else y) x ∈ x :: xs := by
  induction xs generalizing x with
  | nil => exact mem_cons_self
  | cons y ys ih =>
    rw [foldl_cons]
    rcases mem_cons.mp (ih (if keep x y then x else y)) with h | h
    · rw [h]
      split
      · exact mem_cons_self
      · exact mem_cons_of_mem _ mem_cons_self
    · exact mem_cons_of_mem _ (mem_cons_of_mem _ h)

theorem mem_of_maxBy {β : Type} {cmp : β → β → Ordering} {xs : List β} {x : β} (h : maxBy cmp xs = some x) :
    x ∈ xs := by
  cases xs with
  | nil => cases h
  | cons y ys =>
    cases h
    simpa using foldl_keep_mem (fun best y => decide (cmp best y = .gt)) ys y

/-- **A required set has a literal in every match.** -/
theorem guarded_requiredSet {h : Hir} {set : List Bytes} (hset : requiredSet h = some set) :
    Guarded toAsciiLowercase (h.span wide) set := by
  induction h using Hir.induction generalizing set with
  | empty | «class» | look => cases hset
  | literal bytes =>
    obtain ⟨_, hset⟩ := ite_none_right_eq_some.mp hset
    cases hset
    exact (spelled_exactly bytes).guarded
  | repetition min max greedy sub ih =>
    obtain ⟨hmin, hset⟩ := ite_none_right_eq_some.mp hset
    exact (ih hset).repeated hmin max
  | capture index name sub ih => exact ih hset
  | concat parts ih =>
    rw [requiredSet, requiredSets_eq_map] at hset
    have hmem := mem_of_mem_filter (mem_of_maxBy hset)
    rw [Hir.span, Hir.spans_eq_map]
    rcases mem_append.mp hmem with hpart | hrun
    · obtain ⟨part, hpart, hsome⟩ := mem_map.mp (reduceOption_mem_iff.mp hpart)
      exact guarded_concat_of_mem (mem_map_of_mem hpart) (ih part hpart hsome)
    · exact guarded_exactRuns hrun
  | alternation branches ih =>
    rw [requiredSet, requiredSets_eq_map] at hset
    obtain ⟨-, hbranches⟩ := subset_foldlM_append (eq_some_of_bounded hset)
    rw [Hir.span, Hir.spans_eq_map]
    refine guarded_either fun P hP => ?_
    obtain ⟨branch, hbranch, rfl⟩ := mem_map.mp hP
    obtain ⟨part, hpart, hsub⟩ := hbranches branch hbranch
    exact (ih branch hbranch hpart).mono hsub

theorem extract_of_literalSet {h : Hir} {kind : ExtractKind} {set : List Bytes}
    (hset : literalSet crates h kind = some set) : crates.extract kind h = some set := by
  obtain ⟨literals, hextract, hrest⟩ := bind_eq_some_iff.mp hset
  rw [hextract, (ite_none_left_eq_some.mp (ite_none_left_eq_some.mp hrest).2).2]

theorem guarded_prefixes (lawful : crates.Lawful) {h : Hir} {set : List Bytes}
    (hset : literalSet crates h .prefixes = some set) : Guarded toAsciiLowercase (h.span crates.wide) set := by
  intro before word after hword
  obtain ⟨literal, hliteral, hbegins⟩ := lawful.begins (extract_of_literalSet hset) hword
  exact ⟨literal, hliteral, (hbegins.map _).isInfix⟩

theorem guarded_suffixes (lawful : crates.Lawful) {h : Hir} {set : List Bytes}
    (hset : literalSet crates h .suffixes = some set) : Guarded toAsciiLowercase (h.span crates.wide) set := by
  intro before word after hword
  obtain ⟨literal, hliteral, hends⟩ := lawful.ends (extract_of_literalSet hset) hword
  exact ⟨literal, hliteral, (hends.map _).isInfix⟩

/-- **Every match of a pattern holds one of the literals taken from it.** -/
theorem guarded_requiredLiterals (lawful : crates.Lawful) {pattern : String} {h : Hir} {set : List Bytes}
    (hparse : crates.parse pattern = some h) (hset : requiredLiterals crates pattern = some set) :
    Guarded toAsciiLowercase (h.span crates.wide) set := by
  -- the literals are taken from the folding, which every match of the form is read as
  refine (reads_folded lawful h).guarded ?_
  rw [requiredLiterals, hparse] at hset
  dsimp only [bind_eq_bind, bind_some] at hset
  split at hset
  next found hfound =>
    cases hset
    exact guarded_prefixes lawful hfound
  next =>
    split at hset
    next inner hinner =>
      cases hset
      exact guarded_requiredSet hinner
    next => exact guarded_suffixes lawful hset

end Required

section Index

variable {crates} {done : List Signature} {pf : LiteralPrefilter}

structure Indexed (crates : Crates) (done : List Signature) (pf : LiteralPrefilter) : Prop where
  /-- Every literal has an owner. -/
  length_eq : pf.literalOwner.length = pf.literals.length
  /-- Every literal of a signature is in the automaton, under the signature's number. -/
  owned : ∀ {i : Nat} {signature : Signature} {lits : List Bytes}, done[i]? = some signature →
    requiredLiterals crates signature.pattern = some lits →
    ∀ lit ∈ lits, ∃ p : Nat, pf.literals[p]? = some lit ∧ pf.literalOwner[p]? = some i
  /-- A signature without literals is always run. -/
  always : ∀ {i : Nat} {signature : Signature}, done[i]? = some signature →
    requiredLiterals crates signature.pattern = none →
    i ∈ pf.alwaysRun
  owner_lt : ∀ owner ∈ pf.literalOwner, owner < done.length
  always_lt : ∀ owner ∈ pf.alwaysRun, owner < done.length
  ascending : pf.alwaysRun.Pairwise (· < ·)

theorem indexed_nil (count : Nat) : Indexed crates [] ⟨[], [], [], count⟩ where
  length_eq := rfl
  owned h := by cases h
  always h := by cases h
  owner_lt owner h := by cases h
  always_lt owner h := by cases h
  ascending := List.Pairwise.nil

theorem seen_cases {signature s : Signature} {i : Nat} (hi : (done ++ [signature])[i]? = some s) :
    done[i]? = some s ∨ i = done.length ∧ s = signature := by
  rcases Nat.lt_or_ge i done.length with hlt | hge
  · rw [List.getElem?_append_left hlt] at hi
    exact .inl hi
  · rw [List.getElem?_append_right hge] at hi
    obtain ⟨hi0, hs⟩ := List.getElem?_eq_some_iff.mp hi
    rw [length_singleton] at hi0
    have hidx : i = done.length := by omega
    subst hidx
    exact .inr ⟨rfl, by simpa using hs.symm⟩

theorem Indexed.push_always (h : Indexed crates done pf) {signature : Signature}
    (hreq : requiredLiterals crates signature.pattern = none) :
    Indexed crates (done ++ [signature]) { pf with alwaysRun := pf.alwaysRun ++ [done.length] } := by
  have hlen : (done ++ [signature]).length = done.length + 1 := by simp
  refine ⟨h.length_eq, ?_, ?_, ?_, ?_, ?_⟩
  · intro i s lits hi hlits
    rcases seen_cases hi with hi | ⟨-, rfl⟩
    · exact h.owned hi hlits
    · rw [hreq] at hlits
      cases hlits
  · intro i s hi hnone
    rcases seen_cases hi with hi | ⟨rfl, -⟩
    · exact mem_append_left _ (h.always hi hnone)
    · exact mem_append_right _ (mem_singleton_self _)
  · intro owner howner
    have := h.owner_lt owner howner
    omega
  · intro owner howner
    rcases mem_append.mp howner with howner | howner
    · have := h.always_lt owner howner
      omega
    · rw [mem_singleton.mp howner, hlen]
      exact Nat.lt_succ_self _
  · refine pairwise_append.mpr ⟨h.ascending, pairwise_singleton _ _, fun a ha b hb => ?_⟩
    rw [mem_singleton.mp hb]
    exact h.always_lt a ha

theorem Indexed.push_owned (h : Indexed crates done pf) {signature : Signature} {lits : List Bytes}
    (hreq : requiredLiterals crates signature.pattern = some lits) :
    Indexed crates (done ++ [signature])
      { pf with
        literals := pf.literals ++ lits
        literalOwner := pf.literalOwner ++ lits.map fun _ => done.length } := by
  have hlen : (done ++ [signature]).length = done.length + 1 := by simp
  refine ⟨?_, ?_, ?_, ?_, ?_, h.ascending⟩
  · simp [h.length_eq]
  · intro i s lits' hi hlits' lit hlit
    rcases seen_cases hi with hi | ⟨rfl, rfl⟩
    · obtain ⟨p, hp, howner⟩ := h.owned hi hlits' lit hlit
      refine ⟨p, ?_, ?_⟩
      · rw [List.getElem?_append_left (List.getElem?_eq_some_iff.mp hp).1, hp]
      · rw [List.getElem?_append_left (List.getElem?_eq_some_iff.mp howner).1, howner]
    · rw [hreq] at hlits'
      cases hlits'
      obtain ⟨j, hj⟩ := mem_iff_getElem?.mp hlit
      refine ⟨pf.literals.length + j, ?_, ?_⟩
      · rw [List.getElem?_append_right (Nat.le_add_right _ _), Nat.add_sub_cancel_left, hj]
      · rw [← h.length_eq, List.getElem?_append_right (Nat.le_add_right _ _), Nat.add_sub_cancel_left,
          List.getElem?_map, hj, map_some]
  · intro i s hi hnone
    rcases seen_cases hi with hi | ⟨-, rfl⟩
    · exact h.always hi hnone
    · rw [hreq] at hnone
      cases hnone
  · intro owner howner
    rcases mem_append.mp howner with howner | howner
    · have := h.owner_lt owner howner
      omega
    · obtain ⟨_, _, rfl⟩ := mem_map.mp howner
      omega
  · intro owner howner
    have := h.always_lt owner howner
    omega

theorem Indexed.step (h : Indexed crates done pf) (signature : Signature) :
    Indexed crates (done ++ [signature]) (index crates pf done.length signature) := by
  unfold index
  cases hreq : requiredLiterals crates signature.pattern with
  | none => exact h.push_always hreq
  | some lits => exact h.push_owned hreq

theorem Indexed.run (h : Indexed crates done pf) (signatures : List Signature) :
    Indexed crates (done ++ signatures) (buildFrom crates pf done.length signatures) := by
  induction signatures generalizing done pf with
  | nil => rwa [append_nil]
  | cons signature signatures ih =>
    have hnext := ih (h.step signature)
    rw [append_assoc, length_append, length_singleton] at hnext
    exact hnext

theorem index_signatureCount (pf : LiteralPrefilter) (idx : Nat) (signature : Signature) :
    (index crates pf idx signature).signatureCount = pf.signatureCount := by
  unfold index
  split <;> rfl

theorem buildFrom_signatureCount (signatures : List Signature) (pf : LiteralPrefilter) (idx : Nat) :
    (buildFrom crates pf idx signatures).signatureCount = pf.signatureCount := by
  induction signatures generalizing pf idx with
  | nil => rfl
  | cons signature signatures ih => rw [buildFrom, ih, index_signatureCount]

theorem indexed_build (crates : Crates) (signatures : List Signature) :
    Indexed crates signatures (LiteralPrefilter.build crates signatures) :=
  (indexed_nil signatures.length).run signatures

end Index

section Select

variable {pf : LiteralPrefilter} {n : Nat}

/-- What selection keeps: room in the bitset for `n` signatures, and the candidates marked in it, each once. -/
structure Selects (n : Nat) (s : Selection) : Prop where
  room : ∀ k < n, k / 64 < s.selected.length
  marked : ∀ k, Bitmap.marked s.selected k = true ↔ k ∈ s.candidates
  nodup : s.candidates.Nodup

theorem Selects.mark {s : Selection} (h : Selects n s) {owner : Nat} (hlt : owner < n)
    (hnew : owner ∉ s.candidates) : Selects n ⟨Bitmap.mark s.selected owner, s.candidates ++ [owner]⟩ where
  room := by
    intro k hk
    rw [Bitmap.length_mark]
    exact h.room k hk
  marked := by
    intro k
    rw [Bitmap.marked_mark (h.room owner hlt), Bool.or_eq_true, h.marked, decide_eq_true_eq, mem_append,
      mem_singleton]
  nodup := by
    refine nodup_append.mpr ⟨h.nodup, nodup_singleton _, fun a ha b hb hab => hnew ?_⟩
    rwa [← mem_singleton.mp hb, ← hab]

theorem foldlM_markOwner {ks : List Nat} (hks : ∀ k ∈ ks, k < n) {s : Selection} (h : Selects n s)
    (hnodup : (s.candidates ++ ks).Nodup) :
    ∃ bits, ks.foldlM markOwner s.selected = some bits ∧ Selects n ⟨bits, s.candidates ++ ks⟩ := by
  induction ks generalizing s with
  | nil => exact ⟨s.selected, rfl, by rwa [append_nil]⟩
  | cons k ks ih =>
    have hk := hks k mem_cons_self
    have hnew : k ∉ s.candidates := by
      intro hmem
      exact (nodup_append.mp hnodup).2.2 k hmem k mem_cons_self rfl
    have hassoc : s.candidates ++ k :: ks = (s.candidates ++ [k]) ++ ks := by simp
    rw [hassoc] at hnodup ⊢
    obtain ⟨bits, hbits, hall⟩ := ih (fun j hj => hks j (mem_cons_of_mem _ hj)) (h.mark hk hnew) hnodup
    refine ⟨bits, ?_, hall⟩
    rw [foldlM_cons, markOwner, if_pos (h.room k hk)]
    exact hbits

theorem Selects.hit {s : Selection} (h : Selects n s) {pattern owner : Nat}
    (howner : pf.literalOwner[pattern]? = some owner) (hlt : owner < n) :
    ∃ s', hit pf s pattern = some s' ∧ Selects n s' ∧ ∀ k, k ∈ s'.candidates ↔ k ∈ s.candidates ∨ k = owner := by
  unfold Fingerprint.hit
  rw [howner, bind_eq_bind, bind_some, markOwner, if_pos (h.room owner hlt), bind_eq_bind, bind_some]
  by_cases hmarked : Bitmap.marked s.selected owner = true
  · rw [if_pos hmarked]
    refine ⟨s, rfl, h, fun k => ⟨.inl, ?_⟩⟩
    rintro (hk | rfl)
    · exact hk
    · exact (h.marked k).mp hmarked
  · rw [if_neg hmarked]
    refine ⟨_, rfl, h.mark hlt fun hmem => hmarked ((h.marked owner).mpr hmem), fun k => ?_⟩
    rw [mem_append, mem_singleton]

theorem Selects.hits {s : Selection} (h : Selects n s) {hits : List Nat}
    (howners : ∀ p ∈ hits, ∃ owner, pf.literalOwner[p]? = some owner ∧ owner < n) :
    ∃ s', hits.foldlM (Fingerprint.hit pf) s = some s' ∧ Selects n s' ∧
      ∀ k, k ∈ s'.candidates ↔ k ∈ s.candidates ∨ ∃ p ∈ hits, pf.literalOwner[p]? = some k := by
  induction hits generalizing s with
  | nil => exact ⟨s, rfl, h, fun k => by simp⟩
  | cons p hits ih =>
    obtain ⟨owner, howner, hlt⟩ := howners p mem_cons_self
    obtain ⟨s₁, hs₁, hsel₁, hmem₁⟩ := h.hit howner hlt
    obtain ⟨s₂, hs₂, hsel₂, hmem₂⟩ := ih hsel₁ fun q hq => howners q (mem_cons_of_mem _ hq)
    refine ⟨s₂, by rw [foldlM_cons, hs₁]; exact hs₂, hsel₂, fun k => ?_⟩
    rw [hmem₂, hmem₁]
    constructor
    · rintro ((hk | rfl) | ⟨q, hq, hk⟩)
      · exact .inl hk
      · exact .inr ⟨p, mem_cons_self, howner⟩
      · exact .inr ⟨q, mem_cons_of_mem _ hq, hk⟩
    · rintro (hk | ⟨q, hq, hk⟩)
      · exact .inl (.inl hk)
      · rcases mem_cons.mp hq with rfl | hq
        · rw [howner] at hk
          exact .inl (.inr (Option.some.inj hk).symm)
        · exact .inr ⟨q, hq, hk⟩

theorem pairwise_lt_mergeSort {l : List Nat} (h : l.Nodup) : l.mergeSort.Pairwise (· < ·) := by
  have hle : l.mergeSort.Pairwise (· ≤ ·) := pairwise_mergeSort' (· ≤ ·) l
  have hnodup : l.mergeSort.Nodup := (mergeSort_perm l _).nodup_iff.mpr h
  exact hle.imp₂ (fun a b hab hne => Nat.lt_of_le_of_ne hab hne) hnodup

end Select

section Candidates

variable {crates}

/-- **Selection over a built prefilter**: it goes through, ascends without repetition, and has a signature exactly
when it is always run or one of its literals is in the response. -/
theorem candidates_build (lawful : crates.Lawful) (signatures : List Signature) (response : Bytes) :
    ∃ found, (LiteralPrefilter.build crates signatures).candidates crates response = some found ∧
      found.Pairwise (· < ·) ∧ ∀ k : Nat, k ∈ found ↔ k ∈ (LiteralPrefilter.build crates signatures).alwaysRun ∨
        ∃ (p : Nat) (literal : Bytes), (LiteralPrefilter.build crates signatures).literals[p]? = some literal ∧
          (LiteralPrefilter.build crates signatures).literalOwner[p]? = some k ∧
          lowercase literal <:+: lowercase response := by
  have hix := indexed_build crates signatures
  have hcount : (LiteralPrefilter.build crates signatures).signatureCount = signatures.length :=
    buildFrom_signatureCount signatures _ 0
  generalize LiteralPrefilter.build crates signatures = pf at hix hcount ⊢
  unfold LiteralPrefilter.candidates
  have hzero : Selects signatures.length ⟨List.replicate (max ((pf.signatureCount + 63) / 64) 1) 0, []⟩ := by
    refine ⟨fun k hk => ?_, fun k => ?_, nodup_nil⟩
    · rw [hcount, length_replicate]
      omega
    · unfold Bitmap.marked
      rw [List.getElem?_replicate]
      split <;> simp
  obtain ⟨bits, hbits, hstart⟩ := foldlM_markOwner hix.always_lt hzero (hix.ascending.imp fun hab => Nat.ne_of_lt hab)
  have howners : ∀ p ∈ crates.findOverlapping pf.literals response,
      ∃ owner, pf.literalOwner[p]? = some owner ∧ owner < signatures.length := by
    intro p hp
    obtain ⟨literal, hlit, -⟩ := (lawful.found _ _ _).mp hp
    have hlt : p < pf.literalOwner.length := hix.length_eq ▸ (List.getElem?_eq_some_iff.mp hlit).1
    exact ⟨_, List.getElem?_eq_getElem hlt, hix.owner_lt _ (getElem_mem hlt)⟩
  obtain ⟨s, hs, hsel, hmem⟩ := hstart.hits howners
  rw [nil_append] at hs hmem
  refine ⟨s.candidates.mergeSort, ?_, pairwise_lt_mergeSort hsel.nodup, fun k => ?_⟩
  · dsimp only at hbits ⊢
    rw [hbits]
    dsimp only [bind_eq_bind, bind_some]
    rw [hs]
    rfl
  · rw [mem_mergeSort, hmem]
    refine or_congr Iff.rfl ⟨?_, ?_⟩
    · rintro ⟨p, hp, hk⟩
      obtain ⟨literal, hlit, hin⟩ := (lawful.found _ _ _).mp hp
      exact ⟨p, literal, hlit, hk, hin⟩
    · rintro ⟨p, literal, hlit, hk, hin⟩
      exact ⟨p, (lawful.found _ _ _).mpr ⟨literal, hlit, hin⟩, hk⟩

theorem mem_candidates (lawful : crates.Lawful) {signatures : List Signature} {i : Nat} {signature : Signature}
    {h : Hir} {before word after : Bytes} {found : List Nat} (hi : signatures[i]? = some signature)
    (hparse : crates.parse signature.pattern = some h) (hmatch : crates.Matches h before word after)
    (hfound : (LiteralPrefilter.build crates signatures).candidates crates (before ++ word ++ after) = some found) :
    i ∈ found := by
  have hix := indexed_build crates signatures
  obtain ⟨all, hall, -, hmem⟩ := candidates_build lawful signatures (before ++ word ++ after)
  rw [hfound] at hall
  cases hall
  rw [hmem]
  cases hreq : requiredLiterals crates signature.pattern with
  | none => exact .inl (hix.always hi hreq)
  | some lits =>
    obtain ⟨literal, hliteral, hin⟩ := guarded_requiredLiterals lawful hparse hreq hmatch
    obtain ⟨p, hp, howner⟩ := hix.owned hi hreq literal hliteral
    refine .inr ⟨p, literal, hp, howner, hin.trans ?_⟩
    rw [lowercase, map_append, map_append]
    exact (suffix_append _ _).isInfix.trans (prefix_append _ _).isInfix

/-- **The prefilter never hides a match.** Selection goes through, its candidates ascend, and every
signature whose pattern matches somewhere in the response is among them. -/
theorem candidates_spec (lawful : crates.Lawful) :
    (∀ (pattern : String) (h : Hir) (set : List Bytes), crates.parse pattern = some h →
      requiredLiterals crates pattern = some set → ∀ before word after, crates.Matches h before word after →
        ∃ literal ∈ set, lowercase literal <:+: lowercase word) ∧ ∀ (signatures : List Signature) (response : Bytes),
      ∃ found, (LiteralPrefilter.build crates signatures).candidates crates response = some found ∧
        found.Pairwise (· < ·) ∧ ∀ (i : Nat) (signature : Signature) (h : Hir) (before word after : Bytes),
          signatures[i]? = some signature → crates.parse signature.pattern = some h →
          response = before ++ word ++ after → crates.Matches h before word after → i ∈ found := by
  constructor
  · intro pattern h set hparse hset before word after hmatch
    exact guarded_requiredLiterals lawful hparse hset hmatch
  · intro signatures response
    obtain ⟨found, hfound, hpairwise, -⟩ := candidates_build lawful signatures response
    refine ⟨found, hfound, hpairwise, fun i signature h before word after hi hparse hresponse hmatch => ?_⟩
    subst hresponse
    exact mem_candidates lawful hi hparse hmatch hfound

/-- `(?i).*bsd`, of which no match begins with a literal. -/
def bsd : Hir := .concat [.repetition 0 none true (.class (.unicode [('\x00', '\t'), ('\x0b', Char.ofNat 0x10FFFF)])),
  .class (.unicode [('B', 'B'), ('b', 'b')]),
  .class (.unicode [('S', 'S'), ('s', 's'), (Char.ofNat 0x17F, Char.ofNat 0x17F)]),
  .class (.unicode [('D', 'D'), ('d', 'd')])]

example : requiredLiterals (.plain fun _ => some bsd) "" = some [[0x62, 0x73, 0x64], [0x62, 0xC5, 0xBF, 0x64]] := by
  decide

/-- The rule for `bsd` is selected for a response that spells it with the long s. -/
theorem candidates_spec_long_s : (Crates.plain fun _ => some bsd).Lawful ∧
    (Crates.plain fun _ => some bsd).Matches bsd [0x20] [0x42, 0xC5, 0xBF, 0x44] [0x2F, 0x39] ∧
    ∃ found, (LiteralPrefilter.build (.plain fun _ => some bsd) [⟨"(?i).*bsd"⟩]).candidates (.plain fun _ => some bsd)
      [0x20, 0x42, 0xC5, 0xBF, 0x44, 0x2F, 0x39] = some found ∧ 0 ∈ found := by
  have hlawful := Crates.lawful_plain fun _ => some bsd
  have hmatch : (Crates.plain fun _ => some bsd).Matches bsd [0x20] [0x42, 0xC5, 0xBF, 0x44] [0x2F, 0x39] := by
    -- the repetition matches nothing, each class a character
    refine ⟨[], _, rfl, ⟨0, le_rfl, nofun, rfl⟩,
      [0x42], [0xC5, 0xBF, 0x44], rfl, ⟨('B', 'B'), by simp, 'B', by decide, by decide, by decide⟩,
      [0xC5, 0xBF], [0x44], rfl, ⟨(Char.ofNat 0x17F, Char.ofNat 0x17F), by simp, Char.ofNat 0x17F, by decide,
        by decide, by decide⟩, [0x44], [], rfl, ⟨('D', 'D'), by simp, 'D', by decide, by decide, by decide⟩, rfl⟩
  obtain ⟨found, hfound, -, hmem⟩ := (candidates_spec hlawful).2 [⟨"(?i).*bsd"⟩]
    [0x20, 0x42, 0xC5, 0xBF, 0x44, 0x2F, 0x39]
  exact ⟨hlawful, hmatch, found, hfound, hmem 0 ⟨"(?i).*bsd"⟩ bsd [0x20] [0x42, 0xC5, 0xBF, 0x44] [0x2F, 0x39] rfl rfl
    rfl hmatch⟩

end Candidates

end Zond.Fingerprint

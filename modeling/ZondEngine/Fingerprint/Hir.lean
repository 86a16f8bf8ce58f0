import ZondEngine.Lib.Spans
import ZondEngine.Lib.Utf8

/-!
# Parsed patterns

The high-level form of a pattern (`Hir`) and what it matches: a relation between a stretch of a response and what stands
round it (`Hir.span`). The libraries are collected in `Crates`, and `Crates.Lawful` is what their documentation
promises.
-/

namespace Zond.Fingerprint

open Spans List Option

abbrev Bytes := List UInt8

/-! ## Letter case -/

variable (b : UInt8)

def toAsciiLowercase : UInt8 := if 65 ≤ b ∧ b ≤ 90 then b + 32 else b

def toAsciiUppercase : UInt8 := if 97 ≤ b ∧ b ≤ 122 then b - 32 else b

def isAsciiLowercase : Bool := decide (97 ≤ b ∧ b ≤ 122)

def isWordByte : Bool :=
  decide (48 ≤ b ∧ b ≤ 57 ∨ 65 ≤ b ∧ b ≤ 90 ∨ 97 ≤ b ∧ b ≤ 122 ∨ b = 95)

theorem toAsciiLowercase_of_ge {b : UInt8} (h : 128 ≤ b) : toAsciiLowercase b = b := by
  unfold toAsciiLowercase
  rw [if_neg]
  intro hcap
  have : (128 : UInt8) ≤ 90 := UInt8.le_trans h hcap.2
  exact absurd this (by decide)

theorem toAsciiLowercase_lt {b : UInt8} : toAsciiLowercase b < 128 ↔ b < 128 := by
  unfold toAsciiLowercase
  split
  · rename_i hcap
    simp only [UInt8.le_iff_toNat_le, UInt8.lt_iff_toNat_lt, UInt8.toNat_add, UInt8.reduceToNat] at hcap ⊢
    omega
  · rfl

theorem isWordByte_toAsciiLowercase : isWordByte (toAsciiLowercase b) = isWordByte b := by
  unfold isWordByte toAsciiLowercase
  rw [decide_eq_decide]
  split
  · rename_i hcap
    simp only [UInt8.le_iff_toNat_le, ← UInt8.toNat_inj, UInt8.toNat_add, UInt8.reduceToNat] at hcap ⊢
    omega
  · rfl

theorem toAsciiLowercase_eq_iff {b c : UInt8} (hc : c < 65) : toAsciiLowercase b = c ↔ b = c := by
  unfold toAsciiLowercase
  split
  · rename_i hcap
    simp only [UInt8.le_iff_toNat_le, UInt8.lt_iff_toNat_lt, ← UInt8.toNat_inj, UInt8.toNat_add,
      UInt8.reduceToNat] at hcap hc ⊢
    omega
  · rfl

abbrev lowercase (bytes : Bytes) : Bytes := bytes.map toAsciiLowercase

/-! ## Characters -/

abbrev utf8 (c : Char) : Bytes := String.utf8EncodeChar c

theorem utf8_of_lt {c : Char} (h : c.toNat < 128) : utf8 c = [UInt8.ofNat c.toNat] := Utf8.encodeChar_of_lt h

theorem ge_of_mem_utf8 {c : Char} (h : ¬ c.toNat < 128) {b : UInt8} (hb : b ∈ utf8 c) : 128 ≤ b :=
  Utf8.ge_of_mem_encodeChar h hb

theorem utf8_ofNat {b : UInt8} (h : b < 128) :
    (Char.ofNat b.toNat).toNat = b.toNat ∧ utf8 (Char.ofNat b.toNat) = [b] := by
  have hlt : b.toNat < 128 := UInt8.lt_iff_toNat_lt.mp h
  have hvalid : b.toNat.isValidChar := .inl (by omega)
  have hnat : (Char.ofNat b.toNat).toNat = b.toNat := by
    unfold Char.ofNat
    rw [dif_pos hvalid]
    rfl
  refine ⟨hnat, ?_⟩
  rw [utf8_of_lt (by omega), hnat, UInt8.ofNat_toNat]

variable (wide : Char → Bool)

def isWordChar (c : Char) : Bool :=
  if c.toNat < 128 then isWordByte (UInt8.ofNat c.toNat) else wide c

def SpellsWord (bytes : Bytes) : Prop := ∃ c, bytes = utf8 c ∧ isWordChar wide c = true

theorem spellsWord_singleton {wide : Char → Bool} {b : UInt8} (h : b < 128) :
    SpellsWord wide [b] ↔ isWordByte b = true := by
  obtain ⟨hnat, hutf8⟩ := utf8_ofNat h
  have hlt : b.toNat < 128 := UInt8.lt_iff_toNat_lt.mp h
  constructor
  · rintro ⟨c, hc, hword⟩
    by_cases hsmall : c.toNat < 128
    · rw [utf8_of_lt hsmall, singleton_inj] at hc
      rw [isWordChar, if_pos hsmall, ← hc] at hword
      exact hword
    · have hge : 128 ≤ b := ge_of_mem_utf8 hsmall (hc ▸ mem_singleton_self b)
      exact absurd h (UInt8.not_lt.mpr hge)
  · intro hword
    refine ⟨Char.ofNat b.toNat, hutf8.symm, ?_⟩
    rw [isWordChar, hnat, if_pos hlt, UInt8.ofNat_toNat]
    exact hword

theorem spellsWord_lowercase (bytes : Bytes) : SpellsWord wide bytes ↔ SpellsWord wide (lowercase bytes) := by
  have hascii : ∀ b : UInt8, b < 128 → (SpellsWord wide [b] ↔ SpellsWord wide (lowercase [b])) := by
    intro b hb
    rw [spellsWord_singleton hb, lowercase, map_singleton, spellsWord_singleton (toAsciiLowercase_lt.mpr hb),
      isWordByte_toAsciiLowercase]
  have hof : ∀ {c : Char}, c.toNat < 128 → UInt8.ofNat c.toNat < 128 := by
    intro c hc
    rw [UInt8.lt_iff_toNat_lt, UInt8.toNat_ofNat', show (128 : UInt8).toNat = 128 from rfl]
    omega
  constructor
  · rintro ⟨c, rfl, hword⟩
    by_cases hc : c.toNat < 128
    · have h := hascii _ (hof hc)
      rw [← utf8_of_lt hc] at h
      exact h.mp ⟨c, rfl, hword⟩
    · refine ⟨c, ?_, hword⟩
      conv_rhs => rw [← map_id (utf8 c)]
      exact map_congr_left fun b hb => toAsciiLowercase_of_ge (ge_of_mem_utf8 hc hb)
  · rintro ⟨c, hsame, hword⟩
    by_cases hc : c.toNat < 128
    · rw [utf8_of_lt hc, map_eq_singleton_iff] at hsame
      obtain ⟨b, rfl, hb⟩ := hsame
      have hlt : b < 128 := toAsciiLowercase_lt.mp (hb ▸ hof hc)
      refine (hascii b hlt).mpr ⟨c, ?_, hword⟩
      rw [utf8_of_lt hc, lowercase, map_singleton, hb]
    · refine ⟨c, ?_, hword⟩
      rw [← hsame]
      conv_lhs => rw [← map_id bytes]
      refine map_congr_left fun b hb => ?_
      have hge : 128 ≤ toAsciiLowercase b := ge_of_mem_utf8 hc (hsame ▸ mem_map_of_mem hb)
      have hbge : 128 ≤ b := UInt8.not_lt.mp fun hlt => UInt8.not_lt.mpr hge (toAsciiLowercase_lt.mpr hlt)
      exact (toAsciiLowercase_of_ge hbge).symm

/-! ## Assertions -/

inductive Look where
  | start | «end» | startLF | endLF | startCRLF | endCRLF
  | wordAscii | wordAsciiNegate | wordUnicode | wordUnicodeNegate
  | wordStartAscii | wordEndAscii | wordStartUnicode | wordEndUnicode
  | wordStartHalfAscii | wordEndHalfAscii | wordStartHalfUnicode | wordEndHalfUnicode
deriving DecidableEq, Repr

variable (text : Bytes)

def EndsIn : Prop := text.getLast? = some b

def StartsWith : Prop := text.head? = some b

def EndsInWordAscii : Prop := ∃ b, text.getLast? = some b ∧ isWordByte b = true

def StartsWithWordAscii : Prop := ∃ b, text.head? = some b ∧ isWordByte b = true

def EndsInWordUnicode : Prop := ∃ last, last <:+ text ∧ SpellsWord wide last

def StartsWithWordUnicode : Prop := ∃ head, head <+: text ∧ SpellsWord wide head

def Look.Holds (look : Look) (before after : Bytes) : Prop :=
  match look with
  | .start => before = []
  | .end => after = []
  | .startLF => before = [] ∨ EndsIn 10 before
  | .endLF => after = [] ∨ StartsWith 10 after
  | .startCRLF => before = [] ∨ EndsIn 10 before ∨ (EndsIn 13 before ∧ ¬ StartsWith 10 after)
  | .endCRLF => after = [] ∨ StartsWith 13 after ∨ (StartsWith 10 after ∧ ¬ EndsIn 13 before)
  | .wordAscii => ¬ (EndsInWordAscii before ↔ StartsWithWordAscii after)
  | .wordAsciiNegate => EndsInWordAscii before ↔ StartsWithWordAscii after
  | .wordUnicode => ¬ (EndsInWordUnicode wide before ↔ StartsWithWordUnicode wide after)
  | .wordUnicodeNegate => EndsInWordUnicode wide before ↔ StartsWithWordUnicode wide after
  | .wordStartAscii => ¬ EndsInWordAscii before ∧ StartsWithWordAscii after
  | .wordEndAscii => EndsInWordAscii before ∧ ¬ StartsWithWordAscii after
  | .wordStartUnicode => ¬ EndsInWordUnicode wide before ∧ StartsWithWordUnicode wide after
  | .wordEndUnicode => EndsInWordUnicode wide before ∧ ¬ StartsWithWordUnicode wide after
  | .wordStartHalfAscii => ¬ EndsInWordAscii before
  | .wordEndHalfAscii => ¬ StartsWithWordAscii after
  | .wordStartHalfUnicode => ¬ EndsInWordUnicode wide before
  | .wordEndHalfUnicode => ¬ StartsWithWordUnicode wide after

section Lowercase

theorem lowercase_eq_nil : lowercase text = [] ↔ text = [] := map_eq_nil_iff

theorem map_toAsciiLowercase_eq_iff {b : UInt8} (hb : b < 65) {found : Option UInt8} :
    found.map toAsciiLowercase = some b ↔ found = some b := by
  rw [map_eq_some_iff]
  constructor
  · rintro ⟨c, hc, hsame⟩
    rw [hc, (toAsciiLowercase_eq_iff hb).mp hsame]
  · intro h
    exact ⟨b, h, (toAsciiLowercase_eq_iff hb).mpr rfl⟩

theorem exists_isWordByte_map {found : Option UInt8} :
    (∃ c, found.map toAsciiLowercase = some c ∧ isWordByte c = true) ↔ ∃ b, found = some b ∧ isWordByte b = true := by
  cases found <;> simp [isWordByte_toAsciiLowercase]

theorem endsIn_lowercase {b : UInt8} (hb : b < 65) : EndsIn b (lowercase text) ↔ EndsIn b text := by
  unfold EndsIn
  rw [getLast?_map, map_toAsciiLowercase_eq_iff hb]

theorem startsWith_lowercase {b : UInt8} (hb : b < 65) : StartsWith b (lowercase text) ↔ StartsWith b text := by
  unfold StartsWith
  rw [head?_map, map_toAsciiLowercase_eq_iff hb]

theorem endsInWordAscii_lowercase : EndsInWordAscii (lowercase text) ↔ EndsInWordAscii text := by
  unfold EndsInWordAscii
  rw [getLast?_map]
  exact exists_isWordByte_map

theorem startsWithWordAscii_lowercase : StartsWithWordAscii (lowercase text) ↔ StartsWithWordAscii text := by
  unfold StartsWithWordAscii
  rw [head?_map]
  exact exists_isWordByte_map

theorem endsInWordUnicode_lowercase : EndsInWordUnicode wide (lowercase text) ↔ EndsInWordUnicode wide text := by
  constructor
  · rintro ⟨last, hlast, hword⟩
    obtain ⟨bytes, hbytes, rfl⟩ := suffix_map_iff.mp hlast
    exact ⟨bytes, hbytes, (spellsWord_lowercase wide bytes).mpr hword⟩
  · rintro ⟨last, hlast, hword⟩
    exact ⟨lowercase last, hlast.map _, (spellsWord_lowercase wide last).mp hword⟩

theorem startsWithWordUnicode_lowercase :
    StartsWithWordUnicode wide (lowercase text) ↔ StartsWithWordUnicode wide text := by
  constructor
  · rintro ⟨head, hhead, hword⟩
    obtain ⟨bytes, hbytes, rfl⟩ := prefix_map_iff.mp hhead
    exact ⟨bytes, hbytes, (spellsWord_lowercase wide bytes).mpr hword⟩
  · rintro ⟨head, hhead, hword⟩
    exact ⟨lowercase head, hhead.map _, (spellsWord_lowercase wide head).mp hword⟩

end Lowercase

theorem Look.holds_lowercase (wide : Char → Bool) (look : Look) (before after : Bytes) :
    look.Holds wide before after ↔ look.Holds wide (lowercase before) (lowercase after) := by
  have h10 : (10 : UInt8) < 65 := by decide
  have h13 : (13 : UInt8) < 65 := by decide
  cases look <;>
    simp only [Look.Holds, lowercase_eq_nil, endsIn_lowercase _ h10, endsIn_lowercase _ h13,
      startsWith_lowercase _ h10, startsWith_lowercase _ h13, endsInWordAscii_lowercase,
      startsWithWordAscii_lowercase, endsInWordUnicode_lowercase, startsWithWordUnicode_lowercase]

/-! ## The form of a pattern -/

inductive Class where
  | unicode (ranges : List (Char × Char))
  | bytes (ranges : List (UInt8 × UInt8))
deriving DecidableEq, Repr

def Class.members : Class → List Nat
  | .unicode ranges => ranges.flatMap fun range => List.range' range.1.toNat (range.2.toNat + 1 - range.1.toNat)
  | .bytes ranges => ranges.flatMap fun range => List.range' range.1.toNat (range.2.toNat + 1 - range.1.toNat)

def Class.span : Class → Span UInt8
  | .unicode ranges => fun _ word _ => ∃ range ∈ ranges, ∃ c : Char, range.1 ≤ c ∧ c ≤ range.2 ∧ word = utf8 c
  | .bytes ranges => fun _ word _ => ∃ range ∈ ranges, ∃ b : UInt8, range.1 ≤ b ∧ b ≤ range.2 ∧ word = [b]

inductive Hir where
  | empty
  | literal (bytes : Bytes)
  | «class» (c : Class)
  | look (assertion : Look)
  | repetition (min : Nat) (max : Option Nat) (greedy : Bool) (sub : Hir)
  | capture (index : Nat) (name : Option String) (sub : Hir)
  | concat (parts : List Hir)
  | alternation (branches : List Hir)

namespace Hir

mutual

def span (wide : Char → Bool) : Hir → Span UInt8
  | .empty => Spans.empty
  | .literal bytes => exactly bytes
  | .class c => c.span
  | .look assertion => asserting (assertion.Holds wide)
  | .repetition min max _ sub => repeated min max (sub.span wide)
  | .capture _ _ sub => sub.span wide
  | .concat parts => Spans.concat (spans wide parts)
  | .alternation branches => either (spans wide branches)

def spans (wide : Char → Bool) : List Hir → List (Span UInt8)
  | [] => []
  | h :: hs => h.span wide :: spans wide hs

end

theorem spans_eq_map (wide : Char → Bool) (hs : List Hir) : spans wide hs = hs.map (span wide) := by
  induction hs with
  | nil => rfl
  | cons h hs ih => rw [spans, ih, map_cons]

@[elab_as_elim]
theorem induction {motive : Hir → Prop} (empty : motive .empty) (literal : ∀ bytes, motive (.literal bytes))
    («class» : ∀ c, motive (.class c)) (look : ∀ assertion, motive (.look assertion))
    (repetition : ∀ min max greedy sub, motive sub → motive (.repetition min max greedy sub))
    (capture : ∀ index name sub, motive sub → motive (.capture index name sub))
    (concat : ∀ parts, (∀ part ∈ parts, motive part) → motive (.concat parts))
    (alternation : ∀ branches, (∀ branch ∈ branches, motive branch) → motive (.alternation branches))
    (h : Hir) : motive h := by
  refine @Hir.rec motive (fun hs => ∀ h ∈ hs, motive h) empty literal «class» look repetition capture concat
    alternation ?_ ?_ h
  · intro h hmem
    cases hmem
  · intro h hs hh ih part hpart
    rcases mem_cons.mp hpart with rfl | hpart
    · exact hh
    · exact ih part hpart

/-- **A form does not see the case of the letters round it.** -/
theorem blind_span (wide : Char → Bool) (h : Hir) : Blind toAsciiLowercase (h.span wide) := by
  induction h using Hir.induction with
  | empty => exact blind_empty
  | literal bytes => exact blind_exactly bytes
  | «class» c => cases c <;> exact fun _ _ _ _ _ _ _ h => h
  | look assertion => exact blind_asserting (assertion.holds_lowercase wide)
  | repetition min max greedy sub ih => exact ih.repeated min max
  | capture index name sub ih => exact ih
  | concat parts ih =>
    rw [span, spans_eq_map]
    refine blind_concat fun P hP => ?_
    obtain ⟨part, hpart, rfl⟩ := mem_map.mp hP
    exact ih part hpart
  | alternation branches ih =>
    rw [span, spans_eq_map]
    refine blind_either fun P hP => ?_
    obtain ⟨branch, hbranch, rfl⟩ := mem_map.mp hP
    exact ih branch hbranch

end Hir

/-! ## What the libraries provide -/

inductive ExtractKind where
  | prefixes | suffixes
deriving DecidableEq, Repr

/-- The regular-expression parser with its smart constructors and its literal extractor, and the Aho-Corasick
automaton. -/
structure Crates where
  /-- Whether a character beyond ASCII is a word character. -/
  wide : Char → Bool
  /-- The form of a pattern, where it parses. -/
  parse : String → Option Hir
  literal : Bytes → Hir
  repetition : Nat → Option Nat → Bool → Hir → Hir
  capture : Nat → Option String → Hir → Hir
  concat : List Hir → Hir
  alternation : List Hir → Hir
  /-- The literals a form's matches begin or end with, where they are finitely many. -/
  extract : ExtractKind → Hir → Option (List Bytes)
  /-- The patterns found in a text without regard to ASCII case, by their number, a mention for each place. -/
  findOverlapping : List Bytes → Bytes → List Nat

abbrev Crates.Matches (crates : Crates) (h : Hir) (before word after : Bytes) : Prop :=
  h.span crates.wide before word after

/-- The contracts: smart constructors keep what is matched, a match begins (ends) with an extracted literal, and the
automaton finds every pattern. -/
structure Crates.Lawful (crates : Crates) : Prop where
  literal : ∀ bytes, (crates.literal bytes).span crates.wide = (Hir.literal bytes).span crates.wide
  repetition : ∀ min max greedy sub,
    (crates.repetition min max greedy sub).span crates.wide = (Hir.repetition min max greedy sub).span crates.wide
  capture : ∀ index name sub,
    (crates.capture index name sub).span crates.wide = (Hir.capture index name sub).span crates.wide
  concat : ∀ parts, (crates.concat parts).span crates.wide = (Hir.concat parts).span crates.wide
  alternation : ∀ branches, (crates.alternation branches).span crates.wide = (Hir.alternation branches).span crates.wide
  begins : ∀ {h literals}, crates.extract .prefixes h = some literals →
    ∀ {before word after}, crates.Matches h before word after → ∃ literal ∈ literals, literal <+: word
  ends : ∀ {h literals}, crates.extract .suffixes h = some literals →
    ∀ {before word after}, crates.Matches h before word after → ∃ literal ∈ literals, literal <:+ word
  found : ∀ patterns text i, i ∈ crates.findOverlapping patterns text ↔
    ∃ pattern, patterns[i]? = some pattern ∧ lowercase pattern <:+: lowercase text

/-- Libraries that build what they are asked for, extract literals only and look for each pattern in turn. -/
def Crates.plain (parse : String → Option Hir) : Crates where
  wide _ := false
  parse := parse
  literal := .literal
  repetition := .repetition
  capture := .capture
  concat := .concat
  alternation := .alternation
  extract _ h := match h with
    | .literal bytes => some [bytes]
    | _ => none
  findOverlapping patterns text := (List.range patterns.length).filter fun i =>
    match patterns[i]? with
    | some pattern => decide (lowercase pattern <:+: lowercase text)
    | none => false

theorem Crates.lawful_plain (parse : String → Option Hir) : (Crates.plain parse).Lawful where
  literal _ := rfl
  repetition _ _ _ _ := rfl
  capture _ _ _ := rfl
  concat _ := rfl
  alternation _ := rfl
  begins := by
    intro h literals hextract before word after hword
    cases h <;> simp only [Crates.plain, reduceCtorEq, Option.some.injEq] at hextract
    subst hextract
    exact ⟨_, mem_singleton_self _, hword ▸ prefix_refl _⟩
  ends := by
    intro h literals hextract before word after hword
    cases h <;> simp only [Crates.plain, reduceCtorEq, Option.some.injEq] at hextract
    subst hextract
    exact ⟨_, mem_singleton_self _, hword ▸ suffix_refl _⟩
  found := by
    intro patterns text i
    simp only [Crates.plain, mem_filter, mem_range]
    constructor
    · rintro ⟨hi, hfound⟩
      rw [getElem?_eq_getElem hi] at hfound
      exact ⟨patterns[i], getElem?_eq_getElem hi, of_decide_eq_true hfound⟩
    · rintro ⟨pattern, hget, hin⟩
      obtain ⟨hi, -⟩ := List.getElem?_eq_some_iff.mp hget
      refine ⟨hi, ?_⟩
      rw [hget]
      exact decide_eq_true hin

end Zond.Fingerprint

import Mathlib.Data.List.Infix

/-!
# Stretches of a text, and the literals they cannot do without

A `Span` is a relation between the text before a stretch, the stretch and the text after it. Symbols are compared
through a map `fold`. Every stretch of a span is one of another (`Reads`), is a literal of a set (`Spelled`) or holds
one (`Guarded`), each up to `fold` and each closed under the operations.
-/

namespace Zond.Spans

open List

variable {α : Type*}

def Span (α : Type*) := List α → List α → List α → Prop

def empty : Span α := fun _ word _ => word = []

def exactly (literal : List α) : Span α := fun _ word _ => word = literal

def asserting (holds : List α → List α → Prop) : Span α := fun before word after => word = [] ∧ holds before after

def seq (P Q : Span α) : Span α := fun before word after =>
  ∃ first second, word = first ++ second ∧ P before first (second ++ after) ∧ Q (before ++ first) second after

def concat (parts : List (Span α)) : Span α := parts.foldr seq empty

def either (branches : List (Span α)) : Span α := fun before word after =>
  ∃ P ∈ branches, P before word after

def repeated (min : Nat) (max : Option Nat) (P : Span α) : Span α := fun before word after =>
  ∃ n, min ≤ n ∧ (∀ m ∈ max, n ≤ m) ∧ concat (List.replicate n P) before word after

theorem concat_cons (P : Span α) (parts : List (Span α)) : concat (P :: parts) = seq P (concat parts) := rfl

theorem seq_assoc {P Q R : Span α} {before word after : List α} (h : seq P (seq Q R) before word after) :
    seq (seq P Q) R before word after := by
  obtain ⟨first, rest, rfl, hP, second, third, rfl, hQ, hR⟩ := h
  refine ⟨first ++ second, third, (append_assoc ..).symm, ⟨first, second, rfl, ?_, hQ⟩, ?_⟩
  · rwa [append_assoc] at hP
  · rwa [← append_assoc]

section Blind

variable {fold : α → α} {P Q : Span α}

def Blind (fold : α → α) (P : Span α) : Prop :=
  ∀ ⦃before before' word after after' : List α⦄, before.map fold = before'.map fold →
    after.map fold = after'.map fold → P before word after → P before' word after'

theorem blind_empty : Blind fold (empty : Span α) := fun _ _ _ _ _ _ _ h => h

theorem blind_exactly (literal : List α) : Blind fold (exactly literal) := fun _ _ _ _ _ _ _ h => h

theorem blind_asserting {holds : List α → List α → Prop}
    (hholds : ∀ before after, holds before after ↔ holds (before.map fold) (after.map fold)) :
    Blind fold (asserting holds) := by
  intro before before' word after after' hbefore hafter h
  refine ⟨h.1, (hholds _ _).mpr ?_⟩
  rw [← hbefore, ← hafter]
  exact (hholds _ _).mp h.2

theorem Blind.seq (hP : Blind fold P) (hQ : Blind fold Q) : Blind fold (seq P Q) := by
  intro before before' word after after' hbefore hafter h
  obtain ⟨first, second, rfl, hfirst, hsecond⟩ := h
  refine ⟨first, second, rfl, hP hbefore ?_ hfirst, hQ ?_ hafter hsecond⟩
  · rw [map_append, map_append, hafter]
  · rw [map_append, map_append, hbefore]

theorem blind_concat {parts : List (Span α)} (h : ∀ P ∈ parts, Blind fold P) : Blind fold (concat parts) := by
  induction parts with
  | nil => exact blind_empty
  | cons P parts ih =>
    exact (h P mem_cons_self).seq (ih fun Q hQ => h Q (mem_cons_of_mem _ hQ))

theorem blind_either {branches : List (Span α)} (h : ∀ P ∈ branches, Blind fold P) : Blind fold (either branches) := by
  intro before before' word after after' hbefore hafter ⟨P, hP, hword⟩
  exact ⟨P, hP, h P hP hbefore hafter hword⟩

theorem Blind.repeated (hP : Blind fold P) (min : Nat) (max : Option Nat) : Blind fold (repeated min max P) := by
  intro before before' word after after' hbefore hafter ⟨n, hmin, hmax, hword⟩
  refine ⟨n, hmin, hmax, blind_concat (fun Q hQ => ?_) hbefore hafter hword⟩
  rw [eq_of_mem_replicate hQ]
  exact hP

end Blind

section Reads

variable {fold : α → α} {P P' Q Q' : Span α}

def Reads (fold : α → α) (P Q : Span α) : Prop :=
  ∀ ⦃before word after : List α⦄, P before word after → ∃ word', word.map fold = word'.map fold ∧ Q before word' after

theorem Reads.refl (P : Span α) : Reads fold P P := fun _ word _ h => ⟨word, rfl, h⟩

theorem Reads.seq (hP : Reads fold P P') (hQ : Reads fold Q Q') (hP' : Blind fold P') (hQ' : Blind fold Q') :
    Reads fold (seq P Q) (seq P' Q') := by
  intro before word after h
  obtain ⟨first, second, rfl, hfirst, hsecond⟩ := h
  obtain ⟨first', hfirst', h1⟩ := hP hfirst
  obtain ⟨second', hsecond', h2⟩ := hQ hsecond
  refine ⟨first' ++ second', ?_, first', second', rfl, hP' rfl ?_ h1, hQ' ?_ rfl h2⟩
  · rw [map_append, map_append, hfirst', hsecond']
  · rw [map_append, map_append, hsecond']
  · rw [map_append, map_append, hfirst']

theorem reads_concat {β : Type*} {f g : β → Span α} {parts : List β} (h : ∀ p ∈ parts, Reads fold (f p) (g p))
    (hblind : ∀ p ∈ parts, Blind fold (g p)) : Reads fold (concat (parts.map f)) (concat (parts.map g)) := by
  induction parts with
  | nil => exact Reads.refl _
  | cons p parts ih =>
    have hrest : ∀ q ∈ parts, Blind fold (g q) := fun q hq => hblind q (mem_cons_of_mem _ hq)
    refine (h p mem_cons_self).seq (ih (fun q hq => h q (mem_cons_of_mem _ hq)) hrest)
      (hblind p mem_cons_self) (blind_concat fun Q hQ => ?_)
    obtain ⟨q, hq, rfl⟩ := mem_map.mp hQ
    exact hrest q hq

theorem reads_either {β : Type*} {f g : β → Span α} {branches : List β} (h : ∀ p ∈ branches, Reads fold (f p) (g p)) :
    Reads fold (either (branches.map f)) (either (branches.map g)) := by
  intro before word after ⟨P, hP, hword⟩
  obtain ⟨p, hp, rfl⟩ := mem_map.mp hP
  obtain ⟨word', hsame, hword'⟩ := h p hp hword
  exact ⟨word', hsame, g p, mem_map_of_mem hp, hword'⟩

theorem Reads.repeated (h : Reads fold P Q) (hQ : Blind fold Q) (min : Nat) (max : Option Nat) :
    Reads fold (repeated min max P) (repeated min max Q) := by
  intro before word after ⟨n, hmin, hmax, hword⟩
  -- the copies are the parts of one concatenation, indexed by themselves
  have hcopies : Reads fold (concat ((List.replicate n ()).map fun _ => P))
      (concat ((List.replicate n ()).map fun _ => Q)) := reads_concat (fun _ _ => h) fun _ _ => hQ
  rw [map_replicate, map_replicate] at hcopies
  obtain ⟨word', hsame, hword'⟩ := hcopies hword
  exact ⟨word', hsame, n, hmin, hmax, hword'⟩

end Reads

section Spelled

variable {fold : α → α} {P Q : Span α} {set set' : List (List α)}

def Spelled (fold : α → α) (P : Span α) (set : List (List α)) : Prop :=
  ∀ ⦃before word after : List α⦄, P before word after → ∃ literal ∈ set, word.map fold = literal.map fold

def product (before after : List (List α)) : List (List α) :=
  before.flatMap fun head => after.map fun tail => head ++ tail

theorem spelled_empty : Spelled fold (empty : Span α) [[]] := by
  intro before word after h
  exact ⟨[], mem_singleton_self _, by rw [h]⟩

theorem spelled_exactly (literal : List α) : Spelled fold (exactly literal) [literal] := by
  intro before word after h
  exact ⟨literal, mem_singleton_self _, by rw [h]⟩

theorem Spelled.seq (hP : Spelled fold P set) (hQ : Spelled fold Q set') :
    Spelled fold (seq P Q) (product set set') := by
  intro before word after h
  obtain ⟨first, second, rfl, hfirst, hsecond⟩ := h
  obtain ⟨head, hhead, hsame⟩ := hP hfirst
  obtain ⟨tail, htail, hsame'⟩ := hQ hsecond
  refine ⟨head ++ tail, mem_flatMap.mpr ⟨head, hhead, mem_map_of_mem htail⟩, ?_⟩
  rw [map_append, map_append, hsame, hsame']

theorem Spelled.seq_empty (hP : Spelled fold P set) : Spelled fold (Spans.seq P empty) set := by
  intro before word after h
  obtain ⟨first, second, rfl, hfirst, rfl⟩ := h
  rw [append_nil]
  exact hP hfirst

theorem Spelled.of_imp (hQ : Spelled fold Q set)
    (h : ∀ {before word after}, P before word after → Q before word after) :
    Spelled fold P set := fun _ _ _ hword => hQ (h hword)

end Spelled

section Guarded

variable {fold : α → α} {P Q : Span α} {set : List (List α)}

def Guarded (fold : α → α) (P : Span α) (set : List (List α)) : Prop :=
  ∀ ⦃before word after : List α⦄, P before word after → ∃ literal ∈ set, literal.map fold <:+: word.map fold

theorem Guarded.of_imp (hQ : Guarded fold Q set)
    (h : ∀ {before word after}, P before word after → Q before word after) :
    Guarded fold P set := fun _ _ _ hword => hQ (h hword)

theorem Guarded.mono {set' : List (List α)} (hP : Guarded fold P set) (h : set ⊆ set') : Guarded fold P set' := by
  intro before word after hword
  obtain ⟨literal, hliteral, hin⟩ := hP hword
  exact ⟨literal, h hliteral, hin⟩

theorem Spelled.guarded (h : Spelled fold P set) : Guarded fold P set := by
  intro before word after hword
  obtain ⟨literal, hliteral, hsame⟩ := h hword
  exact ⟨literal, hliteral, by rw [hsame]⟩

/-- **A set that guards what a span is read as guards the span.** -/
theorem Reads.guarded (hread : Reads fold P Q) (hQ : Guarded fold Q set) : Guarded fold P set := by
  intro before word after hword
  obtain ⟨word', hsame, hword'⟩ := hread hword
  obtain ⟨literal, hliteral, hin⟩ := hQ hword'
  exact ⟨literal, hliteral, by rwa [hsame]⟩

theorem Guarded.seq_left (hP : Guarded fold P set) (Q : Span α) : Guarded fold (seq P Q) set := by
  intro before word after h
  obtain ⟨first, second, rfl, hfirst, -⟩ := h
  obtain ⟨literal, hliteral, hin⟩ := hP hfirst
  refine ⟨literal, hliteral, hin.trans ?_⟩
  rw [map_append]
  exact (prefix_append _ _).isInfix

theorem Guarded.seq_right (hQ : Guarded fold Q set) (P : Span α) : Guarded fold (seq P Q) set := by
  intro before word after h
  obtain ⟨first, second, rfl, -, hsecond⟩ := h
  obtain ⟨literal, hliteral, hin⟩ := hQ hsecond
  refine ⟨literal, hliteral, hin.trans ?_⟩
  rw [map_append]
  exact (suffix_append _ _).isInfix

theorem guarded_concat_of_mem {parts : List (Span α)} (hmem : P ∈ parts) (hP : Guarded fold P set) :
    Guarded fold (concat parts) set := by
  induction parts with
  | nil => cases hmem
  | cons Q parts ih =>
    rcases mem_cons.mp hmem with rfl | hmem
    · exact hP.seq_left _
    · exact (ih hmem).seq_right _

theorem Guarded.repeated (hP : Guarded fold P set) {min : Nat} (hmin : 1 ≤ min) (max : Option Nat) :
    Guarded fold (repeated min max P) set := by
  intro before word after ⟨n, hn, _, hword⟩
  have hmem : P ∈ List.replicate n P := mem_replicate.mpr ⟨by omega, rfl⟩
  exact guarded_concat_of_mem hmem hP hword

theorem guarded_either {branches : List (Span α)} (h : ∀ P ∈ branches, Guarded fold P set) :
    Guarded fold (either branches) set := fun _ _ _ ⟨P, hP, hword⟩ => h P hP hword

end Guarded

end Zond.Spans

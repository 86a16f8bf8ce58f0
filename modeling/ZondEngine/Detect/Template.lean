import ZondEngine.Lib.Text
import Mathlib.Data.Finset.Dedup
import Mathlib.Data.List.AList

/-!
# Templates

The validator and the interpreter each read a template with a scanner of their own. They part in one place: at a `{`
that no `}` follows, the interpreter gives up, and the validator stops and reports nothing.
-/

namespace Zond.Flow

open List

abbrev Env := AList fun _ : Text => Text

/-- `str::find`, by a kind of character: what stands before the first one, the character, and what follows it. -/
def find (p : Char → Bool) : Text → Option (Text × Char × Text)
  | [] => none
  | c :: rest => if p c then some ([], c, rest) else (find p rest).map fun found => (c :: found.1, found.2)

def isBrace (c : Char) : Bool := c == '{' || c == '}'

theorem find_spec {p : Char → Bool} {text before after : Text} {c : Char} (h : find p text = some (before, c, after)) :
    p c = true ∧ after.length < text.length := by
  induction text generalizing before with
  | nil => cases h
  | cons d rest ih =>
    rw [find] at h
    split at h
    · next hd =>
      cases h
      exact ⟨hd, Nat.lt_succ_self _⟩
    · obtain ⟨⟨before', _, _⟩, hfound, heq⟩ := Option.map_eq_some_iff.mp h
      cases heq
      have := ih hfound
      exact ⟨this.1, by simp only [length_cons]; omega⟩

/-- The loop of `template_vars`: every turn shortens `rest`, so its length is fuel enough. -/
def templateVarsFor : (fuel : ℕ) → (rest : Text) → List Text
  | 0, _ => []
  | fuel + 1, rest =>
    match find isBrace rest with
    | none => []
    | some (_, this, after) =>
      if after.head? = some this then templateVarsFor fuel after.tail
      else if this = '{' then
        match find (· == '}') after with
        | none => []
        | some (name, _, later) => name :: templateVarsFor fuel later
      else templateVarsFor fuel after

variable (template : Text)

/-- The names a template refers to. -/
def templateVars : List Text := templateVarsFor template.length template

/-- The loop of `interpolate`, from what it has written so far. -/
def interpolateFor (env : Env) : (fuel : ℕ) → (out rest : Text) → Option Text
  | 0, out, rest => some (out ++ rest)
  | fuel + 1, out, rest =>
    match find isBrace rest with
    | none => some (out ++ rest)
    | some (before, this, after) =>
      if after.head? = some this then interpolateFor env fuel (out ++ before ++ [this]) after.tail
      else if this = '{' then do
        let (name, _, later) ← find (· == '}') after
        let value ← env.lookup name
        interpolateFor env fuel (out ++ before ++ value) later
      else interpolateFor env fuel (out ++ before ++ ['}']) after

/-- A template with its names replaced. -/
def interpolate (env : Env) : Option Text := interpolateFor env template.length [] template

structure UndefinedVariable where
  index : ℕ
  (var place : Text)

def checkTemplate (index : ℕ) (template place : Text) (scope : Finset Text) : List UndefinedVariable :=
  ((templateVars template).filter (· ∉ scope)).map fun var => ⟨index, var, place⟩

/-- Every `{` that opens a name is closed: read character by character, `inside` a name or outside one. -/
def Closed : (inside : Bool) → Text → Prop
  | inside, [] => inside = false
  | true, c :: rest => Closed (c != '}') rest
  | false, '{' :: '{' :: rest => Closed false rest
  | false, c :: rest => Closed (c == '{') rest

theorem closed_inside (text : Text) : Closed true text ↔ ∃ found ∈ find (· == '}') text, Closed false found.2.2 := by
  induction text with
  | nil => simp [Closed, find]
  | cons c rest ih =>
    by_cases hc : c = '}'
    · simp [Closed, find, hc]
    · rw [Closed, bne_iff_ne.mpr hc, ih, find, if_neg (by simpa using hc)]
      cases find (· == '}') rest <;> simp

theorem closed_outside (text : Text) :
    Closed false text ↔ ∀ found ∈ find isBrace text, Closed false (found.2.1 :: found.2.2) := by
  induction text with
  | nil => simp [Closed, find]
  | cons c rest ih =>
    by_cases hc : isBrace c = true
    · simp [find, hc]
    · have hopen : (c == '{') = false := by simp_all [isBrace]
      rw [Closed, hopen, ih, find, if_neg hc]
      · cases find isBrace rest <;> simp
      · rintro rest rfl rfl
        exact hc rfl

theorem closed_doubled {c : Char} (hc : isBrace c = true) (rest : Text) :
    Closed false (c :: c :: rest) ↔ Closed false rest := by
  obtain rfl | rfl : c = '{' ∨ c = '}' := by simpa [isBrace] using hc
  · rw [Closed]
  · simp [Closed]

theorem closed_single {c : Char} {rest : Text} (h : rest.head? ≠ some c) :
    Closed false (c :: rest) ↔ Closed (c == '{') rest := by
  rw [Closed]
  rintro rest' rfl rfl
  exact h rfl

/-- **Both scanners at once.** The interpreter succeeds where the template is closed and the listed names are bound. -/
theorem isSome_interpolateFor (env : Env) : ∀ (fuel : ℕ) (out rest : Text), rest.length ≤ fuel →
    ((interpolateFor env fuel out rest).isSome ↔ Closed false rest ∧ ∀ var ∈ templateVarsFor fuel rest, var ∈ env)
  | 0, out, [], _ => by simp [interpolateFor, templateVarsFor, Closed]
  | fuel + 1, out, rest, hfuel => by
    rw [interpolateFor, templateVarsFor, closed_outside]
    cases hbrace : find isBrace rest with
    | none => simp
    | some found =>
      obtain ⟨before, this, after⟩ := found
      obtain ⟨hthis, hshort⟩ := find_spec hbrace
      by_cases hdouble : after.head? = some this
      · obtain ⟨later, rfl⟩ := head?_eq_some_iff.mp hdouble
        have ih := isSome_interpolateFor env fuel (out ++ before ++ [this]) later (by simp at hshort; omega)
        simpa [closed_doubled hthis] using ih
      · simp only [hdouble, if_false, Option.mem_some_iff, forall_eq', closed_single hdouble]
        by_cases hopen : this = '{'
        · -- the one place where the scanners part
          rw [if_pos hopen, if_pos hopen, beq_iff_eq.mpr hopen, closed_inside]
          cases hclose : find (· == '}') after with
          | none => simp
          | some found =>
            obtain ⟨name, close, later⟩ := found
            have := (find_spec hclose).2
            cases hvalue : env.lookup name with
            | none => simp [hvalue, ← AList.lookup_isSome]
            | some value =>
              have ih := isSome_interpolateFor env fuel (out ++ before ++ value) later (by omega)
              have hmem : name ∈ env := by simp [← AList.lookup_isSome, hvalue]
              simpa [hvalue, hmem] using ih
        · have ih := isSome_interpolateFor env fuel (out ++ before ++ ['}']) after (by omega)
          rw [if_neg hopen, if_neg hopen, beq_eq_false_iff_ne.mpr hopen]
          exact ih

theorem isSome_interpolate (env : Env) :
    (interpolate template env).isSome ↔ Closed false template ∧ ∀ var ∈ templateVars template, var ∈ env :=
  isSome_interpolateFor env _ _ _ le_rfl

def binding (vars : List Text) : Env := (vars.map fun var => ⟨var, []⟩).toAList

theorem mem_binding {vars : List Text} {var : Text} (h : var ∈ vars) : var ∈ binding vars := by
  rw [← AList.lookup_isSome, binding, AList.lookup_to_alist, dlookup_isSome]
  simp [keys, h]

/-- **A template is read as the interpreter reads it exactly where every `{` that opens a name is
closed.** -/
theorem template_read_iff :
    ((∀ env, (interpolate template env).isSome ↔ ∀ var ∈ templateVars template, var ∈ env) ↔ Closed false template) ∧
      ((∀ index place scope, checkTemplate index template place scope = [] → ∀ env : Env, (∀ var ∈ scope, var ∈ env) →
        (interpolate template env).isSome) ↔ Closed false template) := by
  refine ⟨⟨fun h => ?_, fun h env => ?_⟩, fun h => ?_, fun h index place scope hcheck env henv => ?_⟩
  · exact ((isSome_interpolate _ _).mp ((h _).mpr fun var hvar => mem_binding hvar)).1
  · simp [isSome_interpolate, h]
  · refine ((isSome_interpolate _ _).mp (h 0 [] (templateVars template).toFinset ?_ (binding (templateVars template))
      fun var hvar => mem_binding (mem_toFinset.mp hvar))).1
    simp [checkTemplate]
  · refine (isSome_interpolate _ _).mpr ⟨h, fun var hvar => henv var ?_⟩
    by_contra hnot
    simp only [checkTemplate, map_eq_nil_iff, filter_eq_nil_iff] at hcheck
    exact hcheck var hvar (by simpa using hnot)

/-- The template `{` asks for no name, and no environment interpolates it. -/
theorem template_read_unclosed :
    templateVars ['{'] = [] ∧ (∀ index place scope, checkTemplate index ['{'] place scope = []) ∧
    ∀ env, interpolate ['{'] env = none :=
  ⟨rfl, fun _ _ _ => rfl, fun _ => rfl⟩

end Zond.Flow

import Mathlib.Algebra.Ring.Nat

/-!
# Runs of a labelled automaton

`Runs step s labels t`: the labels lead from `s` to `t`. A quantity that every step changes by what its label says
changes over a run by what its labels say (`Runs.balance`). `Emits` is the same for one automaton a key.
-/

namespace Zond.Automata

open List

variable {State Label : Type} {step : State → Label → State → Prop}

inductive Runs (step : State → Label → State → Prop) : State → List Label → State → Prop
  | nil (s : State) : Runs step s [] s
  | cons {s t u : State} {label : Label} {labels : List Label} :
      step s label t → Runs step t labels u → Runs step s (label :: labels) u

theorem Runs.single {s t : State} {label : Label} (h : step s label t) : Runs step s [label] t := .cons h (.nil t)

theorem Runs.append {s t u : State} {labels more : List Label} (h : Runs step s labels t) (h' : Runs step t more u) :
    Runs step s (labels ++ more) u := by
  induction h with
  | nil s => exact h'
  | cons hstep _ ih => exact .cons hstep (ih h')

theorem Runs.balance {held : State → Nat} {comes goes : Label → Nat}
    (hstep : ∀ s label t, step s label t → held s + comes label = held t + goes label)
    {s t : State} {labels : List Label} (h : Runs step s labels t) :
    held s + (labels.map comes).sum = held t + (labels.map goes).sum := by
  induction h with
  | nil s => rfl
  | cons hs _ ih =>
    have := hstep _ _ _ hs
    rw [map_cons, map_cons, sum_cons, sum_cons]
    omega

/-! ## One automaton for each key -/

variable {Key : Type} [DecidableEq Key]

def Emits (step : State → Label → State → Prop) (keyOf : Label → Key) (s : Key → State) (trace : List Label)
    (t : Key → State) : Prop :=
  ∀ key, Runs step (s key) (trace.filter fun label => keyOf label = key) (t key)

variable {keyOf : Label → Key}

theorem Emits.nil (s : Key → State) : Emits step keyOf s [] s := fun key => .nil (s key)

theorem Emits.append {s t u : Key → State} {trace more : List Label} (h : Emits step keyOf s trace t)
    (h' : Emits step keyOf t more u) : Emits step keyOf s (trace ++ more) u := by
  intro key
  rw [filter_append]
  exact (h key).append (h' key)

theorem Emits.single {s t : Key → State} {label : Label} (h : step (s (keyOf label)) label (t (keyOf label)))
    (hother : ∀ key, key ≠ keyOf label → t key = s key) : Emits step keyOf s [label] t := by
  intro key
  by_cases hkey : keyOf label = key
  · subst hkey
    rw [filter_cons_of_pos (by simp), filter_nil]
    exact .single h
  · rw [filter_cons_of_neg (by simpa using hkey), filter_nil, hother key (Ne.symm hkey)]
    exact .nil _

end Zond.Automata

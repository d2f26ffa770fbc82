import Mathlib.Data.List.Infix

/-!
# Listeners

Listeners join one after the other, and what is told is told to all that have joined by
then.  The listeners are given by what each of them has heard, in the order of joining.

Main results:

- Theorem {lit}`Heard.trans`: what is told in one piece after another.
- Theorem {lit}`Heard.of_joined`: a listener hears exactly what is told after it joined.
-/

namespace Listeners

variable {α : Type}

/-- One more listener. -/
def join (heard : List (List α)) : List (List α) :=
  heard ++ [[]]

/-- A value is told to all listeners. -/
def tell (heard : List (List α)) (x : α) : List (List α) :=
  heard.map fun before => before ++ [x]

/-- All listeners from before have heard what was told, and others may have joined. -/
def Heard (told : List α) (before after : List (List α)) : Prop :=
  before.map (fun heard => heard ++ told) <+: after

theorem heard_refl (heard : List (List α)) : Heard [] heard heard := by
  simp [Heard]

theorem heard_join (heard : List (List α)) : Heard [] heard (join heard) := by
  simp [Heard, join]

theorem heard_tell (heard : List (List α)) (x : α) : Heard [x] heard (tell heard x) :=
  List.prefix_refl _

/-- What was told first, and what was told then. -/
theorem Heard.trans {first second : List α} {before between after : List (List α)}
    (hfirst : Heard first before between) (hsecond : Heard second between after) :
    Heard (first ++ second) before after := by
  have hlonger : (before.map fun heard => heard ++ (first ++ second)) <+:
      between.map fun heard => heard ++ second := by
    have hmapped := List.IsPrefix.map (fun heard => heard ++ second) hfirst
    simpa [Function.comp_def, List.append_assoc] using hmapped
  exact hlonger.trans hsecond

/-- A listener that joined has heard what was told from then on. -/
theorem Heard.of_joined {told : List α} {before after : List (List α)}
    (h : Heard told (join before) after) : after[before.length]? = some told := by
  rcases h with ⟨later, rfl⟩
  simp [join]

end Listeners

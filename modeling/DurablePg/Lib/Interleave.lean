import Mathlib.Logic.Function.Basic
import Mathlib.Logic.Relation

/-!
Components that move one at a time.

If finitely many components have moved, each along its own steps, then the system can have moved
them one after another.
-/

namespace DurablePg.Lib

variable {ι X : Type*} [DecidableEq ι] {R : ι → X → X → Prop}

/-- One component moves, and the others stand still. -/
inductive Interleaved (R : ι → X → X → Prop) (f : ι → X) : (ι → X) → Prop
  | move {i : ι} {x : X} (h : R i (f i) x) : Interleaved R f (Function.update f i x)

lemma Interleaved.component {f : ι → X} {i : ι} {x : X}
    (h : Relation.ReflTransGen (R i) (f i) x) :
    Relation.ReflTransGen (Interleaved R) f (Function.update f i x) := by
  induction h with
  | refl => rw [Function.update_eq_self]
  | @tail x x' _ hstep ih =>
    have hmove : Interleaved R (Function.update f i x)
        (Function.update (Function.update f i x) i x') :=
      .move (by rwa [Function.update_self])
    rw [Function.update_idem] at hmove
    exact ih.tail hmove

/-- **What the components do together they can do one after another.** -/
theorem Interleaved.all (l : List ι) {f g : ι → X} (hl : ∀ i, i ∉ l → g i = f i)
    (h : ∀ i, Relation.ReflTransGen (R i) (f i) (g i)) :
    Relation.ReflTransGen (Interleaved R) f g := by
  induction l generalizing f with
  | nil =>
    obtain rfl : g = f := funext fun i => hl i List.not_mem_nil
    exact .refl
  | cons i l ih =>
    refine (component (h i)).trans (ih (fun j hj => ?_) fun j => ?_)
    · by_cases hji : j = i
      · rw [hji, Function.update_self]
      · rw [Function.update_of_ne hji]
        exact hl j (by simp [hji, hj])
    · by_cases hji : j = i
      · rw [hji, Function.update_self]
      · rw [Function.update_of_ne hji]
        exact h j

end DurablePg.Lib

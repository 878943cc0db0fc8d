import Mathlib.Data.List.Sort
import Mathlib.Tactic

/-!
The first so many, in an order, of the elements that satisfy a predicate.

A selection with a limit either takes every element that qualifies, or is full, and then
whatever it passes over comes after everything it takes.
-/

namespace DurablePg.Lib

variable {α : Type*} {p : α → Bool} {r : α → α → Prop} [DecidableRel r] {n : ℕ} {l : List α}
  {a b : α}

/-- `SELECT .. FROM l WHERE p ORDER BY r LIMIT n`. -/
def pick (p : α → Bool) (r : α → α → Prop) [DecidableRel r] (n : ℕ) (l : List α) : List α :=
  ((l.filter p).insertionSort r).take n

lemma mem_of_mem_pick (h : a ∈ pick p r n l) : a ∈ l ∧ p a = true :=
  List.mem_filter.mp ((List.mem_insertionSort r).mp (List.mem_of_mem_take h))

lemma length_pick : (pick p r n l).length = min n (l.countP p) := by
  rw [pick, List.length_take, List.length_insertionSort, ← List.countP_eq_length_filter]

lemma nodup_pick (h : l.Nodup) : (pick p r n l).Nodup :=
  (List.take_sublist _ _).nodup (((List.perm_insertionSort r _).nodup_iff).mpr (h.filter p))

variable [Std.Total r] [IsTrans α r]

/-- **What is passed over comes later**: an element that qualifies and is not taken comes after
all that are, and there are as many of them as the limit allows. -/
theorem pick_full (ha : a ∈ l) (hp : p a = true) (hnot : a ∉ pick p r n l) :
    (pick p r n l).length = n ∧ ∀ b ∈ pick p r n l, r b a := by
  set sorted := (l.filter p).insertionSort r with hsorted
  have hmem : a ∈ sorted := (List.mem_insertionSort r).mpr (List.mem_filter.mpr ⟨ha, hp⟩)
  have hdrop : a ∈ sorted.drop n := by
    rw [← List.take_append_drop n sorted, List.mem_append] at hmem
    exact hmem.resolve_left hnot
  have hlen : n < sorted.length := by
    by_contra hle
    rw [List.drop_eq_nil_of_le (not_lt.mp hle)] at hdrop
    cases hdrop
  refine ⟨List.length_take_of_le hlen.le, fun b hb => ?_⟩
  have hpair := List.pairwise_insertionSort r (l.filter p)
  rw [← hsorted, ← List.take_append_drop n sorted] at hpair
  exact (List.pairwise_append.mp hpair).2.2 b hb a hdrop

lemma mem_pick_of_lt (ha : a ∈ l) (hp : p a = true) (hlt : (pick p r n l).length < n) :
    a ∈ pick p r n l := by
  by_contra hnot
  exact absurd (pick_full ha hp hnot).1 hlt.ne

end DurablePg.Lib

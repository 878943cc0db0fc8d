import Mathlib.Data.List.Basic

/-!
A wait group: a counter, and goroutines that wait for it to reach zero.

A goroutine is inside `Wait` from the moment it enters until the call has returned; when the
counter reaches zero it is released first and returns some time later. A group may be used
again, by an `Add`, only when nobody is inside.
-/

namespace DurablePg.Lib

/-- A goroutine that calls `Wait` once. -/
inductive Waiter
  /-- It has been started and has not entered `Wait`. -/
  | spawned
  /-- It is blocked in `Wait`. -/
  | waiting
  /-- It has been released, or found the counter at zero, and is still inside `Wait`. -/
  | woken
  | returned
  deriving DecidableEq

structure WaitGroup where
  counter : ℕ
  waiters : List Waiter

namespace WaitGroup

def empty : WaitGroup := ⟨0, []⟩

def add (g : WaitGroup) : WaitGroup := { g with counter := g.counter + 1 }

def Waiter.release : Waiter → Waiter
  | .waiting => .woken
  | w => w

/-- `Done`: the last one releases everybody. A negative counter is a panic. -/
def done (g : WaitGroup) : Option WaitGroup :=
  match g.counter with
  | 0 => none
  | 1 => some ⟨0, g.waiters.map Waiter.release⟩
  | n + 2 => some { g with counter := n + 1 }

/-- Start a goroutine that will wait. -/
def spawn (g : WaitGroup) : WaitGroup := { g with waiters := g.waiters ++ [.spawned] }

/-- Goroutine `n` calls `Wait`. -/
def enter (g : WaitGroup) (n : ℕ) : Option WaitGroup :=
  if g.waiters[n]? = some .spawned then
    some { g with waiters := g.waiters.set n (if g.counter = 0 then .woken else .waiting) }
  else none

/-- Its call returns. -/
def leave (g : WaitGroup) (n : ℕ) : Option WaitGroup :=
  if g.waiters[n]? = some .woken then some { g with waiters := g.waiters.set n .returned } else none

/-- Some goroutine is inside `Wait`. -/
def inside (g : WaitGroup) : Bool := g.waiters.any fun w => w = .waiting || w = .woken

/-- Every goroutine has returned from `Wait`. -/
def quiet (g : WaitGroup) : Bool := g.waiters.all fun w => w = .returned

variable {g g' : WaitGroup}

lemma not_inside_of_quiet (h : g.quiet = true) : g.inside = false := by
  simp only [quiet, List.all_eq_true, decide_eq_true_eq] at h
  simp only [inside, List.any_eq_false]
  intro w hw
  simp [h w hw]

lemma quiet_add (h : g.quiet = true) : g.add.quiet = true := h

lemma quiet_done (h : g.quiet = true) (hd : g.done = some g') : g'.quiet = true := by
  unfold done at hd
  split at hd
  · cases hd
  · cases hd
    simp only [quiet, List.all_eq_true, decide_eq_true_eq] at h
    simp only [quiet, List.all_map, List.all_eq_true, Function.comp_apply, decide_eq_true_eq]
    intro w hw
    rw [h w hw]; rfl
  · cases hd; exact h

lemma enter_of_quiet (h : g.quiet = true) (n : ℕ) : g.enter n = none := by
  unfold enter
  rw [if_neg]
  intro hn
  simp only [quiet, List.all_eq_true, decide_eq_true_eq] at h
  cases h _ (List.mem_of_getElem? hn)

lemma leave_of_quiet (h : g.quiet = true) (n : ℕ) : g.leave n = none := by
  unfold leave
  rw [if_neg]
  intro hn
  simp only [quiet, List.all_eq_true, decide_eq_true_eq] at h
  cases h _ (List.mem_of_getElem? hn)

/-! ### What an operation leaves -/

lemma done_counter (h : g.done = some g') : g'.counter + 1 = g.counter := by
  unfold done at h
  split at h <;> rename_i hc
  · cases h
  · cases h; exact hc.symm
  · cases h; exact hc.symm

lemma done_waiters (h : g.done = some g') (hc : g'.counter ≠ 0) : g'.waiters = g.waiters := by
  unfold done at h
  split at h
  · cases h
  · cases h; exact absurd rfl hc
  · cases h; rfl

lemma enter_counter {n : ℕ} (h : g.enter n = some g') : g'.counter = g.counter := by
  obtain ⟨-, h⟩ := Option.ite_none_right_eq_some.mp h
  cases h; rfl

lemma enter_waiters {n m : ℕ} {w : Waiter} (h : g.enter n = some g')
    (hw : g'.waiters[m]? = some w) :
    g.waiters[m]? = some w ∨ w = .waiting ∨ g.counter = 0 := by
  obtain ⟨-, h⟩ := Option.ite_none_right_eq_some.mp h
  cases h
  rw [List.getElem?_set] at hw
  split at hw
  · split at hw
    · cases hw
      split
      · rename_i hc; exact Or.inr (Or.inr hc)
      · exact Or.inr (Or.inl rfl)
    · cases hw
  · exact Or.inl hw

lemma leave_counter {n : ℕ} (h : g.leave n = some g') : g'.counter = g.counter := by
  obtain ⟨-, h⟩ := Option.ite_none_right_eq_some.mp h
  cases h; rfl

lemma leave_waiters {n m : ℕ} {w : Waiter} (h : g.leave n = some g')
    (hw : g'.waiters[m]? = some w) : g.waiters[m]? = some w ∨ g.waiters[m]? = some .woken := by
  obtain ⟨hn, h⟩ := Option.ite_none_right_eq_some.mp h
  cases h
  rw [List.getElem?_set] at hw
  split at hw
  · rename_i hnm
    subst hnm
    exact Or.inr hn
  · exact Or.inl hw

end WaitGroup

end DurablePg.Lib

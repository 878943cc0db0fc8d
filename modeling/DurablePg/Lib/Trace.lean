import Mathlib.Logic.Relation
import Mathlib.Order.Basic
import Mathlib.Tactic

/-!
Runs of a partial step function: the states reached by some sequence of actions, and the
rules by which a fact about one step becomes a fact about every run.
-/

namespace DurablePg.Lib

variable {σ α : Type*}

/-- Some sequence of actions, each allowed where it is taken, leads from `s` to `s'`. -/
def ReachesBy (step : σ → α → Option σ) (allowed : σ → α → Prop) : σ → σ → Prop :=
  Relation.ReflTransGen fun s s' => ∃ a, allowed s a ∧ step s a = some s'

/-- Some sequence of actions leads from `s` to `s'`. -/
abbrev Reaches (step : σ → α → Option σ) : σ → σ → Prop := ReachesBy step fun _ _ => True

namespace ReachesBy

variable {step : σ → α → Option σ} {allowed : σ → α → Prop} {s s' : σ}

/-- **The invariant rule.** -/
theorem invariant {P : σ → Prop} (h : ReachesBy step allowed s s') (hs : P s)
    (hstep : ∀ s a s', P s → allowed s a → step s a = some s' → P s') : P s' := by
  induction h with
  | refl => exact hs
  | tail _ hstep' ih =>
    obtain ⟨a, ha, hstep'⟩ := hstep'
    exact hstep _ a _ ih ha hstep'

lemma snoc (h : ReachesBy step allowed s s') {a : α} {s'' : σ} (ha : allowed s' a)
    (hstep : step s' a = some s'') : ReachesBy step allowed s s'' :=
  h.tail ⟨a, ha, hstep⟩

lemma reaches (h : ReachesBy step allowed s s') : Reaches step s s' := by
  induction h with
  | refl => exact .refl
  | tail _ hstep ih =>
    obtain ⟨a, -, hstep⟩ := hstep
    exact ih.tail ⟨a, trivial, hstep⟩

lemma of_run {allowed : σ → α → Bool} (acts : List α)
    (h : acts.foldlM (fun s a => if allowed s a then step s a else none) s = some s') :
    ReachesBy step (fun s a => allowed s a = true) s s' := by
  induction acts generalizing s with
  | nil => cases h; exact .refl
  | cons a acts ih =>
    obtain ⟨s₁, h₁, h₂⟩ := Option.bind_eq_some_iff.mp h
    obtain ⟨ha, h₁⟩ := Option.ite_none_right_eq_some.mp h₁
    exact Relation.ReflTransGen.head ⟨a, ha, h₁⟩ (ih h₂)

end ReachesBy

lemma append_eq_append_cons {β : Type*} {h evs h₁ h₂ : List β} {x : β}
    (he : h ++ evs = h₁ ++ x :: h₂) :
    (∃ l, h₁ = h ++ l ∧ evs = l ++ x :: h₂) ∨ ∃ l, h = h₁ ++ x :: l ∧ h₂ = l ++ evs := by
  rcases List.append_eq_append_iff.mp he with ⟨l, h₁_eq, evs_eq⟩ | ⟨l, h_eq, tail_eq⟩
  · exact Or.inl ⟨l, h₁_eq, evs_eq⟩
  · rcases l with _ | ⟨z, l⟩
    · exact Or.inl ⟨[], by simpa using h_eq.symm, by simpa using tail_eq.symm⟩
    · rw [List.cons_append, List.cons.injEq] at tail_eq
      obtain ⟨rfl, rfl⟩ := tail_eq
      exact Or.inr ⟨l, h_eq, rfl⟩

lemma Reaches.of_run {step : σ → α → Option σ} {s s' : σ} (acts : List α)
    (h : acts.foldlM step s = some s') : Reaches step s s' := by
  induction acts generalizing s with
  | nil => cases h; exact .refl
  | cons a acts ih =>
    obtain ⟨s₁, h₁, h₂⟩ := Option.bind_eq_some_iff.mp h
    exact Relation.ReflTransGen.head ⟨a, trivial, h₁⟩ (ih h₂)

/-- **Simulation with stuttering**: a step that keeps the invariant leaves what is seen of the
state as it is, or is a step of what is seen; so is a run. -/
theorem Reaches.abstracts {τ : Type*} {step : σ → α → Option σ} {f : σ → τ}
    {next : τ → τ → Prop} {P : σ → Prop} {s s' : σ} (h : Reaches step s s') (hs : P s)
    (hstep : ∀ s a s', P s → step s a = some s' →
      P s' ∧ (f s' = f s ∨ next (f s) (f s'))) :
    Relation.ReflTransGen next (f s) (f s') := by
  refine (h.invariant (P := fun z => P z ∧ Relation.ReflTransGen next (f s) (f z))
    ⟨hs, .refl⟩ fun z a z' ih _ hz => ?_).2
  obtain ⟨hz', heq | hnext⟩ := hstep z a z' ih.1 hz
  · exact ⟨hz', heq ▸ ih.2⟩
  · exact ⟨hz', ih.2.tail hnext⟩

/-! ### Runs as lists of actions -/

section Runs

variable {step : σ → α → Option σ} {s s' z : σ} {a b : α} {l : List α}

lemma run_snoc (l : List α) (a : α) :
    (l ++ [a]).foldlM step s = (l.foldlM step s).bind fun z => step z a := by
  rw [List.foldlM_append]
  congr 1
  funext z
  exact bind_pure (step z a)

/-- **Induction along a run.** -/
theorem run_induction {P : List α → σ → Prop} (hnil : P [] s)
    (hsnoc : ∀ l z a z', l.foldlM step s = some z → P l z → step z a = some z' → P (l ++ [a]) z')
    (h : l.foldlM step s = some s') : P l s' := by
  induction l using List.reverseRecOn generalizing s' with
  | nil => cases h; exact hnil
  | append_singleton l a ih =>
    rw [run_snoc] at h
    obtain ⟨z, hz, hstep⟩ := Option.bind_eq_some_iff.mp h
    exact hsnoc l z a s' hz (ih hz) hstep

/-- The run `l` from `s` takes the action `a` in the state `z`. -/
def Takes (step : σ → α → Option σ) (s : σ) (l : List α) (a : α) (z : σ) : Prop :=
  ∃ l₁ l₂, l = l₁ ++ a :: l₂ ∧ l₁.foldlM step s = some z

lemma Takes.snoc (h : Takes step s l a z) (b : α) : Takes step s (l ++ [b]) a z := by
  obtain ⟨l₁, l₂, rfl, hz⟩ := h
  exact ⟨l₁, l₂ ++ [b], by simp, hz⟩

lemma Takes.last (h : l.foldlM step s = some z) (a : α) : Takes step s (l ++ [a]) a z :=
  ⟨l, [], rfl, h⟩

end Runs

end DurablePg.Lib

import DurablePg.Doc
import DurablePg.ServerInv

/-!
The life cycle of a run, and which columns of its row are null, whatever statements the
clients send.
-/

namespace DurablePg

open DurablePg.Lib

variable {J : Type} [Jsonb J]

/-- The edges of the state diagram. -/
inductive RunState.Next : RunState → RunState → Prop
  | claimed : Next .ready .leased
  | released : Next .leased .ready
  | parked : Next .leased .waitingEvent
  | completed : Next .leased .completed
  | failed : Next .leased .failed
  | woken : Next .waitingEvent .ready
  | cancelledReady : Next .ready .cancelled
  | cancelledLeased : Next .leased .cancelled
  | cancelledWaiting : Next .waitingEvent .cancelled

/-- The row `r'` differs from `r` in `updated_at` at most. -/
def Row.Frozen (r r' : Row J) : Prop := r' = { r with updatedAt := r'.updatedAt }

omit [Jsonb J] in
lemma Row.Frozen.refl (r : Row J) : r.Frozen r := rfl

omit [Jsonb J] in
lemma Row.Frozen.trans {r₁ r₂ r₃ : Row J} (h : r₁.Frozen r₂) (h' : r₂.Frozen r₃) :
    r₁.Frozen r₃ := by
  unfold Row.Frozen at h h' ⊢
  rw [h', h]

omit [Jsonb J] in
lemma Row.Frozen.state {r r' : Row J} (h : r.Frozen r') : r'.state = r.state := by rw [h]

namespace View.Moves

variable {v v' : View J} {ch : Change J}

lemma edge (h : v.Moves ch v') {r : Row J} (hr : v.row = some r) :
    ∃ r', v'.row = some r' ∧ (r'.state = r.state ∨ r.state.Next r'.state) ∧
      (r.state.terminal = true → r.Frozen r' ∧ v'.cps = v.cps) := by
  cases h with
  | inserted n now hrow => rw [hrow] at hr; cases hr
  | updated ch r₀ u hrow hu hg =>
    rw [hrow] at hr; cases hr
    have hfound := Change.finds_of_guard hu hg
    refine ⟨_, rfl, ?_⟩
    cases ch with
    | inserted => cases hu
    | touched now =>
      cases hu
      exact ⟨Or.inl rfl, fun _ => ⟨rfl, by funext i; simp [Update.recordAt]⟩⟩
    | claimed token leaseMs now clock =>
      cases hu
      have hs : r.state = .ready := of_decide_eq_true hfound
      rw [hs]
      exact ⟨Or.inr .claimed, by simp [RunState.terminal]⟩
    | renewed leaseMs now clock =>
      cases hu
      have hs : r.state = .leased := of_decide_eq_true hfound
      exact ⟨Or.inl rfl, by simp [RunState.terminal, hs]⟩
    | wrote token w now clock =>
      cases hu
      have hs : r.state = .leased := of_decide_eq_true hfound
      refine ⟨?_, by simp [RunState.terminal, hs]⟩
      cases w with
      | commitStep index value complete =>
        cases complete
        · exact Or.inl rfl
        · rw [hs]; exact Or.inr .completed
      | completeRun => rw [hs]; exact Or.inr .completed
      | parkSleep => rw [hs]; exact Or.inr .released
      | parkWait => rw [hs]; exact Or.inr .parked
      | failOrRetry attempt ms msg =>
        simp only [Write.update, failOrRetry, hs]
        split
        · exact Or.inr .failed
        · exact Or.inr .released
    | recovered now clock =>
      cases hu
      have hs : r.state = .leased := of_decide_eq_true hfound
      refine ⟨?_, by simp [RunState.terminal, hs]⟩
      simp only [recoverLeases, hs]
      split
      · exact Or.inr .failed
      · exact Or.inr .released
    | cancelled now =>
      cases hu
      have hs : r.state = .ready ∨ r.state = .leased ∨ r.state = .waitingEvent := by
        simpa [or_assoc] using (Bool.and_eq_true_iff.mp hg).2
      rcases hs with hs | hs | hs <;> rw [hs] <;>
        refine ⟨Or.inr ?_, by simp [RunState.terminal]⟩
      · exact .cancelledReady
      · exact .cancelledLeased
      · exact .cancelledWaiting
    | delivered key payload now =>
      cases hu
      have hs : r.state = .waitingEvent := of_decide_eq_true hfound
      rw [hs]
      exact ⟨Or.inr .woken, by simp [RunState.terminal]⟩
    | timedOut now =>
      cases hu
      have hs : r.state = .waitingEvent := of_decide_eq_true hfound
      rw [hs]
      exact ⟨Or.inr .woken, by simp [RunState.terminal]⟩

end View.Moves

namespace Server

lemma step_lifecycle {s s' : Server J} (hs : s.Inv) {a : Act J} (h : s.step a = some s')
    {run : RunId} {r : Row J} (hr : s.db.run run = some r) :
    ∃ r', s'.db.run run = some r' ∧ (r'.state = r.state ∨ r.state.Next r'.state) ∧
      (r.state.terminal = true →
        r.Frozen r' ∧ ∀ i, s'.db.checkpoint run i = s.db.checkpoint run i) := by
  obtain ⟨o, ⟨-, hm⟩, -⟩ := step_moved hs.tx h run
  rcases o with _ | ch
  · have hv : s'.view run = s.view run := hm
    exact ⟨r, (congrArg View.row hv).trans hr, Or.inl rfl,
      fun _ => ⟨.refl r, fun i => congrFun (congrArg View.cps hv) i⟩⟩
  · obtain ⟨r', hr', hst, hterm⟩ := View.Moves.edge hm hr
    exact ⟨r', hr', hst, fun ht => ⟨(hterm ht).1, fun i => congrFun (hterm ht).2 i⟩⟩

lemma Reachable.frozen {s s' : Server J} (hs : s.Reachable) (h : Reaches step s s') {run : RunId}
    {r : Row J} (hr : s.db.run run = some r) (hterm : r.state.terminal = true) :
    ∃ r', s'.db.run run = some r' ∧ r.Frozen r' ∧
      ∀ i, s'.db.checkpoint run i = s.db.checkpoint run i := by
  -- along the run: the row so far is the old one, so the next statement freezes it too
  have hinv := h.invariant (P := fun t => t.Inv ∧ ∃ r', t.db.run run = some r' ∧ r.Frozen r' ∧
    ∀ i, t.db.checkpoint run i = s.db.checkpoint run i) ⟨hs.inv, r, hr, .refl r, fun _ => rfl⟩ ?_
  · exact hinv.2
  rintro t a t' ⟨ht, r₁, hr₁, hf₁, hc₁⟩ - hstep
  obtain ⟨r₂, hr₂, -, hfix⟩ := step_lifecycle ht hstep hr₁
  obtain ⟨hf₂, hc₂⟩ := hfix (by rw [hf₁.state]; exact hterm)
  exact ⟨inv_step ht hstep, r₂, hr₂, hf₁.trans hf₂, fun i => (hc₂ i).trans (hc₁ i)⟩

/-- **Life cycle**: a run moves along the edges of the state diagram, and a run that has ended
keeps every column but `updated_at`, and its checkpoints, through any further statements. -/
theorem lifecycle {s : Server J} (hs : s.Reachable) {run : RunId} {r : Row J}
    (hr : s.db.run run = some r) :
    (∀ a s', s.step a = some s' → ∃ r', s'.db.run run = some r' ∧
      (r'.state = r.state ∨ r.state.Next r'.state)) ∧
    (r.state.terminal = true → ∀ s', Reaches step s s' → ∃ r', s'.db.run run = some r' ∧
      r.Frozen r' ∧ ∀ i, s'.db.checkpoint run i = s.db.checkpoint run i) := by
  refine ⟨fun a s' h => ?_, fun hterm s' h => hs.frozen h hr hterm⟩
  obtain ⟨r', hr', hst, -⟩ := step_lifecycle hs.inv h hr
  exact ⟨r', hr', hst⟩

/-- A run of one step, enqueued, claimed and completed. -/
def oneStep : List (Act Doc) :=
  [.insertRun ⟨"r", "w", 1, "q", 3, none, .null, none⟩ 0,
    .claim ⟨"q", 1, 30000, .single "w" 1⟩ (fun _ => "c") 0,
    .write "r" "c" (.commitStep 0 (.bool true) true) 0]

theorem lifecycle_oneStep : ∃ s r, oneStep.foldlM step (init 0) = some s ∧
    s.db.run "r" = some r ∧ r.state = .completed ∧
    (∀ a s', s.step a = some s' → ∃ r', s'.db.run "r" = some r' ∧
      (r'.state = r.state ∨ r.state.Next r'.state)) ∧
    ∀ s', Reaches step s s' → ∃ r', s'.db.run "r" = some r' ∧ r.Frozen r' ∧
      ∀ i, s'.db.checkpoint "r" i = s.db.checkpoint "r" i := by
  have hrun : ((oneStep.foldlM step (init 0)).bind fun s => s.db.run "r").map Row.state =
      some .completed := by decide
  obtain ⟨r, hr, hstate⟩ := Option.map_eq_some_iff.mp hrun
  obtain ⟨s, hs, hr⟩ := Option.bind_eq_some_iff.mp hr
  have hlife := lifecycle (.of_run 0 oneStep hs) hr
  exact ⟨s, r, hs, hr, hstate, hlife.1, hlife.2 (by rw [hstate]; rfl)⟩

/-- **Rows**: the nullable columns say what the state says, and no two rows share a token. -/
theorem rows_ok {s : Server J} (hs : s.Reachable) :
    (∀ r ∈ s.db.runs.rows, r.Ok) ∧
    ∀ r ∈ s.db.runs.rows, ∀ r' ∈ s.db.runs.rows, ∀ token,
      r.leaseToken = some token → r'.leaseToken = some token → r = r' := by
  have hi := hs.inv
  refine ⟨fun r hr => (hi.life r.id).row_ok (Db.run_of_mem hr), ?_⟩
  intro r hr r' hr' token ht ht'
  have hid : r.id = r'.id := hi.owner _ _ token ((hi.life r.id).token (Db.run_of_mem hr) ht)
    ((hi.life r'.id).token (Db.run_of_mem hr') ht')
  have hget := Db.run_of_mem hr
  rw [hid, Db.run_of_mem hr'] at hget
  exact (Option.some.inj hget).symm

theorem rows_ok_oneStep : ∃ s, (oneStep.take 2).foldlM step (init 0) = some s ∧
    (∃ r ∈ s.db.runs.rows, r.state = .leased) ∧ ∀ r ∈ s.db.runs.rows, r.Ok := by
  have hrun : (((oneStep.take 2).foldlM step (init 0)).map fun s =>
      s.db.runs.rows.any fun r => r.state = .leased) = some true := by decide
  obtain ⟨s, hs, hleased⟩ := Option.map_eq_some_iff.mp hrun
  exact ⟨s, hs, by simpa using hleased, (rows_ok (.of_run 0 _ hs)).1⟩

end Server

end DurablePg

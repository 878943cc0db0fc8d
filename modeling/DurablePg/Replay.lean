import DurablePg.Doc
import DurablePg.SystemInv

/-!
What the checkpoints of a run are: how they lie about its cursor in every reachable state, and,
once the run has completed, which execution of its definition they record.
-/

namespace DurablePg

open DurablePg.Lib

variable {J Ω : Type}

/-- The rows of `step_checkpoints` for an operation of a run. -/
def Db.checkpointsAt (db : Db J) (run : RunId) (i : ℕ) : List (Checkpoint J) :=
  db.checkpoints.rows.filter fun c => c.key = (run, i)

lemma Db.length_checkpointsAt (db : Db J) (run : RunId) (i : ℕ) :
    (db.checkpointsAt run i).length = if (db.checkpoint run i).isSome then 1 else 0 := by
  rw [checkpointsAt, Table.filter_key, checkpoint]
  rcases db.checkpoints.get (run, i) <;> rfl

variable [Jsonb J]

/-! ### Sequential executions -/

/-- The results of the first operations of the definition, executed from left to right without
interruption: a sleep has none, and any other operation runs on the results before it. -/
inductive Sequential (past : Past J Ω) (wf : CompiledWorkflow Ω) (r : Row J) :
    List (Option J) → Prop
  | nil : Sequential past wf r []
  | sleep {vs : List (Option J)} {d : Time} (h : Sequential past wf r vs)
    (hop : wf.ops[vs.length]? = some (.sleep d)) : Sequential past wf r (vs ++ [none])
  | result {vs : List (Option J)} {op : Operation Ω} {x : J} (h : Sequential past wf r vs)
    (hop : wf.ops[vs.length]? = some op)
    (hres : past.Result wf r (fun j => vs.getD j none) vs.length op x) :
    Sequential past wf r (vs ++ [some x])

/-- Up to the cursor, the checkpoints are those of a sequential execution. -/
lemma Course.sequential {past : Past J Ω} {wf : CompiledWorkflow Ω} {cps : ℕ → Option J}
    {r : Row J} (h : Course past wf cps r) {n : ℕ} (hn : n ≤ r.stepIndex) :
    Sequential past wf r ((List.range n).map cps) := by
  induction n with
  | zero => exact .nil
  | succ n ih =>
    have ih := ih (by omega)
    have hlen : ((List.range n).map cps).length = n := by simp
    have hlt : n < wf.ops.length := by have := h.cursor.le; omega
    obtain ⟨op, hop⟩ : ∃ op, wf.ops[n]? = some op := ⟨_, List.getElem?_eq_getElem hlt⟩
    rw [List.range_succ, List.map_append, List.map_singleton]
    by_cases hs : op.isSleep = true
    · rw [h.cursor.sleep n op hop hs]
      cases op with
      | sleep d => exact .sleep ih (by rw [hlen]; exact hop)
      | step | waitEvent => cases hs
    · obtain ⟨x, hx⟩ := Option.isSome_iff_exists.mp
        (h.cursor.below n op (by omega) hop (by simpa using hs))
      obtain ⟨op', hop', hres⟩ := h.origin n x hx
      rw [hop] at hop'; cases hop'
      rw [hx]
      refine .result ih (by rw [hlen]; exact hop) ?_
      rw [hlen]
      exact hres.congr (.refl past) (.refl r) fun j hj => by simp [hj]

/-! ### Reachable states -/

namespace System

variable {reg : Registry Ω} {y : System J Ω} {run : RunId} {r : Row J}

/-- A step, a sleep and a wait. -/
def threeOps : Registry Unit := .single "w" 1
  [.step "a" (some fun _ _ => .returns (.ok (utf8 "true"))) [], .sleep 1000000,
    .waitEvent "e" "k" 1000000]

def worker : Engine := ⟨"q", 30000000000, [("w", 1)]⟩

/-- A run of these operations in three claims; the event arrives while the run waits. -/
def threeClaims : List (Move Doc Unit) :=
  [.enqueue worker "w" (utf8 "null") [] "r" 0,
    .claim worker 1 (fun _ => "c") 0 false, .turn "c" (.invoke () []), .exec "c" 0 false,
    .turn "c" .sleep, .exec "c" 0 false, .outside (.tick 2000000),
    .claim worker 1 (fun _ => "d") 2000000 false, .turn "d" (.invoke () []), .begin "d",
    .lockEventKey "d", .latestEvent "d", .statement "d", .commit "d" false,
    .emitEvent 0 "k" (utf8 "false"), .outside (.lockEventKey (.emit 0)),
    .outside (.statement (.emit 0)), .outside (.commit (.emit 0)),
    .claim worker 1 (fun _ => "f") 2000000 false, .turn "f" .advance, .turn "f" (.finish []),
    .exec "f" 2000000 false]

/-- **Cursor**: in every reachable state the checkpoints of a run lie about its cursor as its
definition says; the cursor never goes back and a checkpoint stays for good. -/
theorem cursor_invariant (hy : y.Reachable reg) (hr : y.srv.db.run run = some r) :
    (∃ wf, reg.workflow r.workflowName r.workflowVersion = some wf ∧
      Cursor wf r (y.srv.db.checkpoint run) ∧
      ∀ i op, i < r.stepIndex → wf.ops[i]? = some op →
        (y.srv.db.checkpointsAt run i).length = if op.isSleep then 0 else 1) ∧
    ∀ y', Reaches (step reg) y y' → ∃ r', y'.srv.db.run run = some r' ∧
      r.stepIndex ≤ r'.stepIndex ∧
      ∀ i x, y.srv.db.checkpoint run i = some x → y'.srv.db.checkpoint run i = some x := by
  refine ⟨?_, fun y' h' => ?_⟩
  · obtain ⟨wf, hwf, hc⟩ := hy.inv.course hr
    refine ⟨wf, hwf, hc.cursor, fun i op hi hop => ?_⟩
    rw [Db.length_checkpointsAt]
    cases hs : op.isSleep with
    | true => simp [hc.cursor.sleep i op hop hs]
    | false => simp [hc.cursor.below i op hi hop hs]
  · obtain ⟨r', hr', -, hle, hcps⟩ := hy.progress h' hr
    exact ⟨r', hr', hle, hcps⟩

theorem cursor_invariant_threeClaims : ∃ y r,
    (threeClaims.take 14).foldlM (step threeOps) (init 0) = some y ∧
    y.srv.db.run "r" = some r ∧ r.state = .waitingEvent ∧ r.stepIndex = 2 ∧
    ∃ wf, threeOps.workflow r.workflowName r.workflowVersion = some wf ∧
      Cursor wf r (y.srv.db.checkpoint "r") := by
  have hrun : (((threeClaims.take 14).foldlM (step threeOps) (init 0)).bind fun y =>
      y.srv.db.run "r").map (fun r => (r.state, r.stepIndex)) = some (.waitingEvent, 2) := by
    decide +kernel
  obtain ⟨r, hr, hstate⟩ := Option.map_eq_some_iff.mp hrun
  obtain ⟨y, hy, hr⟩ := Option.bind_eq_some_iff.mp hr
  obtain ⟨hstate, hindex⟩ := Prod.mk.inj hstate
  obtain ⟨⟨wf, hwf, hc, -⟩, -⟩ := cursor_invariant (.of_run 0 _ hy) hr
  exact ⟨y, r, hy, hr, hstate, hindex, wf, hwf, hc⟩

/-- **Refinement**: a completed run has the checkpoints of one uninterrupted execution of its
definition, each of them once, and its output is the one the definition names. -/
theorem completed_sequential (hy : y.Reachable reg) (hr : y.srv.db.run run = some r)
    (hc : r.state = .completed) :
    ∃ wf vs, reg.workflow r.workflowName r.workflowVersion = some wf ∧
      Sequential y.past wf r vs ∧ vs.length = wf.ops.length ∧
      (∀ i, y.srv.db.checkpoint run i = vs.getD i none) ∧
      (∀ i op, wf.ops[i]? = some op →
        (y.srv.db.checkpointsAt run i).length = if op.isSleep then 0 else 1) ∧
      r.outputJson = wf.outputIndex.bind (y.srv.db.checkpoint run) := by
  obtain ⟨wf, hwf, hcourse⟩ := hy.inv.course hr
  have hdone := hcourse.cursor.completed hc
  refine ⟨wf, (List.range wf.ops.length).map (y.srv.db.checkpoint run), hwf,
    hcourse.sequential hdone.ge, by simp, fun i => ?_, fun i op hop => ?_, hcourse.output hc⟩
  · rcases Nat.lt_or_ge i wf.ops.length with hi | hi
    · simp [hi]
    · simp [hi, hcourse.cursor.beyond hi]
  · have hi : i < r.stepIndex := by
      rw [hdone]; exact (List.getElem?_eq_some_iff.mp hop).1
    rw [Db.length_checkpointsAt]
    cases hs : op.isSleep with
    | true => simp [hcourse.cursor.sleep i op hop hs]
    | false => simp [hcourse.cursor.below i op hi hop hs]

theorem completed_sequential_threeClaims : ∃ y r wf vs,
    threeClaims.foldlM (step threeOps) (init 0) = some y ∧ y.srv.db.run "r" = some r ∧
    r.state = .completed ∧ r.outputJson = some (.received (.bool false)) ∧
    threeOps.workflow r.workflowName r.workflowVersion = some wf ∧
    Sequential y.past wf r vs ∧ ∀ i, y.srv.db.checkpoint "r" i = vs.getD i none := by
  have hrun : ((threeClaims.foldlM (step threeOps) (init 0)).bind fun y =>
      y.srv.db.run "r").map (fun r => (r.state, r.outputJson)) =
      some (.completed, some (.received (.bool false))) := by decide +kernel
  obtain ⟨r, hr, hstate⟩ := Option.map_eq_some_iff.mp hrun
  obtain ⟨y, hy, hr⟩ := Option.bind_eq_some_iff.mp hr
  obtain ⟨hstate, hout⟩ := Prod.mk.inj hstate
  obtain ⟨wf, vs, hwf, hseq, -, hcps, -⟩ := completed_sequential (.of_run 0 _ hy) hr hstate
  exact ⟨y, r, wf, vs, hy, hr, hstate, hout, hwf, hseq, hcps⟩

end System

end DurablePg

import DurablePg.ClaimScan
import DurablePg.Contexts

/-!
What a claim returns, and what the functions it calls find.

A claim that locks a run after the run was driven on can return the new cursor with the old
checkpoints: an event that began before the claim schedules the run in the claim's past. It
is complete in every run in which this does not happen.
-/

namespace DurablePg

open DurablePg.Lib

variable {J Ω : Type} [Jsonb J]

/-! ### What the claim's calls see -/

namespace Proc

/-- The worker goes on: it takes a turn, gets an answer, or turns to another statement. -/
inductive Goes (p : Proc J Ω) : Proc J Ω → Prop
  | turn {t : Turn Ω} {p' : Proc J Ω} {ks : List (Call Ω)} (h : p.turn t = some (p', ks)) :
    Goes p p'
  | answered (owned : Bool) (existing : Option J) : Goes p (p.answered owned existing)
  | aside (pc : Pc) (sent failure : Option (Write J)) :
    Goes p { p with pc := pc, sent := sent, failure := failure }

/-- The worker has come from `p` to `p'`. -/
abbrev Drives : Proc J Ω → Proc J Ω → Prop := Relation.ReflTransGen Goes

lemma Drives.onward {p p' : Proc J Ω} (h : p.Drives p') : p.Onward p' := by
  induction h with
  | refl => exact .refl p
  | tail _ hgoes ih =>
    refine ih.trans ?_
    cases hgoes with
    | turn ht => exact turn_onward ht
    | answered => exact answered_onward ..
    | aside => exact .of_values rfl rfl rfl rfl

lemma Drives.rawValue {e : Engine} {reg : Registry Ω} {run : ClaimedRun} {p p' p'' : Proc J Ω}
    (hstart : start e reg run = some p) (h : p.Drives p') {t : Turn Ω} {ks : List (Call Ω)}
    (ht : p'.turn t = some (p'', ks)) {k : Call Ω} (hk : k ∈ ks) {name : String} {i : ℕ}
    (hname : p.wf.names name = some i) (hops : i < p.wf.ops.length) (hi : i < run.stepIndex) :
    k.ctx.rawValue name = run.checkpoints i := by
  obtain ⟨-, ω, op, name', rfl, -⟩ := turn_calls ht hk
  have hon := h.onward
  have hindex : p.index = run.stepIndex := by
    obtain ⟨wf, -, rfl⟩ := Option.map_eq_some_iff.mp hstart; rfl
  have hlt : i < p'.index := (hindex ▸ hi).trans_le hon.index
  have hvalue : p'.value i = run.checkpoints i := by
    rw [hon.below i (hindex ▸ hi), start_value hstart, if_pos hops]
  rw [← hvalue]
  simp [StepContext.rawValue, StepContext.raw, call, stepContext, hon.wf, hname, value, hlt]

end Proc

/-! ### Complete claims -/

namespace Claims

/-- A step, a wait and a step. -/
def stepWaitStep : Registry Unit := .single "w" 1
  [.step "a" (some fun _ _ => .returns (.ok (utf8 "true"))) [], .waitEvent "e" "k" 60000000000,
    .step "b" (some fun _ _ => .returns (.ok (utf8 "false"))) []]

/-- What a worker sends to claim one run. -/
def claimOne : ClaimQuery := ⟨"q", 1, 30000, .single "w" 1⟩

/-- The scan's run is claimed by another worker, which stores the first result and registers
the wait. -/
def overtaken : List (ClaimAct Doc) :=
  [.start 0 claimOne, .start 1 claimOne, .visit 1 "b", .finish 1,
    .server (.write "r" "b" (.commitStep 0 (.bool true) false) 1),
    .server (.begin (.wait "b" "r" 1 60000 false) "k"), .server (.lockEventKey (.wait "b")),
    .server (.latestEvent "b"), .server (.statement (.wait "b")), .server (.commit (.wait "b"))]

/-- The steps of an `EmitEvent` once it has begun. -/
def emit : List (ClaimAct Doc) :=
  [.server (.lockEventKey (.emit 0)), .server (.statement (.emit 0)), .server (.commit (.emit 0))]

def enqueue : ClaimAct Doc := .server (.insertRun ⟨"r", "w", 1, "q", 3, none, .null, none⟩ 0)

/-- `EmitEvent` begins before the first scan starts, and gets the event key after the wait is
registered. -/
def staleClaim : List (ClaimAct Doc) :=
  [enqueue, .server (.begin (.emit 0 .null) "k"), .server (.tick 1)] ++ overtaken ++ emit ++
    [.visit 0 "a", .finish 0]

/-- The claim registers the wait again, finds the event and goes on to the next step. -/
def driveStale : List (Move Doc Unit) :=
  [.turn "a" (.invoke () []), .begin "a", .lockEventKey "a", .latestEvent "a", .statement "a",
    .commit "a" false, .turn "a" (.invoke () [])]

/-- A claim that began before the event's delivery returns the run's new cursor with its old
checkpoints; it calls a step function that does not find the first step's result. -/
theorem staleClaim_incomplete : ∃ c ret p y k, staleClaim.foldlM step (init 0) = some c ∧
    ret ∈ c.returned ∧ ret.run.stepIndex = 1 ∧ ret.committed 0 = some (.bool true) ∧
    ret.run.checkpoints 0 = none ∧ Proc.start System.worker stepWaitStep ret.run = some p ∧
    driveStale.foldlM (System.step stepWaitStep)
      ⟨c.srv, fun token => if token = "a" then some p else none, []⟩ = some y ∧
    k ∈ y.calls ∧ k.index = 2 ∧ k.ctx.stepKey = "2:b" ∧ k.ctx.rawValue "a" = none := by
  have hrun : ((staleClaim.foldlM step (init 0)).bind fun c =>
      (c.returned.getLast?).bind fun ret =>
      (Proc.start (J := Doc) System.worker stepWaitStep ret.run).bind fun p =>
      (driveStale.foldlM (System.step stepWaitStep)
        ⟨c.srv, fun token => if token = "a" then some p else none, []⟩).bind fun y =>
      (y.calls.getLast?).map fun k => decide (ret.run.stepIndex = 1 ∧
        ret.committed 0 = some (.bool true) ∧ ret.run.checkpoints 0 = none ∧
        k.index = 2 ∧ k.ctx.stepKey = "2:b" ∧ k.ctx.rawValue "a" = none)) = some true := by
    decide +kernel
  obtain ⟨c, hc, hrun⟩ := Option.bind_eq_some_iff.mp hrun
  obtain ⟨ret, hret, hrun⟩ := Option.bind_eq_some_iff.mp hrun
  obtain ⟨p, hp, hrun⟩ := Option.bind_eq_some_iff.mp hrun
  obtain ⟨y, hy, hrun⟩ := Option.bind_eq_some_iff.mp hrun
  obtain ⟨k, hk, hrun⟩ := Option.map_eq_some_iff.mp hrun
  obtain ⟨hindex, hcommitted, hnone, hk₁, hk₂, hk₃⟩ := of_decide_eq_true hrun
  exact ⟨c, ret, p, y, k, hc, List.mem_of_getLast? hret, hindex, hcommitted, hnone, hp, hy,
    List.mem_of_getLast? hk, hk₁, hk₂, hk₃⟩

/-- **Complete claims**: as long as no run that a claim statement has still to visit is made
ready and due at or before the statement's `now()`, every claim returns all checkpoints
committed below its cursor, and every function that the claim calls finds them. -/
theorem claims_complete {clock : Time} {c : Claims J}
    (h : ReachesBy step (fun c a => c.later a = true) (init clock) c) {ret : Returned J}
    (hret : ret ∈ c.returned) {i : ℕ} {x : J} (hi : i < ret.run.stepIndex)
    (hx : ret.committed i = some x) :
    ret.run.checkpoints i = some (text x) ∧
    ∀ (e : Engine) (reg : Registry Ω) (p p' p'' : Proc J Ω) t ks k name,
      Proc.start e reg ret.run = some p → p.wf.names name = some i → i < p.wf.ops.length →
      p.Drives p' → p'.turn t = some (p'', ks) → k ∈ ks → k.ctx.rawValue name = some (text x) := by
  have hinv : c.Inv := h.invariant (.init clock) fun _ _ _ hc ha hstep => hc.step ha hstep
  have hcomplete := hinv.returned ret hret i x hx
  refine ⟨hcomplete, fun e reg p p' p'' t ks k name hstart hname hops hdrives ht hk => ?_⟩
  rw [hdrives.rawValue hstart ht hk hname hops hi, hcomplete]

/-- `EmitEvent` begins after the first scan has started: the scan passes the run over, and the
next one returns all of it. -/
def laterClaim : List (ClaimAct Doc) :=
  [enqueue, .server (.tick 1)] ++ overtaken ++
    [.server (.tick 2), .server (.begin (.emit 0 .null) "k")] ++ emit ++
    [.visit 0 "a", .finish 0, .start 2 claimOne, .visit 2 "d", .finish 2]

theorem claims_complete_laterClaim : ∃ c ret, ReachesBy step (fun c a => c.later a = true)
      (init 0) c ∧ ret ∈ c.returned ∧ ret.run.token = "d" ∧ ret.run.stepIndex = 1 ∧
    ret.committed 0 = some (Doc.bool true) ∧
    ret.run.checkpoints 0 = some (text (Doc.bool true)) := by
  have hrun : ((laterClaim.foldlM (fun (c : Claims Doc) a => if c.later a then c.step a else none)
      (init 0)).bind fun c => (c.returned.getLast?).map fun ret => (ret.run.token,
        ret.run.stepIndex, ret.committed 0)) = some ("d", 1, some (.bool true)) := by decide +kernel
  obtain ⟨c, hc, hrun⟩ := Option.bind_eq_some_iff.mp hrun
  obtain ⟨ret, hret, hrun⟩ := Option.map_eq_some_iff.mp hrun
  simp only [Prod.mk.injEq] at hrun
  obtain ⟨htoken, hindex, hcommitted⟩ := hrun
  have hreach := ReachesBy.of_run laterClaim hc
  have hmem := List.mem_of_getLast? hret
  exact ⟨c, ret, hreach, hmem, htoken, hindex, hcommitted,
    (claims_complete (Ω := Unit) hreach hmem (by rw [hindex]; decide) hcommitted).1⟩

end Claims

end DurablePg

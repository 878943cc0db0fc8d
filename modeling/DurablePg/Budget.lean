import DurablePg.Replay
import Mathlib.Data.List.DropRight

/-!
The failure budget of a run: what its two counters count, and when they exhaust it.

The number of an attempt is computed by the worker from what its claim read; that it counts
the failures of the whole life is a matter of the fence. Lease failures are counted by the
server, and every progress of the run starts their count again.
-/

namespace DurablePg

open DurablePg.Lib

variable {J Ω : Type}

namespace Change

/-- An effective write of `failOrRetry`. -/
def isFailure : Change J → Bool
  | .wrote _ (.failOrRetry ..) _ _ => true
  | _ => false

/-- A lease recovery. -/
def isRecovery : Change J → Bool
  | .recovered .. => true
  | _ => false

/-- An effective progress write: `commitStep`, `parkSleep` or `parkWait`. -/
def isProgress : Change J → Bool
  | .wrote _ (.commitStep ..) _ _ | .wrote _ (.parkSleep ..) _ _
  | .wrote _ (.parkWait ..) _ _ => true
  | _ => false

end Change

/-- The failures in the life of a run. -/
def failures (l : List (Change J)) : ℕ := l.countP Change.isFailure

/-- The lease recoveries since the last progress. -/
def recoveries (l : List (Change J)) : ℕ :=
  (l.rtakeWhile fun ch => !ch.isProgress).countP Change.isRecovery

lemma failures_snoc (l : List (Change J)) (ch : Change J) :
    failures (l ++ [ch]) = failures l + if ch.isFailure then 1 else 0 := by
  simp [failures, List.countP_append, List.countP_singleton]

lemma recoveries_snoc (l : List (Change J)) (ch : Change J) :
    recoveries (l ++ [ch]) =
      if ch.isProgress then 0 else recoveries l + if ch.isRecovery then 1 else 0 := by
  cases h : ch.isProgress <;>
    simp [recoveries, h, List.countP_append, List.countP_singleton]

/-- The counters of a run against its life and its budget. -/
structure Row.Budget (r : Row J) (l : List (Change J)) : Prop where
  attempt : r.attempt = failures l
  leaseFailures : r.leaseFailures = recoveries l
  below : r.state ≠ .failed → r.attempt < r.maxAttempts ∧ r.leaseFailures < r.maxAttempts
  failed : r.state = .failed ↔
    (r.attempt = r.maxAttempts ∧ r.leaseFailures < r.maxAttempts) ∨
    (r.attempt < r.maxAttempts ∧ r.leaseFailures = r.maxAttempts)
  integer : r.maxAttempts ≤ 2147483647

namespace Row.Budget

variable {r r' : Row J} {l : List (Change J)} {ch : Change J}

lemma inserted {n : NewRun J} (hn : n.storable = true) (now : Time) :
    (n.row now).Budget [.inserted n now] := by
  simp only [NewRun.storable, isInt4, Bool.and_eq_true, decide_eq_true_eq] at hn
  have hpos : 0 < n.maxAttempts.toNat := by omega
  refine ⟨rfl, rfl, fun _ => ⟨hpos, hpos⟩, ?_, ?_⟩
  · simp only [NewRun.row, reduceCtorEq, false_iff]; omega
  · simp only [NewRun.row]; omega

lemma keep (h : r.Budget l) (hf : ch.isFailure = false) (hr : ch.isRecovery = false)
    (hp : ch.isProgress = false) (ha : r'.attempt = r.attempt)
    (hl : r'.leaseFailures = r.leaseFailures) (hm : r'.maxAttempts = r.maxAttempts)
    (hs : r'.state = .failed ↔ r.state = .failed) : r'.Budget (l ++ [ch]) := by
  refine ⟨?_, ?_, ?_, ?_, ?_⟩
  · rw [failures_snoc, ha, h.attempt]; simp [hf]
  · rw [recoveries_snoc, hl, h.leaseFailures]; simp [hr, hp]
  · rw [ha, hl, hm]; exact fun hne => h.below (mt hs.mpr hne)
  · rw [ha, hl, hm, hs]; exact h.failed
  · rw [hm]; exact h.integer

lemma progress (h : r.Budget l) (hleased : r.state = .leased) (hf : ch.isFailure = false)
    (hp : ch.isProgress = true) (ha : r'.attempt = r.attempt) (hl : r'.leaseFailures = 0)
    (hm : r'.maxAttempts = r.maxAttempts) (hs : r'.state ≠ .failed) : r'.Budget (l ++ [ch]) := by
  obtain ⟨hlt, -⟩ := h.below (by simp [hleased])
  refine ⟨?_, ?_, fun _ => ?_, ?_, ?_⟩
  · rw [failures_snoc, ha, h.attempt]; simp [hf]
  · rw [recoveries_snoc, hl]; simp [hp]
  · rw [ha, hl, hm]; omega
  · rw [ha, hl, hm]; simp only [hs, false_iff]; omega
  · rw [hm]; exact h.integer

lemma failure (h : r.Budget l) (hleased : r.state = .leased) {token : Token} {ms : ℤ}
    {msg : Bytes} {now clock : Time} (id : RunId) :
    ((failOrRetry id token (r.attempt + 1) ms msg now clock).set r).Budget
      (l ++ [.wrote token (.failOrRetry (r.attempt + 1) ms msg) now clock]) := by
  obtain ⟨hlt, hlt'⟩ := h.below (by simp [hleased])
  refine ⟨?_, ?_, ?_, ?_, h.integer⟩
  · rw [failures_snoc, ← h.attempt]; rfl
  · rw [recoveries_snoc, ← h.leaseFailures]; rfl
  all_goals
    simp only [failOrRetry]
    split <;> simp <;> omega

lemma recovery (h : r.Budget l) (hleased : r.state = .leased) {now clock : Time} :
    ((recoverLeases [] now clock).set r).Budget (l ++ [.recovered now clock]) := by
  obtain ⟨hlt, hlt'⟩ := h.below (by simp [hleased])
  refine ⟨?_, ?_, ?_, ?_, h.integer⟩
  · rw [failures_snoc, ← h.attempt]; rfl
  · rw [recoveries_snoc, ← h.leaseFailures]; rfl
  all_goals
    simp only [recoverLeases]
    split <;> simp <;> omega

lemma write (h : r.Budget l) {cps : ℕ → Option J} {id : RunId} {token : Token} {w : Write J}
    {now clock : Time} (hg : (w.update cps id token now clock).guard r = true)
    (hfits : ∀ attempt ms msg, w = .failOrRetry attempt ms msg → attempt = r.attempt + 1) :
    ((w.update cps id token now clock).set r).Budget (l ++ [.wrote token w now clock]) := by
  obtain ⟨-, hs, -⟩ := fence_iff.mp (Write.fence_of_guard hg)
  cases w with
  | commitStep i x complete =>
    refine h.progress hs rfl rfl rfl rfl rfl ?_
    cases complete <;> simp [Write.update, commitStep, hs]
  | completeRun => exact h.keep rfl rfl rfl rfl rfl rfl (by simp [Write.update, completeRun, hs])
  | parkSleep => exact h.progress hs rfl rfl rfl rfl rfl (by simp [Write.update, parkSleep])
  | parkWait => exact h.progress hs rfl rfl rfl rfl rfl (by simp [Write.update, parkWait])
  | failOrRetry attempt ms msg => rw [hfits attempt ms msg rfl]; exact h.failure hs id

lemma update [Jsonb J] (h : r.Budget l) {cps : ℕ → Option J} {u : Update J}
    (hu : ch.update cps r.id = some u) (hg : u.guard r = true)
    (hfits : ∀ token attempt ms msg now clock,
      ch = .wrote token (.failOrRetry attempt ms msg) now clock → attempt = r.attempt + 1) :
    (u.set r).Budget (l ++ [ch]) := by
  have hfound := Change.finds_of_guard hu hg
  cases ch with
  | inserted => cases hu
  | touched now => cases hu; exact h.keep rfl rfl rfl rfl rfl rfl Iff.rfl
  | renewed leaseMs now clock => cases hu; exact h.keep rfl rfl rfl rfl rfl rfl Iff.rfl
  | claimed token leaseMs now clock =>
    cases hu
    have hs : r.state = .ready := of_decide_eq_true hfound
    exact h.keep rfl rfl rfl rfl rfl rfl (by simp [claim, hs])
  | wrote token w now clock =>
    cases hu
    exact h.write hg fun attempt ms msg hw => hfits token attempt ms msg now clock (by rw [hw])
  | recovered now clock =>
    cases hu
    exact h.recovery (of_decide_eq_true hfound)
  | cancelled now =>
    cases hu
    have hs : r.state ≠ .failed := by rintro hs; rw [hs] at hfound; cases hfound
    exact h.keep rfl rfl rfl rfl rfl rfl (by simp [cancelRun, hs])
  | delivered key payload now =>
    cases hu
    have hs : r.state = .waitingEvent := of_decide_eq_true hfound
    exact h.keep rfl rfl rfl rfl rfl rfl (by simp [wake, hs])
  | timedOut now =>
    cases hu
    have hs : r.state = .waitingEvent := of_decide_eq_true hfound
    exact h.keep rfl rfl rfl rfl rfl rfl (by simp [promoteTimedOut, hs])

end Row.Budget

variable [Jsonb J]

/-- A lawful life keeps the budget. -/
theorem Lawful.budget {past : Past J Ω} {wf : CompiledWorkflow Ω} {l : List (Change J)}
    {v : View J} (h : Lawful past wf l v) {r : Row J} (hr : v.row = some r) : r.Budget l := by
  refine h.row_induction (motive := fun l _ r => r.Budget l) (fun n now hn _ _ => ?_) ?_ hr
  · exact .inserted hn now
  · intro l v ch v' r r' _ hm hfits hr hr' ih
    cases hm with
    | inserted n now hrow => rw [hrow] at hr; cases hr
    | updated ch r₀ u hrow hu hg =>
      rw [hrow] at hr; cases hr; cases hr'
      refine ih.update hu hg ?_
      rintro token attempt ms msg now clock rfl
      exact hfits r hrow

namespace System

variable {reg : Registry Ω} {y : System J Ω} {run : RunId} {r : Row J}

/-- **Failure budget**: the counters of a run count its failures and its lease recoveries since
the last progress; the run fails when one of them reaches the maximum, and neither exceeds it. -/
theorem failure_budget (hy : y.Reachable reg) (hr : y.srv.db.run run = some r) :
    r.attempt = failures (y.srv.log run) ∧ r.leaseFailures = recoveries (y.srv.log run) ∧
    (r.state ≠ .failed → r.attempt < r.maxAttempts ∧ r.leaseFailures < r.maxAttempts) ∧
    (r.state = .failed ↔ (r.attempt = r.maxAttempts ∧ r.leaseFailures < r.maxAttempts) ∨
      (r.attempt < r.maxAttempts ∧ r.leaseFailures = r.maxAttempts)) ∧
    r.attempt ≤ r.maxAttempts ∧ r.leaseFailures ≤ r.maxAttempts ∧
    r.maxAttempts ≤ 2147483647 := by
  obtain ⟨wf, -, hl⟩ := hy.inv.lawful run r hr
  have h := hl.budget hr
  have hle : r.attempt ≤ r.maxAttempts ∧ r.leaseFailures ≤ r.maxAttempts := by
    by_cases hs : r.state = .failed
    · have := h.failed.mp hs; omega
    · have := h.below hs; omega
  exact ⟨h.attempt, h.leaseFailures, h.below, h.failed, hle.1, hle.2, h.integer⟩

/-- A step that always fails. -/
def brokenStep : Registry Unit := .single "w" 1 [.step "a" (some fun _ _ => .fails []) []]

/-- Two attempts fail, and between them a worker loses its lease. -/
def twoAttempts : List (Move Doc Unit) :=
  [.enqueue worker "w" (utf8 "null") [.withMaxAttempts 2] "r" 0,
    .claim worker 1 (fun _ => "c") 0 false, .turn "c" (.invoke () []), .turn "c" .failOrRetry,
    .execFailure "c" 0, .outside (.tick 30000000000),
    .claim worker 1 (fun _ => "d") 30000000000 false, .outside (.tick 90000000000),
    .outside (.recoverLeases 90000000000), .outside (.tick 120000000000),
    .claim worker 1 (fun _ => "f") 120000000000 false, .turn "f" (.invoke () []),
    .turn "f" .failOrRetry, .execFailure "f" 120000000000]

theorem failure_budget_twoAttempts : ∃ y r,
    twoAttempts.foldlM (step brokenStep) (init 0) = some y ∧ y.srv.db.run "r" = some r ∧
    r.state = .failed ∧ r.attempt = 2 ∧ r.leaseFailures = 1 ∧ r.maxAttempts = 2 ∧
    failures (y.srv.log "r") = 2 ∧ recoveries (y.srv.log "r") = 1 := by
  have hrun : ((twoAttempts.foldlM (step brokenStep) (init 0)).bind fun y =>
      y.srv.db.run "r").map (fun r => (r.state, r.attempt, r.leaseFailures, r.maxAttempts)) =
      some (.failed, 2, 1, 2) := by decide +kernel
  obtain ⟨r, hr, hstate⟩ := Option.map_eq_some_iff.mp hrun
  obtain ⟨y, hy, hr⟩ := Option.bind_eq_some_iff.mp hr
  simp only [Prod.mk.injEq] at hstate
  obtain ⟨hstate, hattempt, hlease, hmax⟩ := hstate
  obtain ⟨ha, hl, -⟩ := failure_budget (.of_run 0 _ hy) hr
  exact ⟨y, r, hy, hr, hstate, hattempt, hlease, hmax, ha.symm.trans hattempt, hl.symm.trans hlease⟩

end System

end DurablePg

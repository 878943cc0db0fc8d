import DurablePg.Lib.Trace
import DurablePg.Lib.WaitGroup

/-!
The goroutines of one engine: `StartWorker` with its dispatch loop, the claims it starts, and
`WaitForIdle`.

Claims outlive the `StartWorker` that began them, because its drain is bounded; `WaitForIdle`
waits for them, in a goroutine of its own that outlives a call whose context expires. The
mutex `workerMu` is held by a `WaitForIdle` for as long as the call lasts; `beginWorker` and
`endWorker` take it for an instant and block while it is held.
-/

namespace DurablePg

open DurablePg.Lib

/-- Where the dispatch loop of a worker is. -/
inductive Dispatching
  | select
  /-- In `claimReadyRuns`, with the slots that were available before. -/
  | claiming (available : ℕ)
  /-- Starting the claims that the query returned, of which so many are left. -/
  | starting (rest : ℕ)
  /-- The context is done; waiting for the claims or for the timer. -/
  | draining
  | returned
  deriving DecidableEq

/-- The goroutine of a claim. -/
inductive ClaimPhase
  | executing
  /-- `release` has been called. -/
  | released
  /-- The slot has been given back. -/
  | left
  /-- `activeClaims.Done` has been called. -/
  | done
  deriving DecidableEq

structure ActiveClaim where
  /-- The `StartWorker` that began it. -/
  worker : ℕ
  phase : ClaimPhase
  deriving DecidableEq

/-- A `StartWorker` between `beginWorker` and `endWorker`. -/
structure HostWorker where
  number : ℕ
  loop : Dispatching
  inFlight : ℤ

structure Host where
  maxConcurrency : ℕ
  /-- How many workers have been started. -/
  started : ℕ
  /-- The running worker: `workerRunning` holds while there is one. -/
  worker : Option HostWorker
  activeClaims : WaitGroup
  claims : List ActiveClaim
  /-- The `WaitForIdle` call that holds the mutex. -/
  workerMu : Option ℕ

inductive HostAct
  | startWorker
  /-- A poll tick, a notification or a completion makes the loop dispatch. -/
  | dispatch
  /-- `claimReadyRuns` returns so many runs. -/
  | claimed (n : ℕ)
  | startClaim
  | dispatched
  | cancel
  | drained (timeout : Bool)
  | endWorker
  | release (c : ℕ)
  | leave (c : ℕ)
  | done (c : ℕ)
  | waitForIdle
  /-- The goroutine of a `WaitForIdle` call enters `activeClaims.Wait`, or returns from it. -/
  | enterWait (n : ℕ)
  | leaveWait (n : ℕ)
  /-- A `WaitForIdle` call returns, because its goroutine is done or its context is. -/
  | returnIdle (n : ℕ) (expired : Bool)

namespace Host

def init (maxConcurrency : ℕ) : Host := ⟨maxConcurrency, 0, none, .empty, [], none⟩

def setLoop (s : Host) (w : HostWorker) (loop : Dispatching) : Host :=
  { s with worker := some { w with loop := loop } }

/-- Move the goroutine of a claim on. -/
def setClaim (s : Host) (c : ℕ) (claim : ActiveClaim) (phase : ClaimPhase) : Host :=
  { s with claims := s.claims.set c { claim with phase := phase } }

def startWorker (s : Host) : Option Host :=
  if s.workerMu.isSome then none
  else match s.worker with
    -- the worker is already running
    | some _ => some s
    | none => some { s with started := s.started + 1, worker := some ⟨s.started, .select, 0⟩ }

def waitForIdle (s : Host) : Option Host :=
  if s.workerMu.isSome then none
  else match s.worker with
    -- the worker must be stopped first
    | some _ => some s
    | none => some { s with
        activeClaims := s.activeClaims.spawn
        workerMu := some s.activeClaims.waiters.length }

/-- A step of the dispatch loop. -/
def loopStep (s : Host) (w : HostWorker) : HostAct → Option Host
  | .dispatch =>
    if w.loop = .select then
      let available := s.maxConcurrency - w.inFlight
      some (if available ≤ 0 then s else s.setLoop w (.claiming available.toNat))
    else none
  | .claimed n =>
    match w.loop with
    | .claiming available => if n ≤ available then some (s.setLoop w (.starting n)) else none
    | _ => none
  | .startClaim =>
    match w.loop with
    | .starting (rest + 1) => some { s with
        worker := some { w with loop := .starting rest, inFlight := w.inFlight + 1 }
        activeClaims := s.activeClaims.add
        claims := s.claims ++ [⟨w.number, .executing⟩] }
    | _ => none
  | .dispatched => if w.loop = .starting 0 then some (s.setLoop w .select) else none
  | .cancel => if w.loop = .select then some (s.setLoop w .draining) else none
  | .drained timeout =>
    if w.loop = .draining &&
        (timeout || s.claims.all fun c => c.worker ≠ w.number || c.phase = .done) then
      some (s.setLoop w .returned)
    else none
  | .endWorker =>
    if w.loop = .returned ∧ s.workerMu = none then some { s with worker := none } else none
  | _ => none

/-- A step of the goroutine of a claim. -/
def claimStep (s : Host) (c : ℕ) (claim : ActiveClaim) : HostAct → Option Host
  | .release _ => if claim.phase = .executing then some (s.setClaim c claim .released) else none
  | .leave _ =>
    if claim.phase = .released then
      some { s.setClaim c claim .left with
        worker := s.worker.map fun w =>
          if w.number = claim.worker then { w with inFlight := w.inFlight - 1 } else w }
    else none
  | .done _ =>
    if claim.phase = .left then
      s.activeClaims.done.map fun g => { s.setClaim c claim .done with activeClaims := g }
    else none
  | _ => none

/-- One step of the engine. -/
def step (s : Host) (a : HostAct) : Option Host :=
  match a with
  | .startWorker => s.startWorker
  | .waitForIdle => s.waitForIdle
  | .release c | .leave c | .done c => do s.claimStep c (← s.claims[c]?) a
  | .enterWait n => (s.activeClaims.enter n).map fun g => { s with activeClaims := g }
  | .leaveWait n => (s.activeClaims.leave n).map fun g => { s with activeClaims := g }
  | .returnIdle n expired =>
    if s.workerMu = some n ∧ (expired ∨ s.activeClaims.waiters[n]? = some .returned) then
      some { s with workerMu := none }
    else none
  | a => do s.loopStep (← s.worker) a

/-- Whenever a worker is started, every goroutine that an earlier `WaitForIdle` has started has
returned from `activeClaims.Wait`. -/
def rested (s : Host) : HostAct → Bool
  | .startWorker => s.worker.isSome || s.activeClaims.quiet
  | _ => true

/-! ### Reuse of `activeClaims` -/

/-- While a worker runs, nobody waits for its claims. -/
def Rested (s : Host) : Prop := s.worker.isSome → s.activeClaims.quiet = true

variable {s s' : Host} {a : HostAct}

lemma Rested.loopStep (h : s.Rested) {w : HostWorker} (hw : s.worker = some w)
    (hstep : s.loopStep w a = some s') : s'.Rested := by
  have hquiet : s.activeClaims.quiet = true := h (by simp [hw])
  cases a with
  | dispatch =>
    simp only [Host.loopStep, Option.ite_none_right_eq_some, Option.some.injEq] at hstep
    obtain ⟨-, rfl⟩ := hstep
    split
    · exact h
    · exact fun _ => hquiet
  | claimed n =>
    simp only [Host.loopStep] at hstep
    split at hstep
    · obtain ⟨-, hstep⟩ := Option.ite_none_right_eq_some.mp hstep
      cases hstep; exact fun _ => hquiet
    · cases hstep
  | startClaim =>
    simp only [Host.loopStep] at hstep
    split at hstep
    · cases hstep; exact fun _ => WaitGroup.quiet_add hquiet
    · cases hstep
  | dispatched | cancel | drained | endWorker =>
    obtain ⟨-, hstep⟩ := Option.ite_none_right_eq_some.mp hstep
    cases hstep; exact fun _ => hquiet
  | _ => cases hstep

lemma Rested.claimStep (h : s.Rested) {c : ℕ} {claim : ActiveClaim}
    (hstep : s.claimStep c claim a = some s') : s'.Rested := by
  cases a with
  | release =>
    obtain ⟨-, hstep⟩ := Option.ite_none_right_eq_some.mp hstep
    cases hstep; exact h
  | leave =>
    obtain ⟨-, hstep⟩ := Option.ite_none_right_eq_some.mp hstep
    cases hstep
    intro hsome
    exact h (by simpa using hsome)
  | done =>
    obtain ⟨-, hstep⟩ := Option.ite_none_right_eq_some.mp hstep
    obtain ⟨g, hg, rfl⟩ := Option.map_eq_some_iff.mp hstep
    exact fun hsome => WaitGroup.quiet_done (h hsome) hg
  | _ => cases hstep

/-- **Step**: the goroutines of the engine keep to it. -/
lemma Rested.step (h : s.Rested) (ha : s.rested a = true) (hstep : s.step a = some s') :
    s'.Rested := by
  cases a with
  | startWorker =>
    simp only [Host.step, Host.startWorker, Option.ite_none_left_eq_some] at hstep
    obtain ⟨-, hstep⟩ := hstep
    split at hstep
    · cases hstep; exact h
    · rename_i hnone
      cases hstep
      intro _
      simpa [rested, hnone] using ha
  | waitForIdle =>
    simp only [Host.step, Host.waitForIdle, Option.ite_none_left_eq_some] at hstep
    obtain ⟨-, hstep⟩ := hstep
    split at hstep
    · cases hstep; exact h
    · rename_i hnone
      cases hstep
      intro hsome
      rw [hnone] at hsome; cases hsome
  | release c | leave c | done c =>
    obtain ⟨claim, -, hstep⟩ := Option.bind_eq_some_iff.mp hstep
    exact h.claimStep hstep
  | enterWait n =>
    obtain ⟨g, hg, rfl⟩ := Option.map_eq_some_iff.mp hstep
    intro hsome
    rw [WaitGroup.enter_of_quiet (h hsome)] at hg; cases hg
  | leaveWait n =>
    obtain ⟨g, hg, rfl⟩ := Option.map_eq_some_iff.mp hstep
    intro hsome
    rw [WaitGroup.leave_of_quiet (h hsome)] at hg; cases hg
  | returnIdle n expired =>
    obtain ⟨-, hstep⟩ := Option.ite_none_right_eq_some.mp hstep
    cases hstep; exact h
  | dispatch | claimed | startClaim | dispatched | cancel | drained | endWorker =>
    obtain ⟨w, hw, hstep⟩ := Option.bind_eq_some_iff.mp hstep
    exact h.loopStep hw hstep

/-- **No reuse under a pending wait**: if no worker is started before the goroutines of every
earlier `WaitForIdle` have returned, no claim is added while one of them is inside `Wait`. -/
theorem no_reuse_under_wait {maxConcurrency : ℕ}
    (h : ReachesBy step (fun s a => s.rested a = true) (init maxConcurrency) s)
    (hstep : s.step .startClaim = some s') : s.activeClaims.inside = false := by
  have hrested : s.Rested :=
    h.invariant (P := Rested) (fun hsome => by cases hsome)
      fun _ _ _ hs ha hstep => hs.step ha hstep
  obtain ⟨w, hw, -⟩ := Option.bind_eq_some_iff.mp hstep
  exact WaitGroup.not_inside_of_quiet (hrested (by simp [hw]))

/-- A claim outlives the drain of its worker, and `WaitForIdle` waits for it. -/
def outlived : List HostAct :=
  [.startWorker, .dispatch, .claimed 1, .startClaim, .dispatched, .cancel, .drained true,
    .endWorker, .waitForIdle, .enterWait 0]

/-- The claim ends, so that the call returns, and a worker is started again. -/
def restarted : List HostAct :=
  outlived ++ [.release 0, .leave 0, .done 0, .leaveWait 0, .returnIdle 0 false, .startWorker,
    .dispatch, .claimed 1]

theorem no_reuse_under_wait_restarted : ∃ s s',
    restarted.foldlM (fun (s : Host) a => if s.rested a then s.step a else none) (init 4) = some s ∧
    s.step .startClaim = some s' ∧ s.activeClaims.inside = false := by
  have hrun : ((restarted.foldlM (fun (s : Host) a => if s.rested a then s.step a else none)
      (init 4)).bind fun s => s.step .startClaim).isSome = true := by decide +kernel
  obtain ⟨s', hs'⟩ := Option.isSome_iff_exists.mp hrun
  obtain ⟨s, hs, hs'⟩ := Option.bind_eq_some_iff.mp hs'
  exact ⟨s, s', hs, hs', no_reuse_under_wait (.of_run _ hs) hs'⟩

/-- The context of `WaitForIdle` expires while the claim still runs, and a worker is started
again. -/
def expiredWait : List HostAct :=
  outlived ++ [.returnIdle 0 true, .startWorker, .dispatch, .claimed 1]

/-- The first claim of the second worker is added while the goroutine of the expired call is
inside `Wait`. -/
theorem expiredWait_reused : ∃ s s', expiredWait.foldlM step (init 4) = some s ∧
    s.step .startClaim = some s' ∧ s.activeClaims.inside = true := by
  have hrun : (expiredWait.foldlM step (init 4)).bind (fun s =>
      (s.step .startClaim).map fun _ => s.activeClaims.inside) = some true := by decide +kernel
  obtain ⟨s, hs, hrun⟩ := Option.bind_eq_some_iff.mp hrun
  obtain ⟨s', hs', hin⟩ := Option.map_eq_some_iff.mp hrun
  exact ⟨s, s', hs, hs', hin⟩

end Host

end DurablePg

import DurablePg.Host
import DurablePg.Types

/-!
The workers of one engine, with the runs they are handed.

Here every `StartWorker` call that passed `beginWorker` is kept, with the slots it counts, and
so is every run a claim returned, by its place among all that were ever returned. Whether a
worker runs is the flag `workerRunning`, as in the source; that the calls agree with it, that
the slots bound what is executed and that no run is dropped or taken twice are theorems. The
goroutines of `Host` are what is left when the runs are forgotten.
-/

namespace DurablePg

open DurablePg.Lib

/-- Where the dispatch loop of a worker is; runs are named by their places. -/
inductive Loop
  | select
  /-- In `claimReadyRuns`, with the slots that were available before. -/
  | claiming (available : ℕ)
  /-- Starting the claims that the query returned. -/
  | starting (runs : List ℕ)
  /-- The context is done; waiting for the claims or for the timer. -/
  | draining
  | returned
  deriving DecidableEq

/-- A `StartWorker` call that passed `beginWorker`. -/
structure WorkerCall where
  /-- `none` once `endWorker` has been called. -/
  loop : Option Loop
  inFlight : ℤ

/-- The goroutine of a claim. -/
inductive GoPhase
  | spawned
  /-- In `executeClaim`. -/
  | executing
  /-- `executeClaim` has returned. -/
  | executed
  /-- `release` has been called. -/
  | released
  /-- The slot has been given back; the signal to `wake` is one of the reasons to dispatch. -/
  | left
  /-- `activeClaims.Done` has been called. -/
  | done
  /-- The goroutine has ended. -/
  | gone
  deriving DecidableEq

/-- The claim counts against `MaxConcurrency`. -/
def GoPhase.holdsSlot : GoPhase → Bool
  | .spawned | .executing | .executed | .released => true
  | .left | .done | .gone => false

/-- The claim counts for `activeClaims`. -/
def GoPhase.active : GoPhase → Bool
  | .done | .gone => false
  | _ => true

/-- `executeClaim` has been called. -/
def GoPhase.begun : GoPhase → Bool
  | .spawned => false
  | _ => true

/-- `release` has been called. -/
def GoPhase.freed : GoPhase → Bool
  | .spawned | .executing | .executed => false
  | _ => true

structure Goroutine where
  /-- The `StartWorker` call that began it. -/
  worker : ℕ
  /-- The place of its run among those returned. -/
  run : ℕ
  phase : GoPhase

structure Pool where
  maxConcurrency : ℕ
  workerRunning : Bool
  /-- The `WaitForIdle` call that holds the mutex. -/
  workerMu : Option ℕ
  workers : List WorkerCall
  activeClaims : WaitGroup
  claims : List Goroutine
  /-- Every run a claim has returned. -/
  returned : List RunId
  /-- The runs `executeClaim` was called for. -/
  executions : List ℕ
  /-- The runs whose lease entry was released. -/
  releases : List ℕ

inductive PoolAct
  /-- A `StartWorker` call gets the mutex. -/
  | startWorker
  /-- A poll tick, a notification or a completion makes the loop dispatch. -/
  | dispatch (n : ℕ)
  /-- `claimReadyRuns` returns; an error is a return of no run. -/
  | claimed (n : ℕ) (runs : List RunId)
  | startClaim (n : ℕ)
  | dispatched (n : ℕ)
  | cancel (n : ℕ)
  | drained (n : ℕ) (timeout : Bool)
  | endWorker (n : ℕ)
  /-- The goroutine of a claim takes its next step. -/
  | advance (c : ℕ)
  /-- A `WaitForIdle` call gets the mutex. -/
  | waitForIdle
  | enterWait (m : ℕ)
  | leaveWait (m : ℕ)
  /-- A `WaitForIdle` call returns: `nil`, or the error of its context. -/
  | returnIdle (m : ℕ) (expired : Bool)

namespace Pool

def init (maxConcurrency : ℕ) : Pool := ⟨maxConcurrency, false, none, [], .empty, [], [], [], []⟩

def setLoop (s : Pool) (n : ℕ) (w : WorkerCall) (loop : Option Loop) : Pool :=
  { s with workers := s.workers.set n { w with loop := loop } }

def setPhase (s : Pool) (c : ℕ) (g : Goroutine) (phase : GoPhase) : Pool :=
  { s with claims := s.claims.set c { g with phase := phase } }

/-- `beginWorker`. -/
def startWorker (s : Pool) : Option Pool :=
  if s.workerMu.isSome then none
  -- a worker is already running on this engine
  else if s.workerRunning then some s
  else some { s with workerRunning := true, workers := s.workers ++ [⟨some .select, 0⟩] }

/-- `WaitForIdle`, up to the goroutine that waits. -/
def waitForIdle (s : Pool) : Option Pool :=
  if s.workerMu.isSome then none
  -- the worker must be stopped first
  else if s.workerRunning then some s
  else some { s with
    activeClaims := s.activeClaims.spawn
    workerMu := some s.activeClaims.waiters.length }

/-- A step of the dispatch loop of call `n`. -/
def loopStep (s : Pool) (n : ℕ) (w : WorkerCall) (loop : Loop) : PoolAct → Option Pool
  | .dispatch _ =>
    match loop with
    | .select =>
      let available := s.maxConcurrency - w.inFlight
      some (if available ≤ 0 then s else s.setLoop n w (some (.claiming available.toNat)))
    | _ => none
  | .claimed _ runs =>
    match loop with
    | .claiming available =>
      if runs.length ≤ available then
        some { s.setLoop n w (some (.starting (List.range' s.returned.length runs.length))) with
          returned := s.returned ++ runs }
      else none
    | _ => none
  | .startClaim _ =>
    match loop with
    | .starting (run :: rest) => some { s with
        workers := s.workers.set n ⟨some (.starting rest), w.inFlight + 1⟩
        activeClaims := s.activeClaims.add
        claims := s.claims ++ [⟨n, run, .spawned⟩] }
    | _ => none
  | .dispatched _ => if loop = .starting [] then some (s.setLoop n w (some .select)) else none
  | .cancel _ => if loop = .select then some (s.setLoop n w (some .draining)) else none
  | .drained _ timeout =>
    if loop = .draining ∧
        (timeout ∨ s.claims.all fun g => g.worker ≠ n || g.phase = .gone) then
      some (s.setLoop n w (some .returned))
    else none
  | .endWorker _ =>
    if loop = .returned ∧ s.workerMu = none then
      some { s.setLoop n w none with workerRunning := false }
    else none
  | _ => none

/-- The next step of the goroutine of a claim. -/
def claimStep (s : Pool) (c : ℕ) (g : Goroutine) : Option Pool :=
  match g.phase with
  | .spawned => some { s.setPhase c g .executing with executions := s.executions ++ [g.run] }
  | .executing => some (s.setPhase c g .executed)
  | .executed => some { s.setPhase c g .released with releases := s.releases ++ [g.run] }
  | .released => some { s.setPhase c g .left with
      workers := s.workers.modify g.worker fun w => { w with inFlight := w.inFlight - 1 } }
  | .left => s.activeClaims.done.map fun wg => { s.setPhase c g .done with activeClaims := wg }
  | .done => some (s.setPhase c g .gone)
  | .gone => none

/-- One step of the engine. -/
def step (s : Pool) (a : PoolAct) : Option Pool :=
  match a with
  | .startWorker => s.startWorker
  | .waitForIdle => s.waitForIdle
  | .advance c => do s.claimStep c (← s.claims[c]?)
  | .enterWait m => (s.activeClaims.enter m).map fun wg => { s with activeClaims := wg }
  | .leaveWait m => (s.activeClaims.leave m).map fun wg => { s with activeClaims := wg }
  | .returnIdle m expired =>
    if s.workerMu = some m ∧ (expired ∨ s.activeClaims.waiters[m]? = some .returned) then
      some { s with workerMu := none }
    else none
  | .dispatch n | .claimed n _ | .startClaim n | .dispatched n | .cancel n | .drained n _
  | .endWorker n => do
    let w ← s.workers[n]?
    s.loopStep n w (← w.loop) a

/-! ### What a step does -/

/-- What a step can do. -/
inductive Does (s : Pool) : PoolAct → Pool → Prop
  | refused (hmu : s.workerMu = none) (hrun : s.workerRunning = true) : Does s .startWorker s
  | startWorker (hmu : s.workerMu = none) (hrun : s.workerRunning = false) :
    Does s .startWorker
      { s with workerRunning := true, workers := s.workers ++ [⟨some .select, 0⟩] }
  | full {n : ℕ} {w : WorkerCall} (hw : s.workers[n]? = some w) (hl : w.loop = some .select)
    (hfull : (s.maxConcurrency : ℤ) - w.inFlight ≤ 0) : Does s (.dispatch n) s
  | dispatch {n : ℕ} {w : WorkerCall} (hw : s.workers[n]? = some w) (hl : w.loop = some .select)
    (hfree : 0 < (s.maxConcurrency : ℤ) - w.inFlight) : Does s (.dispatch n)
      (s.setLoop n w (some (.claiming ((s.maxConcurrency : ℤ) - w.inFlight).toNat)))
  | claimed {n available : ℕ} {w : WorkerCall} {runs : List RunId} (hw : s.workers[n]? = some w)
    (hl : w.loop = some (.claiming available)) (hlen : runs.length ≤ available) :
    Does s (.claimed n runs)
      { s.setLoop n w (some (.starting (List.range' s.returned.length runs.length))) with
        returned := s.returned ++ runs }
  | startClaim {n run : ℕ} {rest : List ℕ} {w : WorkerCall} (hw : s.workers[n]? = some w)
    (hl : w.loop = some (.starting (run :: rest))) : Does s (.startClaim n)
      { s with
        workers := s.workers.set n ⟨some (.starting rest), w.inFlight + 1⟩
        activeClaims := s.activeClaims.add
        claims := s.claims ++ [⟨n, run, .spawned⟩] }
  | dispatched {n : ℕ} {w : WorkerCall} (hw : s.workers[n]? = some w)
    (hl : w.loop = some (.starting [])) : Does s (.dispatched n) (s.setLoop n w (some .select))
  | cancel {n : ℕ} {w : WorkerCall} (hw : s.workers[n]? = some w) (hl : w.loop = some .select) :
    Does s (.cancel n) (s.setLoop n w (some .draining))
  | drained {n : ℕ} {w : WorkerCall} {timeout : Bool} (hw : s.workers[n]? = some w)
    (hl : w.loop = some .draining)
    (hall : timeout ∨ s.claims.all fun g => g.worker ≠ n || g.phase = .gone) :
    Does s (.drained n timeout) (s.setLoop n w (some .returned))
  | endWorker {n : ℕ} {w : WorkerCall} (hw : s.workers[n]? = some w)
    (hl : w.loop = some .returned) (hmu : s.workerMu = none) :
    Does s (.endWorker n) { s.setLoop n w none with workerRunning := false }
  | execute {c : ℕ} {g : Goroutine} (hg : s.claims[c]? = some g) (hp : g.phase = .spawned) :
    Does s (.advance c)
      { s.setPhase c g .executing with executions := s.executions ++ [g.run] }
  | executed {c : ℕ} {g : Goroutine} (hg : s.claims[c]? = some g) (hp : g.phase = .executing) :
    Does s (.advance c) (s.setPhase c g .executed)
  | release {c : ℕ} {g : Goroutine} (hg : s.claims[c]? = some g) (hp : g.phase = .executed) :
    Does s (.advance c) { s.setPhase c g .released with releases := s.releases ++ [g.run] }
  | leave {c : ℕ} {g : Goroutine} (hg : s.claims[c]? = some g) (hp : g.phase = .released) :
    Does s (.advance c) { s.setPhase c g .left with
      workers := s.workers.modify g.worker fun w => { w with inFlight := w.inFlight - 1 } }
  | done {c : ℕ} {g : Goroutine} {wg : WaitGroup} (hg : s.claims[c]? = some g)
    (hp : g.phase = .left) (hwg : s.activeClaims.done = some wg) :
    Does s (.advance c) { s.setPhase c g .done with activeClaims := wg }
  | gone {c : ℕ} {g : Goroutine} (hg : s.claims[c]? = some g) (hp : g.phase = .done) :
    Does s (.advance c) (s.setPhase c g .gone)
  | busy (hmu : s.workerMu = none) (hrun : s.workerRunning = true) : Does s .waitForIdle s
  | waitForIdle (hmu : s.workerMu = none) (hrun : s.workerRunning = false) :
    Does s .waitForIdle { s with
      activeClaims := s.activeClaims.spawn
      workerMu := some s.activeClaims.waiters.length }
  | enterWait {m : ℕ} {wg : WaitGroup} (hwg : s.activeClaims.enter m = some wg) :
    Does s (.enterWait m) { s with activeClaims := wg }
  | leaveWait {m : ℕ} {wg : WaitGroup} (hwg : s.activeClaims.leave m = some wg) :
    Does s (.leaveWait m) { s with activeClaims := wg }
  | returnIdle {m : ℕ} {expired : Bool} (hmu : s.workerMu = some m)
    (hdone : expired ∨ s.activeClaims.waiters[m]? = some .returned) :
    Does s (.returnIdle m expired) { s with workerMu := none }

variable {s s' : Pool} {a : PoolAct}

lemma does_loop {n : ℕ} {w : WorkerCall} {l : Loop} (hw : s.workers[n]? = some w)
    (hl : w.loop = some l) (h : s.loopStep n w l a = some s')
    (ha : a = .dispatch n ∨ (∃ runs, a = .claimed n runs) ∨ a = .startClaim n ∨ a = .dispatched n ∨
      a = .cancel n ∨ (∃ timeout, a = .drained n timeout) ∨ a = .endWorker n) : Does s a s' := by
  rcases ha with rfl | ⟨runs, rfl⟩ | rfl | rfl | rfl | ⟨timeout, rfl⟩ | rfl
  · simp only [loopStep] at h
    split at h
    · cases h
      split
      · rename_i hfull
        exact .full hw hl hfull
      · rename_i hfree
        exact .dispatch hw hl (not_le.mp hfree)
    · cases h
  · simp only [loopStep] at h
    split at h
    · obtain ⟨hlen, h⟩ := Option.ite_none_right_eq_some.mp h
      cases h
      exact .claimed hw hl hlen
    · cases h
  · simp only [loopStep] at h
    split at h
    · cases h
      exact .startClaim hw hl
    · cases h
  · obtain ⟨rfl, hs⟩ := Option.ite_none_right_eq_some.mp h
    cases hs
    exact .dispatched hw hl
  · obtain ⟨rfl, hs⟩ := Option.ite_none_right_eq_some.mp h
    cases hs
    exact .cancel hw hl
  · obtain ⟨⟨rfl, hall⟩, hs⟩ := Option.ite_none_right_eq_some.mp h
    cases hs
    exact .drained hw hl hall
  · obtain ⟨⟨rfl, hmu⟩, hs⟩ := Option.ite_none_right_eq_some.mp h
    cases hs
    exact .endWorker hw hl hmu

lemma does_claim {c : ℕ} {g : Goroutine} (hg : s.claims[c]? = some g)
    (h : s.claimStep c g = some s') : Does s (.advance c) s' := by
  unfold claimStep at h
  split at h
  · rename_i hp; cases h; exact .execute hg hp
  · rename_i hp; cases h; exact .executed hg hp
  · rename_i hp; cases h; exact .release hg hp
  · rename_i hp; cases h; exact .leave hg hp
  · rename_i hp
    obtain ⟨wg, hwg, rfl⟩ := Option.map_eq_some_iff.mp h
    exact .done hg hp hwg
  · rename_i hp; cases h; exact .gone hg hp
  · cases h

/-- **Inversion.** -/
theorem does (h : s.step a = some s') : Does s a s' := by
  cases a with
  | startWorker =>
    simp only [step, Pool.startWorker, Option.ite_none_left_eq_some] at h
    obtain ⟨hmu, h⟩ := h
    have hmu : s.workerMu = none := by simpa using hmu
    split at h
    · rename_i hrun; cases h; exact .refused hmu hrun
    · rename_i hrun; cases h; exact .startWorker hmu (by simpa using hrun)
  | waitForIdle =>
    simp only [step, Pool.waitForIdle, Option.ite_none_left_eq_some] at h
    obtain ⟨hmu, h⟩ := h
    have hmu : s.workerMu = none := by simpa using hmu
    split at h
    · rename_i hrun; cases h; exact .busy hmu hrun
    · rename_i hrun; cases h; exact .waitForIdle hmu (by simpa using hrun)
  | advance c =>
    obtain ⟨g, hg, h⟩ := Option.bind_eq_some_iff.mp h
    exact does_claim hg h
  | enterWait m =>
    obtain ⟨wg, hwg, rfl⟩ := Option.map_eq_some_iff.mp h
    exact .enterWait hwg
  | leaveWait m =>
    obtain ⟨wg, hwg, rfl⟩ := Option.map_eq_some_iff.mp h
    exact .leaveWait hwg
  | returnIdle m expired =>
    obtain ⟨⟨hmu, hdone⟩, h⟩ := Option.ite_none_right_eq_some.mp h
    cases h
    exact .returnIdle hmu hdone
  | dispatch n | claimed n _ | startClaim n | dispatched n | cancel n | drained n _ | endWorker n =>
    obtain ⟨w, hw, h⟩ := Option.bind_eq_some_iff.mp h
    obtain ⟨l, hl, h⟩ := Option.bind_eq_some_iff.mp h
    exact does_loop hw hl h (by simp)

end Pool

end DurablePg

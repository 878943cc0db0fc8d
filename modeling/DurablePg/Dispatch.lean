import DurablePg.Claiming
import DurablePg.ClaimScan
import DurablePg.Dedup
import DurablePg.Picking

/-!
How a worker learns that there is something to claim.

The statements that enqueue a run or wake it tell its queue with `pg_notify`, if it is due at
once, and the server hands the notification to every connection that listens when the transaction
commits. A sleep of less than a millisecond tells nobody.
A worker has a goroutine that listens, a channel `wake` that holds one signal, a ticker, and the
dispatch loop, which sleeps until one of them calls it. Everybody else, other workers included,
is whoever sends statements to the server.
-/

namespace DurablePg

open DurablePg.Lib

variable {J : Type}

/-! ### Notifications -/

/-- `SELECT DISTINCT queue`, of the given runs. -/
def Db.queues (db : Db J) (ids : List RunId) : List String :=
  ((ids.filterMap db.run).map Row.queue).dedup

/-- The queues notified when the action has taken effect: the CTE `notified` of `insertRun`,
`promoteTimedOut` and `emitEvent`, whose notifications are sent when its transaction commits. -/
def Server.notified (s : Server J) : Act J → List String
  | .insertRun n now => s.notifies n now
  | .promoteTimedOut now =>
    s.db.queues (s.db.picked (timedOutWait now) (fun r => r.waitingDeadline.getD 0) s.locked
      maintenanceBatch)
  | .commit id =>
    match (s.txs.get id).map Tx.phase with
    | some (.emitted _ woken) => s.db.queues woken
    | _ => []
  | _ => []

/-- The change makes its run due at once, in a statement that notifies its queue. A sleep of less
than a millisecond leaves its run due at once too, and is not announced. -/
def Change.announces : Change J → Bool
  | .inserted n now => (n.row now).nextRunAt ≤ now
  | .delivered .. | .timedOut _ => true
  | _ => false

def Change.touches : Change J → Bool
  | .touched _ => true
  | _ => false

/-- The last change of the run, but for touches, was announced. -/
def announced (l : List (Change J)) : Bool :=
  ((l.filter fun ch => !ch.touches).getLast?).any Change.announces

lemma announced_snoc (l : List (Change J)) (ch : Change J) :
    announced (l ++ [ch]) = if ch.touches then announced l else ch.announces := by
  unfold announced
  cases hch : ch.touches <;> simp [hch]

/-! ### The goroutine that listens -/

/-- Where `listen` and `listenLoop` stand; `pending` are the notifications that wait in the
connection. -/
inductive Listener
  /-- Not connected, or `LISTEN` has not run. -/
  | down
  /-- `LISTEN` has run, and `signal` comes next. -/
  | registered (pending : List String)
  /-- In `WaitForNotification`. -/
  | waiting (pending : List String)
  /-- `WaitForNotification` has returned a notification. -/
  | received (payload : String) (pending : List String)
  /-- `WaitForNotification` has returned an error, and `signal` comes next. -/
  | lost
  deriving DecidableEq

namespace Listener

/-- Notifications arrive at a connection that listens. -/
def notify (payloads : List String) : Listener → Listener
  | .registered pending => .registered (pending ++ payloads)
  | .waiting pending => .waiting (pending ++ payloads)
  | .received payload pending => .received payload (pending ++ payloads)
  | l => l

/-- The goroutine will signal before it rests. -/
def signals (queue : String) : Listener → Bool
  | .waiting pending => queue ∈ pending
  | .received payload pending => payload = queue || queue ∈ pending
  | _ => true

lemma signals_notify {queue : String} {payloads : List String} {l : Listener}
    (h : l.signals queue = true ∨ queue ∈ payloads) : (l.notify payloads).signals queue = true := by
  cases l with
  | down | registered | lost => rfl
  | waiting pending => simpa [signals, notify] using h
  | received payload pending =>
    have h : (payload = queue ∨ queue ∈ pending) ∨ queue ∈ payloads := by simpa [signals] using h
    simp only [signals, notify, Bool.or_eq_true, decide_eq_true_eq, List.mem_append]
    tauto

end Listener

/-! ### The dispatch loop -/

/-- Every parameter is one that its type can hold. -/
def ClaimQuery.sendable (q : ClaimQuery) : Bool :=
  q.sel.encodes && isText q.queue && q.sel.readable

/-- Where `dispatchLoop` stands. -/
inductive DispatchPc
  /-- In the `select`; the claim of the last dispatch has failed or not. -/
  | select (failed : Bool)
  /-- `dispatch` has been called. -/
  | dispatching
  /-- In `claimReadyRuns`, with the slots that were available; its statement was sent at `sent`
  and has not run. -/
  | claiming (available : ℕ) (sent : Time)
  /-- The runs that were claimed are being started, of which so many are left. -/
  | starting (runs : ℕ)
  /-- The context is done. -/
  | draining
  deriving DecidableEq

/-- A worker, and the server it works for. -/
structure Dispatcher (J : Type) where
  srv : Server J
  ctxDone : Bool
  wake : Bool
  listener : Listener
  pc : DispatchPc
  inFlight : ℕ
  /-- The claims that have given back their slots and not signalled yet. -/
  leaving : ℕ

inductive DispatchAct (J : Type)
  /-- Somebody's statement, or a step of somebody's transaction, or time that passes. -/
  | server (a : Act J)
  | cancel
  /-- The ticker fires. -/
  | tick
  | takeWake
  /-- `dispatch` reads `inFlight`. -/
  | load
  /-- The claim runs, and its rows arrive. -/
  | claim (gen : RunId → Token) (now : Time)
  /-- `claimReadyRuns` fails before its statement has run, or after. -/
  | fail
  | lose (gen : RunId → Token) (now : Time)
  | startClaim
  | dispatched
  /-- A claim is over, and gives back its slot. -/
  | leave
  /-- A claim that has given back its slot signals. -/
  | signalLeft
  | listen
  | signalListening
  | receive
  | handle
  /-- The connection that listens breaks. -/
  | breakConn
  | signalLost
  | drain

namespace Dispatcher

/-- `StartWorker` fills `wake`, and the loop begins with a dispatch. -/
def init (clock : Time) : Dispatcher J := ⟨.init clock, false, true, .down, .dispatching, 0, 0⟩

variable [Jsonb J] (e : Engine) (maxConcurrency : ℕ)

/-- `dispatch`, up to the statement of `claimReadyRuns`, which is not sent if nothing is
registered. -/
def load (d : Dispatcher J) : Dispatcher J :=
  let available := maxConcurrency - d.inFlight
  if d.ctxDone || available = 0 || (e.claimQuery available).isNone then
    { d with pc := .select false }
  else { d with pc := .claiming available d.srv.clock }

/-- The claim statement runs. -/
def runClaim (d : Dispatcher J) (gen : RunId → Token) (now : Time) : Option (Server J × ℕ) :=
  match d.pc with
  | .claiming available sent => do
    let q ← e.claimQuery available
    -- the driver and the server refuse parameters that are not within their types
    if sent ≤ now ∧ q.sendable then
      (d.srv.step (.claim q gen now)).map fun s =>
        (s, (d.srv.db.picked (q.claimable now) Row.nextRunAt d.srv.locked q.limit).length)
    else none
  | _ => none

/-- One step of the worker or of the server. -/
def step (d : Dispatcher J) : DispatchAct J → Option (Dispatcher J)
  | .server a => (d.srv.step a).map fun s =>
      { d with srv := s, listener := d.listener.notify (d.srv.notified a) }
  | .cancel => some { d with ctxDone := true }
  | .tick =>
    match d.pc with
    | .select _ => some { d with pc := .dispatching }
    | _ => none
  | .takeWake =>
    match d.pc with
    | .select _ => if d.wake then some { d with pc := .dispatching, wake := false } else none
    | _ => none
  | .load =>
    match d.pc with
    | .dispatching => some (d.load e maxConcurrency)
    | _ => none
  | .claim gen now => (d.runClaim e gen now).map fun (s, runs) =>
      { d with srv := s, pc := .starting runs }
  | .fail =>
    match d.pc with
    | .claiming _ _ => some { d with pc := .select true }
    | _ => none
  | .lose gen now => (d.runClaim e gen now).map fun (s, _) =>
      { d with srv := s, pc := .select true }
  | .startClaim =>
    match d.pc with
    | .starting (runs + 1) => some { d with pc := .starting runs, inFlight := d.inFlight + 1 }
    | _ => none
  | .dispatched => if d.pc = .starting 0 then some { d with pc := .select false } else none
  | .leave =>
    if d.inFlight = 0 then none
    else some { d with inFlight := d.inFlight - 1, leaving := d.leaving + 1 }
  | .signalLeft =>
    if d.leaving = 0 then none else some { d with leaving := d.leaving - 1, wake := true }
  | .listen => if d.listener = .down then some { d with listener := .registered [] } else none
  | .signalListening =>
    match d.listener with
    | .registered pending => some { d with listener := .waiting pending, wake := true }
    | _ => none
  | .receive =>
    match d.listener with
    | .waiting (payload :: pending) => some { d with listener := .received payload pending }
    | _ => none
  | .handle =>
    match d.listener with
    | .received payload pending =>
      some { d with listener := .waiting pending, wake := d.wake || payload = e.queue }
    | _ => none
  | .breakConn =>
    match d.listener with
    | .waiting _ => some { d with listener := .lost }
    | _ => none
  | .signalLost =>
    if d.listener = .lost then some { d with listener := .down, wake := true } else none
  | .drain =>
    match d.pc with
    | .select _ => if d.ctxDone then some { d with pc := .draining } else none
    | _ => none

/-! ### What a step does -/

/-- One step, by cases. -/
inductive Does (d : Dispatcher J) : DispatchAct J → Dispatcher J → Prop
  | server {a : Act J} {s : Server J} (h : d.srv.step a = some s) :
    Does d (.server a) { d with srv := s, listener := d.listener.notify (d.srv.notified a) }
  | cancel : Does d .cancel { d with ctxDone := true }
  | tick {failed : Bool} (hpc : d.pc = .select failed) :
    Does d .tick { d with pc := .dispatching }
  | takeWake {failed : Bool} (hpc : d.pc = .select failed) (hwake : d.wake = true) :
    Does d .takeWake { d with pc := .dispatching, wake := false }
  | idle (hpc : d.pc = .dispatching)
    (hno : d.ctxDone = true ∨ maxConcurrency ≤ d.inFlight ∨ e.workflows = []) :
    Does d .load { d with pc := .select false }
  | load (hpc : d.pc = .dispatching) (hfree : d.inFlight < maxConcurrency)
    (hdefs : e.workflows ≠ []) :
    Does d .load { d with pc := .claiming (maxConcurrency - d.inFlight) d.srv.clock }
  | claim {available : ℕ} {sent : Time} {gen : RunId → Token} {now : Time} {q : ClaimQuery}
    {s : Server J} (hpc : d.pc = .claiming available sent) (hq : e.claimQuery available = some q)
    (hnow : sent ≤ now) (h : d.srv.step (.claim q gen now) = some s) :
    Does d (.claim gen now) { d with
      srv := s
      pc := .starting
        (d.srv.db.picked (q.claimable now) Row.nextRunAt d.srv.locked q.limit).length }
  | fail {available : ℕ} {sent : Time} (hpc : d.pc = .claiming available sent) :
    Does d .fail { d with pc := .select true }
  | lose {available : ℕ} {sent : Time} {gen : RunId → Token} {now : Time} {q : ClaimQuery}
    {s : Server J} (hpc : d.pc = .claiming available sent) (hq : e.claimQuery available = some q)
    (h : d.srv.step (.claim q gen now) = some s) :
    Does d (.lose gen now) { d with srv := s, pc := .select true }
  | startClaim {runs : ℕ} (hpc : d.pc = .starting (runs + 1)) :
    Does d .startClaim { d with pc := .starting runs, inFlight := d.inFlight + 1 }
  | dispatched (hpc : d.pc = .starting 0) : Does d .dispatched { d with pc := .select false }
  | leave (hpos : d.inFlight ≠ 0) :
    Does d .leave { d with inFlight := d.inFlight - 1, leaving := d.leaving + 1 }
  | signalLeft (hpos : d.leaving ≠ 0) :
    Does d .signalLeft { d with leaving := d.leaving - 1, wake := true }
  | listen (hl : d.listener = .down) : Does d .listen { d with listener := .registered [] }
  | signalListening {pending : List String} (hl : d.listener = .registered pending) :
    Does d .signalListening { d with listener := .waiting pending, wake := true }
  | receive {payload : String} {pending : List String}
    (hl : d.listener = .waiting (payload :: pending)) :
    Does d .receive { d with listener := .received payload pending }
  | handle {payload : String} {pending : List String}
    (hl : d.listener = .received payload pending) :
    Does d .handle { d with listener := .waiting pending, wake := d.wake || payload = e.queue }
  | breakConn {pending : List String} (hl : d.listener = .waiting pending) :
    Does d .breakConn { d with listener := .lost }
  | signalLost (hl : d.listener = .lost) :
    Does d .signalLost { d with listener := .down, wake := true }
  | drain {failed : Bool} (hpc : d.pc = .select failed) (hdone : d.ctxDone = true) :
    Does d .drain { d with pc := .draining }

variable {e maxConcurrency} {d d' : Dispatcher J} {a : DispatchAct J}

lemma runClaim_some {gen : RunId → Token} {now : Time} {s : Server J} {runs : ℕ}
    (h : d.runClaim e gen now = some (s, runs)) : ∃ available sent q,
      d.pc = .claiming available sent ∧ e.claimQuery available = some q ∧ sent ≤ now ∧
      d.srv.step (.claim q gen now) = some s ∧
      runs = (d.srv.db.picked (q.claimable now) Row.nextRunAt d.srv.locked q.limit).length := by
  unfold runClaim at h
  split at h
  · rename_i available sent hpc
    obtain ⟨q, hq, h⟩ := Option.bind_eq_some_iff.mp h
    obtain ⟨⟨hnow, -⟩, h⟩ := Option.ite_none_right_eq_some.mp h
    obtain ⟨s', hs, hpair⟩ := Option.map_eq_some_iff.mp h
    cases hpair
    exact ⟨available, sent, q, hpc, hq, hnow, hs, rfl⟩
  · cases h

lemma does_load (hpc : d.pc = .dispatching) :
    Does e maxConcurrency d .load (d.load e maxConcurrency) := by
  unfold load
  simp only
  split
  · rename_i hno
    refine .idle hpc ?_
    simp only [Bool.or_eq_true, decide_eq_true_eq, Option.isNone_iff_eq_none] at hno
    rcases hno with (hdone | hfull) | hnone
    · exact Or.inl hdone
    · exact Or.inr (Or.inl (Nat.sub_eq_zero_iff_le.mp hfull))
    · by_cases hfull : maxConcurrency - d.inFlight = 0
      · exact Or.inr (Or.inl (Nat.sub_eq_zero_iff_le.mp hfull))
      · exact Or.inr (Or.inr (Engine.claimQuery_none hfull hnone))
  · rename_i hyes
    simp only [Bool.or_eq_true, decide_eq_true_eq, not_or, Option.isNone_iff_eq_none] at hyes
    obtain ⟨⟨-, hfree⟩, hsome⟩ := hyes
    refine .load hpc (by omega) fun hnil => hsome ?_
    unfold Engine.claimQuery
    rw [if_neg hfree, hnil]

/-- **Inversion.** -/
theorem does (h : d.step e maxConcurrency a = some d') : d.Does e maxConcurrency a d' := by
  cases a with
  | server a =>
    obtain ⟨s, hs, rfl⟩ := Option.map_eq_some_iff.mp h
    exact .server hs
  | cancel => cases h; exact .cancel
  | tick =>
    simp only [step] at h
    split at h
    · rename_i hpc; cases h; exact .tick hpc
    · cases h
  | takeWake =>
    simp only [step] at h
    split at h
    · rename_i hpc
      obtain ⟨hwake, h⟩ := Option.ite_none_right_eq_some.mp h
      cases h; exact .takeWake hpc hwake
    · cases h
  | load =>
    simp only [step] at h
    split at h
    · rename_i hpc; cases h; exact does_load hpc
    · cases h
  | claim gen now =>
    obtain ⟨⟨s, runs⟩, hrun, rfl⟩ := Option.map_eq_some_iff.mp h
    obtain ⟨available, sent, q, hpc, hq, hnow, hs, rfl⟩ := runClaim_some hrun
    exact .claim hpc hq hnow hs
  | fail =>
    simp only [step] at h
    split at h
    · rename_i hpc; cases h; exact .fail hpc
    · cases h
  | lose gen now =>
    obtain ⟨⟨s, runs⟩, hrun, rfl⟩ := Option.map_eq_some_iff.mp h
    obtain ⟨available, sent, q, hpc, hq, -, hs, -⟩ := runClaim_some hrun
    exact .lose hpc hq hs
  | startClaim =>
    simp only [step] at h
    split at h
    · rename_i hpc; cases h; exact .startClaim hpc
    · cases h
  | dispatched =>
    obtain ⟨hpc, h⟩ := Option.ite_none_right_eq_some.mp h
    cases h; exact .dispatched hpc
  | leave =>
    obtain ⟨hpos, h⟩ := Option.ite_none_left_eq_some.mp h
    cases h; exact .leave hpos
  | signalLeft =>
    obtain ⟨hpos, h⟩ := Option.ite_none_left_eq_some.mp h
    cases h; exact .signalLeft hpos
  | listen =>
    obtain ⟨hl, h⟩ := Option.ite_none_right_eq_some.mp h
    cases h; exact .listen hl
  | signalListening =>
    simp only [step] at h
    split at h
    · rename_i hl; cases h; exact .signalListening hl
    · cases h
  | receive =>
    simp only [step] at h
    split at h
    · rename_i hl; cases h; exact .receive hl
    · cases h
  | handle =>
    simp only [step] at h
    split at h
    · rename_i hl; cases h; exact .handle hl
    · cases h
  | breakConn =>
    simp only [step] at h
    split at h
    · rename_i hl; cases h; exact .breakConn hl
    · cases h
  | signalLost =>
    obtain ⟨hl, h⟩ := Option.ite_none_right_eq_some.mp h
    cases h; exact .signalLost hl
  | drain =>
    simp only [step] at h
    split at h
    · rename_i hpc
      obtain ⟨hdone, h⟩ := Option.ite_none_right_eq_some.mp h
      cases h; exact .drain hpc hdone
    · cases h

end Dispatcher

end DurablePg

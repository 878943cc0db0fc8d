import DurablePg.Engine
import DurablePg.Server

/-!
The lease tables of `leases.go`, and the workers that keep them.

A worker enters a claim with the deadline it computes from the clock it read before it sent
the claim statement. A heartbeat expires claims, takes a snapshot of the table, has the server
renew those leases, and moves the deadlines of the renewed claims to what it computes from the
clock it read before. Statements run after they are sent, or not at all; answers arrive after
the statement has run, or not at all.
-/

namespace DurablePg

open DurablePg.Lib

variable {J : Type}

/-! ### Lease tables -/

structure LeaseEntry where
  token : Token
  runID : RunId
  deadline : Time
  /-- The claim's context is canceled. -/
  canceled : Bool

abbrev LeaseTable := Table LeaseEntry.token

namespace LeaseTable

/-- `insert`; the claim's context is canceled from the start if its parent is. -/
def insert (t : LeaseTable) (parentDone : Bool) (runID : RunId) (token : Token)
    (deadline : Time) : LeaseTable :=
  Table.insert (t.deleteWhere fun e => e.token = token) ⟨token, runID, deadline, parentDone⟩

/-- What `insert` returns to be called when the claim is over. -/
def release (t : LeaseTable) (token : Token) : LeaseTable := t.deleteWhere fun e => e.token = token

def snapshot (t : LeaseTable) : List (RunId × Token) :=
  (t.rows.filter fun e => !e.canceled).map fun e => (e.runID, e.token)

def applyRenewal (t : LeaseTable) (sent renewed : List Token) (deadline : Time) : LeaseTable :=
  t.updateWhere (fun e => e.token ∈ sent)
    (fun e => if e.token ∈ renewed then { e with deadline := deadline }
      else { e with canceled := true })
    (fun e => by split <;> rfl)

/-- `expire`, and the earliest deadline of the claims that remain. -/
def expire (t : LeaseTable) (now : Time) : LeaseTable × Option Time :=
  (t.updateWhere (fun e => !e.canceled && e.deadline ≤ now) (fun e => { e with canceled := true })
      (fun _ => rfl),
    ((t.rows.filter fun e => !e.canceled && now < e.deadline).map LeaseEntry.deadline).min?)

/-- The context of the worker is canceled. -/
def cancelAll (t : LeaseTable) : LeaseTable :=
  t.updateWhere (fun _ => true) (fun e => { e with canceled := true }) (fun _ => rfl)

end LeaseTable

/-! ### Workers -/

/-- A claimed row on its way to its worker. -/
structure Arrival where
  token : Token
  run : RunId
  worker : ℕ
  deadline : Time

/-- A renewal in progress; `renewed` is what the server has answered. -/
structure Renewal where
  id : ℕ
  worker : ℕ
  /-- The clock as `heartbeatLoop` read it. -/
  now : Time
  sent : List (RunId × Token)
  renewed : Option (List Token)

/-- The server and the workers' lease tables. -/
structure Workers (J : Type) where
  srv : Server J
  leases : ℕ → LeaseTable
  arrivals : Table Arrival.token
  renewals : Table Renewal.id
  /-- The claims that have issued a write that ends them. -/
  issued : List Token

inductive WorkerAct (J : Type)
  /-- A statement other than a claim or a renewal, or a step of an event transaction. -/
  | server (a : Act J)
  /-- A claim has decided on the write that ends it. -/
  | issue (token : Token)
  /-- The server runs a claim statement; `started` is the clock read before it was sent. -/
  | claimReadyRuns (worker limit : ℕ) (gen : RunId → Token) (started now : Time)
  /-- A claimed row arrives. -/
  | insert (token : Token) (parentDone : Bool)
  | release (worker : ℕ) (token : Token)
  | expire (worker : ℕ) (now : Time)
  | cancelAll (worker : ℕ)
  /-- `heartbeatLoop` takes the snapshot for a renewal; `now` is the clock it has read before. -/
  | heartbeat (id worker : ℕ) (now : Time)
  /-- The server runs the statement of a renewal. -/
  | renewLeases (id : ℕ) (now : Time)
  /-- The answer to a renewal arrives. -/
  | applyRenewal (id : ℕ)

/-- The claim that an action ends by a write, if the write takes effect. -/
def Server.endsClaim [Jsonb J] (s : Server J) : Act J → Option Token
  | .write _ token w _ => if w.ends then some token else none
  | .statement id =>
    (s.txs.get id).bind fun tx =>
      match tx.job, tx.phase with
      | .wait token _ index timeoutMs complete, .looked found =>
        if (waitWrite found tx.key index timeoutMs complete).ends then some token else none
      | _, _ => none
  | _ => none

/-- The statements that the lease tables follow. -/
def Act.leases : Act J → Bool
  | .claim .. | .renewLeases .. => true
  | _ => false

namespace Workers

def init (clock : Time) : Workers J := ⟨.init clock, fun _ => .empty, .empty, .empty, []⟩

def setLeases (y : Workers J) (worker : ℕ) (t : LeaseTable) : Workers J :=
  { y with leases := Function.update y.leases worker t }

variable [Jsonb J] (engines : ℕ → Engine)

def claimReadyRuns (y : Workers J) (worker limit : ℕ) (gen : RunId → Token) (started now : Time) :
    Option (Workers J) := do
  let q ← (engines worker).claimQuery limit
  let s ← y.srv.step (.claim q gen now)
  let ids := y.srv.db.picked (q.claimable now) Row.nextRunAt y.srv.locked q.limit
  let deadline := started + (engines worker).leaseTTL
  if started ≤ y.srv.clock then
    some { y with
      srv := s
      arrivals := y.arrivals.insertAll (ids.map fun id => ⟨gen id, id, worker, deadline⟩) }
  else none

def heartbeat (y : Workers J) (id worker : ℕ) (now : Time) : Workers J :=
  let sent := (y.leases worker).snapshot
  if sent.isEmpty then y else { y with renewals := y.renewals.insert ⟨id, worker, now, sent, none⟩ }

def renewLeases (y : Workers J) (id : ℕ) (now : Time) : Option (Workers J) := do
  let b ← y.renewals.get id
  let ms := milliseconds (engines b.worker).leaseTTL
  let s ← y.srv.step (.renewLeases b.sent ms now)
  -- `RETURNING wr.lease_token`
  let renewed := (y.srv.db.runs.rows.filter
    (DurablePg.renewLeases b.sent ms now y.srv.clock).guard).filterMap Row.leaseToken
  if b.renewed.isSome then none
  else some { y with
    srv := s
    renewals := y.renewals.updateWhere (fun b => b.id = id)
      (fun b => { b with renewed := some renewed }) (fun _ => rfl) }

def applyRenewal (y : Workers J) (id : ℕ) : Option (Workers J) := do
  let b ← y.renewals.get id
  let renewed ← b.renewed
  let t := (y.leases b.worker).applyRenewal (b.sent.map Prod.snd) renewed
    (b.now + (engines b.worker).leaseTTL)
  some { y.setLeases b.worker t with renewals := y.renewals.deleteWhere fun b => b.id = id }

/-- One step of the workers. -/
def step (y : Workers J) : WorkerAct J → Option (Workers J)
  | .server a =>
    if a.leases || !(y.srv.endsClaim a).all (· ∈ y.issued) then none
    else (y.srv.step a).map fun s => { y with srv := s }
  | .issue token => some { y with issued := token :: y.issued }
  | .claimReadyRuns worker limit gen started now =>
    y.claimReadyRuns engines worker limit gen started now
  | .insert token parentDone => do
    let a ← y.arrivals.get token
    some { y.setLeases a.worker ((y.leases a.worker).insert parentDone a.run token a.deadline) with
      arrivals := y.arrivals.deleteWhere fun a => a.token = token }
  | .release worker token => some (y.setLeases worker ((y.leases worker).release token))
  | .expire worker now =>
    if now ≤ y.srv.clock then some (y.setLeases worker ((y.leases worker).expire now).1) else none
  | .cancelAll worker => some (y.setLeases worker (y.leases worker).cancelAll)
  | .heartbeat id worker now => if now ≤ y.srv.clock then some (y.heartbeat id worker now) else none
  | .renewLeases id now => y.renewLeases engines id now
  | .applyRenewal id => y.applyRenewal engines id

/-- The claim is confirmed: its worker holds an entry for it that is not canceled and whose
deadline lies in the future. -/
def Confirmed (y : Workers J) (worker : ℕ) (run : RunId) (token : Token) : Prop :=
  ∃ e ∈ (y.leases worker).rows, e.token = token ∧ e.runID = run ∧ e.canceled = false ∧
    y.srv.clock < e.deadline

end Workers

end DurablePg

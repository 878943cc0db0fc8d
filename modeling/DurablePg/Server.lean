import DurablePg.Life

/-!
The database server under any number of clients.

A client sends statements with any parameters, in any order. A statement on its own commits
at once. The two event transactions are open for several steps: they begin, take the lock of
an event key, run their statements and commit or roll back. What such a transaction has
written is invisible, and the rows it has written are locked, until it commits; a statement
that would change a locked row waits, one with `SKIP LOCKED` passes it over.

`hist` records, for the statements of theorems only, what happened in which order.
-/

namespace DurablePg

open DurablePg.Lib

variable {J : Type}

/-! ### Event transactions -/

/-- The body of an event transaction: `EmitEvent`, or `waitForEvent` of a claim. -/
inductive Job (J : Type)
  | emit (n : ℕ) (payload : J)
  | wait (token : Token) (run : RunId) (index : ℕ) (timeoutMs : ℤ) (complete : Bool)
  deriving DecidableEq

inductive TxId
  | emit (n : ℕ)
  | wait (token : Token)
  deriving DecidableEq

def Job.id : Job J → TxId
  | .emit n _ => .emit n
  | .wait token _ _ _ _ => .wait token

inductive Phase (J : Type)
  | begun
  /-- The key lock is granted. -/
  | locked
  /-- `latestEvent` has run. -/
  | looked (found : Option J)
  /-- `emitEvent` has run and locked the runs it wakes. -/
  | emitted (e : Event J) (woken : List RunId)
  /-- `commitStep` or `parkWait` has run, at `clock`, and locked the run. -/
  | wrote (w : Write J) (clock : Time)
  deriving DecidableEq

structure Tx (J : Type) where
  job : Job J
  key : String
  /-- What `now()` returns in the transaction. -/
  start : Time
  phase : Phase J
  deriving DecidableEq

namespace Tx

def id (tx : Tx J) : TxId := tx.job.id

def holdsKey (tx : Tx J) : Bool :=
  match tx.phase with
  | .begun => false
  | _ => true

/-- The transaction has written the run's row. -/
def holdsRun (tx : Tx J) (run : RunId) : Bool :=
  match tx.phase, tx.job with
  | .emitted _ woken, _ => run ∈ woken
  | .wrote _ _, .wait _ run' _ _ _ => run' = run
  | _, _ => false

end Tx

/-! ### The server -/

inductive Ev (J : Type)
  | change (run : RunId) (ch : Change J)
  /-- An `EmitEvent` committed. -/
  | emitted (e : Event J) (clock : Time)
  /-- A registration looked for an event on its key. -/
  | looked (token : Token) (key : String) (found : Option J) (clock : Time)
  /-- A write ran in a transaction still open. -/
  | held (run : RunId) (token : Token) (w : Write J) (clock : Time)
  /-- A write changed no row. -/
  | refused (run : RunId) (token : Token) (w : Write J) (clock : Time)

def Ev.changeOf (run : RunId) : Ev J → Option (Change J)
  | .change run' ch => if run' = run then some ch else none
  | _ => none

/-- The token a claim was made under. -/
def Ev.claimToken? : Ev J → Option Token
  | .change _ ch => ch.claimToken?
  | _ => none

structure Server (J : Type) where
  clock : Time
  db : Db J
  txs : Table (Tx.id (J := J))
  hist : List (Ev J)

inductive Act (J : Type)
  | tick (clock : Time)
  | insertRun (n : NewRun J) (now : Time)
  | claim (q : ClaimQuery) (gen : RunId → Token) (now : Time)
  | renewLeases (claims : List (RunId × Token)) (leaseMs : ℤ) (now : Time)
  | write (run : RunId) (token : Token) (w : Write J) (now : Time)
  | recoverLeases (now : Time)
  | promoteTimedOut (now : Time)
  | pruneEvents (now : Time)
  | cancelRun (run : RunId) (now : Time)
  | begin (job : Job J) (key : String)
  | lockEventKey (id : TxId)
  | latestEvent (token : Token)
  /-- `emitEvent`, or `commitStep` or `parkWait` of a registration. -/
  | statement (id : TxId)
  | commit (id : TxId)
  | rollback (id : TxId)

/-- `defaultEventTTL`, in milliseconds. -/
def eventTTLMs : ℤ := 86400000

namespace Server

def init (clock : Time) : Server J := ⟨clock, .empty, .empty, []⟩

/-- The run's row is locked by an open transaction. -/
def locked (s : Server J) (run : RunId) : Bool := s.txs.rows.any fun tx => tx.holdsRun run

def keyHeld (s : Server J) (key : String) : Bool :=
  s.txs.rows.any fun tx => tx.holdsKey && tx.key = key

/-- No row the update selects is locked. -/
def free (s : Server J) (u : Update J) : Bool :=
  s.db.runs.rows.all fun r => !(u.guard r && s.locked r.id)

/-- Every lease token generated so far. -/
def tokens (s : Server J) : List Token := s.hist.filterMap Ev.claimToken?

/-- The changes of one run, in order. -/
def log (s : Server J) (run : RunId) : List (Change J) := s.hist.filterMap (Ev.changeOf run)

def view (s : Server J) (run : RunId) : View J := ⟨s.db.run run, s.db.checkpoint run⟩

/-- Run an update and commit it. -/
def exec (s : Server J) (u : Update J) (ch : Row J → Change J) : Server J :=
  { s with
    db := s.db.update u
    hist := s.hist ++ (s.db.runs.rows.filter u.guard).map fun r => .change r.id (ch r) }

def insertRun (s : Server J) (n : NewRun J) (now : Time) : Option (Server J) :=
  if !n.storable then none
  else if s.db.runs.rows.any n.conflicts then
    if s.free (n.touch now) then some (s.exec (n.touch now) fun _ => .touched now) else none
  else if (s.db.run n.id).isSome then none
  else some { s with
    db := { s.db with runs := s.db.runs.insert (n.row now) }
    hist := s.hist ++ [.change n.id (.inserted n now)] }

def claim (s : Server J) (q : ClaimQuery) (gen : RunId → Token) (now : Time) :
    Option (Server J) :=
  let ids := s.db.picked (q.claimable now) Row.nextRunAt s.locked q.limit
  -- `gen_random_uuid` never repeats a token
  if (ids.map gen).Nodup ∧ ∀ token ∈ ids.map gen, token ∉ s.tokens then
    some (s.exec (DurablePg.claim ids gen q.leaseMs now s.clock)
      fun r => .claimed (gen r.id) q.leaseMs now s.clock)
  else none

/-- The update a write makes, in a transaction started at `now`. -/
def writeUpdate (s : Server J) (run : RunId) (token : Token) (w : Write J) (now clock : Time) :
    Update J :=
  w.update (s.db.checkpoint run) run token now clock

/-- The write finds its run under the fence. -/
def owns (s : Server J) (run : RunId) (token : Token) (w : Write J) (now : Time) : Bool :=
  (s.db.run run).any (s.writeUpdate run token w now s.clock).guard

def write (s : Server J) (run : RunId) (token : Token) (w : Write J) (now : Time) :
    Option (Server J) :=
  let u := s.writeUpdate run token w now s.clock
  if !s.owns run token w now then
    some { s with hist := s.hist ++ [.refused run token w s.clock] }
  else if s.free u then some (s.exec u fun _ => .wrote token w now s.clock)
  else none

/-- The statement of a registration once it has looked for an event. -/
def waitWrite [Jsonb J] (found : Option J) (key : String) (index : ℕ) (timeoutMs : ℤ)
    (complete : Bool) : Write J :=
  match found with
  | some payload => .commitStep index (received payload) complete
  | none => .parkWait index key timeoutMs

def setPhase (s : Server J) (id : TxId) (phase : Phase J) : Server J :=
  { s with
    txs := s.txs.updateWhere (fun tx => tx.id = id) (fun tx => { tx with phase := phase })
      (fun _ => rfl) }

def close (s : Server J) (id : TxId) : Server J :=
  { s with txs := s.txs.deleteWhere fun tx => tx.id = id }

variable [Jsonb J]

def statement (s : Server J) (tx : Tx J) : Option (Server J) :=
  match tx.job, tx.phase with
  | .emit _ payload, .locked =>
    let u := wake tx.key payload tx.start
    let e : Event J := ⟨s.db.nextEventId, tx.key, payload, tx.start, tx.start + millis eventTTLMs⟩
    if s.free u then
      some { s.setPhase tx.id (.emitted e (s.db.selected u)) with
        db := { s.db with nextEventId := s.db.nextEventId + 1 } }
    else none
  | .wait token run index timeoutMs complete, .looked found =>
    let w := waitWrite found tx.key index timeoutMs complete
    if !s.owns run token w tx.start then
      some { s with hist := s.hist ++ [.refused run token w s.clock] }
    else if s.free (s.writeUpdate run token w tx.start s.clock) then
      some { s.setPhase tx.id (.wrote w s.clock) with
        hist := s.hist ++ [.held run token w s.clock] }
    else none
  | _, _ => none

def commit (s : Server J) (tx : Tx J) : Option (Server J) :=
  match tx.job, tx.phase with
  | .emit _ payload, .emitted e woken =>
    let s' := { s.close tx.id with
      db := { s.db with events := s.db.events.insert e }
      hist := s.hist ++ [Ev.emitted e s.clock] }
    some (s'.exec ((wake tx.key payload tx.start).pinned woken)
      fun _ => .delivered tx.key payload tx.start)
  | .wait token run _ _ _, .wrote w clock =>
    some ((s.close tx.id).exec ((s.writeUpdate run token w tx.start clock).pinned [run])
      fun _ => .wrote token w tx.start clock)
  | _, _ => none

/-- One step of the server. -/
def step (s : Server J) : Act J → Option (Server J)
  | .tick clock => if s.clock ≤ clock then some { s with clock := clock } else none
  | .insertRun n now => if now ≤ s.clock then s.insertRun n now else none
  | .claim q gen now => if now ≤ s.clock then s.claim q gen now else none
  | .renewLeases claims leaseMs now =>
    let u := DurablePg.renewLeases claims leaseMs now s.clock
    if now ≤ s.clock ∧ s.free u then some (s.exec u fun _ => .renewed leaseMs now s.clock)
    else none
  | .write run token w now => if now ≤ s.clock then s.write run token w now else none
  | .recoverLeases now =>
    let ids := s.db.picked (expiredLease now) (fun r => r.leaseUntil.getD 0) s.locked
      maintenanceBatch
    if now ≤ s.clock then
      some (s.exec (DurablePg.recoverLeases ids now s.clock) fun _ => .recovered now s.clock)
    else none
  | .promoteTimedOut now =>
    let ids := s.db.picked (timedOutWait now) (fun r => r.waitingDeadline.getD 0) s.locked
      maintenanceBatch
    if now ≤ s.clock then
      some (s.exec (DurablePg.promoteTimedOut ids now) fun _ => .timedOut now)
    else none
  | .pruneEvents now =>
    if now ≤ s.clock then some { s with db := s.db.pruneEvents now pruneBatch } else none
  | .cancelRun run now =>
    let u := DurablePg.cancelRun run now
    if now ≤ s.clock ∧ s.free u then some (s.exec u fun _ => .cancelled now) else none
  | .begin job key =>
    if (s.txs.get job.id).isSome then none
    else some { s with txs := s.txs.insert ⟨job, key, s.clock, .begun⟩ }
  | .lockEventKey id => do
    let tx ← s.txs.get id
    match tx.phase with
    | .begun => if s.keyHeld tx.key then none else some (s.setPhase id .locked)
    | _ => none
  | .latestEvent token => do
    let tx ← s.txs.get (.wait token)
    match tx.phase with
    | .locked =>
      let found := s.db.latestEvent tx.key tx.start
      some { s.setPhase (.wait token) (.looked found) with
        hist := s.hist ++ [.looked token tx.key found s.clock] }
    | _ => none
  | .statement id => do s.statement (← s.txs.get id)
  | .commit id => do s.commit (← s.txs.get id)
  | .rollback id => if (s.txs.get id).isSome then some (s.close id) else none

end Server

end DurablePg

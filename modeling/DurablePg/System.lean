import DurablePg.Drive
import DurablePg.ServerInv

/-!
The system: one database server, and any number of engines whose workers enqueue, claim and
drive runs and emit events.

Heartbeats, maintenance and cancellation are statements of the server with any parameters. A
claim's answer can be lost; so can the answer to any statement, before or after the worker
has given up on it. The claims in progress are kept by their tokens.
-/

namespace DurablePg

open DurablePg.Lib

variable {J Ω : Type}

structure System (J Ω : Type) where
  srv : Server J
  procs : Token → Option (Proc J Ω)
  calls : List (Call Ω)

/-- Statements that no claim in progress sends, and a rollback, which can happen to any
transaction. -/
def Act.outside : Act J → Bool
  | .tick _ | .renewLeases .. | .recoverLeases _ | .promoteTimedOut _ | .pruneEvents _
  | .cancelRun .. | .begin (.emit ..) _ | .lockEventKey (.emit _) | .statement (.emit _)
  | .commit (.emit _) | .rollback _ => true
  | _ => false

inductive Move (J Ω : Type)
  /-- A heartbeat, maintenance, `Cancel`, the steps of an `EmitEvent`, or a rollback. -/
  | outside (a : Act J)
  /-- `EmitEvent` begins its transaction. -/
  | emitEvent (n : ℕ) (key : String) (rawPayload : Bytes)
  | enqueue (e : Engine) (name : String) (rawInput : Bytes) (opts : List EnqueueOption)
    (newUUID : RunId) (now : Time)
  | claim (e : Engine) (limit : ℕ) (gen : RunId → Token) (now : Time) (lost : Bool)
  | turn (token : Token) (t : Turn Ω)
  /-- The server runs the statement `drive` sent. -/
  | exec (token : Token) (now : Time) (lost : Bool)
  /-- The server runs the statement `failOrRetry` sent. -/
  | execFailure (token : Token) (now : Time)
  | begin (token : Token)
  | lockEventKey (token : Token)
  | latestEvent (token : Token)
  | statement (token : Token)
  | commit (token : Token) (lost : Bool)

namespace System

def init (clock : Time) : System J Ω := ⟨.init clock, fun _ => none, []⟩

def setProc (y : System J Ω) (token : Token) (p : Proc J Ω) : System J Ω :=
  { y with procs := Function.update y.procs token (some p) }

variable [Jsonb J] (reg : Registry Ω)

/-- The claims a claim statement hands to a worker. -/
def claimed (y : System J Ω) (e : Engine) (q : ClaimQuery) (gen : RunId → Token) (now : Time)
    (token : Token) : Option (Proc J Ω) := do
  let id ← (y.srv.db.picked (q.claimable now) Row.nextRunAt y.srv.locked q.limit).find? fun id =>
    gen id = token
  let r ← y.srv.db.run id
  Proc.start e reg (r.claimedRun token (y.srv.db.checkpoint id))

/-- The worker of a claim begins the transaction of a wait. -/
def begin (y : System J Ω) (token : Token) (p : Proc J Ω) : Option (System J Ω) :=
  match p.pc, p.wf.ops[p.index]? with
  | .begin key, some (.waitEvent _ _ timeout) => do
    let job := .wait token p.run.id p.index (milliseconds timeout) p.complete
    let s ← y.srv.step (.begin job key)
    some ({ y with srv := s }.setProc token { p with pc := .wait none })
  | _, _ => none

/-- The worker of a claim is in the transaction of a wait. -/
def inWait (p : Proc J Ω) : Bool :=
  match p.pc with
  | .wait _ => true
  | _ => false

/-- One step of the system. -/
def step (y : System J Ω) : Move J Ω → Option (System J Ω)
  | .outside a =>
    if a.outside then (y.srv.step a).map fun s => { y with srv := s } else none
  | .emitEvent n key rawPayload =>
    -- an empty key and a payload the server cannot read are errors
    if trimSpace key = "" then none
    else do
      let payload ← parse rawPayload
      let s ← y.srv.step (.begin (.emit n payload) (trimSpace key))
      some { y with srv := s }
  | .enqueue e name rawInput opts newUUID now =>
    match e.enqueue reg name rawInput opts newUUID with
    | .error _ => none
    | .ok n => (y.srv.step (.insertRun n now)).map fun s => { y with srv := s }
  | .claim e limit gen now lost => do
    let q ← e.claimQuery limit
    let s ← y.srv.step (.claim q gen now)
    some { y with
      srv := s
      procs := fun token =>
        if lost then y.procs token else (y.claimed reg e q gen now token).or (y.procs token) }
  | .turn token t => do
    let p ← y.procs token
    let (p', calls) ← p.turn t
    some { y.setProc token p' with calls := y.calls ++ calls }
  | .exec token now lost => do
    let p ← y.procs token
    let w ← p.sent
    let s ← y.srv.step (.write p.run.id token w now)
    let owned := y.srv.owns p.run.id token w now
    let p' := { p with sent := none }
    some ({ y with srv := s }.setProc token
      (if lost then p' else p'.answered owned (y.srv.db.checkpoint p.run.id p.index)))
  | .execFailure token now => do
    let p ← y.procs token
    let w ← p.failure
    let s ← y.srv.step (.write p.run.id token w now)
    some ({ y with srv := s }.setProc token { p with failure := none })
  | .begin token => do y.begin token (← y.procs token)
  | .lockEventKey token => do
    let p ← y.procs token
    if inWait p then (y.srv.step (.lockEventKey (.wait token))).map fun s => { y with srv := s }
    else none
  | .latestEvent token => do
    let p ← y.procs token
    let tx ← y.srv.txs.get (.wait token)
    let found := y.srv.db.latestEvent tx.key tx.start
    let s ← y.srv.step (.latestEvent token)
    if inWait p then
      some ({ y with srv := s }.setProc token
        { p with pc := .wait (found.map fun payload => receivedBytes (text payload)) })
    else none
  | .statement token => do
    let p ← y.procs token
    let s ← y.srv.step (.statement (.wait token))
    -- a write that finds the lease gone changes nothing, and `drive` returns
    let owned := (s.txs.get (.wait token)).any fun tx => tx.holdsRun p.run.id
    if inWait p then
      some ({ y with srv := s }.setProc token (if owned then p else { p with pc := .done }))
    else none
  | .commit token lost => do
    let p ← y.procs token
    let s ← y.srv.step (.commit (.wait token))
    some ({ y with srv := s }.setProc token
      (if lost then p else p.answered true (y.srv.db.checkpoint p.run.id p.index)))

/-- The states the system reaches from empty tables. -/
def Reachable (y : System J Ω) : Prop := ∃ clock, Reaches (step reg) (init clock) y

end System

end DurablePg

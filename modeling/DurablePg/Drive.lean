import DurablePg.Engine
import DurablePg.Lawful

/-!
A claim as its worker executes it: `executeClaim` and `drive` as a machine that takes one
turn at a time.

Between two turns the worker can lose its process or its lease, and a statement it has sent
can run late, or run without its answer arriving. A statement the worker has stopped waiting
for is still on its way.
-/

namespace DurablePg

variable {J Ω : Type}

/-- `claimedRun`, without the local deadline. -/
structure ClaimedRun where
  id : RunId
  workflowName : String
  version : ℤ
  stepIndex : ℕ
  input : Bytes
  attempt : ℕ
  token : Token
  checkpoints : ℕ → Option Bytes

/-- What a claim returns for a row: the row as it was locked, and the checkpoints of the
statement's snapshot. -/
def Row.claimedRun [Jsonb J] (r : Row J) (token : Token) (checkpoint : ℕ → Option J) :
    ClaimedRun where
  id := r.id
  workflowName := r.workflowName
  version := r.workflowVersion
  stepIndex := r.stepIndex
  input := text r.inputJson
  attempt := r.attempt
  token := token
  checkpoints i := (checkpoint i).map text

/-- Where a worker stands in a claim. -/
inductive Pc
  /-- At the head of the loop over the operations. -/
  | loop
  /-- A statement has been sent; `raw` is the result it stores. -/
  | await (raw : Option Bytes)
  /-- The key of a wait is known. -/
  | begin (key : String)
  /-- In the transaction of a wait; `raw` is the outcome it found. -/
  | wait (raw : Option Bytes)
  | fail (cause : Bytes)
  | done

/-- A claim being executed. -/
structure Proc (J Ω : Type) where
  run : ClaimedRun
  wf : CompiledWorkflow Ω
  values : List (Option Bytes)
  index : ℕ
  pc : Pc
  /-- The statement of `drive` on its way. -/
  sent : Option (Write J)
  /-- The statement of `failOrRetry` on its way. -/
  failure : Option (Write J)

/-- A turn of the worker. `refusal` is the error of a server that cannot read a result. -/
inductive Turn (Ω : Type)
  | advance
  | invoke (ω : Ω) (refusal : Bytes)
  | sleep
  | finish (refusal : Bytes)
  /-- A statement failed, or its answer was lost. -/
  | error (cause : Bytes)
  | failOrRetry
  /-- The process crashes, or the context of the claim is cancelled. -/
  | stop

namespace Proc

/-- The first lines of `drive`. -/
def start (e : Engine) (reg : Registry Ω) (run : ClaimedRun) : Option (Proc J Ω) :=
  (e.workflow reg run.workflowName run.version).map fun wf =>
    { run := run
      wf := wf
      values := (List.range wf.ops.length).map run.checkpoints
      index := run.stepIndex
      pc := .loop
      sent := none
      failure := none }

/-- The operation at the index is the last one. -/
def complete (p : Proc J Ω) : Bool := p.index + 1 = p.wf.ops.length

def value (p : Proc J Ω) (i : ℕ) : Option Bytes := p.values.getD i none

def stepContext (p : Proc J Ω) (name : String) : StepContext where
  runID := p.run.id
  workflow := p.run.workflowName
  input := p.run.input
  stepKey := toString p.index ++ ":" ++ name
  values := p.values.take p.index
  names := p.wf.names

def call (p : Proc J Ω) (ω : Ω) (name : String) : Call Ω :=
  ⟨p.run.id, p.run.token, p.index, ω, p.stepContext name⟩

/-- A result is stored: an existing checkpoint wins, and the loop goes on. -/
def stored [Jsonb J] (p : Proc J Ω) (raw : Bytes) (existing : Option J) : Proc J Ω :=
  let values := p.values.set p.index (some ((existing.map text).getD raw))
  if p.complete then { p with values := values, pc := .done }
  else { p with values := values, index := p.index + 1, pc := .loop }

/-- An answer reaches the worker. -/
def answered [Jsonb J] (p : Proc J Ω) (owned : Bool) (existing : Option J) : Proc J Ω :=
  match p.pc with
  | .await (some raw) | .wait (some raw) =>
    if owned then p.stored raw existing else { p with pc := .done }
  | .await none | .wait none => { p with pc := .done }
  | _ => p

variable [Jsonb J]

/-- Call the operation at the index. -/
def invoke (p : Proc J Ω) (ω : Ω) (refusal : Bytes) : Operation Ω →
    Option (Proc J Ω × List (Call Ω))
  | .step name fn _ =>
    match executeStepSafely name fn ω (p.stepContext name) with
    | .error cause => some ({ p with pc := .fail cause }, [p.call ω name])
    | .ok raw =>
      match parse raw with
      | none => some ({ p with pc := .fail refusal }, [p.call ω name])
      | some v => some ({ p with
          pc := .await (some raw)
          sent := some (.commitStep p.index v p.complete) }, [p.call ω name])
  | .waitEvent name key _ =>
    match key.resolve ω (p.stepContext name) with
    | .error cause => some ({ p with pc := .fail cause }, [p.call ω name])
    | .ok k => some ({ p with pc := .begin k }, [p.call ω name])
  | .sleep _ => none

/-- The loop has ended: complete the run. -/
def finish (p : Proc J Ω) (refusal : Bytes) : Proc J Ω :=
  match p.wf.outputIndex.bind p.value with
  | none => { p with pc := .await none, sent := some (.completeRun p.wf.ops.length none) }
  | some raw =>
    match parse raw with
    | none => { p with pc := .fail refusal }
    | some v => { p with pc := .await none, sent := some (.completeRun p.wf.ops.length (some v)) }

def failOrRetry (p : Proc J Ω) (cause : Bytes) : Write J :=
  let attempt := p.run.attempt + 1
  .failOrRetry attempt (milliseconds (backoffDuration attempt)) (sanitizeError cause)

/-- One turn, and the calls it makes. -/
def turn (p : Proc J Ω) : Turn Ω → Option (Proc J Ω × List (Call Ω))
  | .advance =>
    match p.pc, p.value p.index with
    | .loop, some _ => some ({ p with index := p.index + 1 }, [])
    | _, _ => none
  | .invoke ω refusal => do
    let op ← p.wf.ops[p.index]?
    match p.pc, p.value p.index with
    | .loop, none => p.invoke ω refusal op
    | _, _ => none
  | .sleep => do
    let op ← p.wf.ops[p.index]?
    match p.pc, p.value p.index, op with
    | .loop, none, .sleep d => some ({ p with
        pc := .await none
        sent := some (.parkSleep (p.index + 1) (milliseconds d)) }, [])
    | _, _, _ => none
  | .finish refusal =>
    match p.pc, p.wf.ops[p.index]? with
    | .loop, none => some (p.finish refusal, [])
    | _, _ => none
  | .error cause =>
    match p.pc with
    | .await _ | .begin _ | .wait _ => some ({ p with pc := .fail cause }, [])
    | _ => none
  | .failOrRetry =>
    match p.pc with
    | .fail cause => some ({ p with pc := .done, failure := some (p.failOrRetry cause) }, [])
    | _ => none
  | .stop => some ({ p with pc := .done }, [])

end Proc

end DurablePg

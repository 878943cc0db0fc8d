import DurablePg.Lib.Table

/-!
The data of a durable workflow engine: run states, the rows of its three tables, JSON as it
travels between the process and the database, and the context a step function sees.

Times are readings of one clock, in nanoseconds.
-/

namespace DurablePg

open DurablePg.Lib

abbrev RunId := String
abbrev Token := String
abbrev Time := ℤ
abbrev Bytes := List UInt8

/-- The UTF-8 bytes of a string. -/
def utf8 (s : String) : Bytes := s.toList.flatMap String.utf8EncodeChar

/-- `n * INTERVAL '1 millisecond'`. -/
def millis (n : ℤ) : Time := n * 1000000

/-- `time.Duration.Milliseconds`, which truncates towards zero. -/
def milliseconds (d : Time) : ℤ := d.tdiv 1000000

lemma millis_milliseconds {d : Time} (h : 1000000 ∣ d) : millis (milliseconds d) = d :=
  Int.tdiv_mul_cancel h

/-- `unicode.IsSpace`. -/
def isSpace (c : Char) : Bool :=
  let n := c.toNat
  (9 ≤ n && n ≤ 13) || n = 32 || n = 0x85 || n = 0xA0 || n = 0x1680 || (0x2000 ≤ n && n ≤ 0x200A)
    || n = 0x2028 || n = 0x2029 || n = 0x202F || n = 0x205F || n = 0x3000

/-- `strings.TrimSpace`. -/
def trimSpace (s : String) : String :=
  .ofList ((s.toList.dropWhile isSpace).reverse.dropWhile isSpace).reverse

inductive RunState
  | ready | leased | waitingEvent | completed | failed | cancelled
  deriving DecidableEq, Repr

/-- The run can no longer change state. -/
def RunState.terminal (s : RunState) : Bool :=
  s = .completed || s = .failed || s = .cancelled

/-! ### JSON -/

/-- The outcome of a wait as the worker spells it: `received` around the payload's bytes. -/
def receivedBytes (payload : Bytes) : Bytes :=
  utf8 "\x7b\"received\":" ++ payload ++ utf8 "\x7d"

/-- JSONB values: how the server reads the bytes of a JSON text, which it may refuse, how it
prints a value, and the two outcomes a wait can have. Printing and reading back is the
identity; reading and printing is not, since the server normalises what it stores. -/
class Jsonb (J : Type) where
  parse : Bytes → Option J
  text : J → Bytes
  parse_text : ∀ v, parse (text v) = some v
  /-- `jsonb_build_object('received', p)`. -/
  received : J → J
  parse_received : ∀ p, parse (receivedBytes (text p)) = some (received p)
  /-- `'"timed_out"'::jsonb`. -/
  timedOut : J
  received_ne_timedOut : ∀ p, received p ≠ timedOut

export Jsonb (parse text received timedOut)

/-! ### Rows -/

/-- A row of `workflow_runs`. -/
structure Row (J : Type) where
  id : RunId
  workflowName : String
  workflowVersion : ℤ
  queue : String
  state : RunState
  stepIndex : ℕ
  attempt : ℕ
  maxAttempts : ℕ
  leaseFailures : ℕ
  nextRunAt : Time
  leaseToken : Option Token
  leaseUntil : Option Time
  waitingEventKey : Option String
  waitingDeadline : Option Time
  inputJson : J
  outputJson : Option J
  dedupKey : Option String
  lastError : Option Bytes
  updatedAt : Time

/-- A row of `step_checkpoints`. -/
structure Checkpoint (J : Type) where
  runId : RunId
  stepIndex : ℕ
  value : J

def Checkpoint.key {J : Type} (c : Checkpoint J) : RunId × ℕ := (c.runId, c.stepIndex)

/-- A row of `event_log`. -/
structure Event (J : Type) where
  id : ℕ
  eventKey : String
  payload : J
  createdAt : Time
  expiresAt : Time
  deriving DecidableEq

/-! ### Step contexts -/

/-- What a step function or an event-key resolver can see. -/
structure StepContext where
  runID : RunId
  workflow : String
  input : Bytes
  stepKey : String
  values : List (Option Bytes)
  names : String → Option ℕ

namespace StepContext

def raw (sc : StepContext) (name : String) : Option Bytes :=
  match sc.names name with
  | none => none
  | some index => sc.values.getD index none

/-- `RawValue` hands out a copy of the bytes. -/
def rawValue (sc : StepContext) (step : String) : Option Bytes := sc.raw step

/-- `Value`, for a destination that `dec` decodes into. -/
def value {δ : Type} (sc : StepContext) (dec : Bytes → Except String δ) (step : String) :
    Except String (Option δ) :=
  match sc.raw step with
  | none => .ok none
  | some raw =>
    match dec raw with
    | .ok v => .ok (some v)
    | .error e => .error ("decode step value " ++ step.quote ++ ": " ++ e)

def idempotencyKey (sc : StepContext) : String :=
  if sc.runID = "" || sc.stepKey = "" then "" else sc.runID ++ ":" ++ sc.stepKey

end StepContext

end DurablePg

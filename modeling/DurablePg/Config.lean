import DurablePg.Engine

/-!
`New`: the settings of an engine from its configuration.
-/

namespace DurablePg

/-- `Config` without the logger; of the pool only whether there is one. -/
structure Config where
  db : Bool
  schema : String
  queue : String
  maxConcurrency : ℤ
  pollInterval : Time
  leaseTTL : Time
  heartbeatInterval : Time

inductive ConfigError
  /-- `durablepg: cfg.DB is required` -/
  | noDB
  /-- `durablepg: invalid schema %q` -/
  | schema (schema : String)
  /-- `durablepg: HeartbeatInterval %v must be shorter than LeaseTTL %v` -/
  | heartbeat (heartbeat leaseTTL : Time)
  deriving DecidableEq

def defaultSchema : String := "durable"
def defaultQueue : String := "default"
def defaultPollInterval : Time := 250 * 1000000
def defaultLeaseTTL : Time := 30 * 1000000000
def defaultHeartbeatInterval : Time := 10 * 1000000000
def maxSchemaLength : ℕ := 48

/-- `identPattern`: an ASCII letter or underscore, then letters, digits and underscores. -/
def identPattern (s : String) : Bool :=
  match s.toList with
  | [] => false
  | c :: cs => (c.isAlpha || c = '_') && cs.all fun c => c.isAlphanum || c = '_'

/-- What an engine is given by `New`. -/
structure Settings where
  schema : String
  queue : String
  maxConcurrency : ℤ
  pollInterval : Time
  leaseTTL : Time
  heartbeatEvery : Time
  schema_ident : identPattern schema = true ∧ schema.utf8ByteSize ≤ maxSchemaLength
  queue_ne : queue ≠ ""
  concurrency_pos : 0 < maxConcurrency
  poll_pos : 0 < pollInterval
  heartbeat_pos : 0 < heartbeatEvery
  heartbeat_lt : heartbeatEvery < leaseTTL

/-- A configured value, or the default in place of one that is not positive. -/
def orDefault (x default : ℤ) : ℤ := if x ≤ 0 then default else x

lemma orDefault_pos {x default : ℤ} (h : 0 < default) : 0 < orDefault x default := by
  unfold orDefault
  split <;> omega

/-- `New`, on a machine that runs `procs` threads. -/
def Config.new (cfg : Config) (procs : ℤ) : Except ConfigError Settings :=
  let schema := if cfg.schema = "" then defaultSchema else cfg.schema
  let leaseTTL := orDefault cfg.leaseTTL defaultLeaseTTL
  let heartbeat := orDefault cfg.heartbeatInterval defaultHeartbeatInterval
  if !cfg.db then .error .noDB
  else if hschema : identPattern schema = true ∧ schema.utf8ByteSize ≤ maxSchemaLength then
    if hlt : heartbeat < leaseTTL then
      .ok
        { schema := schema
          queue := if trimSpace cfg.queue = "" then defaultQueue else trimSpace cfg.queue
          maxConcurrency := orDefault cfg.maxConcurrency (orDefault procs 1)
          pollInterval := orDefault cfg.pollInterval defaultPollInterval
          leaseTTL := leaseTTL
          heartbeatEvery := heartbeat
          schema_ident := hschema
          queue_ne := by split <;> [decide; assumption]
          concurrency_pos := orDefault_pos (orDefault_pos one_pos)
          poll_pos := orDefault_pos (by decide)
          heartbeat_pos := orDefault_pos (by decide)
          heartbeat_lt := hlt }
    else .error (.heartbeat heartbeat leaseTTL)
  else .error (.schema schema)

/-- The engine, once it has registered its definitions. -/
def Settings.engine (c : Settings) (workflows : List (String × ℤ)) : Engine :=
  ⟨c.queue, c.leaseTTL, workflows⟩

/-- What `New` makes of the default configuration, with a queue of its own. -/
def defaults : Settings where
  schema := defaultSchema
  queue := "q"
  maxConcurrency := 1
  pollInterval := defaultPollInterval
  leaseTTL := defaultLeaseTTL
  heartbeatEvery := defaultHeartbeatInterval
  schema_ident := by decide +kernel
  queue_ne := by decide
  concurrency_pos := by decide
  poll_pos := by decide
  heartbeat_pos := by decide
  heartbeat_lt := by decide

example : Config.new ⟨true, "", "q", 0, 0, 0, 0⟩ 1 = .ok defaults := by rfl

end DurablePg

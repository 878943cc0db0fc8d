import DurablePg.Builder
import DurablePg.Queries

/-!
An engine: the definitions it has registered, the claim it sends, and what `Enqueue` and a
failed claim send.
-/

namespace DurablePg

variable {J Ω : Type}

/-- Every definition there is. A version is immutable: whoever registers it registers the same
operations. -/
structure Registry (Ω : Type) where
  workflow : String → ℤ → Option (CompiledWorkflow Ω)
  compiled : ∀ name version wf, workflow name version = some wf →
    wf.name = name ∧ wf.version = version ∧ ∃ n build, compileWorkflow n version build = .ok wf

lemma Registry.valid {reg : Registry Ω} {name : String} {version : ℤ} {wf : CompiledWorkflow Ω}
    (h : reg.workflow name version = some wf) : wf.Valid := by
  obtain ⟨-, -, n, build, hc⟩ := reg.compiled name version wf h
  exact compileWorkflow_valid hc

/-- The registry of one definition. -/
def Registry.single (name : String) (version : ℤ) (build : List (BuildCall Ω)) : Registry Ω where
  workflow name' version' :=
    match compileWorkflow name version build with
    | .ok wf =>
      if wf.name = name' ∧ wf.version = version' ∧ version = version' then some wf else none
    | .error _ => none
  compiled name' version' wf h := by
    split at h
    · rename_i wf' hc
      simp only [Option.ite_none_right_eq_some, Option.some.injEq] at h
      obtain ⟨⟨hname, hversion, rfl⟩, rfl⟩ := h
      exact ⟨hname, hversion, name, build, hc⟩
    · cases h

structure Engine where
  queue : String
  leaseTTL : Time
  /-- The names and versions registered. -/
  workflows : List (String × ℤ)

namespace Engine

def workflow (e : Engine) (reg : Registry Ω) (name : String) (version : ℤ) :
    Option (CompiledWorkflow Ω) :=
  if (name, version) ∈ e.workflows then reg.workflow name version else none

/-- The registered version with the largest number. -/
def latestWorkflow (e : Engine) (reg : Registry Ω) (name : String) :
    Option (CompiledWorkflow Ω) :=
  e.workflows.foldl (fun latest key =>
    if key.1 = name && latest.all (fun wf => wf.version < key.2) then reg.workflow key.1 key.2
    else latest) none

/-- The statement `claimReadyRuns` sends, if it sends one. -/
def claimQuery (e : Engine) (limit : ℕ) : Option ClaimQuery :=
  if limit = 0 then none
  else
    match e.workflows with
    | [] => none
    | [(name, version)] => some ⟨e.queue, limit, milliseconds e.leaseTTL, .single name version⟩
    | keys => some ⟨e.queue, limit, milliseconds e.leaseTTL,
        .multi (keys.map Prod.fst) (keys.map Prod.snd)⟩

end Engine

/-! ### Enqueue -/

structure EnqueueOptions where
  runID : RunId
  workflowVersion : ℤ
  queue : String
  maxAttempts : ℤ
  idempotencyKey : String
  scheduledAt : Option Time

inductive EnqueueOption
  | withWorkflowVersion (version : ℤ)
  | withRunID (id : RunId)
  | withQueue (queue : String)
  | withMaxAttempts (n : ℤ)
  | withIdempotencyKey (key : String)
  | withScheduledAt (t : Time)

def EnqueueOption.apply (o : EnqueueOptions) : EnqueueOption → EnqueueOptions
  | .withWorkflowVersion version => { o with workflowVersion := version }
  | .withRunID id => { o with runID := id }
  | .withQueue queue => { o with queue := queue }
  | .withMaxAttempts n => { o with maxAttempts := n }
  | .withIdempotencyKey key => { o with idempotencyKey := key }
  | .withScheduledAt t => { o with scheduledAt := some t }

def defaultMaxAttempts : ℤ := 25

/-- The options of a call, over the defaults of the engine. -/
def Engine.options (e : Engine) (opts : List EnqueueOption) : EnqueueOptions :=
  opts.foldl EnqueueOption.apply ⟨"", 0, e.queue, defaultMaxAttempts, "", none⟩

/-- `Enqueue` up to the parameters of `insertRun`, with the identifier `newUUID` would return;
the server refuses an input it cannot read. -/
def Engine.enqueue [Jsonb J] (e : Engine) (reg : Registry Ω) (name : String) (rawInput : Bytes)
    (opts : List EnqueueOption) (newUUID : RunId) : Except String (NewRun J) :=
  let o := opts.foldl EnqueueOption.apply ⟨"", 0, e.queue, defaultMaxAttempts, "", none⟩
  let queue := trimSpace o.queue
  if o.workflowVersion < 0 then .error "durablepg: workflow version must be positive"
  else
    match if o.workflowVersion = 0 then e.latestWorkflow reg name
      else e.workflow reg name o.workflowVersion with
    | none => .error ("durablepg: workflow " ++ name.quote ++ " version "
        ++ toString o.workflowVersion ++ " is not registered")
    | some wf =>
      if queue = "" then .error "durablepg: queue cannot be empty"
      else if o.maxAttempts ≤ 0 then
        .error ("durablepg: max attempts must be positive, got " ++ toString o.maxAttempts)
      else
        match parse rawInput with
        | none => .error "durablepg: enqueue: invalid input syntax for type json"
        | some input => .ok
          { id := if o.runID = "" then newUUID else o.runID
            workflowName := wf.name
            workflowVersion := wf.version
            queue := queue
            maxAttempts := o.maxAttempts
            scheduledAt := o.scheduledAt
            input := input
            dedupKey := if o.idempotencyKey = "" then none else some o.idempotencyKey }

lemma Engine.latestWorkflow_registered (e : Engine) (reg : Registry Ω) {name : String}
    {wf : CompiledWorkflow Ω} (h : e.latestWorkflow reg name = some wf) :
    reg.workflow name wf.version = some wf := by
  have hfold : ∀ (keys : List (String × ℤ)) (o : Option (CompiledWorkflow Ω)),
      (∀ wf, o = some wf → reg.workflow name wf.version = some wf) → ∀ wf,
      keys.foldl (fun latest key =>
        if key.1 = name && latest.all (fun wf => wf.version < key.2) then reg.workflow key.1 key.2
        else latest) o = some wf → reg.workflow name wf.version = some wf := by
    intro keys
    induction keys with
    | nil => exact fun o ho wf h => ho wf h
    | cons key keys ih =>
      intro o ho wf h
      refine ih _ (fun wf' hwf' => ?_) wf h
      dsimp only at hwf'
      split at hwf'
      · rename_i hkey
        simp only [Bool.and_eq_true, decide_eq_true_eq] at hkey
        obtain ⟨-, hver, -⟩ := reg.compiled _ _ _ hwf'
        rw [hver, ← hkey.1]; exact hwf'
      · exact ho wf' hwf'
  exact hfold e.workflows none (fun _ h => by cases h) wf h

lemma Engine.enqueue_ok [Jsonb J] {e : Engine} {reg : Registry Ω} {name : String}
    {rawInput : Bytes} {opts : List EnqueueOption} {newUUID : RunId} {n : NewRun J}
    (h : e.enqueue reg name rawInput opts newUUID = .ok n) :
    n.workflowName = name ∧ (∃ wf, reg.workflow n.workflowName n.workflowVersion = some wf) ∧
      n.dedupKey = if (e.options opts).idempotencyKey = "" then none
        else some (e.options opts).idempotencyKey := by
  unfold enqueue at h
  simp only at h
  split at h
  · cases h
  · split at h
    · cases h
    · rename_i wf hwf
      have hreg : reg.workflow name wf.version = some wf := by
        split at hwf
        · exact e.latestWorkflow_registered reg hwf
        · simp only [workflow, Option.ite_none_right_eq_some] at hwf
          obtain ⟨-, hver, -⟩ := reg.compiled _ _ _ hwf.2
          rw [hver]; exact hwf.2
      obtain ⟨hname, -, -⟩ := reg.compiled _ _ _ hreg
      split at h
      · cases h
      · split at h
        · cases h
        · split at h
          · cases h
          · cases h; exact ⟨hname, ⟨wf, by rw [hname]; exact hreg⟩, rfl⟩

/-! ### Failures -/

/-- `backoffDuration`. -/
def backoffDuration (attempt : ℕ) : Time :=
  let delay : Time := 250000000 * 2 ^ min (max attempt 1 - 1) 8
  if delay > 60000000000 then 60000000000 else delay

/-- How many bytes the rune at the head takes, if it is valid UTF-8. -/
def runeWidth : Bytes → Option ℕ
  | [] => none
  | b₀ :: rest =>
    let cont (lo hi : ℕ) (b : Option UInt8) : Bool := b.any fun b => lo ≤ b.toNat && b.toNat ≤ hi
    let n := b₀.toNat
    let b₁ := rest[0]?
    let more (k : ℕ) : Bool := (List.range k).all fun j => cont 0x80 0xBF rest[j + 1]?
    if n < 0x80 then some 1
    else if 0xC2 ≤ n && n ≤ 0xDF && cont 0x80 0xBF b₁ then some 2
    else if n = 0xE0 && cont 0xA0 0xBF b₁ && more 1 then some 3
    else if ((0xE1 ≤ n && n ≤ 0xEC) || n = 0xEE || n = 0xEF) && cont 0x80 0xBF b₁ && more 1 then
      some 3
    else if n = 0xED && cont 0x80 0x9F b₁ && more 1 then some 3
    else if n = 0xF0 && cont 0x90 0xBF b₁ && more 2 then some 4
    else if 0xF1 ≤ n && n ≤ 0xF3 && cont 0x80 0xBF b₁ && more 2 then some 4
    else if n = 0xF4 && cont 0x80 0x8F b₁ && more 2 then some 4
    else none

/-- `U+FFFD`. -/
def replacement : Bytes := [0xEF, 0xBF, 0xBD]

/-- `strings.ToValidUTF8` with the replacement character; `pending` bytes of a valid rune are
still to be copied, and `invalid` says that the last byte was not part of one. -/
def toValidUTF8 (pending : ℕ) (invalid : Bool) : Bytes → Bytes
  | [] => []
  | b :: rest =>
    if 0 < pending then b :: toValidUTF8 (pending - 1) false rest
    else
      match runeWidth (b :: rest) with
      | some width => b :: toValidUTF8 (width - 1) false rest
      | none => (if invalid then [] else replacement) ++ toValidUTF8 0 true rest

/-- `utf8.RuneStart`. -/
def runeStart (b : UInt8) : Bool := b.toNat / 64 ≠ 2

def maxErrorLength : ℕ := 4000

/-- The loop of `sanitizeError`: the last rune start at or below an index. -/
def runeBoundary (msg : Bytes) : ℕ → ℕ
  | 0 => 0
  | last + 1 => if runeStart (msg.getD (last + 1) 0) then last + 1 else runeBoundary msg last

/-- `sanitizeError`. -/
def sanitizeError (msg : Bytes) : Bytes :=
  let msg := (toValidUTF8 0 false msg).flatMap fun b => if b = 0 then replacement else [b]
  if msg.length ≤ maxErrorLength then msg else msg.take (runeBoundary msg maxErrorLength)

end DurablePg

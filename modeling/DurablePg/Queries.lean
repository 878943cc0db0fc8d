import DurablePg.Types
import Mathlib.Data.List.Sort

/-!
The statements of `queries.go`.

A statement that changes `workflow_runs` is one guarded update: the rows its `WHERE` clause
selects, what `SET` makes of them, and the checkpoint its data-modifying CTEs insert for
each of them. `now` is the start of the statement's transaction, `clock` the reading of
`clock_timestamp()` while it runs.
-/

namespace DurablePg

open DurablePg.Lib

/-- The three tables, and the sequence behind `event_log.id`. -/
structure Db (J : Type) where
  runs : Table (Row.id (J := J))
  checkpoints : Table (Checkpoint.key (J := J))
  events : Table (Event.id (J := J))
  nextEventId : ℕ

variable {J : Type}

namespace Db

def empty : Db J := ⟨.empty, .empty, .empty, 0⟩

def run (db : Db J) (id : RunId) : Option (Row J) := db.runs.get id

def checkpoint (db : Db J) (id : RunId) (i : ℕ) : Option J :=
  (db.checkpoints.get (id, i)).map Checkpoint.value

end Db

/-! ### Guarded updates -/

/-- An `UPDATE workflow_runs`. -/
structure Update (J : Type) where
  guard : Row J → Bool
  set : Row J → Row J
  /-- The index and value inserted into `step_checkpoints` for an updated row. -/
  record : Row J → Option (ℕ × J)
  keep : ∀ r, (set r).id = r.id

namespace Update

/-- The update, on the rows already locked for it. -/
def pinned (u : Update J) (ids : List RunId) : Update J :=
  { u with guard := fun r => r.id ∈ ids }

/-- The checkpoint the update inserts for a row at an index. -/
def recordAt (u : Update J) (r : Row J) (i : ℕ) : Option J :=
  if u.guard r then (u.record r).bind fun c => if c.1 = i then some c.2 else none else none

end Update

/-- The checkpoints an update inserts, read off the rows it selects. -/
def Db.recorded (db : Db J) (u : Update J) : List (Checkpoint J) :=
  (db.runs.rows.filter u.guard).filterMap fun r => (u.record r).map fun c => ⟨r.id, c.1, c.2⟩

/-- Run an update: change the selected rows, insert their checkpoints where none is. -/
def Db.update (db : Db J) (u : Update J) : Db J :=
  { db with
    runs := db.runs.updateWhere u.guard u.set u.keep
    checkpoints := db.checkpoints.insertAll (db.recorded u) }

/-- The identifiers of the rows an update selects. -/
def Db.selected (db : Db J) (u : Update J) : List RunId :=
  (db.runs.rows.filter u.guard).map Row.id

/-- `SELECT id .. WHERE p ORDER BY at, id LIMIT n FOR UPDATE SKIP LOCKED`. -/
def Db.picked (db : Db J) (p : Row J → Bool) (at_ : Row J → Time) (locked : RunId → Bool)
    (limit : ℕ) : List RunId :=
  (((db.runs.rows.filter fun r => p r && !locked r.id).insertionSort fun a b =>
    at_ a < at_ b ∨ (at_ a = at_ b ∧ a.id ≤ b.id)).take limit).map Row.id

/-! ### Claiming -/

/-- Definitions are compared by name and version. -/
instance instLawfulBEqKey : LawfulBEq (String × ℤ) := inferInstance

/-- The workflow predicate of `claimSingle` and `claimMulti`. -/
inductive Selector
  | single (name : String) (version : ℤ)
  | multi (names : List String) (versions : List ℤ)

def Selector.selects : Selector → Row J → Bool
  | .single name version, r => r.workflowName = name && r.workflowVersion = version
  | .multi names versions, r => (r.workflowName, r.workflowVersion) ∈ names.zip versions

structure ClaimQuery where
  queue : String
  limit : ℕ
  leaseMs : ℤ
  sel : Selector

def ClaimQuery.claimable (q : ClaimQuery) (now : Time) (r : Row J) : Bool :=
  r.queue = q.queue && r.state = .ready && r.nextRunAt ≤ now && q.sel.selects r

/-- `claim`: lease the picked rows, each under a token of its own. -/
def claim (ids : List RunId) (gen : RunId → Token) (leaseMs : ℤ) (now clock : Time) :
    Update J where
  guard r := r.id ∈ ids
  set r := { r with
    state := .leased
    leaseToken := some (gen r.id)
    leaseUntil := some (clock + millis leaseMs)
    updatedAt := now }
  record _ := none
  keep _ := rfl

/-- `renewLeases`, for pairs of run and token. -/
def renewLeases (claims : List (RunId × Token)) (leaseMs : ℤ) (now clock : Time) :
    Update J where
  guard r := (r.leaseToken.any fun token => (r.id, token) ∈ claims) && r.state = .leased
    && r.leaseUntil.any (clock < ·)
  set r := { r with leaseUntil := some (clock + millis leaseMs), updatedAt := now }
  record _ := none
  keep _ := rfl

/-! ### Writes under the fence -/

/-- Every write to a claimed run requires its current, unexpired lease. -/
def fence (id : RunId) (token : Token) (clock : Time) (r : Row J) : Bool :=
  r.id = id && r.state = .leased && r.leaseToken = some token && r.leaseUntil.any (clock < ·)

lemma fence_iff {id : RunId} {token : Token} {clock : Time} {r : Row J} :
    fence id token clock r = true ↔ r.id = id ∧ r.state = .leased ∧ r.leaseToken = some token ∧
      ∃ t, r.leaseUntil = some t ∧ clock < t := by
  simp [fence, Option.any_eq_true, and_assoc]

/-- `commitStep`. `existing` is the checkpoint already stored at `index`, which wins; with
`complete` the run also completes. The lock on the run makes the insert or the existing
checkpoint visible, so the `EXISTS` test of `advanced` holds for an owned run. -/
def commitStep (existing : Option J) (id : RunId) (token : Token) (index : ℕ) (value : J)
    (complete : Bool) (now clock : Time) : Update J where
  guard r := fence id token clock r && r.stepIndex ≤ index
  set r := { r with
    stepIndex := index + 1
    lastError := none
    leaseFailures := 0
    updatedAt := now
    state := if complete then .completed else r.state
    outputJson := if complete then some (existing.getD value) else none
    leaseToken := if complete then none else r.leaseToken
    leaseUntil := if complete then none else r.leaseUntil }
  record _ := some (index, value)
  keep _ := rfl

def completeRun (id : RunId) (token : Token) (steps : ℕ) (output : Option J)
    (now clock : Time) : Update J where
  guard := fence id token clock
  set r := { r with
    state := .completed
    stepIndex := steps
    outputJson := output
    leaseToken := none
    leaseUntil := none
    lastError := none
    updatedAt := now }
  record _ := none
  keep _ := rfl

def parkSleep (id : RunId) (token : Token) (next : ℕ) (ms : ℤ) (now clock : Time) :
    Update J where
  guard := fence id token clock
  set r := { r with
    state := .ready
    stepIndex := next
    nextRunAt := now + millis ms
    leaseToken := none
    leaseUntil := none
    lastError := none
    leaseFailures := 0
    updatedAt := now }
  record _ := none
  keep _ := rfl

/-- `parkWait`: the cursor stays on the wait. -/
def parkWait (id : RunId) (token : Token) (index : ℕ) (key : String) (ms : ℤ)
    (now clock : Time) : Update J where
  guard := fence id token clock
  set r := { r with
    state := .waitingEvent
    stepIndex := index
    waitingEventKey := some key
    waitingDeadline := some (now + millis ms)
    leaseToken := none
    leaseUntil := none
    lastError := none
    leaseFailures := 0
    updatedAt := now }
  record _ := none
  keep _ := rfl

def failOrRetry (id : RunId) (token : Token) (attempt : ℕ) (ms : ℤ) (msg : Bytes)
    (now clock : Time) : Update J where
  guard := fence id token clock
  set r := { r with
    state := if attempt ≥ r.maxAttempts then .failed else .ready
    attempt := attempt
    nextRunAt := now + millis ms
    lastError := some msg
    leaseToken := none
    leaseUntil := none
    updatedAt := now }
  record _ := none
  keep _ := rfl

/-- A write that carries a claim token, with its parameters. -/
inductive Write (J : Type)
  | commitStep (index : ℕ) (value : J) (complete : Bool)
  | completeRun (steps : ℕ) (output : Option J)
  | parkSleep (next : ℕ) (ms : ℤ)
  | parkWait (index : ℕ) (key : String) (ms : ℤ)
  | failOrRetry (attempt : ℕ) (ms : ℤ) (msg : Bytes)
  deriving DecidableEq

namespace Write

def update (w : Write J) (existing : ℕ → Option J) (id : RunId) (token : Token)
    (now clock : Time) : Update J :=
  match w with
  | .commitStep index value complete =>
    DurablePg.commitStep (existing index) id token index value complete now clock
  | .completeRun steps output => DurablePg.completeRun id token steps output now clock
  | .parkSleep next ms => DurablePg.parkSleep id token next ms now clock
  | .parkWait index key ms => DurablePg.parkWait id token index key ms now clock
  | .failOrRetry attempt ms msg => DurablePg.failOrRetry id token attempt ms msg now clock

lemma fence_of_guard {w : Write J} {existing : ℕ → Option J} {id : RunId} {token : Token}
    {now clock : Time} {r : Row J} (h : (w.update existing id token now clock).guard r = true) :
    fence id token clock r = true := by
  cases w with
  | commitStep index value complete => exact (Bool.and_eq_true_iff.mp h).1
  | completeRun | parkSleep | parkWait | failOrRetry => exact h

/-- The write gives up the claim that issues it. -/
def ends : Write J → Bool
  | .commitStep _ _ complete => complete
  | _ => true

end Write

/-! ### Events and waits -/

/-- `woken` and `recorded` of `emitEvent`. -/
def wake [Jsonb J] (key : String) (payload : J) (now : Time) : Update J where
  guard r := r.state = .waitingEvent && r.waitingEventKey = some key
    && r.waitingDeadline.any (now < ·)
  set r := { r with
    state := .ready
    nextRunAt := now
    waitingEventKey := none
    waitingDeadline := none
    lastError := none
    updatedAt := now }
  record r := some (r.stepIndex, received payload)
  keep _ := rfl

/-- `latestEvent`. -/
def Db.latestEvent (db : Db J) (key : String) (now : Time) : Option J :=
  (((db.events.rows.filter fun e => e.eventKey = key && now < e.expiresAt).insertionSort
    fun a b => b.createdAt < a.createdAt ∨ (a.createdAt = b.createdAt ∧ b.id ≤ a.id)).head?).map
    Event.payload

/-- `promoteTimedOut`, on the picked rows. -/
def promoteTimedOut [Jsonb J] (ids : List RunId) (now : Time) : Update J where
  guard r := r.id ∈ ids
  set r := { r with
    state := .ready
    nextRunAt := now
    waitingEventKey := none
    waitingDeadline := none
    updatedAt := now }
  record r := some (r.stepIndex, timedOut)
  keep _ := rfl

def timedOutWait (now : Time) (r : Row J) : Bool :=
  r.state = .waitingEvent && r.waitingDeadline.any (· ≤ now)

/-- `pruneEvents`. -/
def Db.pruneEvents (db : Db J) (now : Time) (limit : ℕ) : Db J :=
  let ids := (((db.events.rows.filter fun e => e.expiresAt ≤ now).insertionSort
    fun a b => a.expiresAt ≤ b.expiresAt).take limit).map Event.id
  { db with events := db.events.deleteWhere fun e => e.id ∈ ids }

/-! ### Recovery and cancellation -/

def expiredLease (now : Time) (r : Row J) : Bool :=
  r.state = .leased && r.leaseUntil.any (· < now)

/-- `recoverLeases`, on the picked rows. -/
def recoverLeases (ids : List RunId) (now clock : Time) : Update J where
  guard r := r.id ∈ ids
  set r := { r with
    state := if r.leaseFailures + 1 ≥ r.maxAttempts then .failed else .ready
    leaseFailures := r.leaseFailures + 1
    nextRunAt := clock + millis (min 60000 (250 * 2 ^ min r.leaseFailures 8 : ℕ))
    leaseToken := none
    leaseUntil := none
    lastError := some (utf8 "lease expired")
    updatedAt := now }
  record _ := none
  keep _ := rfl

def cancelRun (id : RunId) (now : Time) : Update J where
  guard r := r.id = id && (r.state = .ready || r.state = .leased || r.state = .waitingEvent)
  set r := { r with
    state := .cancelled
    leaseToken := none
    leaseUntil := none
    waitingEventKey := none
    waitingDeadline := none
    updatedAt := now }
  record _ := none
  keep _ := rfl

def maintenanceBatch : ℕ := 1024
def pruneBatch : ℕ := 2048

/-! ### Enqueueing -/

/-- The parameters of `insertRun`. -/
structure NewRun (J : Type) where
  id : RunId
  workflowName : String
  workflowVersion : ℤ
  queue : String
  maxAttempts : ℤ
  scheduledAt : Option Time
  input : J
  dedupKey : Option String

/-- The value fits an `INTEGER` column. -/
def isInt4 (n : ℤ) : Bool := -2147483648 ≤ n && n ≤ 2147483647

namespace NewRun

/-- The row the statement inserts. -/
def row (n : NewRun J) (now : Time) : Row J where
  id := n.id
  workflowName := n.workflowName
  workflowVersion := n.workflowVersion
  queue := n.queue
  state := .ready
  stepIndex := 0
  attempt := 0
  maxAttempts := n.maxAttempts.toNat
  leaseFailures := 0
  nextRunAt := n.scheduledAt.getD now
  leaseToken := none
  leaseUntil := none
  waitingEventKey := none
  waitingDeadline := none
  inputJson := n.input
  outputJson := none
  dedupKey := n.dedupKey
  lastError := none
  updatedAt := now

/-- The parameters fit their types and pass the `CHECK` constraints. -/
def storable (n : NewRun J) : Bool :=
  isInt4 n.workflowVersion && isInt4 n.maxAttempts && 0 < n.workflowVersion && 0 < n.maxAttempts

/-- The row holds the deduplication key: the conflict of the upsert. -/
def conflicts (n : NewRun J) (r : Row J) : Bool :=
  n.dedupKey.isSome && r.workflowName = n.workflowName && r.dedupKey = n.dedupKey

/-- `DO UPDATE SET updated_at = now()`. -/
def touch (n : NewRun J) (now : Time) : Update J where
  guard := n.conflicts
  set r := { r with updatedAt := now }
  record _ := none
  keep _ := rfl

end NewRun

/-! ### What a lookup sees after an update -/

section LatestEvent

/-- The order in which `latestEvent` sorts. -/
def Event.NotBefore (a b : Event J) : Prop :=
  b.createdAt < a.createdAt ∨ (a.createdAt = b.createdAt ∧ b.id ≤ a.id)

instance : DecidableRel (Event.NotBefore (J := J)) := fun a b =>
  inferInstanceAs
    (Decidable (b.createdAt < a.createdAt ∨ (a.createdAt = b.createdAt ∧ b.id ≤ a.id)))

instance : Std.Total (Event.NotBefore (J := J)) := ⟨fun a b => by unfold Event.NotBefore; grind⟩

instance : IsTrans (Event J) Event.NotBefore := ⟨fun a b c => by unfold Event.NotBefore; grind⟩

end LatestEvent

namespace Db

lemma run_update (db : Db J) (u : Update J) (id : RunId) :
    (db.update u).run id = (db.run id).map fun r => if u.guard r then u.set r else r :=
  db.runs.get_updateWhere u.guard u.set u.keep id

lemma run_id {db : Db J} {id : RunId} {r : Row J} (h : db.run id = some r) : r.id = id :=
  Table.get_key h

lemma run_of_mem {db : Db J} {r : Row J} (h : r ∈ db.runs.rows) : db.run r.id = some r :=
  Table.get_of_mem h

lemma mem_of_run {db : Db J} {id : RunId} {r : Row J} (h : db.run id = some r) :
    r ∈ db.runs.rows :=
  (Table.get_eq_some_iff.mp h).1

lemma mem_selected {db : Db J} {u : Update J} {id : RunId} :
    id ∈ db.selected u ↔ ∃ r, db.run id = some r ∧ u.guard r = true := by
  unfold selected
  rw [List.mem_map]
  constructor
  · rintro ⟨r, hr, rfl⟩
    exact ⟨r, run_of_mem (List.mem_filter.mp hr).1, (List.mem_filter.mp hr).2⟩
  · rintro ⟨r, hr, hg⟩
    exact ⟨r, List.mem_filter.mpr ⟨mem_of_run hr, hg⟩, run_id hr⟩

lemma mem_picked {db : Db J} {p : Row J → Bool} {at_ : Row J → Time} {locked : RunId → Bool}
    {limit : ℕ} {id : RunId} (h : id ∈ db.picked p at_ locked limit) :
    ∃ r, db.run id = some r ∧ p r = true ∧ locked id = false := by
  obtain ⟨r, hr, rfl⟩ := List.mem_map.mp h
  have hr := (List.mem_insertionSort _).mp (List.mem_of_mem_take hr)
  obtain ⟨hr, hp⟩ := List.mem_filter.mp hr
  simp only [Bool.and_eq_true, Bool.not_eq_true'] at hp
  exact ⟨r, run_of_mem hr, hp.1, hp.2⟩

/-- `latestEvent` returns the payload of an unexpired event on the key, the last of them by the
time of its transaction and then by identifier. -/
lemma latestEvent_some {db : Db J} {key : String} {now : Time} {payload : J}
    (h : db.latestEvent key now = some payload) :
    ∃ e ∈ db.events.rows, e.eventKey = key ∧ now < e.expiresAt ∧ e.payload = payload ∧
      ∀ e' ∈ db.events.rows, e'.eventKey = key → now < e'.expiresAt →
        e'.createdAt < e.createdAt ∨ (e'.createdAt = e.createdAt ∧ e'.id ≤ e.id) := by
  obtain ⟨e, he, rfl⟩ := Option.map_eq_some_iff.mp h
  have hmem := (List.mem_insertionSort _).mp (List.mem_of_head? he)
  obtain ⟨hmem, hp⟩ := List.mem_filter.mp hmem
  simp only [Bool.and_eq_true, decide_eq_true_eq] at hp
  refine ⟨e, hmem, hp.1, hp.2, rfl, fun e' he' hkey hexp => ?_⟩
  have hmem' : e' ∈ db.events.rows.filter fun e => e.eventKey = key && now < e.expiresAt :=
    List.mem_filter.mpr ⟨he', by simp [hkey, hexp]⟩
  have hsorted := List.pairwise_insertionSort Event.NotBefore
    (db.events.rows.filter fun e => e.eventKey = key && now < e.expiresAt)
  obtain ⟨tail, htail⟩ := List.head?_eq_some_iff.mp he
  rw [show List.insertionSort Event.NotBefore _ = e :: tail from htail] at hsorted
  rcases List.mem_cons.mp (htail ▸ (List.mem_insertionSort Event.NotBefore).mpr hmem')
    with rfl | hin
  · exact Or.inr ⟨rfl, le_rfl⟩
  · exact ((List.pairwise_cons.mp hsorted).1 e' hin).imp_right fun hle => ⟨hle.1.symm, hle.2⟩

lemma latestEvent_none {db : Db J} {key : String} {now : Time}
    (h : db.latestEvent key now = none) {e : Event J} (he : e ∈ db.events.rows)
    (hk : e.eventKey = key) : e.expiresAt ≤ now := by
  have hnil := List.head?_eq_none_iff.mp (Option.map_eq_none_iff.mp h)
  by_contra hlt
  have hmem : e ∈ db.events.rows.filter fun e => e.eventKey = key && now < e.expiresAt :=
    List.mem_filter.mpr ⟨he, by simp [hk, not_le.mp hlt]⟩
  have := (List.mem_insertionSort (fun a b : Event J => b.createdAt < a.createdAt ∨
    (a.createdAt = b.createdAt ∧ b.id ≤ a.id))).mpr hmem
  rw [hnil] at this; cases this

lemma mem_recorded {db : Db J} {u : Update J} {id : RunId} {i : ℕ} {v : J} :
    ⟨id, i, v⟩ ∈ db.recorded u ↔ ∃ r, db.run id = some r ∧ u.recordAt r i = some v := by
  unfold recorded Update.recordAt
  simp only [List.mem_filterMap, List.mem_filter, Option.map_eq_some_iff, Checkpoint.mk.injEq]
  constructor
  · rintro ⟨r, ⟨hr, hg⟩, ⟨j, w⟩, hrec, rfl, rfl, rfl⟩
    exact ⟨r, run_of_mem hr, by simp [hg, hrec]⟩
  · rintro ⟨r, hr, hrec⟩
    split at hrec
    · rename_i hg
      obtain ⟨⟨j, w⟩, hjw, hrec⟩ := Option.bind_eq_some_iff.mp hrec
      simp only [Option.ite_none_right_eq_some, Option.some.injEq] at hrec
      obtain ⟨rfl, rfl⟩ := hrec
      exact ⟨r, ⟨mem_of_run hr, hg⟩, _, hjw, run_id hr, rfl, rfl⟩
    · cases hrec

lemma checkpoint_update (db : Db J) (u : Update J) (id : RunId) (i : ℕ) :
    (db.update u).checkpoint id i =
      (db.checkpoint id i).or ((db.run id).bind fun r => u.recordAt r i) := by
  have hfind : ∀ c, (db.recorded u).find? (fun c => c.key = (id, i)) = some c →
      ∃ r, db.run id = some r ∧ u.recordAt r i = some c.value := by
    rintro ⟨id', i', v⟩ hc
    obtain ⟨rfl, rfl⟩ : id' = id ∧ i' = i := by
      simpa [Checkpoint.key] using List.find?_some hc
    exact mem_recorded.mp (List.mem_of_find?_eq_some hc)
  have hrecorded : ((db.recorded u).find? (fun c => c.key = (id, i))).map Checkpoint.value =
      (db.run id).bind fun r => u.recordAt r i := by
    rcases hc : (db.recorded u).find? (fun c => c.key = (id, i)) with _ | c
    · -- nothing inserted at this key
      rcases hb : (db.run id).bind fun r => u.recordAt r i with _ | v
      · rw [hc]; rfl
      · have hmem := mem_recorded.mpr (Option.bind_eq_some_iff.mp hb)
        have := List.find?_eq_none.mp hc _ hmem
        simp [Checkpoint.key] at this
    · obtain ⟨r, hr, hv⟩ := hfind c hc
      rw [hc, hr]; exact hv.symm
  unfold checkpoint
  rw [← hrecorded, ← Option.map_or]
  exact congrArg _ (Table.get_insertAll _ _ _)

end Db

end DurablePg

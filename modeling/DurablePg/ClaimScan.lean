import DurablePg.Drive
import DurablePg.Inversion

/-!
The claim statement, split as the server runs it at `READ COMMITTED`.

The snapshot and `now()` are fixed when the statement starts. Later it visits the rows the
snapshot selects, one after the other: a row that another transaction has locked is passed
over, any other is locked in its latest version, and the `WHERE` clause is evaluated again
on that version. What is returned of the row comes from the latest version, but the subquery
on `step_checkpoints` still reads the snapshot. The statement ends by leasing the rows it has
locked, or fails and leaves them as they are.

Between the snapshot and the lock the run can be claimed, driven and made ready again. Then
the recheck of `next_run_at` is all that keeps the old snapshot from being used.
-/

namespace DurablePg

open DurablePg.Lib

variable {J : Type}

/-! ### The statement in steps -/

/-- A claim statement in progress. -/
structure Scan (J : Type) where
  id : ℕ
  query : ClaimQuery
  now : Time
  snapshot : Db J
  /-- The rows still to visit. -/
  rest : List RunId
  /-- How many of them `LIMIT` still lets it lock. -/
  left : ℕ

/-- A row lock taken by a claim statement, and the token its lease will carry. -/
structure RowLock where
  run : RunId
  scan : ℕ
  token : Token

/-- A row that a claim statement returned, and the checkpoints committed at that moment. -/
structure Returned (J : Type) where
  run : ClaimedRun
  committed : ℕ → Option J

/-- The server, and the claim statements in progress. -/
structure Claims (J : Type) where
  srv : Server J
  scans : Table (Scan.id (J := J))
  locks : Table RowLock.run
  returned : List (Returned J)

inductive ClaimAct (J : Type)
  /-- A statement of another kind, or a step of an event transaction. -/
  | server (a : Act J)
  | start (id : ℕ) (q : ClaimQuery)
  | visit (id : ℕ) (token : Token)
  | finish (id : ℕ)
  | fail (id : ℕ)

namespace Claims

def init (clock : Time) : Claims J := ⟨.init clock, .empty, .empty, []⟩

def locked (c : Claims J) (run : RunId) : Bool := c.srv.locked run || (c.locks.get run).isSome

/-- The statement would change a row that a claim has locked. -/
def waits (c : Claims J) : Act J → Bool
  | .cancelRun run _ => (c.locks.get run).isSome
  | .insertRun n _ => c.srv.db.runs.rows.any fun r => n.conflicts r && (c.locks.get r.id).isSome
  -- claims are made in steps here
  | .claim .. => true
  | _ => false

/-- The rows to visit when so many of them may be locked. -/
def pending (rest : List RunId) (left : ℕ) : List RunId := if left = 0 then [] else rest

def start (c : Claims J) (id : ℕ) (q : ClaimQuery) : Claims J :=
  let now := c.srv.clock
  let rows := c.srv.db.picked (q.claimable now) Row.nextRunAt (fun _ => false)
    c.srv.db.runs.rows.length
  { c with scans := c.scans.insert ⟨id, q, now, c.srv.db, pending rows q.limit, q.limit⟩ }

def advance (c : Claims J) (id : ℕ) (rest : List RunId) (left : ℕ) : Claims J :=
  { c with
    scans := c.scans.updateWhere (fun scan => scan.id = id)
      (fun scan => { scan with rest := pending rest left, left := left }) (fun _ => rfl) }

def visit (c : Claims J) (id : ℕ) (token : Token) : Option (Claims J) := do
  let scan ← c.scans.get id
  match scan.rest with
  | [] => none
  | run :: rest =>
    let r ← c.srv.db.run run
    if c.locked run || !scan.query.claimable scan.now r then some (c.advance id rest scan.left)
    else some { c.advance id rest (scan.left - 1) with
      locks := c.locks.insert ⟨run, id, token⟩ }

/-- The statement has failed or ended: its row locks are released. -/
def close (c : Claims J) (id : ℕ) : Claims J :=
  { c with
    scans := c.scans.deleteWhere fun scan => scan.id = id
    locks := c.locks.deleteWhere fun lock => lock.scan = id }

/-- The runs that a statement has locked. -/
def taken (c : Claims J) (id : ℕ) : List RunId :=
  (c.locks.rows.filter fun lock => lock.scan = id).map RowLock.run

/-- The token of a locked run. -/
def token (c : Claims J) (run : RunId) : Token := ((c.locks.get run).map RowLock.token).getD ""

variable [Jsonb J]

def finish (c : Claims J) (id : ℕ) : Option (Claims J) := do
  let scan ← c.scans.get id
  let u := claim (c.taken id) c.token scan.query.leaseMs scan.now c.srv.clock
  match scan.rest with
  | _ :: _ => none
  | [] => some { c.close id with
      srv := c.srv.exec u fun r => .claimed (c.token r.id) scan.query.leaseMs scan.now c.srv.clock
      returned := c.returned ++ (c.srv.db.runs.rows.filter u.guard).map fun r =>
        ⟨r.claimedRun (c.token r.id) (scan.snapshot.checkpoint r.id), c.srv.db.checkpoint r.id⟩ }

def step (c : Claims J) : ClaimAct J → Option (Claims J)
  | .server a => if c.waits a then none else (c.srv.step a).map fun s => { c with srv := s }
  | .start id q => if (c.scans.get id).isSome then none else some (c.start id q)
  | .visit id token => c.visit id token
  | .finish id => c.finish id
  | .fail id => if (c.scans.get id).isSome then some (c.close id) else none

end Claims

/-! ### Runs that become ready again -/

/-- When a write schedules the run it returns to `ready`. -/
def Write.due (now : Time) : Write J → Option Time
  | .parkSleep _ ms | .failOrRetry _ ms _ => some (now + millis ms)
  | _ => none

/-- When a transaction schedules a run it returns to `ready` as it commits. -/
def Tx.due (tx : Tx J) (run : RunId) : Option Time :=
  match tx.phase, tx.job with
  | .emitted _ woken, _ => if run ∈ woken then some tx.start else none
  | .wrote w _, .wait _ run' _ _ _ => if run' = run then w.due tx.start else none
  | _, _ => none

lemma View.Moves.of_ready [Jsonb J] {v v' : View J} {ch : Change J} (h : v.Moves ch v') {r : Row J}
    (hr : v.row = some r) (hs : r.state = .ready) :
    (∃ now, ch = .touched now) ∨ (∃ token ms now clock, ch = .claimed token ms now clock) ∨
      ∃ now, ch = .cancelled now := by
  have hfound := h.found hr
  rw [hs] at hfound
  cases ch with
  | touched now => exact Or.inl ⟨now, rfl⟩
  | claimed token ms now clock => exact Or.inr (Or.inl ⟨token, ms, now, clock, rfl⟩)
  | cancelled now => exact Or.inr (Or.inr ⟨now, rfl⟩)
  | _ => cases hfound

namespace Server

/-- The `next_run_at` with which an action returns a run to `ready`. Lease recovery is left
out: it schedules the run later than the present. -/
def due (s : Server J) (run : RunId) : Act J → Option Time
  | .write run' token w now => if run' = run && s.owns run token w now then w.due now else none
  | .promoteTimedOut now =>
    if run ∈ s.db.picked (timedOutWait now) (fun r => r.waitingDeadline.getD 0) s.locked
      maintenanceBatch then some now else none
  | .commit id => (s.txs.get id).bind fun tx => tx.due run
  | _ => none

variable [Jsonb J] {s s' : Server J} {a : Act J} {run : RunId} {r : Row J}

omit [Jsonb J] in
lemma wrote_ready {token : Token} {w : Write J} {cps : ℕ → Option J} {id : RunId}
    {now clock : Time} (h : ((w.update cps id token now clock).set r).state = .ready)
    (hr : r.state = .leased) :
    w.due now = some ((w.update cps id token now clock).set r).nextRunAt := by
  cases w with
  | commitStep index value complete => cases complete <;> simp [Write.update, commitStep, hr] at h
  | completeRun => cases h
  | parkWait => cases h
  | parkSleep | failOrRetry => rfl

lemma promoted {now : Time} (h : s.step (.promoteTimedOut now) = some s')
    (hrun : run ∉ s.db.picked (timedOutWait now) (fun r => r.waitingDeadline.getD 0) s.locked
      maintenanceBatch) : s'.view run = s.view run := by
  cases does h with
  | promote hnow hids =>
    refine exec_view_of_not fun r hr => ?_
    subst hids
    simpa [promoteTimedOut, Db.run_id hr] using hrun

/-- A run that is ready after a step was ready before, with the same checkpoints and due at
the same time, or is now due when the action says or later than the present. -/
lemma step_ready (hs : s.TxInv) (h : s.step a = some s') (hr : s.db.run run = some r) :
    ∃ r', s'.db.run run = some r' ∧ (r'.state = .ready →
      (r.state = .ready ∧ r'.nextRunAt = r.nextRunAt ∧
        s'.db.checkpoint run = s.db.checkpoint run) ∨
      s.due run a = some r'.nextRunAt ∨ s.clock < r'.nextRunAt) := by
  obtain ⟨o, ⟨-, hm⟩, hmakes⟩ := step_moved hs h run
  rcases o with _ | ch
  · have hrow : s'.db.run run = some r := (congrArg View.row hm).trans hr
    exact ⟨r, hrow, fun hready => Or.inl ⟨hready, rfl, congrArg View.cps hm⟩⟩
  have hmk := hmakes ch rfl
  obtain ⟨r', hr'⟩ := hm.row_some
  refine ⟨r', hr', fun hready => ?_⟩
  generalize hv : s'.view run = v' at hm hr'
  cases hm with
  | inserted n now hrow => exact absurd (hr.symm.trans hrow) (by simp)
  | updated _ r₀ u hrow hu hg =>
    cases hr.symm.trans hrow
    cases hr'
    have hid : r.id = run := Db.run_id hr
    have hfound := Change.finds_of_guard hu hg
    cases hmk with
    | inserted => cases hu
    | touched =>
      cases hu
      refine Or.inl ⟨hready, rfl, (congrArg View.cps hv).trans ?_⟩
      funext i; simp [Update.recordAt, view]
    | claimed => cases hu; cases hready
    | renewed =>
      cases hu
      exact absurd ((of_decide_eq_true hfound).symm.trans hready) (by simp)
    | wrote _ token w now =>
      cases hu
      have hl : r.state = .leased := of_decide_eq_true hfound
      have howns : s.owns run token w now = true := by
        rw [hid] at hg
        rw [owns, hr]; exact hg
      refine Or.inr (Or.inl ?_)
      simp only [due, howns, Bool.and_true, decide_true, if_true]
      exact wrote_ready hready hl
    | recovered =>
      cases hu
      refine Or.inr (Or.inr ?_)
      have hpos : 0 < min (60000 : ℤ) (250 * 2 ^ min r.leaseFailures 8 : ℕ) :=
        lt_min (by norm_num) (by positivity)
      exact lt_add_of_pos_right _ (mul_pos hpos (by norm_num))
    | timedOut now =>
      cases hu
      refine Or.inr (Or.inl ?_)
      by_cases hp : run ∈ s.db.picked (timedOutWait now)
          (fun r => r.waitingDeadline.getD 0) s.locked maintenanceBatch
      · exact if_pos hp
      · have hrow := Option.some.inj ((congrArg View.row (hv.symm.trans (promoted h hp))).trans hr)
        have hw : r.state = .waitingEvent := of_decide_eq_true hfound
        rw [hrow, hw] at hready; cases hready
    | cancelled => cases hu; cases hready
    | delivered tx n payload e woken _ htx hjob hphase hrun =>
      cases hu
      refine Or.inr (Or.inl ?_)
      simp only [due, htx, Option.bind_some, Tx.due, hphase, if_pos hrun]
      rfl
    | waited tx token _ index timeoutMs complete w clock htx hjob hphase =>
      cases hu
      have hl : r.state = .leased := of_decide_eq_true hfound
      refine Or.inr (Or.inl ?_)
      simp only [due, htx, Option.bind_some, Tx.due, hphase, hjob, if_true]
      exact wrote_ready hready hl

lemma step_ready_unchanged (hs : s.TxInv) (h : s.step a = some s') (hr : s.db.run run = some r)
    (hready : r.state = .ready) (hclaim : ∀ q gen now, a ≠ .claim q gen now)
    (hcancel : ∀ now, a ≠ .cancelRun run now)
    (hinsert : ∀ n now, a = .insertRun n now → n.conflicts r = false) :
    s'.view run = s.view run := by
  obtain ⟨o, ⟨-, hm⟩, hmakes⟩ := step_moved hs h run
  rcases o with _ | ch
  · exact hm
  have hmk := hmakes ch rfl
  rcases hm.of_ready hr hready with ⟨now, rfl⟩ | ⟨token, ms, now, clock, rfl⟩ | ⟨now, rfl⟩
  · cases hmk with
    | touched n now =>
      cases does h with
      | touch =>
        refine exec_view_of_not fun r' hr' => ?_
        cases hr.symm.trans hr'
        exact hinsert n now rfl
      | insert hnow hstore hnew hnone =>
        unfold view
        congr 1
        rw [Db.run, Table.get_insert, show s.db.runs.get run = some r from hr]
        exact hr.symm
  · cases hmk; exact absurd rfl (hclaim _ _ _)
  · cases hmk; exact absurd rfl (hcancel _)

/-- A ready run is not locked: event transactions write leased and waiting runs. -/
lemma TxInv.not_locked (hs : s.TxInv) (hr : s.db.run run = some r) (hready : r.state = .ready) :
    s.locked run = false := by
  by_contra hl
  obtain ⟨tx, htx, hholds⟩ := locked_iff.mp (by simpa using hl)
  have hok := hs.ready tx htx
  obtain ⟨job, key, start, phase⟩ := tx
  cases phase <;> cases job <;>
    simp only [Tx.holdsRun, Tx.Ready, decide_eq_true_eq, Bool.false_eq_true] at hholds hok
  · -- an emitted event wakes waiting runs
    obtain ⟨r', hr', hg⟩ := hok.2.2 run hholds
    cases hr.symm.trans hr'
    simp [wake, hready] at hg
  · -- a registration writes a leased run
    subst hholds
    obtain ⟨r', hr', hg⟩ := hok
    cases hr.symm.trans hr'
    have := (fence_iff.mp (Write.fence_of_guard hg)).2.1
    rw [hready] at this; cases this

end Server

/-! ### Snapshots stay good -/

variable [Jsonb J]

/-- If the run is ready and due, the snapshot has the checkpoints it has now. -/
def Scan.Fresh (scan : Scan J) (s : Server J) (run : RunId) : Prop :=
  ∃ r, s.db.run run = some r ∧ (r.state = .ready → r.nextRunAt ≤ scan.now →
    s.db.checkpoint run = scan.snapshot.checkpoint run)

/-- The run is ready, and the snapshot has the checkpoints it has now. -/
def Scan.Holds (scan : Scan J) (s : Server J) (run : RunId) : Prop :=
  ∃ r, s.db.run run = some r ∧ r.state = .ready ∧
    s.db.checkpoint run = scan.snapshot.checkpoint run

/-- Every committed checkpoint is among those returned. -/
def Returned.Complete (ret : Returned J) : Prop :=
  ∀ i x, ret.committed i = some x → ret.run.checkpoints i = some (text x)

namespace Claims

omit [Jsonb J] in
/-- No run that a claim statement has still to visit is made ready and due at or before the
statement's `now()`. -/
def later (c : Claims J) : ClaimAct J → Bool
  | .server a => c.scans.rows.all fun scan => scan.rest.all fun run =>
      (c.srv.due run a).all fun t => scan.now < t
  | _ => true

structure Inv (c : Claims J) : Prop where
  tx : c.srv.TxInv
  now : ∀ scan ∈ c.scans.rows, scan.now ≤ c.srv.clock
  fresh : ∀ scan ∈ c.scans.rows, ∀ run ∈ scan.rest, scan.Fresh c.srv run
  holds : ∀ lock ∈ c.locks.rows, ∃ scan ∈ c.scans.rows, scan.id = lock.scan ∧
    scan.Holds c.srv lock.run
  returned : ∀ ret ∈ c.returned, ret.Complete

namespace Inv

variable {c c' : Claims J} {id : ℕ}

lemma init (clock : Time) : (Claims.init clock : Claims J).Inv where
  tx := (Server.inv_init clock).tx
  now _ h := by cases h
  fresh _ h := by cases h
  holds _ h := by cases h
  returned _ h := by cases h

lemma server (hc : c.Inv) {a : Act J} (hlater : c.later (.server a) = true)
    (h : c.step (.server a) = some c') : c'.Inv := by
  simp only [step] at h
  split at h
  · cases h
  rename_i hwaits
  obtain ⟨s, hs, rfl⟩ := Option.map_eq_some_iff.mp h
  refine ⟨hc.tx.step hs, fun scan hscan => (hc.now scan hscan).trans (Server.clock_le hs),
    fun scan hscan run hrun => ?_, fun lock hlock => ?_, hc.returned⟩
  · -- a run made ready is not yet due for the scan
    obtain ⟨r, hr, hcps⟩ := hc.fresh scan hscan run hrun
    obtain ⟨r', hr', hready⟩ := Server.step_ready hc.tx hs hr
    refine ⟨r', hr', fun hstate hdue => ?_⟩
    rcases hready hstate with ⟨hstate, hnext, hcp⟩ | hdue' | hclock
    · exact hcp.trans (hcps hstate (hnext ▸ hdue))
    · have := List.all_eq_true.mp (List.all_eq_true.mp hlater scan hscan) run hrun
      rw [hdue', Option.all_some, decide_eq_true_eq] at this
      exact absurd hdue (not_le.mpr this)
    · exact absurd (hdue.trans (hc.now scan hscan)) (not_le.mpr hclock)
  · -- a locked run stays as it is
    obtain ⟨scan, hscan, hid, r, hr, hstate, hcps⟩ := hc.holds lock hlock
    have hlocked : (c.locks.get lock.run).isSome := by rw [Table.get_of_mem hlock]; rfl
    have hview : s.view lock.run = c.srv.view lock.run := by
      refine Server.step_ready_unchanged hc.tx hs hr hstate ?_ ?_ ?_
      · rintro q gen now rfl; exact hwaits rfl
      · rintro now rfl; exact hwaits hlocked
      · rintro n now rfl
        by_contra hconf
        refine hwaits (List.any_eq_true.mpr ⟨r, Db.mem_of_run hr, ?_⟩)
        rw [Db.run_id hr, hlocked]
        simpa using hconf
    exact ⟨scan, hscan, hid, r, (congrArg View.row hview).trans hr, hstate,
      (congrArg View.cps hview).trans hcps⟩

omit [Jsonb J] in
lemma mem_pending {rest : List RunId} {left : ℕ} {run : RunId} (h : run ∈ pending rest left) :
    run ∈ rest := by
  unfold pending at h
  split at h
  · cases h
  · exact h

lemma start (hc : c.Inv) (id : ℕ) (q : ClaimQuery) : (c.start id q).Inv := by
  refine ⟨hc.tx, fun scan hscan => ?_, fun scan hscan run hrun => ?_, fun lock hlock => ?_,
    hc.returned⟩
  · rcases Table.mem_insert hscan with hscan | rfl
    · exact hc.now scan hscan
    · exact le_rfl
  · rcases Table.mem_insert hscan with hscan | rfl
    · exact hc.fresh scan hscan run hrun
    · -- the snapshot has just been taken
      obtain ⟨r, hr, -⟩ := Db.mem_picked (mem_pending hrun)
      exact ⟨r, hr, fun _ _ => rfl⟩
  · obtain ⟨scan, hscan, hholds⟩ := hc.holds lock hlock
    exact ⟨scan, Table.mem_insert_of_mem _ hscan, hholds⟩

lemma advance (hc : c.Inv) {scan : Scan J} (hscan : c.scans.get id = some scan) {rest : List RunId}
    (hrest : ∀ run ∈ rest, run ∈ scan.rest) (left : ℕ) : (c.advance id rest left).Inv := by
  have hmem : ∀ sc ∈ (c.advance id rest left).scans.rows, ∃ sc₀ ∈ c.scans.rows,
      sc.id = sc₀.id ∧ sc.now = sc₀.now ∧ sc.snapshot = sc₀.snapshot ∧
      ∀ run ∈ sc.rest, run ∈ sc₀.rest := by
    intro sc hsc
    obtain ⟨sc₀, hsc₀, rfl⟩ := List.mem_map.mp hsc
    refine ⟨sc₀, hsc₀, ?_⟩
    split
    · rename_i hid
      have heq : sc₀ = scan := Option.some.inj
        ((Table.get_of_mem hsc₀).symm.trans (by rw [of_decide_eq_true hid]; exact hscan))
      refine ⟨rfl, rfl, rfl, fun run hrun => ?_⟩
      rw [heq]; exact hrest run (mem_pending hrun)
    · exact ⟨rfl, rfl, rfl, fun _ h => h⟩
  refine ⟨hc.tx, fun sc hsc => ?_, fun sc hsc run hrun => ?_, fun lock hlock => ?_, hc.returned⟩
  · obtain ⟨sc₀, hsc₀, -, hnow, -⟩ := hmem sc hsc
    rw [hnow]; exact hc.now sc₀ hsc₀
  · obtain ⟨sc₀, hsc₀, -, hnow, hsnap, hsub⟩ := hmem sc hsc
    obtain ⟨r, hr, hcps⟩ := hc.fresh sc₀ hsc₀ run (hsub run hrun)
    exact ⟨r, hr, by rw [hnow, hsnap]; exact hcps⟩
  · obtain ⟨sc, hsc, hlid, hholds⟩ := hc.holds lock hlock
    refine ⟨_, List.mem_map.mpr ⟨sc, hsc, rfl⟩, ?_, ?_⟩
    · split <;> exact hlid
    · split <;> exact hholds

lemma visit (hc : c.Inv) {token : Token} (h : c.visit id token = some c') : c'.Inv := by
  obtain ⟨scan, hscan, h⟩ := Option.bind_eq_some_iff.mp h
  split at h
  · cases h
  rename_i run rest hrest
  obtain ⟨r, hr, h⟩ := Option.bind_eq_some_iff.mp h
  have hsub : ∀ run' ∈ rest, run' ∈ scan.rest := fun run' h' => by rw [hrest]; exact .tail _ h'
  have hmem := (Table.get_eq_some_iff.mp hscan).1
  split at h
  · cases h; exact hc.advance hscan hsub _
  · rename_i hpass
    cases h
    simp only [Bool.or_eq_true, Bool.not_eq_true', not_or, Bool.not_eq_false] at hpass
    have hadv := hc.advance hscan hsub (scan.left - 1)
    refine ⟨hadv.tx, hadv.now, hadv.fresh, fun lock hlock => ?_, hadv.returned⟩
    rcases Table.mem_insert hlock with hlock | rfl
    · exact hadv.holds lock hlock
    · -- the new lock: the recheck has found the run ready and due
      obtain ⟨r', hr', hcps⟩ := hc.fresh scan hmem run (by rw [hrest]; exact .head _)
      cases hr.symm.trans hr'
      have hq := hpass.2
      simp only [ClaimQuery.claimable, Bool.and_eq_true, decide_eq_true_eq] at hq
      refine ⟨_, List.mem_map.mpr ⟨scan, hmem, rfl⟩, ?_, ?_⟩
      · split <;> exact (Table.get_eq_some_iff.mp hscan).2
      · have hholds : scan.Holds c.srv run := ⟨r, hr, hq.1.1.2, hcps hq.1.1.2 hq.1.2⟩
        split <;> exact hholds

lemma of_taken (hc : c.Inv) {scan : Scan J} (hscan : c.scans.get id = some scan) {run : RunId}
    (h : run ∈ c.taken id) : scan.Holds c.srv run ∧ ∃ lock ∈ c.locks.rows, lock.run = run ∧
      lock.scan = id := by
  obtain ⟨lock, hlock, rfl⟩ := List.mem_map.mp h
  obtain ⟨hlock, hid⟩ := List.mem_filter.mp hlock
  obtain ⟨scan', hscan', hid', hholds⟩ := hc.holds lock hlock
  have heq : scan' = scan := by
    have := Table.get_of_mem hscan'
    rw [hid', of_decide_eq_true hid, hscan] at this
    exact (Option.some.inj this).symm
  exact ⟨heq ▸ hholds, lock, hlock, rfl, of_decide_eq_true hid⟩

lemma close (hc : c.Inv) (id : ℕ) : (c.close id).Inv := by
  refine ⟨hc.tx, fun scan hscan => hc.now scan (List.mem_filter.mp hscan).1,
    fun scan hscan => hc.fresh scan (List.mem_filter.mp hscan).1, fun lock hlock => ?_, hc.returned⟩
  obtain ⟨hlock, hne⟩ := List.mem_filter.mp hlock
  obtain ⟨scan, hscan, hid, hholds⟩ := hc.holds lock hlock
  exact ⟨scan, List.mem_filter.mpr ⟨hscan, by simpa only [hid] using hne⟩, hid, hholds⟩

lemma finish (hc : c.Inv) (h : c.finish id = some c') : c'.Inv := by
  obtain ⟨scan, hscan, h⟩ := Option.bind_eq_some_iff.mp h
  simp only at h
  split at h
  · cases h
  cases h
  set u : Update J := claim (c.taken id) c.token scan.query.leaseMs scan.now c.srv.clock with hu
  have hguard : ∀ {run r}, c.srv.db.run run = some r → (u.guard r = true ↔ run ∈ c.taken id) := by
    intro run r hr
    rw [hu, ← Db.run_id hr]; simp [claim]
  have hrest : ∀ {run r}, c.srv.db.run run = some r → u.guard r = false →
      (c.srv.exec u fun r => .claimed (c.token r.id) scan.query.leaseMs scan.now
        c.srv.clock).view run = c.srv.view run := by
    intro run r hr hg
    refine Server.exec_view_of_not fun r' hr' => ?_
    cases hr.symm.trans hr'
    exact hg
  have hclose := hc.close id
  refine ⟨hc.tx.exec ?_, hclose.now, fun sc hsc run hrun => ?_, fun lock hlock => ?_,
    fun ret hret => ?_⟩
  · -- a row that an event transaction has written is not ready
    refine List.all_eq_true.mpr fun r hr => ?_
    have hrun := Db.run_of_mem hr
    by_cases hg : u.guard r = true
    · obtain ⟨⟨r', hr', hstate, -⟩, -⟩ := hc.of_taken hscan ((hguard hrun).mp hg)
      cases hrun.symm.trans hr'
      rw [hc.tx.not_locked hrun hstate]; simp
    · simp [hg]
  · obtain ⟨r, hr, hcps⟩ := hclose.fresh sc hsc run hrun
    by_cases hg : u.guard r = true
    · -- leased by this statement
      have hview := Server.exec_view (f := fun r => .claimed (c.token r.id) scan.query.leaseMs
        scan.now c.srv.clock) hr hg
      exact ⟨_, congrArg View.row hview, fun h => by cases h⟩
    · have hview := hrest hr (by simpa using hg)
      exact ⟨r, (congrArg View.row hview).trans hr,
        fun hs hd => (congrArg View.cps hview).trans (hcps hs hd)⟩
  · -- a run is locked by one statement
    obtain ⟨sc, hsc, hid, r, hr, hstate, hcps⟩ := hclose.holds lock hlock
    have hg : u.guard r = false := by
      by_contra hg
      obtain ⟨-, lock', hlock', hrun, hid'⟩ :=
        hc.of_taken hscan ((hguard hr).mp (by simpa using hg))
      obtain ⟨hlock, hne⟩ := List.mem_filter.mp hlock
      have heq : lock' = lock := List.inj_on_of_nodup_map c.locks.nodup hlock' hlock hrun
      rw [heq] at hid'
      simp [hid'] at hne
    have hview := hrest hr hg
    exact ⟨sc, hsc, hid, r, (congrArg View.row hview).trans hr, hstate,
      (congrArg View.cps hview).trans hcps⟩
  · rcases List.mem_append.mp hret with hret | hret
    · exact hc.returned ret hret
    · obtain ⟨r, hr, rfl⟩ := List.mem_map.mp hret
      obtain ⟨hr, hg⟩ := List.mem_filter.mp hr
      have hrun := Db.run_of_mem hr
      obtain ⟨⟨-, -, -, hcps⟩, -⟩ := hc.of_taken hscan ((hguard hrun).mp hg)
      intro i x hx
      have hx : c.srv.db.checkpoint r.id i = some x := hx
      rw [hcps] at hx
      simp [Row.claimedRun, hx]

theorem step (hc : c.Inv) {a : ClaimAct J} (hlater : c.later a = true) (h : c.step a = some c') :
    c'.Inv := by
  cases a with
  | server a => exact hc.server hlater h
  | start id q =>
    simp only [Claims.step] at h
    split at h <;> cases h
    exact hc.start id q
  | visit id token => exact hc.visit h
  | finish id => exact hc.finish h
  | fail id =>
    simp only [Claims.step] at h
    split at h <;> cases h
    exact hc.close id

end Inv

end Claims

end DurablePg

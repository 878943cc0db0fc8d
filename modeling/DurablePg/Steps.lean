import DurablePg.Server

/-!
What one step of the server does, guards included (`does`), and what it does to one run.

Every step makes at most one change to a run, and the change is one the step's action makes
(`step_moved`); everything else in the development about runs follows from this. It rests on
two facts about open transactions: no two of them hold one event key, and what a transaction
has written still satisfies, while it is open, the condition under which it was written.
-/

namespace DurablePg

open DurablePg.Lib

variable {J : Type}

namespace Server

/-! ### Logs and views after an update -/

lemma log_append (s : Server J) (evs : List (Ev J)) (run : RunId) :
    ({ s with hist := s.hist ++ evs } : Server J).log run =
      s.log run ++ evs.filterMap (Ev.changeOf run) := by
  simp [log]

lemma exec_log (s : Server J) (u : Update J) (ch : Row J → Change J) (run : RunId) :
    (s.exec u ch).log run = s.log run ++ (((s.db.run run).filter u.guard).map ch).toList := by
  unfold exec log
  rw [List.filterMap_append, List.filterMap_map]
  exact congrArg _ (s.db.runs.filterMap_key u.guard ch run)

lemma exec_run (s : Server J) (u : Update J) (ch : Row J → Change J) (run : RunId) :
    (s.exec u ch).db.run run = (s.db.run run).map fun r => if u.guard r then u.set r else r :=
  s.db.run_update u run

lemma exec_checkpoint (s : Server J) (u : Update J) (ch : Row J → Change J) (run : RunId)
    (i : ℕ) : (s.exec u ch).db.checkpoint run i =
      (s.db.checkpoint run i).or ((s.db.run run).bind fun r => u.recordAt r i) :=
  s.db.checkpoint_update u run i

lemma exec_view_of_not {s : Server J} {u : Update J} {ch : Row J → Change J} {run : RunId}
    (h : ∀ r, s.db.run run = some r → u.guard r = false) : (s.exec u ch).view run = s.view run := by
  unfold view
  congr 1
  · rw [exec_run]
    rcases hr : s.db.run run with _ | r
    · rfl
    · simp [h r hr]
  · funext i
    rw [exec_checkpoint]
    rcases hr : s.db.run run with _ | r
    · simp
    · simp [Update.recordAt, h r hr]

lemma exec_view {s : Server J} {u : Update J} {f : Row J → Change J} {run : RunId} {r : Row J}
    (hr : s.db.run run = some r) (hg : u.guard r = true) :
    (s.exec u f).view run =
      ⟨some (u.set r), fun i => (s.db.checkpoint run i).or (u.recordAt r i)⟩ := by
  unfold view
  congr 1
  · rw [exec_run, hr]; simp [hg]
  · funext i; rw [exec_checkpoint, hr]; rfl

variable [Jsonb J]

/-! ### Steps -/

/-- One step of the server, by cases. -/
inductive Does (s : Server J) : Act J → Server J → Prop
  | tick {clock : Time} (hclock : s.clock ≤ clock) : Does s (.tick clock) { s with clock := clock }
  | touch {n : NewRun J} {now : Time} (hnow : now ≤ s.clock) (hfree : s.free (n.touch now) = true) :
    Does s (.insertRun n now) (s.exec (n.touch now) fun _ => .touched now)
  | insert {n : NewRun J} {now : Time} (hnow : now ≤ s.clock) (hstore : n.storable = true)
    (hnew : s.db.runs.rows.any n.conflicts = false) (hnone : s.db.run n.id = none) :
    Does s (.insertRun n now) { s with
      db := { s.db with runs := s.db.runs.insert (n.row now) }
      hist := s.hist ++ [.change n.id (.inserted n now)] }
  | claim {q : ClaimQuery} {gen : RunId → Token} {now : Time} (hnow : now ≤ s.clock)
    {ids : List RunId} (hids : ids = s.db.picked (q.claimable now) Row.nextRunAt s.locked q.limit)
    (hnodup : (ids.map gen).Nodup) (hfresh : ∀ token ∈ ids.map gen, token ∉ s.tokens) :
    Does s (.claim q gen now) (s.exec (DurablePg.claim ids gen q.leaseMs now s.clock)
      fun r => .claimed (gen r.id) q.leaseMs now s.clock)
  | renew {claims : List (RunId × Token)} {leaseMs : ℤ} {now : Time} (hnow : now ≤ s.clock)
    (hfree : s.free (DurablePg.renewLeases claims leaseMs now s.clock) = true) :
    Does s (.renewLeases claims leaseMs now) (s.exec
      (DurablePg.renewLeases claims leaseMs now s.clock) fun _ => .renewed leaseMs now s.clock)
  | refuse {run : RunId} {token : Token} {w : Write J} {now : Time} (hnow : now ≤ s.clock)
    (hnot : s.owns run token w now = false) :
    Does s (.write run token w now) { s with hist := s.hist ++ [.refused run token w s.clock] }
  | write {run : RunId} {token : Token} {w : Write J} {now : Time} (hnow : now ≤ s.clock)
    (howns : s.owns run token w now = true)
    (hfree : s.free (s.writeUpdate run token w now s.clock) = true) :
    Does s (.write run token w now) (s.exec (s.writeUpdate run token w now s.clock)
      fun _ => .wrote token w now s.clock)
  | recover {now : Time} (hnow : now ≤ s.clock) {ids : List RunId}
    (hids : ids = s.db.picked (expiredLease now) (fun r => r.leaseUntil.getD 0) s.locked
      maintenanceBatch) :
    Does s (.recoverLeases now) (s.exec (DurablePg.recoverLeases ids now s.clock)
      fun _ => .recovered now s.clock)
  | promote {now : Time} (hnow : now ≤ s.clock) {ids : List RunId}
    (hids : ids = s.db.picked (timedOutWait now) (fun r => r.waitingDeadline.getD 0) s.locked
      maintenanceBatch) :
    Does s (.promoteTimedOut now)
      (s.exec (DurablePg.promoteTimedOut ids now) fun _ => .timedOut now)
  | prune {now : Time} (hnow : now ≤ s.clock) :
    Does s (.pruneEvents now) { s with db := s.db.pruneEvents now pruneBatch }
  | cancel {run : RunId} {now : Time} (hnow : now ≤ s.clock)
    (hfree : s.free (DurablePg.cancelRun run now) = true) :
    Does s (.cancelRun run now) (s.exec (DurablePg.cancelRun run now) fun _ => .cancelled now)
  | begin {job : Job J} {key : String} (hnone : s.txs.get job.id = none) :
    Does s (.begin job key) { s with txs := s.txs.insert ⟨job, key, s.clock, .begun⟩ }
  | lock {tx : Tx J} (htx : tx ∈ s.txs.rows) (hphase : tx.phase = .begun)
    (hkey : s.keyHeld tx.key = false) : Does s (.lockEventKey tx.id) (s.setPhase tx.id .locked)
  | look {token : Token} {tx : Tx J} (htx : tx ∈ s.txs.rows) (hid : tx.id = .wait token)
    (hphase : tx.phase = .locked) {found : Option J}
    (hfound : found = s.db.latestEvent tx.key tx.start) :
    Does s (.latestEvent token) { s.setPhase tx.id (.looked found) with
      hist := s.hist ++ [.looked token tx.key found s.clock] }
  | emit {tx : Tx J} {n : ℕ} {payload : J} (htx : tx ∈ s.txs.rows) (hjob : tx.job = .emit n payload)
    (hphase : tx.phase = .locked) (hfree : s.free (wake tx.key payload tx.start) = true) :
    Does s (.statement tx.id) { s.setPhase tx.id (.emitted
        ⟨s.db.nextEventId, tx.key, payload, tx.start, tx.start + millis eventTTLMs⟩
        (s.db.selected (wake tx.key payload tx.start))) with
      db := { s.db with nextEventId := s.db.nextEventId + 1 } }
  | refuseWait {tx : Tx J} {token : Token} {run : RunId} {index : ℕ} {timeoutMs : ℤ}
    {complete : Bool} {found : Option J} (htx : tx ∈ s.txs.rows)
    (hjob : tx.job = .wait token run index timeoutMs complete) (hphase : tx.phase = .looked found)
    {w : Write J} (hw : w = waitWrite found tx.key index timeoutMs complete)
    (hnot : s.owns run token w tx.start = false) :
    Does s (.statement tx.id) { s with hist := s.hist ++ [.refused run token w s.clock] }
  | hold {tx : Tx J} {token : Token} {run : RunId} {index : ℕ} {timeoutMs : ℤ}
    {complete : Bool} {found : Option J} (htx : tx ∈ s.txs.rows)
    (hjob : tx.job = .wait token run index timeoutMs complete) (hphase : tx.phase = .looked found)
    {w : Write J} (hw : w = waitWrite found tx.key index timeoutMs complete)
    (howns : s.owns run token w tx.start = true)
    (hfree : s.free (s.writeUpdate run token w tx.start s.clock) = true) :
    Does s (.statement tx.id) { s.setPhase tx.id (.wrote w s.clock) with
      hist := s.hist ++ [.held run token w s.clock] }
  | emitted {tx : Tx J} {n : ℕ} {payload : J} {e : Event J} {woken : List RunId}
    (htx : tx ∈ s.txs.rows) (hjob : tx.job = .emit n payload)
    (hphase : tx.phase = .emitted e woken) :
    Does s (.commit tx.id) (exec { s.close tx.id with
        db := { s.db with events := s.db.events.insert e }
        hist := s.hist ++ [Ev.emitted e s.clock] }
      ((wake tx.key payload tx.start).pinned woken) fun _ => .delivered tx.key payload tx.start)
  | waited {tx : Tx J} {token : Token} {run : RunId} {index : ℕ} {timeoutMs : ℤ} {complete : Bool}
    {w : Write J} {clock : Time} (htx : tx ∈ s.txs.rows)
    (hjob : tx.job = .wait token run index timeoutMs complete)
    (hphase : tx.phase = .wrote w clock) :
    Does s (.commit tx.id) ((s.close tx.id).exec
      ((s.writeUpdate run token w tx.start clock).pinned [run])
        fun _ => .wrote token w tx.start clock)
  | rollback {id : TxId} (hid : (s.txs.get id).isSome) : Does s (.rollback id) (s.close id)

theorem does {s s' : Server J} {a : Act J} (h : s.step a = some s') : s.Does a s' := by
  cases a with
  | tick clock =>
    simp only [step, Option.ite_none_right_eq_some, Option.some.injEq] at h
    obtain ⟨hle, rfl⟩ := h; exact .tick hle
  | insertRun n now =>
    simp only [step, Option.ite_none_right_eq_some] at h
    obtain ⟨hnow, h⟩ := h
    unfold insertRun at h
    split at h
    · cases h
    · rename_i hstore
      split at h
      · split at h
        · rename_i hfree; cases h; exact .touch hnow hfree
        · cases h
      · rename_i hnew
        split at h
        · cases h
        · rename_i hnone
          cases h
          exact .insert hnow (by simpa using hstore) (Bool.eq_false_iff.mpr hnew)
            (by simpa using hnone)
  | claim q gen now =>
    simp only [step, Option.ite_none_right_eq_some, Server.claim] at h
    obtain ⟨hnow, ⟨hnodup, hfresh⟩, h⟩ := h
    cases h; exact .claim hnow rfl hnodup hfresh
  | renewLeases claims leaseMs now =>
    simp only [step, Option.ite_none_right_eq_some] at h
    obtain ⟨⟨hnow, hfree⟩, h⟩ := h
    cases h; exact .renew hnow hfree
  | write run token w now =>
    simp only [step, Option.ite_none_right_eq_some, Server.write] at h
    obtain ⟨hnow, h⟩ := h
    split at h
    · rename_i hnot; cases h; exact .refuse hnow (by simpa using hnot)
    · rename_i howns
      split at h
      · rename_i hfree; cases h; exact .write hnow (by simpa using howns) hfree
      · cases h
  | recoverLeases now =>
    simp only [step, Option.ite_none_right_eq_some] at h
    obtain ⟨hnow, h⟩ := h
    cases h; exact .recover hnow rfl
  | promoteTimedOut now =>
    simp only [step, Option.ite_none_right_eq_some] at h
    obtain ⟨hnow, h⟩ := h
    cases h; exact .promote hnow rfl
  | pruneEvents now =>
    simp only [step, Option.ite_none_right_eq_some] at h
    obtain ⟨hnow, h⟩ := h
    cases h; exact .prune hnow
  | cancelRun run now =>
    simp only [step, Option.ite_none_right_eq_some] at h
    obtain ⟨⟨hnow, hfree⟩, h⟩ := h
    cases h; exact .cancel hnow hfree
  | begin job key =>
    simp only [step, Option.ite_none_left_eq_some] at h
    obtain ⟨hnone, h⟩ := h
    cases h; exact .begin (by simpa using hnone)
  | lockEventKey id =>
    obtain ⟨tx, htx, h⟩ := Option.bind_eq_some_iff.mp h
    obtain ⟨hmem, rfl⟩ := Table.get_eq_some_iff.mp htx
    split at h
    · rename_i hphase
      split at h
      · cases h
      · rename_i hkey; cases h; exact .lock hmem hphase (by simpa using hkey)
    · cases h
  | latestEvent token =>
    obtain ⟨tx, htx, h⟩ := Option.bind_eq_some_iff.mp h
    obtain ⟨hmem, hid⟩ := Table.get_eq_some_iff.mp htx
    split at h
    · rename_i hphase
      cases h
      rw [← hid]; exact .look hmem hid hphase rfl
    · cases h
  | statement id =>
    obtain ⟨tx, htx, hst⟩ := Option.bind_eq_some_iff.mp h
    obtain ⟨hmem, rfl⟩ := Table.get_eq_some_iff.mp htx
    unfold Server.statement at hst
    split at hst
    · rename_i n payload hjob hphase
      simp only [Option.ite_none_right_eq_some] at hst
      obtain ⟨hfree, hst⟩ := hst
      cases hst; exact .emit hmem hjob hphase hfree
    · rename_i token run index timeoutMs complete found hjob hphase
      simp only at hst
      split at hst
      · rename_i hnot; cases hst; exact .refuseWait hmem hjob hphase rfl (by simpa using hnot)
      · rename_i howns
        split at hst
        · rename_i hfree; cases hst; exact .hold hmem hjob hphase rfl (by simpa using howns) hfree
        · cases hst
    · cases hst
  | commit id =>
    obtain ⟨tx, htx, hc⟩ := Option.bind_eq_some_iff.mp h
    obtain ⟨hmem, rfl⟩ := Table.get_eq_some_iff.mp htx
    unfold Server.commit at hc
    split at hc
    · rename_i hjob hphase; cases hc; exact .emitted hmem hjob hphase
    · rename_i hjob hphase; cases hc; exact .waited hmem hjob hphase
    · cases hc
  | rollback id =>
    simp only [step, Option.ite_none_right_eq_some] at h
    obtain ⟨hid, h⟩ := h
    cases h; exact .rollback hid

/-! ### Changes -/

/-- The step from `s` to `s'` made this change to the run, or none. -/
def Moved (s s' : Server J) (run : RunId) (o : Option (Change J)) : Prop :=
  s'.log run = s.log run ++ o.toList ∧
    match o with
    | none => s'.view run = s.view run
    | some ch => (s.view run).Moves ch (s'.view run)

/-- The changes an action makes to a run in a state, if any. -/
inductive Makes (s : Server J) : Act J → RunId → Change J → Prop
  | inserted (n : NewRun J) (now : Time) :
    Makes s (.insertRun n now) n.id (.inserted n now)
  | touched (n : NewRun J) (now : Time) (run : RunId) :
    Makes s (.insertRun n now) run (.touched now)
  | claimed (q : ClaimQuery) (gen : RunId → Token) (now : Time) (run : RunId)
    (hrun : run ∈ s.db.picked (q.claimable now) Row.nextRunAt s.locked q.limit)
    (hnodup : ((s.db.picked (q.claimable now) Row.nextRunAt s.locked q.limit).map gen).Nodup)
    (hfresh : gen run ∉ s.tokens) :
    Makes s (.claim q gen now) run (.claimed (gen run) q.leaseMs now s.clock)
  | renewed (claims : List (RunId × Token)) (leaseMs : ℤ) (now : Time) (run : RunId) (r : Row J)
    (token : Token) (hr : s.db.run run = some r) (htoken : r.leaseToken = some token)
    (hmem : (run, token) ∈ claims) :
    Makes s (.renewLeases claims leaseMs now) run (.renewed leaseMs now s.clock)
  | wrote (run : RunId) (token : Token) (w : Write J) (now : Time) :
    Makes s (.write run token w now) run (.wrote token w now s.clock)
  | recovered (now : Time) (run : RunId) (hnow : now ≤ s.clock) :
    Makes s (.recoverLeases now) run (.recovered now s.clock)
  | timedOut (now : Time) (run : RunId) (hnow : now ≤ s.clock) :
    Makes s (.promoteTimedOut now) run (.timedOut now)
  | cancelled (run : RunId) (now : Time) :
    Makes s (.cancelRun run now) run (.cancelled now)
  | delivered (tx : Tx J) (n : ℕ) (payload : J) (e : Event J) (woken : List RunId) (run : RunId)
    (htx : s.txs.get tx.id = some tx) (hjob : tx.job = .emit n payload)
    (hphase : tx.phase = .emitted e woken) (hrun : run ∈ woken) :
    Makes s (.commit tx.id) run (.delivered tx.key payload tx.start)
  | waited (tx : Tx J) (token : Token) (run : RunId) (index : ℕ) (timeoutMs : ℤ) (complete : Bool)
    (w : Write J) (clock : Time) (htx : s.txs.get tx.id = some tx)
    (hjob : tx.job = .wait token run index timeoutMs complete)
    (hphase : tx.phase = .wrote w clock) :
    Makes s (.commit tx.id) run (.wrote token w tx.start clock)

lemma exec_moved {s : Server J} {u : Update J} {f : Row J → Change J}
    {P : RunId → Change J → Prop} (h : ∀ run r, s.db.run run = some r → u.guard r = true →
      P run (f r) ∧ ∃ u', (f r).update (s.db.checkpoint run) r.id = some u' ∧
        u'.guard r = true ∧ u'.set r = u.set r ∧ u'.record r = u.record r) (run : RunId) :
    ∃ o, Moved s (s.exec u f) run o ∧ ∀ c ∈ o, P run c := by
  rcases hsel : (s.db.run run).filter u.guard with _ | r
  · have hnot : ∀ r, s.db.run run = some r → u.guard r = false := by
      intro r hr; simpa [hr] using hsel
    exact ⟨none, ⟨by rw [exec_log, hsel]; rfl, exec_view_of_not hnot⟩, by simp⟩
  · obtain ⟨hr, hg⟩ := Option.filter_eq_some_iff.mp hsel
    obtain ⟨hmakes, u', hu', hg', hset, hrec⟩ := h run r hr hg
    refine ⟨some (f r), ⟨by rw [exec_log, hsel]; rfl, ?_⟩, by simpa using hmakes⟩
    have hm := View.Moves.updated (v := s.view run) (f r) r u' hr hu' hg'
    have hat : ∀ i, u'.recordAt r i = u.recordAt r i := by
      intro i; simp [Update.recordAt, hg, hg', hrec]
    simp only [hat] at hm
    rw [exec_view hr hg, ← hset]
    exact hm

/-! ### Open transactions -/

end Server

/-- What the transaction has written, it could write again: its phase fits its body, and each
row it holds still satisfies the condition of its statement. -/
def Tx.Ready [Jsonb J] (db : Db J) (tx : Tx J) : Prop :=
  match tx.phase, tx.job with
  | .begun, _ | .locked, _ => True
  | .looked _, .wait .. => True
  | .emitted e woken, .emit _ payload =>
    e.eventKey = tx.key ∧ e.payload = payload ∧ ∀ run ∈ woken, ∃ r, db.run run = some r ∧
      (wake tx.key payload tx.start).guard r = true
  | .wrote w clock, .wait token run .. =>
    ∃ r, db.run run = some r ∧
      (w.update (db.checkpoint run) run token tx.start clock).guard r = true
  | _, _ => False

lemma Write.guard_existing (w : Write J) (existing existing' : ℕ → Option J) (run : RunId)
    (token : Token) (now clock : Time) :
    (w.update existing run token now clock).guard =
      (w.update existing' run token now clock).guard := by
  cases w <;> rfl

lemma Tx.Ready.congr [Jsonb J] {db db' : Db J} {tx : Tx J} (h : tx.Ready db)
    (hrun : ∀ run, tx.holdsRun run = true → db'.run run = db.run run) : tx.Ready db' := by
  obtain ⟨job, key, start, phase⟩ := tx
  cases phase with
  | begun | locked => trivial
  | looked found => cases job <;> exact h
  | emitted e woken =>
    cases job with
    | emit n payload =>
      refine ⟨h.1, h.2.1, fun run hw => ?_⟩
      obtain ⟨r, hr, hg⟩ := h.2.2 run hw
      exact ⟨r, by rw [hrun run (by simpa [Tx.holdsRun] using hw)]; exact hr, hg⟩
    | wait => exact h
  | wrote w clock =>
    cases job with
    | emit => exact h
    | wait token run =>
      obtain ⟨r, hr, hg⟩ := h
      refine ⟨r, by rw [hrun run (by simp [Tx.holdsRun])]; exact hr, ?_⟩
      rwa [w.guard_existing _ (db.checkpoint run)]

namespace Server

variable [Jsonb J]

/-- The state of the event transactions. -/
structure TxInv (s : Server J) : Prop where
  keys : ∀ tx ∈ s.txs.rows, ∀ tx' ∈ s.txs.rows, tx.holdsKey = true → tx'.holdsKey = true →
    tx.key = tx'.key → tx.id = tx'.id
  ready : ∀ tx ∈ s.txs.rows, tx.Ready s.db
  start : ∀ tx ∈ s.txs.rows, tx.start ≤ s.clock

omit [Jsonb J] in
lemma eq_of_id {s : Server J} {tx tx' : Tx J} (h : tx ∈ s.txs.rows) (h' : tx' ∈ s.txs.rows)
    (hid : tx.id = tx'.id) : tx = tx' :=
  List.inj_on_of_nodup_map s.txs.nodup h h' hid

/-- Two transactions never hold one run: they would hold one event key, or the run would be
both leased and waiting, or leased under two tokens. -/
lemma TxInv.holds_unique {s : Server J} (hs : s.TxInv) {tx tx' : Tx J} (h : tx ∈ s.txs.rows)
    (h' : tx' ∈ s.txs.rows) {run : RunId} (hr : tx.holdsRun run = true)
    (hr' : tx'.holdsRun run = true) : tx = tx' := by
  refine eq_of_id h h' ?_
  have hready := hs.ready tx h
  have hready' := hs.ready tx' h'
  have hkeys := hs.keys tx h tx' h'
  obtain ⟨job, key, start, phase⟩ := tx
  obtain ⟨job', key', start', phase'⟩ := tx'
  cases phase <;> cases phase' <;> cases job <;> cases job' <;>
    simp only [Tx.holdsRun, Tx.Ready, decide_eq_true_eq, Bool.false_eq_true]
      at hr hr' hready hready'
  · -- both emit: the run waits on one key
    obtain ⟨r, hrow, hg⟩ := hready.2.2 run hr
    obtain ⟨r', hrow', hg'⟩ := hready'.2.2 run hr'
    cases hrow.symm.trans hrow'
    simp only [wake, Bool.and_eq_true, decide_eq_true_eq] at hg hg'
    exact hkeys rfl rfl (Option.some.inj (hg.1.2.symm.trans hg'.1.2))
  · -- the run would be waiting and leased
    subst hr'
    obtain ⟨r, hrow, hg⟩ := hready.2.2 _ hr
    obtain ⟨r', hrow', hg'⟩ := hready'
    cases hrow.symm.trans hrow'
    have := (fence_iff.mp (Write.fence_of_guard hg')).2.1
    simp [wake, this] at hg
  · subst hr
    obtain ⟨r, hrow, hg⟩ := hready
    obtain ⟨r', hrow', hg'⟩ := hready'.2.2 _ hr'
    cases hrow.symm.trans hrow'
    have := (fence_iff.mp (Write.fence_of_guard hg)).2.1
    simp [wake, this] at hg'
  · -- both registrations: the run is leased under one token
    subst hr hr'
    obtain ⟨r, hrow, hg⟩ := hready
    obtain ⟨r', hrow', hg'⟩ := hready'
    cases hrow.symm.trans hrow'
    have htok := (fence_iff.mp (Write.fence_of_guard hg)).2.2.1
    have htok' := (fence_iff.mp (Write.fence_of_guard hg')).2.2.1
    exact congrArg TxId.wait (Option.some.inj (htok.symm.trans htok'))

/-! ### The change a step makes -/

lemma moved_none {s s' : Server J} {a : Act J} {run : RunId} (hview : s'.view run = s.view run)
    (hlog : s'.log run = s.log run) : ∃ o, Moved s s' run o ∧ ∀ c ∈ o, Makes s a run c :=
  ⟨none, ⟨by simpa using hlog, hview⟩, by simp⟩

omit [Jsonb J] in
lemma picked_guard {s : Server J} {p : Row J → Bool} {f : Row J → Time} {limit : ℕ} {run : RunId}
    {r : Row J} (hr : s.db.run run = some r) (hmem : r.id ∈ s.db.picked p f s.locked limit) :
    p r = true := by
  obtain ⟨r', hr', hp, -⟩ := Db.mem_picked hmem
  rw [Db.run_id hr] at hr'
  cases hr.symm.trans hr'
  exact hp

lemma claim_moved {s : Server J} {q : ClaimQuery} {gen : RunId → Token} {now : Time}
    {ids : List RunId} (hids : ids = s.db.picked (q.claimable now) Row.nextRunAt s.locked q.limit)
    (hnodup : (ids.map gen).Nodup) (hfresh : ∀ token ∈ ids.map gen, token ∉ s.tokens)
    (run : RunId) : ∃ o, Moved s (s.exec (DurablePg.claim ids gen q.leaseMs now s.clock)
      fun r => .claimed (gen r.id) q.leaseMs now s.clock) run o ∧
      ∀ c ∈ o, Makes s (.claim q gen now) run c := by
  subst hids
  refine exec_moved (fun run r hr hg => ?_) run
  have hmem := of_decide_eq_true hg
  have hp := picked_guard hr hmem
  simp only [ClaimQuery.claimable, Bool.and_eq_true, decide_eq_true_eq] at hp
  have hnew : gen r.id ∉ s.tokens := hfresh _ (List.mem_map_of_mem hmem)
  obtain rfl := Db.run_id hr
  exact ⟨.claimed q gen now r.id hmem hnodup hnew, _, rfl, by simp [hp.1.1.2, hp.1.2], rfl, rfl⟩

lemma renew_moved (s : Server J) (claims : List (RunId × Token)) (leaseMs : ℤ) (now : Time)
    (run : RunId) : ∃ o, Moved s (s.exec (DurablePg.renewLeases claims leaseMs now s.clock)
      fun _ => .renewed leaseMs now s.clock) run o ∧
      ∀ c ∈ o, Makes s (.renewLeases claims leaseMs now) run c := by
  refine exec_moved (fun run r hr hg => ?_) run
  simp only [DurablePg.renewLeases, Bool.and_eq_true, Option.any_eq_true,
    decide_eq_true_eq] at hg
  obtain ⟨⟨⟨token, htoken, hmem⟩, hstate⟩, huntil⟩ := hg
  refine ⟨.renewed claims leaseMs now run r token hr htoken (Db.run_id hr ▸ hmem),
    _, rfl, ?_, rfl, rfl⟩
  simpa [DurablePg.renewLeases, hstate, Option.any_eq_true] using huntil

lemma insert_moved {s : Server J} {n : NewRun J} {now : Time} (hstore : n.storable = true)
    (hnone : s.db.run n.id = none) (run : RunId) : ∃ o, Moved s { s with
      db := { s.db with runs := s.db.runs.insert (n.row now) }
      hist := s.hist ++ [.change n.id (.inserted n now)] } run o ∧
      ∀ c ∈ o, Makes s (.insertRun n now) run c := by
  have hget : ∀ id, (s.db.runs.insert (n.row now)).get id =
      (s.db.runs.get id).or (if n.id = id then some (n.row now) else none) :=
    s.db.runs.get_insert (n.row now)
  have hlog : ({ s with hist := s.hist ++ [.change n.id (.inserted n now)] } : Server J).log
      run = s.log run ++ if n.id = run then [.inserted n now] else [] := by
    rw [log_append]; by_cases hid : n.id = run <;> simp [Ev.changeOf, hid]
  by_cases hid : n.id = run
  · subst hid
    refine ⟨some (.inserted n now), ⟨hlog.trans (by simp), ?_⟩, by
      simpa using Makes.inserted n now⟩
    have hm := View.Moves.inserted (v := s.view n.id) n now hnone hstore
    have hrow : (s.db.runs.insert (n.row now)).get n.id = some (n.row now) := by
      rw [hget, show s.db.runs.get n.id = none from hnone]; simp
    change (s.view n.id).Moves _
      ⟨(s.db.runs.insert (n.row now)).get n.id, s.db.checkpoint n.id⟩
    rw [hrow]; exact hm
  · refine moved_none ?_ (hlog.trans (by simp [hid]))
    simp only [view, Db.run, hget, hid, if_false, Option.or_none]
    rfl

lemma write_moved (s : Server J) (run₀ : RunId) (token : Token) (w : Write J) (now : Time)
    (run : RunId) : ∃ o, Moved s (s.exec (s.writeUpdate run₀ token w now s.clock)
      fun _ => .wrote token w now s.clock) run o ∧
      ∀ c ∈ o, Makes s (.write run₀ token w now) run c := by
  refine exec_moved (fun run r hr hg => ?_) run
  have hid : r.id = run₀ := (fence_iff.mp (Write.fence_of_guard hg)).1
  obtain rfl : run = run₀ := (Db.run_id hr).symm.trans hid
  refine ⟨.wrote run token w now, _, rfl, ?_, ?_, ?_⟩
  · rw [hid]; exact hg
  all_goals rw [hid]; rfl

lemma cancel_moved (s : Server J) (run₀ : RunId) (now : Time) (run : RunId) :
    ∃ o, Moved s (s.exec (DurablePg.cancelRun run₀ now) fun _ => .cancelled now) run o ∧
      ∀ c ∈ o, Makes s (.cancelRun run₀ now) run c := by
  refine exec_moved (fun run r hr hg => ?_) run
  have hid : r.id = run₀ := of_decide_eq_true (Bool.and_eq_true_iff.mp hg).1
  obtain rfl : run = run₀ := (Db.run_id hr).symm.trans hid
  exact ⟨.cancelled run now, _, rfl, by rw [hid]; exact hg, rfl, rfl⟩

lemma emitted_moved {s : Server J} (hs : s.TxInv) {tx : Tx J} {n : ℕ} {payload : J} {e : Event J}
    {woken : List RunId} (htx : tx ∈ s.txs.rows) (hjob : tx.job = .emit n payload)
    (hphase : tx.phase = .emitted e woken) (run : RunId) :
    ∃ o, Moved s (exec { s.close tx.id with
        db := { s.db with events := s.db.events.insert e }
        hist := s.hist ++ [Ev.emitted e s.clock] }
      ((wake tx.key payload tx.start).pinned woken)
        fun _ => .delivered tx.key payload tx.start) run o ∧
      ∀ c ∈ o, Makes s (.commit tx.id) run c := by
  have hready := hs.ready tx htx
  simp only [Tx.Ready, hjob, hphase] at hready
  set s₀ : Server J := { s.close tx.id with
    db := { s.db with events := s.db.events.insert e }
    hist := s.hist ++ [Ev.emitted e s.clock] } with hs₀
  have hlog : s₀.log run = s.log run := by simp [hs₀, log, Ev.changeOf]
  obtain ⟨o, ⟨hmlog, hmoved⟩, hmakes⟩ := exec_moved (s := s₀) (P := Makes s (.commit tx.id))
    (u := (wake tx.key payload tx.start).pinned woken)
    (f := fun _ => .delivered tx.key payload tx.start) (fun run r hr hg => by
      have hmem : run ∈ woken := by
        rw [← Db.run_id hr]; simpa [Update.pinned] using hg
      obtain ⟨r', hr', hg'⟩ := hready.2.2 run hmem
      cases hr.symm.trans hr'
      exact ⟨.delivered tx n payload e woken run (Table.get_of_mem htx) hjob hphase hmem,
        _, rfl, hg', rfl, rfl⟩) run
  exact ⟨o, ⟨by rw [hmlog, hlog], hmoved⟩, hmakes⟩

lemma waited_moved {s : Server J} (hs : s.TxInv) {tx : Tx J} {token : Token} {run₀ : RunId}
    {index : ℕ} {timeoutMs : ℤ} {complete : Bool} {w : Write J} {clock : Time}
    (htx : tx ∈ s.txs.rows) (hjob : tx.job = .wait token run₀ index timeoutMs complete)
    (hphase : tx.phase = .wrote w clock) (run : RunId) :
    ∃ o, Moved s ((s.close tx.id).exec
      ((s.writeUpdate run₀ token w tx.start clock).pinned [run₀])
        fun _ => .wrote token w tx.start clock) run o ∧
      ∀ c ∈ o, Makes s (.commit tx.id) run c := by
  have hready := hs.ready tx htx
  simp only [Tx.Ready, hjob, hphase] at hready
  refine exec_moved (s := s.close tx.id) (P := Makes s (.commit tx.id))
    (u := (s.writeUpdate run₀ token w tx.start clock).pinned [run₀]) (fun run r hr hg => ?_) run
  have hid : r.id = run₀ := by simpa [Update.pinned] using hg
  obtain rfl : run = run₀ := (Db.run_id hr).symm.trans hid
  obtain ⟨r', hr', hg'⟩ := hready
  cases hr.symm.trans hr'
  refine ⟨.waited tx token run index timeoutMs complete w clock (Table.get_of_mem htx) hjob hphase,
    _, rfl, ?_, ?_, ?_⟩
  · rw [hid]; exact hg'
  all_goals rw [hid]; rfl

/-- **What a step does to a run.** -/
theorem step_moved {s s' : Server J} (hs : s.TxInv) {a : Act J} (h : s.step a = some s')
    (run : RunId) : ∃ o, Moved s s' run o ∧ ∀ c ∈ o, Makes s a run c := by
  cases does h with
  | tick | prune | begin | lock | emit | rollback => exact moved_none rfl rfl
  | refuse | look | refuseWait | hold => exact moved_none rfl (by simp [log, Ev.changeOf])
  | touch =>
    refine exec_moved (fun run r hr hg => ⟨.touched _ _ run, ?_⟩) run
    exact ⟨_, rfl, rfl, rfl, rfl⟩
  | insert _ hstore _ hnone => exact insert_moved hstore hnone run
  | claim _ hids hnodup hfresh => exact claim_moved hids hnodup hfresh run
  | renew => exact renew_moved s _ _ _ run
  | write => exact write_moved s _ _ _ _ run
  | recover hnow hids =>
    refine exec_moved (fun run r hr hg => ⟨.recovered _ run hnow, ?_⟩) run
    exact ⟨_, rfl, picked_guard hr (hids ▸ of_decide_eq_true hg), rfl, rfl⟩
  | promote hnow hids =>
    refine exec_moved (fun run r hr hg => ⟨.timedOut _ run hnow, ?_⟩) run
    exact ⟨_, rfl, picked_guard hr (hids ▸ of_decide_eq_true hg), rfl, rfl⟩
  | cancel => exact cancel_moved s _ _ run
  | emitted htx hjob hphase => exact emitted_moved hs htx hjob hphase run
  | waited htx hjob hphase => exact waited_moved hs htx hjob hphase run

end Server

end DurablePg

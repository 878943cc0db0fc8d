import DurablePg.Delivery
import DurablePg.EventOrder
import DurablePg.Locking
import DurablePg.WakeUp

/-!
The database as its clients may picture it.

In the picture there are no locks and no open transactions: `EmitEvent` and `waitForEvent` each
happen at once, claims pass over nothing, and no event is ever deleted. The server refines it:
what is committed moves as the picture does, an event transaction when it commits, and everything
else a transaction does is not seen, nor is the pruning of events.
-/

namespace DurablePg

open DurablePg.Lib

variable {J : Type}

/-! ### The picture -/

/-- The row and the checkpoints of a run after an update. -/
def View.apply (u : Update J) (v : View J) : View J :=
  match v.row with
  | none => v
  | some r =>
    if u.guard r then ⟨some (u.set r), fun i => (v.cps i).or (u.recordAt r i)⟩ else v

structure Store (J : Type) where
  clock : Time
  view : RunId → View J
  /-- Every event emitted so far. -/
  log : List (Event J)

namespace Store

def apply (st : Store J) (u : Update J) : Store J :=
  { st with view := fun run => (st.view run).apply u }

/-- The first `limit` runs, by a time and then by identifier, among those that qualify and are not
skipped. -/
structure Picks (st : Store J) (p : Row J → Bool) (at_ : Row J → Time) (skipped : RunId → Prop)
    (limit : ℕ) (ids : List RunId) : Prop where
  nodup : ids.Nodup
  length : ids.length ≤ limit
  qualify : ∀ id ∈ ids, ∃ r, (st.view id).row = some r ∧ p r = true ∧ ¬ skipped id
  first : ∀ id r, (st.view id).row = some r → p r = true → ¬ skipped id → id ∉ ids →
    ids.length = limit ∧ ∀ id' ∈ ids, ∃ r', (st.view id').row = some r' ∧ r'.By at_ r

/-- The latest event on the key, at a transaction that started at `start`, when looked for at `t`.
An event that expires in between counts or not. -/
def Finds (log : List (Event J)) (key : String) (start t : Time) : Option J → Prop
  | none => ∀ e ∈ log, e.eventKey = key → e.expiresAt ≤ t
  | some payload => ∃ e ∈ log, e.eventKey = key ∧ start < e.expiresAt ∧ e.payload = payload ∧
      ∀ e' ∈ log, e'.eventKey = key → t < e'.expiresAt → e.NotBefore e'

variable {Ω : Type}

/-- The definition of the run has this operation at the index. -/
def OpAt (st : Store J) (reg : Registry Ω) (run : RunId) (index : ℕ) (op : Operation Ω) : Prop :=
  ∃ r wf, (st.view run).row = some r ∧
    reg.workflow r.workflowName r.workflowVersion = some wf ∧ wf.ops[index]? = some op

/-- A write that a worker sends outside `waitForEvent`: it does not park the run on an event, and
a result that it stores is that of a step. -/
def Direct (st : Store J) (reg : Registry Ω) (run : RunId) : Write J → Prop
  | .commitStep index _ _ => ∃ name fn timeout, st.OpAt reg run index (.step name fn timeout)
  | .parkWait .. => False
  | .completeRun .. | .parkSleep .. | .failOrRetry .. => True

variable [Jsonb J]

/-- What can happen. -/
inductive Step (reg : Registry Ω) (st : Store J) : Store J → Prop
  | pass {clock : Time} (h : st.clock ≤ clock) : Step reg st { st with clock := clock }
  | enqueue {n : NewRun J} {now : Time} (hnow : now ≤ st.clock) (hstore : n.storable = true)
    (hnone : (st.view n.id).row = none)
    (hnew : ∀ run r, (st.view run).row = some r → n.conflicts r = false) :
    Step reg st { st with
      view := Function.update st.view n.id ⟨some (n.row now), (st.view n.id).cps⟩ }
  | deduplicated {n : NewRun J} {now : Time} (hnow : now ≤ st.clock) :
    Step reg st (st.apply (n.touch now))
  | claim {q : ClaimQuery} {gen : RunId → Token} {now : Time} {ids : List RunId}
    (hnow : now ≤ st.clock)
    (hids : st.Picks (q.claimable now) Row.nextRunAt (fun _ => False) q.limit ids)
    (hnodup : (ids.map gen).Nodup)
    (hfresh : ∀ id ∈ ids, ∀ run r, (st.view run).row = some r → r.leaseToken ≠ some (gen id)) :
    Step reg st (st.apply (DurablePg.claim ids gen q.leaseMs now st.clock))
  | renewLeases {claims : List (RunId × Token)} {leaseMs : ℤ} {now : Time} (hnow : now ≤ st.clock) :
    Step reg st (st.apply (DurablePg.renewLeases claims leaseMs now st.clock))
  | write {run : RunId} {token : Token} {w : Write J} {now : Time} (hnow : now ≤ st.clock)
    (hw : st.Direct reg run w) :
    Step reg st (st.apply (w.update (st.view run).cps run token now st.clock))
  | recoverLeases {skipped : RunId → Prop} {now : Time} {ids : List RunId} (hnow : now ≤ st.clock)
    (hids : st.Picks (expiredLease now) (fun r => r.leaseUntil.getD 0) skipped maintenanceBatch
      ids) :
    Step reg st (st.apply (DurablePg.recoverLeases ids now st.clock))
  | promoteTimedOut {skipped : RunId → Prop} {now : Time} {ids : List RunId}
    (hnow : now ≤ st.clock)
    (hids : st.Picks (timedOutWait now) (fun r => r.waitingDeadline.getD 0) skipped
      maintenanceBatch ids) :
    Step reg st (st.apply (DurablePg.promoteTimedOut ids now))
  | cancelRun {run : RunId} {now : Time} (hnow : now ≤ st.clock) :
    Step reg st (st.apply (DurablePg.cancelRun run now))
  | emitEvent {e : Event J} (hstart : e.createdAt ≤ st.clock)
    (hexpires : e.expiresAt = e.createdAt + millis eventTTLMs)
    (hid : ∀ e' ∈ st.log, e'.eventKey = e.eventKey → e'.id < e.id) :
    Step reg st { st.apply (wake e.eventKey e.payload e.createdAt) with log := st.log ++ [e] }
  | waitForEvent {run : RunId} {token : Token} {index : ℕ} {key : String} {name : String}
    {resolver : EventKey Ω} {timeout : Time} {complete : Bool} {start t clock : Time}
    {found : Option J} (hop : st.OpAt reg run index (.waitEvent name resolver timeout))
    (hstart : start ≤ t) (ht : t ≤ clock) (hclock : clock ≤ st.clock)
    (hfound : Finds st.log key start t found) :
    Step reg st (st.apply ((Server.waitWrite found key index (milliseconds timeout)
      complete).update (st.view run).cps run token start clock))

end Store

namespace Store

lemma Finds.append {log evs : List (Event J)} {key : String} {start t : Time} {found : Option J}
    (h : Finds log key start t found) (hevs : ∀ e ∈ evs, e.eventKey ≠ key) :
    Finds (log ++ evs) key start t found := by
  cases found with
  | none =>
    intro e he hkey
    rcases List.mem_append.mp he with he | he
    · exact h e he hkey
    · exact absurd hkey (hevs e he)
  | some payload =>
    obtain ⟨e, he, hkey, hexp, hpayload, hlast⟩ := h
    refine ⟨e, List.mem_append_left _ he, hkey, hexp, hpayload, fun e' he' hkey' hexp' => ?_⟩
    rcases List.mem_append.mp he' with he' | he'
    · exact hlast e' he' hkey' hexp'
    · exact absurd hkey' (hevs e' he')

end Store

lemma View.apply_congr {u u' : Update J} {v : View J} (hset : u'.set = u.set)
    (hrec : u'.record = u.record) (hg : ∀ r, v.row = some r → u'.guard r = u.guard r) :
    v.apply u' = v.apply u := by
  unfold View.apply
  split
  · rfl
  · rename_i r hr
    simp only [hg r hr, hset, Update.recordAt, hrec]

namespace Server

variable {s s' : Server J} {a : Act J} {run : RunId}

/-- What is seen of the server. -/
def seen (s : Server J) : Store J := ⟨s.clock, s.view, s.emittedEvents⟩

lemma view_exec (s : Server J) (u : Update J) (f : Row J → Change J) (run : RunId) :
    (s.exec u f).view run = (s.view run).apply u := by
  unfold View.apply
  split
  · rename_i hr
    exact exec_view_of_not fun r hr' => by cases hr.symm.trans hr'
  · rename_i r hr
    by_cases hg : u.guard r = true
    · rw [if_pos hg]; exact exec_view hr hg
    · rw [if_neg hg]
      refine exec_view_of_not fun r' hr' => ?_
      cases hr.symm.trans hr'
      simpa using hg

lemma seen_exec (s : Server J) (u : Update J) (f : Row J → Change J) :
    (s.exec u f).seen = s.seen.apply u := by
  have hlog : (s.exec u f).emittedEvents = s.emittedEvents := by
    simp [emittedEvents, exec, List.filterMap_append, List.filterMap_map, Function.comp_def,
      Ev.emitted?]
  simp only [seen, Store.apply, hlog]
  exact congrArg (Store.mk _ · _) (funext fun run => view_exec s u f run)

lemma seen_eq (hclock : s'.clock = s.clock) (hruns : s'.db.runs = s.db.runs)
    (hcps : s'.db.checkpoints = s.db.checkpoints) {evs : List (Ev J)}
    (hhist : s'.hist = s.hist ++ evs) (hevs : evs.filterMap Ev.emitted? = []) :
    s'.seen = s.seen := by
  have hview : s'.view = s.view := by
    funext run
    unfold view Db.run Db.checkpoint
    rw [hruns, hcps]
  unfold seen emittedEvents
  rw [hclock, hview, hhist, List.filterMap_append, hevs, List.append_nil]

lemma picks (s : Server J) (p : Row J → Bool) (at_ : Row J → Time) (limit : ℕ) :
    s.seen.Picks p at_ (fun run => s.locked run = true) limit
      (s.db.picked p at_ s.locked limit) where
  nodup := Db.nodup_picked
  length := Db.length_picked_le
  qualify id hid := by
    obtain ⟨r, hr, hp, hl⟩ := Db.mem_picked hid
    exact ⟨r, hr, hp, by simp [hl]⟩
  first id r hr hp hl hnot := by
    obtain ⟨hlen, hbefore⟩ := Db.picked_full hr hp (by simpa using hl) hnot
    refine ⟨hlen, fun id' hid' => ?_⟩
    obtain ⟨r', hr', -, hby⟩ := hbefore id' hid'
    exact ⟨r', hr', hby⟩

variable [Jsonb J]

/-- A claim passes over nothing: the runs that are ready are not locked. -/
lemma TxInv.picks_claimable (hs : s.TxInv) (q : ClaimQuery) (now : Time) :
    s.seen.Picks (q.claimable now) Row.nextRunAt (fun _ => False) q.limit
      (s.db.picked (q.claimable now) Row.nextRunAt s.locked q.limit) where
  nodup := Db.nodup_picked
  length := Db.length_picked_le
  qualify id hid := by
    obtain ⟨r, hr, hp, -⟩ := Db.mem_picked hid
    exact ⟨r, hr, hp, not_false⟩
  first id r hr hp _ hnot := by
    have hready : r.state = .ready := by
      simp only [ClaimQuery.claimable, Bool.and_eq_true, decide_eq_true_eq] at hp
      exact hp.1.1.2
    exact (s.picks _ _ _).first id r hr hp (by simp [hs.not_locked hr hready]) hnot

/-! ### What registrations have found -/

/-- What an open registration has found is, for the picture, still the latest event: nobody has
emitted on its key since. -/
structure Watching (s : Server J) (tx : Tx J) (index : ℕ) (timeoutMs : ℤ) (complete : Bool) :
    Prop where
  looked : ∀ found, tx.phase = .looked found → ∃ t, tx.start ≤ t ∧ t ≤ s.clock ∧
    Store.Finds s.emittedEvents tx.key tx.start t found
  wrote : ∀ w clock, tx.phase = .wrote w clock → ∃ found t,
    w = waitWrite found tx.key index timeoutMs complete ∧ tx.start ≤ t ∧ t ≤ clock ∧
    clock ≤ s.clock ∧ Store.Finds s.emittedEvents tx.key tx.start t found

lemma Reachable.finds_latest (hs : s.Reachable) {key : String} {start : Time}
    (hstart : start ≤ s.clock) :
    Store.Finds s.emittedEvents key start s.clock (s.db.latestEvent key start) := by
  -- what is not in the table any more has expired
  have hrows : ∀ e ∈ s.emittedEvents, s.clock < e.expiresAt → e ∈ s.db.events.rows := by
    intro e he hexp
    obtain ⟨ev, hev, heq⟩ := List.mem_filterMap.mp he
    cases ev with
    | emitted e' te =>
      cases heq
      exact (hs.eventInv.logged e te hev).resolve_right hexp.not_ge
    | _ => cases heq
  cases hfound : s.db.latestEvent key start with
  | none =>
    intro e he hkey
    by_contra hexp
    have hin := hrows e he (not_le.mp hexp)
    exact hexp ((Db.latestEvent_none hfound hin hkey).trans hstart)
  | some payload =>
    obtain ⟨e, he, hkey, hexp, hpayload, hmax⟩ := Db.latestEvent_some hfound
    refine ⟨e, hs.events he, hkey, hexp, hpayload, fun e' he' hkey' hexp' => ?_⟩
    exact (hmax e' (hrows e' he' hexp') hkey' (hstart.trans_lt hexp')).imp_right fun h =>
      ⟨h.1.symm, h.2⟩

def Watches (s : Server J) : Prop :=
  ∀ token tx run index timeoutMs complete, s.txs.get (.wait token) = some tx →
    tx.job = .wait token run index timeoutMs complete → s.Watching tx index timeoutMs complete

lemma Watches.step (hw : s.Watches) (hs : s.Reachable) (h : s.step a = some s') : s'.Watches := by
  intro token tx run index timeoutMs complete hget hjob
  have hclock := clock_le h
  obtain ⟨evs, hevs, hfinds, -⟩ := finds hs.holding h
  have hlog : s'.emittedEvents = s.emittedEvents ++ evs.filterMap Ev.emitted? := by
    rw [emittedEvents, emittedEvents, hevs, List.filterMap_append]
  rcases tx_cases h hget with hget | ⟨job, key, rfl⟩ | ⟨tx₀, phase, hget₀, ha, rfl, hturns⟩
  · -- the registration holds its key
    have hkept : ∀ {t found}, tx.holdsKey = true →
        Store.Finds s.emittedEvents tx.key tx.start t found →
        Store.Finds s'.emittedEvents tx.key tx.start t found := by
      intro t found hholds hfound
      rw [hlog]
      refine hfound.append fun e he => ?_
      obtain ⟨ev, hev, heq⟩ := List.mem_filterMap.mp he
      cases ev with
      | emitted e' te => cases heq; exact emitted_other hs.inv.tx hget hholds (hfinds _ hev)
      | _ => cases heq
    obtain ⟨hlooked, hwrote⟩ := hw token tx run index timeoutMs complete hget hjob
    refine ⟨fun found hphase => ?_, fun w clock hphase => ?_⟩
    · obtain ⟨t, hstart, ht, hfound⟩ := hlooked found hphase
      exact ⟨t, hstart, ht.trans hclock, hkept (by simp [Tx.holdsKey, hphase]) hfound⟩
    · obtain ⟨found, t, hw', hstart, ht, hle, hfound⟩ := hwrote w clock hphase
      exact ⟨found, t, hw', hstart, ht, hle.trans hclock,
        hkept (by simp [Tx.holdsKey, hphase]) hfound⟩
  · exact ⟨by simp, by simp⟩
  · cases hturns with
    | locked | emitted => exact ⟨by simp, by simp⟩
    | looked _ _ hhist =>
      refine ⟨fun found hfound => ?_, by simp⟩
      cases hfound
      have hstart := hs.inv.tx.start tx₀ (Table.get_eq_some_iff.mp hget₀).1
      have hsame : s'.emittedEvents = s.emittedEvents := by
        rw [emittedEvents, hhist]; simp [emittedEvents, Ev.emitted?]
      rw [hsame]
      exact ⟨s.clock, hstart, hclock, hs.finds_latest hstart⟩
    | wrote _ hjob' hphase _ hhist =>
      have hjob : tx₀.job = .wait token run index timeoutMs complete := hjob
      cases hjob.symm.trans hjob'
      refine ⟨by simp, fun w clock hw' => ?_⟩
      cases hw'
      obtain ⟨t, hstart, ht, hfound⟩ :=
        (hw token tx₀ run index timeoutMs complete hget₀ hjob).looked _ hphase
      have hsame : s'.emittedEvents = s.emittedEvents := by
        rw [emittedEvents, hhist]; simp [emittedEvents, Ev.emitted?]
      rw [hsame]
      exact ⟨_, t, rfl, hstart, ht, hclock, hfound⟩

lemma Reachable.emission (hs : s.Reachable) {id : TxId} {tx : Tx J} {e : Event J}
    {woken : List RunId} (hget : s.txs.get id = some tx) (hphase : tx.phase = .emitted e woken) :
    e.expiresAt = e.createdAt + millis eventTTLMs ∧ woken.Nodup := by
  obtain ⟨clock, hs⟩ := hs
  refine hs.invariant (P := fun s : Server J => ∀ id tx e woken, s.txs.get id = some tx →
      tx.phase = .emitted e woken → e.expiresAt = e.createdAt + millis eventTTLMs ∧ woken.Nodup)
    (fun _ _ _ _ h => by cases h) (fun s a s' ih _ h id tx e woken hget hphase => ?_) id tx e woken
    hget hphase
  rcases tx_cases h hget with hget | ⟨job, key, rfl⟩ | ⟨tx₀, phase, -, -, rfl, hturns⟩
  · exact ih id tx e woken hget hphase
  · cases hphase
  · cases hturns with
    | emitted =>
      cases hphase
      exact ⟨rfl, (List.filter_sublist.map Row.id).nodup s.db.runs.nodup⟩
    | _ => cases hphase

/-! ### The refinement -/

lemma Woken.emitted (hw : s.Woken) (hs : s.TxInv) {tx : Tx J} {n : ℕ} {payload : J} {e : Event J}
    {woken : List RunId} (htx : tx ∈ s.txs.rows) (hjob : tx.job = .emit n payload)
    (hphase : tx.phase = .emitted e woken) :
    s.seen.apply ((wake tx.key payload tx.start).pinned woken) =
      s.seen.apply (wake tx.key payload tx.start) := by
  have hready := hs.ready tx htx
  simp only [Tx.Ready, hphase, hjob] at hready
  refine congrArg (Store.mk _ · _) (funext fun run => View.apply_congr rfl rfl fun r hr => ?_)
  have hid : r.id = run := Db.run_id hr
  simp only [Update.pinned, hid]
  by_cases hmem : run ∈ woken
  · obtain ⟨r', hr', hg⟩ := hready.2.2 run hmem
    cases hr.symm.trans hr'
    simp [hmem, hg]
  · have hg : (wake tx.key payload tx.start).guard r = false := by
      rw [Bool.eq_false_iff]
      exact fun hg => hmem (hw tx.id tx n payload e woken (Table.get_of_mem htx) hjob hphase run r
        hr hg)
    simp [hmem, hg]

lemma TxInv.waited (hs : s.TxInv) {tx : Tx J} {token : Token} {index : ℕ} {timeoutMs : ℤ}
    {complete : Bool} {w : Write J} {clock : Time} (htx : tx ∈ s.txs.rows)
    (hjob : tx.job = .wait token run index timeoutMs complete)
    (hphase : tx.phase = .wrote w clock) :
    s.seen.apply ((s.writeUpdate run token w tx.start clock).pinned [run]) =
      s.seen.apply (w.update (s.seen.view run).cps run token tx.start clock) := by
  have hready := hs.ready tx htx
  simp only [Tx.Ready, hphase, hjob] at hready
  obtain ⟨r₀, hr₀, hg₀⟩ := hready
  refine congrArg (Store.mk _ · _) (funext fun run' => View.apply_congr rfl rfl fun r hr => ?_)
  have hid : r.id = run' := Db.run_id hr
  by_cases hrun : run' = run
  · subst hrun
    cases hr.symm.trans hr₀
    change decide (r₀.id ∈ [run']) =
      (w.update (s.db.checkpoint run') run' token tx.start clock).guard r₀
    rw [hg₀, hid]
    simp
  · have hg : (w.update (s.seen.view run).cps run token tx.start clock).guard r = false := by
      rw [Bool.eq_false_iff]
      intro hg
      exact hrun (hid.symm.trans (fence_iff.mp (Write.fence_of_guard hg)).1)
    simp [Update.pinned, hid, hrun, hg]

/-- The action comes from workers that drive these definitions. -/
structure Follows {Ω : Type} (reg : Registry Ω) (s : Server J) (a : Act J) : Prop where
  direct : ∀ run token w now, a = .write run token w now → s.seen.Direct reg run w
  waits : ∀ token tx run index timeoutMs complete, s.txs.get (.wait token) = some tx →
    tx.job = .wait token run index timeoutMs complete → ∃ name resolver timeout,
      s.seen.OpAt reg run index (.waitEvent name resolver timeout) ∧
      timeoutMs = milliseconds timeout

omit [Jsonb J] in
lemma Follows.registers {Ω : Type} {reg : Registry Ω} (h : s.Follows reg a) : a.Registers :=
  fun run token _ _ _ now ha => h.direct run token _ now ha

/-- **Step**: what is seen stays as it is, or moves as the picture does. -/
lemma refines {Ω : Type} {reg : Registry Ω} (hs : s.Reachable) (hw : s.Woken) (hwatch : s.Watches)
    (ha : s.Follows reg a) (h : s.step a = some s') :
    s'.seen = s.seen ∨ Store.Step reg s.seen s'.seen := by
  have hi := hs.inv
  cases does h with
  | tick hclock => exact Or.inr (.pass hclock)
  | touch hnow => rw [seen_exec]; exact Or.inr (.deduplicated hnow)
  | @insert n now hnow hstore hnew hnone =>
    right
    have hseen : seen { s with
        db := { s.db with runs := s.db.runs.insert (n.row now) }
        hist := s.hist ++ [.change n.id (.inserted n now)] } =
        { s.seen with
          view := Function.update s.seen.view n.id
            ⟨some (n.row now), (s.seen.view n.id).cps⟩ } := by
      have hlog : (s.hist ++ [Ev.change n.id (.inserted n now)]).filterMap Ev.emitted? =
          s.emittedEvents := by simp [emittedEvents, Ev.emitted?]
      refine (congrArg (Store.mk s.clock _) hlog).trans (congrArg (Store.mk _ · _) ?_)
      funext run
      have hget : (s.db.runs.insert (n.row now)).get run =
          (s.db.runs.get run).or (if n.id = run then some (n.row now) else none) :=
        s.db.runs.get_insert (n.row now) run
      by_cases hrun : run = n.id
      · subst hrun
        rw [Function.update_self]
        refine congrArg (View.mk · _) ?_
        rw [Db.run, hget, show s.db.runs.get n.id = none from hnone]
        simp
      · rw [Function.update_of_ne hrun]
        refine congrArg (View.mk · _) ?_
        rw [Db.run, hget]
        simp [Ne.symm hrun, Db.run]
    rw [hseen]
    refine .enqueue hnow hstore hnone fun run r hr => ?_
    have hnone := List.any_eq_false.mp hnew r (Db.mem_of_run hr)
    simpa using hnone
  | @claim q gen now hnow ids hids hnodup hfresh =>
    subst hids
    rw [seen_exec]
    refine Or.inr (.claim hnow (hi.tx.picks_claimable q now) hnodup fun id hid run r hr ht => ?_)
    exact hfresh (gen id) (List.mem_map_of_mem hid) (mem_tokens ((hi.life run).token hr ht))
  | renew hnow => rw [seen_exec]; exact Or.inr (.renewLeases hnow)
  | write hnow => rw [seen_exec]; exact Or.inr (.write hnow (ha.direct _ _ _ _ rfl))
  | recover hnow hids =>
    subst hids; rw [seen_exec]; exact Or.inr (.recoverLeases hnow (s.picks _ _ _))
  | promote hnow hids =>
    subst hids; rw [seen_exec]; exact Or.inr (.promoteTimedOut hnow (s.picks _ _ _))
  | cancel hnow => rw [seen_exec]; exact Or.inr (.cancelRun hnow)
  | prune | begin | lock | emit | rollback =>
    exact Or.inl (seen_eq rfl rfl rfl (List.append_nil _).symm rfl)
  | look | refuse | refuseWait | hold => exact Or.inl (seen_eq rfl rfl rfl rfl rfl)
  | @emitted tx n payload e woken htx hjob hphase =>
    right
    have hget := Table.get_of_mem htx
    have hready := hi.tx.ready tx htx
    simp only [Tx.Ready, hphase, hjob] at hready
    obtain ⟨hkey, hcreated, -, hlast⟩ := hs.choiceInv.order.pending tx.id tx e woken hget hphase
    have hlog : (s.hist ++ [Ev.emitted e s.clock]).filterMap Ev.emitted? =
        s.emittedEvents ++ [e] := by simp [emittedEvents, Ev.emitted?]
    have hseen : seen { s.close tx.id with
        db := { s.db with events := s.db.events.insert e }
        hist := s.hist ++ [Ev.emitted e s.clock] } = { s.seen with log := s.seen.log ++ [e] } :=
      congrArg (Store.mk s.clock s.view) hlog
    have happly := hw.emitted hi.tx htx hjob hphase
    rw [seen_exec, hseen]
    have hview : ({ s.seen with log := s.seen.log ++ [e] } : Store J).apply
        ((wake tx.key payload tx.start).pinned woken) =
        { s.seen.apply (wake e.eventKey e.payload e.createdAt) with log := s.seen.log ++ [e] } := by
      rw [hkey, hready.2.1, hcreated]
      exact congrArg (fun st : Store J => { st with log := s.seen.log ++ [e] }) happly
    rw [hview]
    refine .emitEvent (hcreated.trans_le (hi.tx.start tx htx)) (hs.emission hget hphase).1 ?_
    intro e' he' hsame
    obtain ⟨ev, hev, heq⟩ := List.mem_filterMap.mp he'
    cases ev with
    | emitted e'' te => cases heq; exact hlast e' te hev hsame
    | _ => cases heq
  | @waited tx token run index timeoutMs complete w clock htx hjob hphase =>
    right
    have hid : tx.id = .wait token := by rw [Tx.id, hjob]; rfl
    have hget : s.txs.get (.wait token) = some tx := hid ▸ Table.get_of_mem htx
    obtain ⟨found, t, rfl, hstart, ht, hclock, hfound⟩ :=
      (hwatch token tx run index timeoutMs complete hget hjob).wrote w clock hphase
    obtain ⟨name, resolver, timeout, hop, rfl⟩ := ha.waits token tx run index _ complete hget hjob
    rw [seen_exec, show (s.close tx.id).seen = s.seen from rfl, hi.tx.waited htx hjob hphase]
    exact .waitForEvent hop hstart ht hclock hfound

end Server

namespace System

variable {Ω : Type} {reg : Registry Ω} {y y' : System J Ω} [Jsonb J]

lemma Inv.seen_opAt (h : y.Inv reg) {token : Token} {p : Proc J Ω} (hp : y.procs token = some p)
    {index : ℕ} {op : Operation Ω} (hop : p.wf.ops[index]? = some op) :
    y.srv.seen.OpAt reg p.run.id index op := by
  have hknows := (h.proc token p hp).knows
  obtain ⟨r, hr, -, hname, hversion, -⟩ := hknows.row
  exact ⟨r, p.wf, hr, by rw [hname, hversion]; exact hknows.wf, hop⟩

lemma Inv.follows (h : y.Inv reg) {m : Move J Ω} (hstep : y.step reg m = some y') :
    y'.srv = y.srv ∨ ∃ a : Act J, y.srv.Follows reg a ∧ y.srv.step a = some y'.srv := by
  refine (h.writes hstep).imp_right ?_
  rintro ⟨a, hs, hwrites⟩
  refine ⟨a, ⟨fun run token w now ha => ?_,
    fun token tx run index timeoutMs complete htx hjob => ?_⟩, hs⟩
  · subst ha
    obtain ⟨p, hp, rfl, -, hsends | ⟨_, _, _, rfl⟩ | ⟨tx, ha, -⟩⟩ :=
      hwrites run token w now _ (.wrote ..)
    · cases w with
      | commitStep index x complete =>
        obtain ⟨rfl, -, -, -, name, fn, timeout, hop, -⟩ := hsends
        exact ⟨name, fn, timeout, h.seen_opAt hp hop⟩
      | parkWait => exact hsends
      | completeRun | parkSleep | failOrRetry => trivial
    · trivial
    · cases ha
  · obtain ⟨p, hp⟩ := Option.isSome_iff_exists.mp (h.owner token (by rw [htx]; rfl))
    obtain ⟨-, -, -, -, timeout, ⟨-, name, resolver, hop, -⟩, hjob', -⟩ :=
      (h.proc token p hp).asks.tx tx htx
    rw [hjob] at hjob'; cases hjob'
    exact ⟨name, resolver, timeout, h.seen_opAt hp hop, rfl⟩

/-- What the simulation needs of a state. -/
structure Seen (reg : Registry Ω) (y : System J Ω) : Prop where
  inv : y.Inv reg
  woken : y.srv.Woken
  watches : y.srv.Watches

lemma Seen.step (hy : y.Seen reg) {m : Move J Ω} (h : y.step reg m = some y') :
    y'.Seen reg ∧ (y'.srv.seen = y.srv.seen ∨ Store.Step reg y.srv.seen y'.srv.seen) := by
  have hinv' := hy.inv.step h
  rcases hy.inv.follows h with heq | ⟨a, ha, hs⟩
  · exact ⟨⟨hinv', heq ▸ hy.woken, heq ▸ hy.watches⟩, Or.inl (by rw [heq])⟩
  · exact ⟨⟨hinv', hy.woken.step hy.inv.srv.inv hy.inv.srv.eventInv.registering ha.registers hs,
      hy.watches.step hy.inv.srv hs⟩, Server.refines hy.inv.srv hy.woken hy.watches ha hs⟩

/-- The emission that is about to commit. -/
def emission? (tx : Tx J) : Option (ℕ × J × List RunId) :=
  match tx.job, tx.phase with
  | .emit n payload, .emitted _ woken => some (n, payload, woken)
  | _, _ => none

omit [Jsonb J] in
lemma emission?_some {tx : Tx J} {n : ℕ} {payload : J} {woken : List RunId}
    (h : emission? tx = some (n, payload, woken)) :
    ∃ e, tx.job = .emit n payload ∧ tx.phase = .emitted e woken := by
  unfold emission? at h
  split at h
  · rename_i hjob hphase
    cases h
    exact ⟨_, hjob, hphase⟩
  · cases h

/-- **What `EmitEvent` returns is true when it commits.** The runs it counts are, at that moment,
exactly those that wait on its key and whose deadline comes after its start, each counted once,
whatever has happened since its statement; each of them is made ready with the payload as the
result of its wait, and its queue is notified; nothing else changes. -/
theorem emit_broadcasts (hy : y.Reachable reg) {n : ℕ} {tx : Tx J} {payload : J} {e : Event J}
    {woken : List RunId} {s' : Server J} (htx : y.srv.txs.get (.emit n) = some tx)
    (hjob : tx.job = .emit n payload) (hphase : tx.phase = .emitted e woken)
    (h : y.srv.step (.commit (.emit n)) = some s') :
    woken.Nodup ∧
    (∀ run, run ∈ woken ↔ ∃ r deadline, y.srv.db.run run = some r ∧ r.state = .waitingEvent ∧
      r.waitingEventKey = some tx.key ∧ r.waitingDeadline = some deadline ∧ tx.start < deadline) ∧
    (∀ run ∈ woken, ∃ r r', y.srv.db.run run = some r ∧ s'.db.run run = some r' ∧
      r'.state = .ready ∧ r'.nextRunAt = tx.start ∧
      s'.db.checkpoint run r.stepIndex = some (received payload) ∧
      r'.queue ∈ y.srv.notified (.commit (.emit n))) ∧
    ∀ run, run ∉ woken → s'.view run = y.srv.view run := by
  have hid : tx.id = .emit n := by rw [Tx.id, hjob]; rfl
  have hmem := (Table.get_eq_some_iff.mp htx).1
  have hready := hy.inv.srv.inv.tx.ready tx hmem
  simp only [Tx.Ready, hphase, hjob] at hready
  have hview : ∀ run, s'.view run =
      (y.srv.view run).apply ((wake tx.key payload tx.start).pinned woken) := by
    intro run
    rw [Server.step_commit htx] at h
    simp only [Server.commit, hjob, hphase] at h
    cases h
    exact Server.view_exec _ _ _ run
  refine ⟨(hy.inv.srv.emission htx hphase).2, fun run => ⟨fun hrun => ?_, ?_⟩, fun run hrun => ?_,
    fun run hrun => ?_⟩
  · obtain ⟨r, hr, hg⟩ := hready.2.2 run hrun
    simp only [wake, Bool.and_eq_true, decide_eq_true_eq] at hg
    obtain ⟨deadline, hd, hlt⟩ := Option.any_eq_true _ _ |>.mp hg.2
    exact ⟨r, deadline, hr, hg.1.1, hg.1.2, hd, by simpa using hlt⟩
  · rintro ⟨r, deadline, hr, hwait, hkey, hd, hlt⟩
    exact hy.delivers.woken _ tx n payload e woken htx hjob hphase run r hr
      (by simp [wake, hwait, hkey, hd, hlt])
  · obtain ⟨r, hr, hg⟩ := hready.2.2 run hrun
    have hwait : r.state = .waitingEvent := by
      simp only [wake, Bool.and_eq_true, decide_eq_true_eq] at hg
      exact hg.1.1
    obtain ⟨wf, -, hc⟩ := hy.inv.course hr
    have hpin : ((wake tx.key payload tx.start).pinned woken).guard r = true :=
      decide_eq_true (by rw [Db.run_id hr]; exact hrun)
    have hrow : s'.db.run run = some ((wake tx.key payload tx.start).set r) := by
      have hv : (y.srv.view run).row = some r := hr
      refine (congrArg View.row (hview run)).trans ?_
      simp only [View.apply, hv, if_pos hpin]
      rfl
    refine ⟨r, _, hr, hrow, rfl, rfl, ?_, ?_⟩
    · exact Server.delivered_checkpoint (hid ▸ htx) hjob hphase (hid ▸ h) hr hrun
        (hc.cursor.none_of_waiting hwait)
    · simp only [Server.notified, htx, Option.map_some, hphase]
      exact show r.queue ∈ _ from Server.mem_queues hr hrun
  · rw [hview run]
    unfold View.apply
    split
    · rfl
    · rename_i r hr
      have hid : r.id = run := Db.run_id hr
      exact if_neg (by simpa [Update.pinned, hid] using hrun)

/-- The emission has run its statement and wakes one run. -/
theorem emit_broadcasts_one : ∃ (y : System Doc Unit) (s' : Server Doc) (woken : List RunId),
    y.srv.step (.commit (.emit 0)) = some s' ∧ woken = ["r"] ∧ woken.Nodup ∧
    ∀ run ∈ woken, ∃ r r', y.srv.db.run run = some r ∧ s'.db.run run = some r' ∧
      r'.state = .ready ∧ s'.db.checkpoint run r.stepIndex = some (received (.bool false)) := by
  let acts : List (Move Doc Unit) := threeClaims.take 14 ++
    [.emitEvent 0 "k" (utf8 "false"), .outside (.lockEventKey (.emit 0)),
      .outside (.statement (.emit 0))]
  have hrun : ((acts.foldlM (step threeOps) (init 0)).map fun y =>
      ((y.srv.step (.commit (.emit 0))).isSome, (y.srv.txs.get (.emit 0)).bind emission?)) =
      some (true, some (0, .bool false, ["r"])) := by
    decide +kernel
  obtain ⟨y, hy, heq⟩ := Option.map_eq_some_iff.mp hrun
  simp only [Prod.mk.injEq] at heq
  obtain ⟨hcommit, hem⟩ := heq
  obtain ⟨s', hs'⟩ := Option.isSome_iff_exists.mp hcommit
  obtain ⟨tx, htx, hem⟩ := Option.bind_eq_some_iff.mp hem
  obtain ⟨e, hjob, hphase⟩ := emission?_some hem
  obtain ⟨hnodup, -, hwoken, -⟩ := emit_broadcasts (.of_run 0 acts hy) htx hjob hphase hs'
  refine ⟨y, s', ["r"], hs', rfl, hnodup, fun run hrun => ?_⟩
  obtain ⟨r, r', hr, hr', hready, -, hcps, -⟩ := hwoken run hrun
  exact ⟨r, r', hr, hr', hready, hcps⟩

end System

end DurablePg

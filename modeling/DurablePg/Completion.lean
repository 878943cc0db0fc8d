import DurablePg.ClaimBound
import DurablePg.Defences
import DurablePg.Locking
import DurablePg.Picking

/-!
No state is a dead end: whatever has happened, a run that has not ended can still be completed.

The way there is the one the workers take. Open transactions are rolled back, a lease that has run
out is recovered, a wait that has timed out is promoted, the run is claimed once it is due, and the
claim is driven until the run is completed or parked. Rounds of this come to an end, because a run
cannot be claimed for ever.
-/

namespace DurablePg

open DurablePg.Lib

variable {J Ω : Type} [Jsonb J]

/-- Every step can return a result and every event key can be resolved, whatever the context. -/
def CompiledWorkflow.CanSucceed (J : Type) [Jsonb J] (wf : CompiledWorkflow Ω) : Prop :=
  ∀ op ∈ wf.ops, ∀ sc : StepContext,
    match op with
    | .step name fn _ => ∃ ω raw, executeStepSafely name fn ω sc = .ok raw ∧
        (parse raw : Option J).isSome
    | .waitEvent _ key _ => ∃ ω k, key.resolve ω sc = .ok k
    | .sleep _ => True

/-! ### Maintenance makes headway -/

namespace Server

variable {s : Server J}

end Server

/-- A statement of maintenance that moves the rows that are due out of a state, a batch at a
time. -/
structure Sweep (J : Type) where
  act : Act J
  state : RunState
  due : Row J → Bool
  order : Row J → Time
  update : List RunId → Update J
  change : Row J → Change J
  guard : ∀ ids r, (update ids).guard r = decide (r.id ∈ ids)
  found : ∀ r, due r = true → r.state = state
  moved : ∀ ids r, ((update ids).set r).state ≠ state

/-- The statement runs. -/
def Sweep.exec (w : Sweep J) (s : Server J) : Server J :=
  s.exec (w.update (s.db.picked w.due w.order s.locked maintenanceBatch)) w.change

/-- `recoverLeases`. -/
def recovery (clock : Time) : Sweep J where
  act := .recoverLeases clock
  state := .leased
  due := expiredLease clock
  order r := r.leaseUntil.getD 0
  update ids := recoverLeases ids clock clock
  change _ := .recovered clock clock
  guard _ _ := rfl
  found _ h := of_decide_eq_true (Bool.and_eq_true_iff.mp h).1
  moved _ r := by simp only [recoverLeases]; split <;> simp

namespace System

variable {reg : Registry Ω} {y : System J Ω} {run : RunId} {r : Row J}

/-- A move by which a worker goes on, maintenance recovers or promotes, or time passes. -/
def own : Move J Ω → Bool
  | .outside (.tick _) | .outside (.recoverLeases _) | .outside (.promoteTimedOut _) => true
  | .claim _ _ _ _ lost | .exec _ _ lost | .commit _ lost => !lost
  | .turn .. | .begin _ | .lockEventKey _ | .latestEvent _ | .statement _ => true
  | .outside _ | .emitEvent .. | .enqueue .. | .execFailure .. => false

/-- The workers and maintenance alone get from one state to another. -/
abbrev Works (reg : Registry Ω) : System J Ω → System J Ω → Prop :=
  ReachesBy (step reg) fun _ m => own m = true

/-- No transaction is open. -/
def Quiet (y : System J Ω) : Prop := y.srv.txs.rows = []

omit [Jsonb J] in
lemma Quiet.locked (h : y.Quiet) (run : RunId) : y.srv.locked run = false := by
  simp [Server.locked, show y.srv.txs.rows = [] from h]

omit [Jsonb J] in
lemma Quiet.free (h : y.Quiet) (u : Update J) : y.srv.free u = true := by
  simp [Server.free, h.locked]

omit [Jsonb J] in
lemma Quiet.get (h : y.Quiet) (id : TxId) : y.srv.txs.get id = none := by
  simp [Table.get, show y.srv.txs.rows = [] from h]

/-- A claim in progress that holds its lease and is about to look at its next operation. -/
structure Drives (reg : Registry Ω) (y : System J Ω) (run : RunId) (token : Token)
    (p : Proc J Ω) (r : Row J) : Prop where
  reach : y.Reachable reg
  quiet : y.Quiet
  proc : y.procs token = some p
  id : p.run.id = run
  pc : p.pc = .loop
  row : y.srv.db.run run = some r
  fence : DurablePg.fence run token y.srv.clock r = true

section Driving

variable {token : Token} {p : Proc J Ω}

variable (reg) in
lemma reaches_turn (hp : y.procs token = some p) {t : Turn Ω} {p' : Proc J Ω} {ks : List (Call Ω)}
    (ht : p.turn t = some (p', ks)) :
    ∃ y', Works reg y y' ∧ y'.srv = y.srv ∧ y'.procs token = some p' := by
  have hstep : y.step reg (.turn token t) =
      some { y.setProc token p' with calls := y.calls ++ ks } := by
    simp [step, hp, ht]
  exact ⟨_, .single ⟨_, rfl, hstep⟩, rfl, Function.update_self ..⟩

lemma reaches_exec (hy : y.Reachable reg) (hquiet : y.Quiet) (hp : y.procs token = some p)
    {w : Write J} (hw : p.sent = some w) (hr : y.srv.db.run p.run.id = some r)
    (hf : fence p.run.id token y.srv.clock r = true) :
    ∃ y' existing, Works reg y y' ∧ y'.Quiet ∧ y'.srv.clock = y.srv.clock ∧
      y'.srv.db.run p.run.id =
        some ((w.update existing p.run.id token y.srv.clock y.srv.clock).set r) ∧
      y'.procs token = some (({ p with sent := none } : Proc J Ω).answered true
        (existing p.index)) := by
  have hpending : y.Pending token p w y.srv.clock := .sent hw
  have howns := hy.inv.owns_of_fence hp hpending hr hf
  set u := y.srv.writeUpdate p.run.id token w y.srv.clock y.srv.clock with hu
  have hstep : y.srv.step (.write p.run.id token w y.srv.clock) =
      some (y.srv.exec u fun _ => .wrote token w y.srv.clock y.srv.clock) := by
    simp [Server.step, Server.write, howns, hquiet.free, ← hu]
  have hg : u.guard r = true := by
    obtain ⟨r', hr', hg⟩ := Option.any_eq_true _ _ |>.mp howns
    rw [hr] at hr'
    cases hr'
    exact hg
  set s := y.srv.exec u fun _ => .wrote token w y.srv.clock y.srv.clock with hs
  set y₁ := ({ y with srv := s } : System J Ω).setProc token
    (({ p with sent := none } : Proc J Ω).answered true (y.srv.db.checkpoint p.run.id p.index))
    with hy₁
  have hmove : y.step reg (.exec token y.srv.clock false) = some y₁ := by
    simp [step, hp, hw, hstep, howns, hy₁]
  refine ⟨y₁, y.srv.db.checkpoint p.run.id, .single ⟨_, rfl, hmove⟩, hquiet, rfl, ?_, ?_⟩
  · simp only [hy₁, setProc]
    rw [hs, Server.exec_run, hr, Option.map_some, if_pos hg]
    rfl
  · simp [hy₁, setProc]

/-- From `y`, the worker of a claim has got into the transaction `tx`, the only one that is open,
and nothing else has changed. -/
structure Alone (reg : Registry Ω) (y z : System J Ω) (token : Token) (p : Proc J Ω) (tx : Tx J) :
    Prop where
  reach : Works reg y z
  rows : z.srv.txs.rows = [tx]
  id : tx.id = .wait token
  db : z.srv.db = y.srv.db
  clock : z.srv.clock = y.srv.clock
  proc : z.procs token = some p

namespace Alone

variable {z : System J Ω} {tx : Tx J}

lemma get (h : Alone reg y z token p tx) : z.srv.txs.get (.wait token) = some tx := by
  simp [Table.get, h.rows, h.id]

lemma phase (h : Alone reg y z token p tx) {m : Move J Ω} {z' : System J Ω} {p' : Proc J Ω}
    {phase : Phase J} (hown : own m = true) (hstep : z.step reg m = some z')
    (htxs : z'.srv.txs = (z.srv.setPhase (.wait token) phase).txs) (hdb : z'.srv.db = z.srv.db)
    (hclock : z'.srv.clock = z.srv.clock) (hproc : z'.procs token = some p') :
    Alone reg y z' token p' { tx with phase := phase } where
  reach := h.reach.tail ⟨m, hown, hstep⟩
  rows := by
    rw [htxs]
    simp [Server.setPhase, Table.updateWhere, h.rows, h.id]
  id := h.id
  db := hdb.trans h.db
  clock := hclock.trans h.clock
  proc := hproc

lemma begin (hquiet : y.Quiet) (hp : y.procs token = some p) {k name : String}
    {key : EventKey Ω} {timeout : Time} (hpc : p.pc = .begin k)
    (hop : p.wf.ops[p.index]? = some (.waitEvent name key timeout)) :
    ∃ z, Alone reg y z token { p with pc := .wait none }
      ⟨.wait token p.run.id p.index (milliseconds timeout) p.complete, k, y.srv.clock, .begun⟩ := by
  have hrows : y.srv.txs.rows = [] := hquiet
  set tx : Tx J := ⟨.wait token p.run.id p.index (milliseconds timeout) p.complete, k,
    y.srv.clock, .begun⟩ with htx
  set s : Server J := { y.srv with txs := y.srv.txs.insert tx } with hs
  have hsrv : y.srv.step (.begin tx.job k) = some s := by
    simp [Server.step, hquiet.get, hs, htx]
  have hstep : y.step reg (.begin token) =
      some (({ y with srv := s } : System J Ω).setProc token { p with pc := .wait none }) := by
    simp only [htx] at hsrv
    simp [step, System.begin, hp, hpc, hop, hsrv]
  refine ⟨_, .single ⟨_, rfl, hstep⟩, ?_, rfl, rfl, rfl, by simp [setProc]⟩
  simp [setProc, hs, Table.insert, hrows]

lemma lock (h : Alone reg y z token p tx) (hphase : tx.phase = .begun) (hpc : inWait p = true) :
    ∃ z', Alone reg y z' token p { tx with phase := .locked } := by
  have hheld : z.srv.keyHeld tx.key = false := by
    simp [Server.keyHeld, h.rows, Tx.holdsKey, hphase]
  have hstep : z.step reg (.lockEventKey token) =
      some { z with srv := z.srv.setPhase (.wait token) .locked } := by
    simp [step, h.proc, hpc, Server.step_lockEventKey h.get hphase, hheld]
  exact ⟨_, h.phase rfl hstep rfl rfl rfl h.proc⟩

lemma look (h : Alone reg y z token p tx) (hphase : tx.phase = .locked) (hpc : inWait p = true) :
    ∃ z' found, Alone reg y z' token
      { p with pc := .wait (found.map fun payload => receivedBytes (text payload)) }
      { tx with phase := .looked found } := by
  have hstep : z.step reg (.latestEvent token) = some
      (({ z with srv := { z.srv.setPhase (.wait token)
          (.looked (z.srv.db.latestEvent tx.key tx.start)) with
        hist := z.srv.hist ++ [.looked token tx.key (z.srv.db.latestEvent tx.key tx.start)
          z.srv.clock] } } : System J Ω).setProc token { p with
        pc := .wait ((z.srv.db.latestEvent tx.key tx.start).map fun payload =>
          receivedBytes (text payload)) }) := by
    simp [step, h.proc, hpc, h.get, Server.step_latestEvent h.get hphase]
  exact ⟨_, _, h.phase rfl hstep rfl rfl rfl (by simp [setProc])⟩

lemma write (h : Alone reg y z token p tx) (hy : y.Reachable reg) (hpc : inWait p = true)
    {found : Option J} (hphase : tx.phase = .looked found) {index : ℕ} {timeoutMs : ℤ}
    {complete : Bool} (hjob : tx.job = .wait token p.run.id index timeoutMs complete)
    (hr : y.srv.db.run p.run.id = some r) (hf : fence p.run.id token y.srv.clock r = true) :
    ∃ z', Alone reg y z' token p { tx with
      phase := .wrote (Server.waitWrite found tx.key index timeoutMs complete) y.srv.clock } := by
  set w := Server.waitWrite found tx.key index timeoutMs complete with hw
  have hz := (hy.later h.reach.reaches).inv
  have howns : z.srv.owns p.run.id token w tx.start = true :=
    hz.owns_of_fence h.proc (.wait h.get hphase hjob) (h.db ▸ hr) (h.clock ▸ hf)
  have hmem : tx ∈ z.srv.txs.rows := by rw [h.rows]; exact List.mem_singleton_self _
  have hfree := hz.srv.inv.tx.wait_free hmem hjob hphase w z.srv.clock
  set s : Server J := { z.srv.setPhase (.wait token) (.wrote w z.srv.clock) with
    hist := z.srv.hist ++ [.held p.run.id token w z.srv.clock] } with hs
  have hsrv : z.srv.step (.statement (.wait token)) = some s := by
    rw [Server.step_statement h.get, Server.statement]
    simp only [hjob, hphase, h.id]
    rw [if_neg (by simp [← hw, howns]), if_pos hfree]
  have howned : (s.txs.get (.wait token)).any (fun tx => tx.holdsRun p.run.id) = true := by
    simp [hs, Server.setPhase, Table.updateWhere, Table.get, h.rows, Tx.holdsRun, hjob, Tx.id,
      Job.id]
  have hstep : z.step reg (.statement token) =
      some (({ z with srv := s } : System J Ω).setProc token p) := by
    simp [step, h.proc, hpc, hsrv, howned]
  rw [← h.clock]
  exact ⟨_, h.phase rfl hstep rfl rfl rfl (by simp [setProc])⟩

lemma commit (h : Alone reg y z token p tx) {w : Write J} {clock : Time}
    (hphase : tx.phase = .wrote w clock) {index : ℕ} {timeoutMs : ℤ} {complete : Bool}
    (hjob : tx.job = .wait token p.run.id index timeoutMs complete)
    (hr : y.srv.db.run p.run.id = some r) :
    ∃ z' existing, Works reg y z' ∧ z'.Quiet ∧ z'.srv.clock = y.srv.clock ∧
      z'.srv.db.run p.run.id =
        some ((w.update existing p.run.id token tx.start clock).set r) ∧
      z'.procs token = some (p.answered true (existing p.index)) := by
  set u := (z.srv.writeUpdate p.run.id token w tx.start clock).pinned [p.run.id] with hu
  set s := (z.srv.close (.wait token)).exec u fun _ => .wrote token w tx.start clock with hs
  have hsrv : z.srv.step (.commit (.wait token)) = some s := by
    rw [Server.step_commit h.get, Server.commit]
    simp only [hjob, hphase, h.id, hs, hu]
  have hstep : z.step reg (.commit token false) = some (({ z with srv := s } : System J Ω).setProc
      token (p.answered true (z.srv.db.checkpoint p.run.id p.index))) := by
    simp [step, h.proc, hsrv]
  have hrun : (z.srv.close (.wait token)).db.run p.run.id = some r := by
    rw [← hr, ← h.db]; rfl
  refine ⟨_, z.srv.db.checkpoint p.run.id, h.reach.tail ⟨_, rfl, hstep⟩, ?_, h.clock, ?_,
    by simp [setProc]⟩
  · simp [Quiet, setProc, hs, Server.exec, Server.close, Table.deleteWhere, h.rows, h.id]
  · have hg : u.guard r = true := by simp [hu, Update.pinned, Db.run_id hr]
    simp only [setProc]
    rw [hs, Server.exec_run, hrun, Option.map_some, if_pos hg]
    rfl

end Alone

lemma reaches_waited (hy : y.Reachable reg) (hquiet : y.Quiet) (hp : y.procs token = some p)
    {k name : String} {key : EventKey Ω} {timeout : Time} (hpc : p.pc = .begin k)
    (hop : p.wf.ops[p.index]? = some (.waitEvent name key timeout))
    (hr : y.srv.db.run p.run.id = some r) (hf : fence p.run.id token y.srv.clock r = true) :
    ∃ y' existing found, Works reg y y' ∧ y'.Quiet ∧ y'.srv.clock = y.srv.clock ∧
      y'.srv.db.run p.run.id = some
        (((Server.waitWrite found k p.index (milliseconds timeout) p.complete).update existing
          p.run.id token y.srv.clock y.srv.clock).set r) ∧
      y'.procs token = some (({ p with
        pc := .wait (found.map fun payload => receivedBytes (text payload)) } : Proc J Ω).answered
          true (existing p.index)) := by
  obtain ⟨z₁, h₁⟩ : ∃ z, Alone reg y z token _ _ := Alone.begin hquiet hp hpc hop
  obtain ⟨z₂, h₂⟩ := h₁.lock rfl rfl
  obtain ⟨z₃, found, h₃⟩ := h₂.look rfl rfl
  obtain ⟨z₄, h₄⟩ := h₃.write hy rfl rfl rfl hr hf
  obtain ⟨y', existing, hreach, hquiet', hclock, hrun, hproc⟩ := h₄.commit rfl rfl hr
  exact ⟨y', existing, found, hreach, hquiet', hclock, hrun, hproc⟩

namespace Drives

lemma sends (h : Drives reg y run token p r) {t : Turn Ω} {pc : Pc} {w : Write J}
    {ks : List (Call Ω)}
    (ht : p.turn t = some ({ p with pc := pc, sent := some w }, ks)) :
    ∃ y' existing, Works reg y y' ∧ y'.Quiet ∧ y'.srv.clock = y.srv.clock ∧
      y'.srv.db.run run =
        some ((w.update existing run token y.srv.clock y.srv.clock).set r) ∧
      y'.procs token = some (({ p with pc := pc, sent := none } : Proc J Ω).answered true
        (existing p.index)) := by
  obtain ⟨y₁, hreach₁, hsrv, hp₁⟩ := reaches_turn reg h.proc ht
  obtain ⟨rfl⟩ : p.run.id = run := h.id
  obtain ⟨y', existing, hreach, hquiet, hclock, hrun, hproc⟩ :=
    reaches_exec (h.reach.later hreach₁.reaches) (by rw [Quiet, hsrv]; exact h.quiet) hp₁ rfl
      (by rw [hsrv]; exact h.row) (by rw [hsrv]; exact h.fence)
  rw [hsrv] at hclock hrun
  exact ⟨y', existing, hreach₁.trans hreach, hquiet, hclock, hrun, hproc⟩

lemma stored (h : Drives reg y run token p r) {y' : System J Ω} (hreach : Works reg y y')
    (hquiet : y'.Quiet) (hclock : y'.srv.clock = y.srv.clock) {x : J} {existing : ℕ → Option J}
    (hrun : y'.srv.db.run run = some (((Write.commitStep p.index x p.complete).update existing run
      token y.srv.clock y.srv.clock).set r)) {pc : Pc} {sent : Option (Write J)} {raw : Bytes}
    {e : Option J}
    (hproc : y'.procs token = some (({ p with pc := pc, sent := sent } : Proc J Ω).stored raw e)) :
    (∃ r', y'.srv.db.run run = some r' ∧ r'.state = .completed) ∨
      ∃ p' r', Drives reg y' run token p' r' ∧ p'.wf = p.wf ∧ p'.index = p.index + 1 := by
  by_cases hlast : p.complete = true
  · refine Or.inl ⟨_, hrun, ?_⟩
    simp [Write.update, commitStep, hlast]
  · have hgo : ({ p with pc := pc, sent := sent } : Proc J Ω).stored raw e =
        { p with
          values := p.values.set p.index (some ((e.map text).getD raw))
          index := p.index + 1
          pc := .loop
          sent := sent } := if_neg hlast
    rw [hgo] at hproc
    obtain ⟨hid, hleased, htoken, until_, huntil, hlt⟩ := fence_iff.mp h.fence
    refine Or.inr ⟨_, _, ⟨h.reach.later hreach.reaches, hquiet, hproc, h.id, rfl, hrun, ?_⟩,
      rfl, rfl⟩
    simp [DurablePg.fence, Write.update, commitStep, hlast, hid, hleased, htoken, huntil, hclock,
      hlt]

lemma finish (h : Drives reg y run token p r) (hop : p.wf.ops[p.index]? = none) :
    ∃ y' r', Works reg y y' ∧ y'.Quiet ∧ y'.srv.db.run run = some r' ∧
      r'.state = .completed := by
  have hinv := h.reach.inv.proc token p h.proc
  obtain ⟨output, hfinish⟩ : ∃ output, p.finish [] = { p with
      pc := .await none
      sent := some (.completeRun p.wf.ops.length output) } := by
    unfold Proc.finish
    split
    · exact ⟨none, rfl⟩
    · rename_i raw hraw
      obtain ⟨i, -, hi⟩ := Option.bind_eq_some_iff.mp hraw
      obtain ⟨x, hx, -⟩ := hinv.knows.agree i raw hi
      exact ⟨some x, by simp [hx]⟩
  have hturn : p.turn (.finish []) = some (p.finish [], []) := by
    simp [Proc.turn, h.pc, hop]
  rw [hfinish] at hturn
  obtain ⟨y', existing, hreach, hquiet, -, hrun, -⟩ := h.sends hturn
  exact ⟨y', _, hreach, hquiet, hrun, rfl⟩

lemma advance (h : Drives reg y run token p r) {raw : Bytes} (hraw : p.value p.index = some raw) :
    ∃ y' p' r', Works reg y y' ∧ Drives reg y' run token p' r' ∧ p'.wf = p.wf ∧
      p'.index = p.index + 1 := by
  have hturn : p.turn .advance = some ({ p with index := p.index + 1 }, []) := by
    simp [Proc.turn, h.pc, hraw]
  obtain ⟨y', hreach, hsrv, hp'⟩ := reaches_turn reg h.proc hturn
  refine ⟨y', _, r, hreach, ⟨h.reach.later hreach.reaches, ?_, hp', h.id, h.pc, ?_, ?_⟩, rfl, rfl⟩
  · rw [Quiet, hsrv]; exact h.quiet
  · rw [hsrv]; exact h.row
  · rw [hsrv]; exact h.fence

lemma call (h : Drives reg y run token p r) (hok : p.wf.CanSucceed J) {op : Operation Ω}
    (hop : p.wf.ops[p.index]? = some op) (hnone : p.value p.index = none) :
    ∃ y', Works reg y y' ∧ y'.Quiet ∧
      ((∃ r', y'.srv.db.run run = some r' ∧
        (r'.state = .completed ∨ r'.state = .ready ∨ r'.state = .waitingEvent)) ∨
      ∃ p' r', Drives reg y' run token p' r' ∧ p'.wf = p.wf ∧ p'.index = p.index + 1) := by
  have hcan := hok op (List.mem_of_getElem? hop)
  cases op with
  | step name fn timeout =>
    obtain ⟨ω, raw, hraw, hx⟩ := hcan (p.stepContext name)
    obtain ⟨x, hx⟩ := Option.isSome_iff_exists.mp hx
    have hturn : p.turn (.invoke ω []) = some ({ p with
        pc := .await (some raw)
        sent := some (.commitStep p.index x p.complete) }, [p.call ω name]) := by
      simp [Proc.turn, hop, h.pc, hnone, Proc.invoke, hraw, hx]
    obtain ⟨y', existing, hreach, hquiet, hclock, hrun, hproc⟩ := h.sends hturn
    refine ⟨y', hreach, hquiet, ?_⟩
    rcases h.stored hreach hquiet hclock hrun hproc with ⟨r', hr', hdone⟩ | hnext
    · exact Or.inl ⟨r', hr', Or.inl hdone⟩
    · exact Or.inr hnext
  | sleep d =>
    have hturn : p.turn .sleep = some ({ p with
        pc := .await none
        sent := some (.parkSleep (p.index + 1) (milliseconds d)) }, []) := by
      simp [Proc.turn, hop, h.pc, hnone]
    obtain ⟨y', existing, hreach, hquiet, -, hrun, -⟩ := h.sends hturn
    exact ⟨y', hreach, hquiet, Or.inl ⟨_, hrun, Or.inr (Or.inl rfl)⟩⟩
  | waitEvent name key timeout =>
    obtain ⟨ω, k, hk⟩ := hcan (p.stepContext name)
    have hturn : p.turn (.invoke ω []) = some ({ p with pc := .begin k }, [p.call ω name]) := by
      simp [Proc.turn, hop, h.pc, hnone, Proc.invoke, hk]
    obtain ⟨y₁, hreach₁, hsrv, hp₁⟩ := reaches_turn reg h.proc hturn
    obtain ⟨rfl⟩ : p.run.id = run := h.id
    obtain ⟨y', existing, found, hreach, hquiet, hclock, hrun, hproc⟩ :=
      reaches_waited (h.reach.later hreach₁.reaches) (by rw [Quiet, hsrv]; exact h.quiet) hp₁ rfl
        hop (by rw [hsrv]; exact h.row) (by rw [hsrv]; exact h.fence)
    rw [hsrv] at hclock hrun
    refine ⟨y', hreach₁.trans hreach, hquiet, ?_⟩
    rcases found with _ | payload
    · exact Or.inl ⟨_, hrun, Or.inr (Or.inr rfl)⟩
    · rcases h.stored (hreach₁.trans hreach) hquiet hclock hrun hproc with ⟨r', hr', hdone⟩ | hnext
      · exact Or.inl ⟨r', hr', Or.inl hdone⟩
      · exact Or.inr hnext

/-- **A claim is driven to its end**: until the run is completed or parked. -/
lemma parks (h : Drives reg y run token p r) (hok : p.wf.CanSucceed J) :
    ∃ y' r', Works reg y y' ∧ y'.Quiet ∧ y'.srv.db.run run = some r' ∧
      (r'.state = .completed ∨ r'.state = .ready ∨ r'.state = .waitingEvent) := by
  induction hn : p.wf.ops.length - p.index generalizing y p r with
  | zero =>
    obtain ⟨y', r', hreach, hquiet, hr', hdone⟩ :=
      h.finish (List.getElem?_eq_none (Nat.sub_eq_zero_iff_le.mp hn))
    exact ⟨y', r', hreach, hquiet, hr', Or.inl hdone⟩
  | succ n ih =>
    have hlt : p.index < p.wf.ops.length := by omega
    rcases hv : p.value p.index with _ | raw
    · obtain ⟨y', hreach, hquiet, ⟨r', hr', hstate⟩ | ⟨p', r', h', hwf, hindex⟩⟩ :=
        h.call hok (List.getElem?_eq_getElem hlt) hv
      · exact ⟨y', r', hreach, hquiet, hr', hstate⟩
      · obtain ⟨y'', r'', hreach', hrest⟩ := ih h' (hwf ▸ hok) (by rw [hwf, hindex]; omega)
        exact ⟨y'', r'', hreach.trans hreach', hrest⟩
    · obtain ⟨y', p', r', hreach, h', hwf, hindex⟩ := h.advance hv
      obtain ⟨y'', r'', hreach', hrest⟩ := ih h' (hwf ▸ hok) (by rw [hwf, hindex]; omega)
      exact ⟨y'', r'', hreach.trans hreach', hrest⟩

end Drives

end Driving

/-! ### Round after round -/

end System

end DurablePg

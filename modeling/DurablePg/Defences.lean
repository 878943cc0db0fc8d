import DurablePg.Claiming
import DurablePg.Replay

/-!
Clauses of the statements that never take effect.

Checkpoints are inserted `ON CONFLICT DO NOTHING`, `commitStep` returns a value that is there
already and refuses to move a cursor back, and `drive` gives up a run whose definition it does not
find. None of this happens among workers that drive the definitions they have registered: the
lease alone decides whether a write takes effect, and what a worker goes on with is what it has
stored.
-/

namespace DurablePg

open DurablePg.Lib

variable {J Ω : Type} [Jsonb J]

section Lives

variable {past : Past J Ω} {wf : CompiledWorkflow Ω} {l l' : List (Change J)} {v v' : View J}
  {ch : Change J} {r : Row J}

lemma Lawful.of_append (h : Lawful past wf (l ++ l') v') : ∃ v, Lawful past wf l v := by
  induction l' using List.reverseRecOn generalizing v' with
  | nil => exact ⟨v', by simpa using h⟩
  | append_singleton l' ch ih =>
    rw [← List.append_assoc] at h
    obtain ⟨v₁, h₁, -⟩ := h.snoc_inv
    exact ih h₁

lemma Change.Fits.recordAt (hfits : ch.Fits past wf v) (hc : Cursor wf r v.cps)
    (hr : v.row = some r) {u : Update J} (hu : ch.update v.cps r.id = some u) {i : ℕ} {x : J}
    (hx : u.recordAt r i = some x) : v.cps i = none := by
  unfold Update.recordAt at hx
  obtain ⟨hg, hx⟩ := Option.ite_none_right_eq_some.mp hx
  obtain ⟨c, hrec, hx⟩ := Option.bind_eq_some_iff.mp hx
  obtain ⟨hi, -⟩ := Option.ite_none_right_eq_some.mp hx
  have hfound := Change.finds_of_guard hu hg
  cases ch with
  | inserted => cases hu
  | touched | claimed | renewed | recovered | cancelled => cases hu; cases hrec
  | wrote token w now clock =>
    cases hu
    cases w with
    | commitStep j y complete =>
      cases hrec
      rw [← hi]
      exact (hfits r hr).2.1
    | completeRun | parkSleep | parkWait | failOrRetry => cases hrec
  | delivered | timedOut =>
    cases hu
    cases hrec
    rw [← hi]
    exact hc.none_of_waiting (of_decide_eq_true hfound)

lemma Write.guard_of_fence {w : Write J} (hfits : w.Fits past wf r v.cps)
    {cps : ℕ → Option J} {id : RunId} {token : Token} {now clock : Time}
    (hf : fence id token clock r = true) : (w.update cps id token now clock).guard r = true := by
  cases w with
  | commitStep i x complete =>
    exact Bool.and_eq_true_iff.mpr ⟨hf, decide_eq_true hfits.1.cursor⟩
  | completeRun | parkSleep | parkWait | failOrRetry => exact hf

end Lives

lemma Proc.Inv.fits_looked {p : Proc J Ω} {reg : Registry Ω} {past : Past J Ω} {v : View J}
    {t : Tx J} {r : Row J} (h : p.Inv reg past v (some t)) (hr : v.row = some r)
    (hlive : r.leaseToken = some p.run.token) (hc : Cursor p.wf r v.cps) {found : Option J}
    (hphase : t.phase = .looked found) : ∃ timeoutMs,
      t.job = .wait p.run.token p.run.id p.index timeoutMs p.complete ∧
      (Server.waitWrite found t.key p.index timeoutMs p.complete).Fits past p.wf r v.cps := by
  have hd : p.Driving (some t) := Or.inr (Or.inr (Or.inr rfl))
  have hnext := h.next hr hlive hd
  obtain ⟨-, -, -, -, timeout, ⟨hnone, name, key, hop, hcall⟩, hjob, hp⟩ := h.asks.tx t rfl
  rw [hphase] at hp
  obtain ⟨-, hfound⟩ := hp
  have hcps := h.none_of_value hr hlive hd hnone
  refine ⟨_, hjob, ?_⟩
  rcases found with _ | payload
  · exact ⟨hnext, hcps, name, key, timeout, hop, rfl, h.knows.called hr hc hcall⟩
  · obtain ⟨e, he, hkey, rfl⟩ := hfound payload rfl
    exact ⟨hnext, hcps, complete_iff, _, hop, .received (h.knows.called hr hc hcall) he hkey⟩

namespace System

variable {reg : Registry Ω} {y : System J Ω}

/-- The statement of the claim's worker that the server is to run next. -/
inductive Pending (y : System J Ω) (token : Token) (p : Proc J Ω) : Write J → Time → Prop
  | sent {w : Write J} {now : Time} (hw : p.sent = some w) : Pending y token p w now
  | failure {w : Write J} {now : Time} (hw : p.failure = some w) : Pending y token p w now
  | wait {tx : Tx J} {found : Option J} {index : ℕ} {timeoutMs : ℤ} {complete : Bool}
    (htx : y.srv.txs.get (.wait token) = some tx) (hphase : tx.phase = .looked found)
    (hjob : tx.job = .wait token p.run.id index timeoutMs complete) :
    Pending y token p (Server.waitWrite found tx.key index timeoutMs complete) tx.start

lemma Inv.fits_pending (h : y.Inv reg) {token : Token} {p : Proc J Ω} {w : Write J} {now : Time}
    (hp : y.procs token = some p) (hw : y.Pending token p w now) {r : Row J}
    (hr : y.srv.db.run p.run.id = some r) (hlive : r.leaseToken = some token) :
    w.Fits y.past p.wf r (y.srv.db.checkpoint p.run.id) := by
  have hi := h.proc token p hp
  have hc := (h.claim_course hp hr).cursor
  rw [← (h.token token p hp).1] at hlive
  cases hw with
  | sent hw => exact hi.fits_sent hr hlive hc hw
  | failure hw => exact hi.fits_failure hr hlive hw
  | wait htx hphase hjob =>
    rw [htx] at hi
    obtain ⟨ms, hjob', hfits⟩ := hi.fits_looked hr hlive hc hphase
    rw [hjob] at hjob'
    cases hjob'
    exact hfits

lemma Inv.owns_of_fence (h : y.Inv reg) {token : Token} {p : Proc J Ω} {w : Write J} {now : Time}
    (hp : y.procs token = some p) (hw : y.Pending token p w now) {r : Row J}
    (hr : y.srv.db.run p.run.id = some r) (hf : fence p.run.id token y.srv.clock r = true) :
    y.srv.owns p.run.id token w now = true := by
  have hfits := h.fits_pending hp hw hr (fence_iff.mp hf).2.2.1
  exact Option.any_eq_true _ _ |>.mpr
    ⟨r, hr, Write.guard_of_fence (v := y.srv.view p.run.id) hfits hf⟩

/-- **The lease alone decides.** In every reachable state: no insert of a checkpoint in the life of
a run has met one that was there; whichever statement a claim's worker has under way, it takes
effect if its fence holds, and then no value is there that could win over its own; and the
definition of every run that a worker claims is one it has registered. -/
theorem no_conflict (hy : y.Reachable reg) :
    (∀ run l ch l' v r u i x, y.srv.log run = l ++ ch :: l' → Life l v → v.row = some r →
      ch.update v.cps r.id = some u → u.recordAt r i = some x → v.cps i = none) ∧
    (∀ token p w now r, y.procs token = some p → y.Pending token p w now →
      y.srv.db.run p.run.id = some r → fence p.run.id token y.srv.clock r = true →
      y.srv.owns p.run.id token w now = true ∧ ∀ i x complete, w = .commitStep i x complete →
        y.srv.db.checkpoint p.run.id i = none) ∧
    ∀ e limit q now run, Engine.claimQuery e limit = some q →
      run ∈ y.srv.db.picked (q.claimable now) Row.nextRunAt y.srv.locked q.limit →
      ∃ r wf, y.srv.db.run run = some r ∧
        e.workflow reg r.workflowName r.workflowVersion = some wf := by
  have hi := hy.inv
  refine ⟨fun run l ch l' v r u i x hlog hlife hr hu hx => ?_,
    fun token p w now r hp hw hr hf => ?_, fun e limit q now run hq hmem => ?_⟩
  · -- the change is in the middle of a lawful life
    have hlife' := hi.srv.inv.life run
    obtain ⟨r', hr'⟩ : ∃ r', (y.srv.view run).row = some r' := by
      rw [hlog] at hlife'
      generalize y.srv.view run = v' at hlife'
      exact hlife'.row_some_of_prefix hlife hr
    obtain ⟨wf, hwf, hl⟩ := hi.lawful run r' hr'
    rw [hlog, List.append_cons] at hl
    obtain ⟨v₂, hl₂⟩ := hl.of_append
    obtain ⟨v₁, hl₁, -, hfits⟩ := hl₂.snoc_inv
    obtain rfl := hlife.unique hl₁.life
    exact hfits.recordAt (hl₁.course (reg.valid hwf) hr).cursor hr hu hx
  · refine ⟨hi.owns_of_fence hp hw hr hf, ?_⟩
    rintro i x complete rfl
    exact (hi.fits_pending hp hw hr (fence_iff.mp hf).2.2.1).2.1
  · obtain ⟨r, hr, hclaim, -⟩ := Db.mem_picked hmem
    rw [Engine.claimQuery_claimable hq] at hclaim
    simp only [Engine.claimable, Bool.and_eq_true, decide_eq_true_eq] at hclaim
    obtain ⟨wf, hwf, -⟩ := hi.course hr
    exact ⟨r, wf, hr, by rw [Engine.workflow, if_pos hclaim.2]; exact hwf⟩

/-- A run is enqueued and claimed; its first step has returned, its result is on its way, and then
it is stored. -/
theorem no_conflict_threeClaims :
    (∃ (y y' : System Doc Unit) (ch : Change Doc) (r : Row Doc) (u : Update Doc),
      y'.srv.log "r" = y.srv.log "r" ++ [ch] ∧ y.srv.db.run "r" = some r ∧
      ch.update (y.srv.db.checkpoint "r") r.id = some u ∧ u.recordAt r 0 = some (.bool true) ∧
      y.srv.db.checkpoint "r" 0 = none) ∧
    (∃ (y : System Doc Unit) (p : Proc Doc Unit) (w : Write Doc),
      y.procs "c" = some p ∧ p.sent = some w ∧ y.srv.owns p.run.id "c" w 0 = true ∧
      ∀ i x complete, w = .commitStep i x complete → y.srv.db.checkpoint p.run.id i = none) ∧
    ∃ (y : System Doc Unit) (q : ClaimQuery) (r : Row Doc) (wf : CompiledWorkflow Unit),
      worker.claimQuery 1 = some q ∧
      "r" ∈ y.srv.db.picked (q.claimable 0) Row.nextRunAt y.srv.locked q.limit ∧
      y.srv.db.run "r" = some r ∧
      worker.workflow threeOps r.workflowName r.workflowVersion = some wf := by
  have hsent : (((threeClaims.take 3).foldlM (step threeOps) (init 0)).bind fun y =>
      (y.procs "c").bind fun p => p.sent.bind fun _ => (y.srv.db.run p.run.id).map fun r =>
        fence p.run.id "c" y.srv.clock r) = some true := by
    decide +kernel
  have hstored : (((threeClaims.take 3).foldlM (step threeOps) (init 0)).bind fun y =>
      (y.step threeOps (.exec "c" 0 false)).bind fun y' => (y.srv.db.run "r").bind fun r =>
      ((y'.srv.log "r").drop (y.srv.log "r").length).head?.bind fun ch =>
        (ch.update (y.srv.db.checkpoint "r") r.id).bind fun u => (u.recordAt r 0).map fun x =>
          ((y'.srv.log "r").length, (y.srv.log "r").length, x)) = some (3, 2, .bool true) := by
    decide +kernel
  have hpicked : (((threeClaims.take 1).foldlM (step threeOps) (init 0)).bind fun y =>
      (worker.claimQuery 1).map fun q =>
        y.srv.db.picked (q.claimable 0) Row.nextRunAt y.srv.locked q.limit) = some ["r"] := by
    decide +kernel
  refine ⟨?_, ?_, ?_⟩
  · obtain ⟨y, hy, hstored⟩ := Option.bind_eq_some_iff.mp hstored
    obtain ⟨y', hstep, hstored⟩ := Option.bind_eq_some_iff.mp hstored
    obtain ⟨r, hr, hstored⟩ := Option.bind_eq_some_iff.mp hstored
    obtain ⟨ch, hch, hstored⟩ := Option.bind_eq_some_iff.mp hstored
    obtain ⟨u, hu, hstored⟩ := Option.bind_eq_some_iff.mp hstored
    obtain ⟨x, hx, heq⟩ := Option.map_eq_some_iff.mp hstored
    simp only [Prod.mk.injEq] at heq
    obtain ⟨hlen', hlen, rfl⟩ := heq
    have hreach : y.Reachable threeOps := .of_run 0 _ hy
    have hlater : Reaches (step threeOps) y y' := .single ⟨_, trivial, hstep⟩
    have hlog : y'.srv.log "r" = y.srv.log "r" ++ [ch] := by
      obtain ⟨l, hl⟩ := log_grows hlater "r"
      rw [← hl, List.drop_left] at hch
      rw [← hl, List.length_append, hlen] at hlen'
      obtain ⟨ch', rfl⟩ := List.length_eq_one_iff.mp (show l.length = 1 by omega)
      cases hch
      exact hl.symm
    have hnone := (no_conflict (hreach.later hlater)).1 "r" _ ch [] _ r u 0 _ hlog
      (hreach.inv.srv.inv.life "r") hr hu hx
    exact ⟨y, y', ch, r, u, hlog, hr, hu, hx, hnone⟩
  · obtain ⟨y, hy, hsent⟩ := Option.bind_eq_some_iff.mp hsent
    obtain ⟨p, hp, hsent⟩ := Option.bind_eq_some_iff.mp hsent
    obtain ⟨w, hw, hsent⟩ := Option.bind_eq_some_iff.mp hsent
    obtain ⟨r, hr, hf⟩ := Option.map_eq_some_iff.mp hsent
    exact ⟨y, p, w, hp, hw, (no_conflict (.of_run 0 _ hy)).2.1 "c" p w 0 r hp (.sent hw) hr hf⟩
  · obtain ⟨y, hy, hpicked⟩ := Option.bind_eq_some_iff.mp hpicked
    obtain ⟨q, hq, hpicked⟩ := Option.map_eq_some_iff.mp hpicked
    have hmem : "r" ∈ y.srv.db.picked (q.claimable 0) Row.nextRunAt y.srv.locked q.limit := by
      rw [hpicked]; exact List.mem_singleton_self _
    obtain ⟨r, wf, hr, hwf⟩ := (no_conflict (.of_run 0 _ hy)).2.2 worker 1 q 0 "r" hq hmem
    exact ⟨y, q, r, wf, hq, hmem, hr, hwf⟩

end System

end DurablePg

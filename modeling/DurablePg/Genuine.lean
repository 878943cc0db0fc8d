import DurablePg.Delivery
import DurablePg.EventOrder

/-!
Where the payload of a delivered event comes from.

A wait gets its event on one of two ways: its registration finds the event in the log, or an
emission finds the run parked. On both the event was emitted on the key that this wait
resolved to, under the claim that registered it, and no later event has been passed over.
-/

namespace DurablePg

open DurablePg.Lib

variable {J Ω : Type} [Jsonb J]

lemma View.Moves.recorded {v v' : View J} {ch : Change J} (hm : v.Moves ch v') {i : ℕ} {x : J}
    (hnone : v.cps i = none) (hx : v'.cps i = some x) :
    (∃ now r, ch = .timedOut now ∧ v.row = some r ∧ r.state = .waitingEvent ∧ r.stepIndex = i ∧
      x = timedOut) ∨
    (∃ key payload now r, ch = .delivered key payload now ∧ v.row = some r ∧
      r.state = .waitingEvent ∧ r.stepIndex = i ∧ r.waitingEventKey = some key ∧
      x = received payload) ∨
    ∃ token complete now clock, ch = .wrote token (.commitStep i x complete) now clock := by
  rcases hrow : v.row with _ | r
  · cases hm with
    | inserted => rw [hnone] at hx; cases hx
    | updated _ r u hrow' => rw [hrow] at hrow'; cases hrow'
  · cases hm.effect hrow with
    | quiet => rw [hnone] at hx; cases hx
    | @outcome _ r' y hwait hstate hindex hy =>
      change (v.cps i).or _ = some x at hx
      rw [hnone, Option.none_or] at hx
      obtain ⟨hi, hx⟩ := Option.ite_none_right_eq_some.mp hx
      cases hx
      rcases hy with ⟨now, rfl, hy⟩ | ⟨key, payload, now, rfl, hkey, hy⟩
      · exact Or.inl ⟨now, r, rfl, rfl, hwait, hi, hy⟩
      · exact Or.inr (Or.inl ⟨key, payload, now, r, rfl, rfl, hwait, hi, hkey, hy⟩)
    | @progress token w now clock hw hg =>
      right; right
      change (v.cps i).or _ = some x at hx
      rw [hnone, Option.none_or] at hx
      simp only [Update.recordAt, hg, if_true] at hx
      cases w with
      | commitStep k y complete =>
        simp only [Write.update, commitStep, Option.bind_some,
          Option.ite_none_right_eq_some, Option.some.injEq] at hx
        obtain ⟨rfl, rfl⟩ := hx
        exact ⟨token, complete, now, clock, rfl⟩
      | completeRun | parkSleep | parkWait | failOrRetry => cases hx

namespace Server

variable {s s' : Server J} {run : RunId} {ch : Change J}

omit [Jsonb J] in
lemma mem_hist (h : ch ∈ s.log run) : Ev.change run ch ∈ s.hist := by
  obtain ⟨ev, hev, heq⟩ := List.mem_filterMap.mp h
  cases ev with
  | change run' ch' =>
    simp only [Ev.changeOf, Option.ite_none_right_eq_some, Option.some.injEq] at heq
    obtain ⟨rfl, rfl⟩ := heq
    exact hev
  | _ => cases heq

omit [Jsonb J] in
lemma mem_evs {evs : List (Ev J)} (hlog : s'.log run = s.log run ++ [ch])
    (hevs : s'.hist = s.hist ++ evs) : Ev.change run ch ∈ evs := by
  have hone : ({ s with hist := evs } : Server J).log run = [ch] := by
    rw [log, log, hevs, List.filterMap_append, List.append_cancel_left_eq] at hlog
    exact hlog
  exact mem_hist (hone ▸ List.mem_singleton_self ch)

end Server

namespace System

variable {reg : Registry Ω} {y y' : System J Ω} {run : RunId} {i : ℕ}

variable (reg) in
/-- The operation of a run at an index. -/
def opAt (y : System J Ω) (run : RunId) (i : ℕ) : Option (Operation Ω) := do
  let r ← y.srv.db.run run
  let wf ← reg.workflow r.workflowName r.workflowVersion
  wf.ops[i]?

/-- Under this claim the wait of the run at `i` resolved to `k`. -/
def ResolvedBy (y : System J Ω) (run : RunId) (token : Token) (i : ℕ) (key : EventKey Ω)
    (k : String) : Prop :=
  ∃ c ∈ y.calls, c.run = run ∧ c.token = token ∧ c.index = i ∧ key.resolve c.ω c.ctx = .ok k

/-- How the event `e` got into the checkpoint of the wait with the key `key` of the run at `i`. -/
inductive Delivered (y : System J Ω) (run : RunId) (i : ℕ) (key : EventKey Ω) (e : Event J) : Prop
  /-- The registration found it, and recorded it in the same transaction. -/
  | found {token : Token} {t start clock : Time} {complete : Bool} {h₁ h₂ h₃ : List (Ev J)}
    (hkey : y.ResolvedBy run token i key e.eventKey)
    (hhist : y.srv.hist = h₁ ++ .looked token e.eventKey (some e.payload) t ::
      (h₂ ++ .change run (.wrote token (.commitStep i (received e.payload) complete) start clock) ::
        h₃))
    (hlast : ∀ k f t', Ev.looked token k f t' ∉ h₂)
    (hemitted : ∃ te, Ev.emitted e te ∈ h₁)
    (hexp : start < e.expiresAt)
    (hlatest : ¬ Server.Superseded h₁ t e)
  /-- It was emitted, in a transaction begun at `e.createdAt`, while the run was parked. -/
  | woken {token : Token} {ms : ℤ} {start clock te : Time} {h₁ h₂ h₃ : List (Ev J)}
    (hkey : y.ResolvedBy run token i key e.eventKey)
    (hparked : Ev.change run (.wrote token (.parkWait i e.eventKey ms) start clock) ∈ h₁)
    (hhist : y.srv.hist = h₁ ++ .emitted e te ::
      (h₂ ++ .change run (.delivered e.eventKey e.payload e.createdAt) :: h₃))
    (hone : ∀ e' te', Ev.emitted e' te' ∉ h₂)
    (hexp : e.createdAt < e.expiresAt)
    (hlatest : ∀ t, ¬ Server.Superseded h₁ t e)

omit [Jsonb J] in
lemma ResolvedBy.mono {token : Token} {key : EventKey Ω} {k : String}
    (h : y.ResolvedBy run token i key k) (hcalls : y.calls ⊆ y'.calls) :
    y'.ResolvedBy run token i key k := by
  obtain ⟨c, hc, hrest⟩ := h
  exact ⟨c, hcalls hc, hrest⟩

lemma Delivered.mono {key : EventKey Ω} {e : Event J} (h : y.Delivered run i key e)
    (hcalls : y.calls ⊆ y'.calls) (hhist : y.srv.hist <+: y'.srv.hist) :
    y'.Delivered run i key e := by
  obtain ⟨evs, hevs⟩ := hhist
  cases h with
  | @found token t start clock complete h₁ h₂ h₃ hkey hhist hlast hemitted hexp hlatest =>
    have hhist' : y'.srv.hist = h₁ ++ .looked token e.eventKey (some e.payload) t :: (h₂ ++
        .change run (.wrote token (.commitStep i (received e.payload) complete) start clock) ::
          (h₃ ++ evs)) := by
      rw [← hevs, hhist]; simp
    exact .found (hkey.mono hcalls) hhist' hlast hemitted hexp hlatest
  | @woken token ms start clock te h₁ h₂ h₃ hkey hparked hhist hone hexp hlatest =>
    have hhist' : y'.srv.hist = h₁ ++ .emitted e te ::
        (h₂ ++ .change run (.delivered e.eventKey e.payload e.createdAt) :: (h₃ ++ evs)) := by
      rw [← hevs, hhist]; simp
    exact .woken (hkey.mono hcalls) hparked hhist' hone hexp hlatest

/-! ### The operations of a run -/

lemma calls_grow {m : Move J Ω} (h : y.step reg m = some y') : y.calls ⊆ y'.calls := by
  cases does h with
  | turn => exact List.subset_append_left _ _
  | _ => exact fun _ => id

lemma hist_prefix {m : Move J Ω} (h : y.step reg m = some y') : y.srv.hist <+: y'.srv.hist := by
  rcases step_server h with heq | ⟨a, hs⟩
  · rw [heq]
  · obtain ⟨evs, hevs⟩ := Server.hist_grows hs
    exact ⟨evs, hevs.symm⟩

omit [Jsonb J] in
lemma opAt_eq {r : Row J} (hr : y.srv.db.run run = some r) {wf : CompiledWorkflow Ω}
    (hwf : reg.workflow r.workflowName r.workflowVersion = some wf) :
    y.opAt reg run i = wf.ops[i]? := by
  simp [opAt, hr, hwf]

lemma Inv.opAt_step (h : y.Inv reg) {m : Move J Ω} (hstep : y.step reg m = some y') {r : Row J}
    (hr : y.srv.db.run run = some r) : y'.opAt reg run i = y.opAt reg run i := by
  have hkeep : ∃ r', y'.srv.db.run run = some r' ∧ r.Keeps r' := by
    rcases step_server hstep with heq | ⟨a, hs⟩
    · exact ⟨r, by rw [heq]; exact hr, .refl r⟩
    · exact Server.step_keeps h.srv.inv.tx hs hr
  obtain ⟨r', hr', hk⟩ := hkeep
  simp [opAt, hr, hr', hk.workflowName, hk.workflowVersion]

lemma Inv.opAt_proc (h : y.Inv reg) {token : Token} {p : Proc J Ω}
    (hp : y.procs token = some p) : y.opAt reg p.run.id i = p.wf.ops[i]? := by
  have hk := (h.proc token p hp).knows
  obtain ⟨r, hr, -, hname, hver, -⟩ := hk.row
  have hr : y.srv.db.run p.run.id = some r := hr
  simp [opAt, hr, hname, hver, hk.wf]

lemma Inv.resolvedBy (h : y.Inv reg) {token : Token} {p : Proc J Ω}
    (hp : y.procs token = some p) {tx : Tx J} (hw : p.Waits y.past tx) :
    ∃ name key timeout, y.opAt reg p.run.id p.index = some (.waitEvent name key timeout) ∧
      y.ResolvedBy p.run.id p.run.token p.index key tx.key ∧
      tx.job = .wait p.run.token p.run.id p.index (milliseconds timeout) p.complete := by
  obtain ⟨timeout, ⟨-, name, key, hop, ω, hcall, hres⟩, hjob, -⟩ := hw
  exact ⟨name, key, timeout, (h.opAt_proc hp).trans hop, ⟨_, hcall, rfl, rfl, rfl, hres⟩, hjob⟩

/-! ### The invariant -/

variable (reg) in
/-- Every registered wait and every delivered event has its origin. -/
structure Traced (y : System J Ω) : Prop where
  parked : ∀ run token i k ms start clock,
    Change.wrote token (.parkWait i k ms) start clock ∈ y.srv.log run →
    ∃ name key timeout, y.opAt reg run i = some (.waitEvent name key timeout) ∧
      y.ResolvedBy run token i key k
  delivered : ∀ run i name key timeout x, y.opAt reg run i = some (.waitEvent name key timeout) →
    y.srv.db.checkpoint run i = some x → x = timedOut ∨
      ∃ e, x = received e.payload ∧ y.Delivered run i key e

namespace Traced

variable {m : Move J Ω}

lemma woken (ht : Traced reg y) (h : y.Inv reg) {a : Act J} (hs : y.srv.step a = some y'.srv)
    (hcalls : y.calls ⊆ y'.calls) {name : String} {key : EventKey Ω} {timeout : Time}
    (hop : y.opAt reg run i = some (.waitEvent name key timeout)) {k : String} {payload : J}
    {now : Time} {r : Row J} (hmk : y.srv.Makes a run (.delivered k payload now))
    (hr : y.srv.db.run run = some r) (hwait : r.state = .waitingEvent) (hi : r.stepIndex = i)
    (hk : r.waitingEventKey = some k) :
    ∃ e, received payload = received e.payload ∧ y'.Delivered run i key e := by
  have hinv := h.srv.inv
  obtain ⟨token, k', ms, start, clock, hmem, hk', -⟩ := (hinv.life run).parked hr hwait
  rw [hk] at hk'; cases hk'
  rw [hi] at hmem
  obtain ⟨name', key', timeout', hop', hres⟩ := ht.parked run token i k ms start clock hmem
  rw [hop] at hop'; cases hop'
  cases hmk with
  | delivered tx n payload e woken run htx hjob hphase hrun =>
    have hready := hinv.tx.ready tx (Table.get_eq_some_iff.mp htx).1
    simp only [Tx.Ready, hphase, hjob] at hready
    obtain ⟨hkey, hpayload, -⟩ := hready
    obtain ⟨-, hcreated, hexp, hlt⟩ := h.srv.choiceInv.order.pending _ tx e woken htx hphase
    obtain ⟨h₂, h₃, hhist, hone⟩ := Server.delivered_hist hinv.tx htx hjob hphase hrun hs
    rw [← hkey, ← hpayload, ← hcreated] at hhist
    refine ⟨e, by rw [hpayload], .woken (hkey ▸ hres.mono hcalls) (hkey ▸ Server.mem_hist hmem)
      hhist hone (hcreated ▸ hexp) ?_⟩
    -- nothing can have superseded an event that was not there
    rintro t ⟨g₁, te, g₂, -, -, hg, -⟩
    exact absurd (hlt e te (by rw [hg]; simp) rfl) (lt_irrefl _)

lemma found (h : y.Inv reg) {token : Token} (hs : y.srv.step (.commit (.wait token)) = some y'.srv)
    (hcalls : y.calls ⊆ y'.calls) {name : String} {key : EventKey Ω} {timeout : Time}
    {p : Proc J Ω} (hp : y.procs token = some p) {tx : Tx J}
    (htx : y.srv.txs.get (.wait token) = some tx) (hw : p.Waits y.past tx) {x : J}
    {complete : Bool} {clock : Time} (hphase : tx.phase = .wrote (.commitStep i x complete) clock)
    (hop : y.opAt reg p.run.id i = some (.waitEvent name key timeout))
    (hmem : ∀ evs, y'.srv.hist = y.srv.hist ++ evs →
      Ev.change p.run.id (.wrote token (.commitStep i x complete) tx.start clock) ∈ evs) :
    ∃ e, x = received e.payload ∧ y'.Delivered p.run.id i key e := by
  obtain ⟨htok, -⟩ := h.token token p hp
  obtain ⟨name', key', timeout', hop', hres, hjob⟩ := h.resolvedBy hp hw
  rw [htok] at hjob hres
  obtain ⟨found, hwrite, hchosen⟩ :=
    (h.srv.choiceInv.chosen token tx _ _ _ _ htx hjob).2 _ clock hphase
  rcases found with _ | payload
  · cases hwrite
  · cases hwrite
    rw [hop] at hop'; cases hop'
    obtain ⟨h₁, t, h₂, e, hhist, hlast, hkey, rfl, hemitted, hexp, hlatest⟩ := hchosen payload rfl
    obtain ⟨run', w, now, clock', -, hone⟩ := Server.commit_logged h.srv.inv.tx h.srv.holding hs
    have heq := List.mem_singleton.mp (hmem _ hone)
    have hhist' : y'.srv.hist = h₁ ++ .looked token e.eventKey (some e.payload) t :: (h₂ ++
        [.change p.run.id (.wrote token (.commitStep p.index (received e.payload) p.complete)
          tx.start clock)]) := by
      rw [hone, ← heq, hhist, hkey]; simp
    exact ⟨e, rfl, .found (hkey ▸ hres.mono hcalls) hhist' hlast hemitted hexp hlatest⟩

lemma step (ht : Traced reg y) (h : y.Inv reg) (hstep : y.step reg m = some y') :
    Traced reg y' := by
  have hcalls := calls_grow hstep
  have hhist := hist_prefix hstep
  rcases h.writes hstep with heq | ⟨a, hs, hwrites⟩
  · have hop : ∀ run i, y'.opAt reg run i = y.opAt reg run i := fun run i => by simp [opAt, heq]
    refine ⟨fun run token i k ms start clock hmem => ?_, fun run i name key timeout x ho hx => ?_⟩
    · rw [heq] at hmem
      obtain ⟨name, key, timeout, ho, hres⟩ := ht.parked run token i k ms start clock hmem
      exact ⟨name, key, timeout, (hop run i).trans ho, hres.mono hcalls⟩
    · rw [heq] at hx
      refine (ht.delivered run i name key timeout x ((hop run i).symm.trans ho) hx).imp_right ?_
      rintro ⟨e, he, hd⟩
      exact ⟨e, he, hd.mono hcalls hhist⟩
  refine ⟨fun run token i k ms start clock hmem => ?_, fun run i name key timeout x ho hx => ?_⟩
  · obtain ⟨o, ⟨hlog, hm⟩, hmakes⟩ := Server.step_moved h.srv.inv.tx hs run
    rw [hlog] at hmem
    rcases List.mem_append.mp hmem with hmem | hmem
    · obtain ⟨name, key, timeout, ho, hres⟩ := ht.parked run token i k ms start clock hmem
      obtain ⟨r, hr, -⟩ := Option.bind_eq_some_iff.mp ho
      exact ⟨name, key, timeout, (h.opAt_step hstep hr).trans ho, hres.mono hcalls⟩
    · -- a registration commits
      obtain rfl : o = some (.wrote token (.parkWait i k ms) start clock) := by simpa using hmem
      obtain ⟨p, hp, rfl, rfl, hsends | ⟨_, _, _, hw⟩ | ⟨tx, -, htx, hphase, rfl, hw⟩⟩ :=
        hwrites _ _ _ _ _ (hmakes _ rfl)
      · exact hsends.elim
      · cases hw
      · obtain ⟨name, key, timeout, ho, hres, hjob⟩ := h.resolvedBy hp hw
        obtain ⟨found, hwrite, -⟩ :=
          (h.srv.eventInv.registering _ tx _ _ _ _ htx hjob).2 _ clock hphase
        rcases found with _ | payload
        · cases hwrite
          obtain ⟨r, hr, -⟩ := Option.bind_eq_some_iff.mp ho
          exact ⟨name, key, timeout, (h.opAt_step hstep hr).trans ho, hres.mono hcalls⟩
        · cases hwrite
  · obtain ⟨o, ⟨hlog, hm⟩, hmakes⟩ := Server.step_moved h.srv.inv.tx hs run
    have hold : y.srv.db.checkpoint run i = some x → x = timedOut ∨
        ∃ e, x = received e.payload ∧ y'.Delivered run i key e := by
      intro hx₀
      obtain ⟨r, hr⟩ := h.row_of_checkpoint hx₀
      refine (ht.delivered run i name key timeout x ((h.opAt_step hstep hr).symm.trans ho)
        hx₀).imp_right ?_
      rintro ⟨e, he, hd⟩
      exact ⟨e, he, hd.mono hcalls hhist⟩
    rcases o with _ | ch
    · exact hold ((congrFun (congrArg View.cps hm) i).symm.trans hx)
    have hm : (y.srv.view run).Moves ch (y'.srv.view run) := hm
    rcases hx₀ : y.srv.db.checkpoint run i with _ | x₀
    · rcases hm.recorded hx₀ hx with ⟨now, -, -, -, -, -, rfl⟩ |
        ⟨k, payload, now, r, rfl, hr, hwait, hi, hk, rfl⟩ | ⟨token, complete, now, clock, rfl⟩
      · exact Or.inl rfl
      · have ho := (h.opAt_step hstep hr).symm.trans ho
        exact Or.inr (ht.woken h hs hcalls ho (hmakes _ rfl) hr hwait hi hk)
      · obtain ⟨r, hr, -⟩ := hm.wrote_row
        have ho := (h.opAt_step hstep hr).symm.trans ho
        obtain ⟨p, hp, rfl, rfl, hsends | ⟨_, _, _, hw⟩ | ⟨tx, rfl, htx, hphase, rfl, hw⟩⟩ :=
          hwrites _ _ _ _ _ (hmakes _ rfl)
        · -- `drive` sends the results of steps
          obtain ⟨rfl, -, -, -, name', fn, timeout', hop, -⟩ := hsends
          rw [h.opAt_proc hp, hop] at ho; cases ho
        · cases hw
        · refine Or.inr (found h hs hcalls hp htx hw hphase ho fun evs hevs => ?_)
          exact Server.mem_evs hlog hevs
    · have := hm.cps_some (i := i) hx₀
      rw [show (y'.srv.view run).cps i = some x from hx] at this
      cases this
      exact hold hx₀

end Traced

theorem Reachable.traced (hy : y.Reachable reg) : Traced reg y := by
  obtain ⟨clock, h⟩ := hy
  have hinit : Traced reg (System.init clock : System J Ω) := by
    refine ⟨fun run token i k ms start clock' hmem => ?_, fun run i name key timeout x _ hx => ?_⟩
    · cases hmem
    · cases hx
  exact (h.invariant (P := fun z => z.Inv reg ∧ Traced reg z) ⟨.init clock, hinit⟩
    fun _ _ _ ih _ hstep => ⟨ih.1.step hstep, ih.2.step ih.1 hstep⟩).2

/-- **Delivered payloads are genuine**: the outcome of a wait, if it is not that it timed out,
is the payload of an event that was emitted on the key the wait resolved to, that had not
expired when the transaction that recorded it began, and that was not superseded when it was
chosen. An emission begins no sooner than those that had committed when it was called. -/
theorem received_genuine (hy : y.Reachable reg) :
    (∀ run i name key timeout x, y.opAt reg run i = some (.waitEvent name key timeout) →
      y.srv.db.checkpoint run i = some x → x ≠ timedOut →
      ∃ e, x = received e.payload ∧ y.Delivered run i key e) ∧
    ∀ n key rawPayload y', y.step reg (.emitEvent n key rawPayload) = some y' →
      ∃ tx, y'.srv.txs.get (.emit n) = some tx ∧ tx.key = trimSpace key ∧
        ∀ e te, Ev.emitted e te ∈ y.srv.hist → te ≤ tx.start := by
  refine ⟨fun run i name key timeout x hop hx hne => ?_, fun n key rawPayload y' hstep => ?_⟩
  · exact (hy.traced.delivered run i name key timeout x hop hx).resolve_left hne
  · simp only [step, Option.ite_none_left_eq_some] at hstep
    obtain ⟨-, hstep⟩ := hstep
    obtain ⟨payload, -, hstep⟩ := Option.bind_eq_some_iff.mp hstep
    obtain ⟨s, hs, hstep⟩ := Option.bind_eq_some_iff.mp hstep
    cases hstep
    exact ⟨_, Server.begin_tx hs, rfl, fun e te hmem =>
      (hy.inv.srv.choiceInv.order.emitted e te hmem).2.2⟩

/-- The key of a wait that is fixed. -/
def fixedKey : Operation Unit → Option String
  | .waitEvent _ (.key k) _ => some k
  | _ => none

theorem received_genuine_threeClaims : ∃ y e,
    threeClaims.foldlM (step threeOps) (init 0) = some y ∧
    y.srv.db.checkpoint "r" 2 = some (received e.payload) ∧
    y.Delivered "r" 2 (.key "k") e := by
  have hrun : (threeClaims.foldlM (step threeOps) (init 0)).map (fun y =>
      ((y.srv.db.checkpoint "r" 2).map (fun x => decide (x ≠ timedOut)),
        (y.opAt threeOps "r" 2).bind fixedKey)) =
      some (some true, some "k") := by decide +kernel
  obtain ⟨y, hy, hout⟩ := Option.map_eq_some_iff.mp hrun
  obtain ⟨hx, hop⟩ := Prod.mk.inj hout
  obtain ⟨x, hx, hne⟩ := Option.map_eq_some_iff.mp hx
  obtain ⟨op, hop, hkey⟩ := Option.bind_eq_some_iff.mp hop
  unfold fixedKey at hkey
  split at hkey
  · cases hkey
    obtain ⟨e, rfl, hd⟩ := (received_genuine (.of_run 0 _ hy)).1 "r" 2 _ _ _ x hop hx
      (of_decide_eq_true hne)
    exact ⟨y, e, hy, hx, hd⟩
  · cases hkey

end System

end DurablePg

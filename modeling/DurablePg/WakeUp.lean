import DurablePg.Dispatch

/-!
No wake-up is lost: a worker that rests has claimed every run it was told about, as far as it has
slots for them.

The argument is an invariant that says, of every run announced on the worker's queue, who will
look for it: a signal that is waiting or about to be sent, the dispatch in progress, or the end of
one of the claims that take up all slots.
-/

namespace DurablePg

open DurablePg.Lib

variable {J : Type} [Jsonb J]

/-! ### Announcements -/

namespace Server

variable {s s' : Server J} {a : Act J} {run : RunId}

lemma announces_row (hs : s.TxInv) (h : s.step a = some s') {ch : Change J}
    (hm : (s.view run).Moves ch (s'.view run)) (hmakes : s.Makes a run ch)
    (ha : ch.announces = true) :
    ∃ r', s'.db.run run = some r' ∧ r'.state = .ready ∧ r'.nextRunAt ≤ s.clock := by
  obtain ⟨r', hr'⟩ := hm.row_some
  refine ⟨r', hr', ?_⟩
  generalize s'.view run = v' at hm hr'
  cases hm with
  | inserted n now =>
    cases hr'
    have hnow : now ≤ s.clock := by
      cases hmakes
      cases does h with
      | touch hnow | insert hnow => exact hnow
    exact ⟨rfl, (of_decide_eq_true ha).trans hnow⟩
  | updated _ r u hrow hu hg =>
    cases hr'
    cases hmakes with
    | delivered tx n payload e woken _ htx =>
      cases hu
      exact ⟨rfl, hs.start tx (Table.get_eq_some_iff.mp htx).1⟩
    | timedOut now _ hnow => cases hu; exact ⟨rfl, hnow⟩
    | inserted => cases hu
    | _ => cases ha

/-- A run that has been announced is ready and due. -/
theorem Reachable.announced_row (hs : s.Reachable) (ha : announced (s.log run) = true) :
    ∃ r, s.db.run run = some r ∧ r.state = .ready ∧ r.nextRunAt ≤ s.clock := by
  obtain ⟨clock, hs⟩ := hs
  have hinv : s.TxInv ∧ ∀ run, announced (s.log run) = true →
      ∃ r, s.db.run run = some r ∧ r.state = .ready ∧ r.nextRunAt ≤ s.clock := by
    refine hs.invariant (P := fun s : Server J => s.TxInv ∧ ∀ run, announced (s.log run) = true →
      ∃ r, s.db.run run = some r ∧ r.state = .ready ∧ r.nextRunAt ≤ s.clock)
      ⟨(inv_init clock).tx, fun run ha => by cases ha⟩ ?_
    rintro z b z' ⟨hz, ih⟩ - h
    refine ⟨hz.step h, fun run ha => ?_⟩
    obtain ⟨o, ⟨hlog, hm⟩, hmakes⟩ := step_moved hz h run
    have hclock := clock_le h
    rcases o with _ | ch
    · obtain ⟨r, hr, hready, hdue⟩ := ih run (by simpa [hlog] using ha)
      exact ⟨r, (congrArg View.row hm).trans hr, hready, hdue.trans hclock⟩
    have hm : (z.view run).Moves ch (z'.view run) := hm
    rw [hlog, Option.toList_some, announced_snoc] at ha
    split at ha
    · rename_i htouch
      obtain ⟨r, hr, hready, hdue⟩ := ih run ha
      obtain ⟨r', hr'⟩ := hm.row_some
      refine ⟨r', hr', ?_⟩
      generalize z'.view run = v' at hm hr'
      cases hm with
      | inserted => cases htouch
      | updated _ r₀ u hrow hu hg =>
        cases hr.symm.trans hrow
        cases hr'
        cases ch with
        | touched => cases hu; exact ⟨hready, hdue.trans hclock⟩
        | _ => cases htouch
    · obtain ⟨r', hr', hready, hdue⟩ := announces_row hz h hm (hmakes ch rfl) ha
      exact ⟨r', hr', hready, hdue.trans hclock⟩
  exact hinv.2 run ha

omit [Jsonb J] in
lemma mem_queues {db : Db J} {ids : List RunId} {r : Row J} (hr : db.run run = some r)
    (hrun : run ∈ ids) : r.queue ∈ db.queues ids := by
  unfold Db.queues
  rw [List.mem_dedup, List.mem_map]
  exact ⟨r, List.mem_filterMap.mpr ⟨run, hrun, hr⟩, rfl⟩

lemma announces_notified (hs : s.TxInv) (h : s.step a = some s') {ch : Change J} {r' : Row J}
    (hm : (s.view run).Moves ch (s'.view run)) (hmakes : s.Makes a run ch)
    (ha : ch.announces = true) (hr' : s'.db.run run = some r') : r'.queue ∈ s.notified a := by
  cases hmakes with
  | inserted n now =>
    obtain ⟨n', now', heq, -, rfl, hnew⟩ := inserted_of_none hs h hm.row_none hr'
    cases heq
    have hdue : (n.row now).nextRunAt ≤ now := of_decide_eq_true ha
    have hnone : s.db.runs.rows.find? n.conflicts = none :=
      List.find?_eq_none.mpr (by simpa using hnew)
    rw [notified, notifies, returning, hnone]
    simp only [Bool.true_and, decide_eq_true hdue, if_true]
    exact List.mem_singleton_self _
  | timedOut now _ hnow =>
    by_cases hp : run ∈ s.db.picked (timedOutWait now) (fun r => r.waitingDeadline.getD 0)
        s.locked maintenanceBatch
    · obtain ⟨r, hr, -⟩ := Db.mem_picked hp
      rw [(hm.keeps hr hr').queue]
      exact mem_queues hr hp
    · -- a run that is not picked would go on waiting
      obtain ⟨r, hr, hready, -⟩ := announces_row hs h hm (.timedOut now run hnow) ha
      have hwait : r.state = .waitingEvent := of_decide_eq_true
        (hm.found ((congrArg View.row (promoted h hp)).symm.trans hr))
      rw [hwait] at hready
      cases hready
  | delivered tx n payload e woken _ htx hjob hphase hrun =>
    obtain ⟨r, hr, -⟩ : ∃ r, s.db.run run = some r ∧ _ := by
      have hready := hs.ready tx (Table.get_eq_some_iff.mp htx).1
      simp only [Tx.Ready, hphase, hjob] at hready
      exact hready.2.2 run hrun
    rw [(hm.keeps hr hr').queue]
    simp only [notified, htx, Option.map_some, hphase]
    exact mem_queues hr hrun
  | _ => cases ha

lemma announced_step (hs : s.TxInv) (h : s.step a = some s') (ha : announced (s'.log run) = true)
    {r' : Row J} (hr' : s'.db.run run = some r') :
    (announced (s.log run) = true ∧ ∃ r, s.db.run run = some r ∧ r.Keeps r' ∧
      r'.nextRunAt = r.nextRunAt) ∨ r'.queue ∈ s.notified a := by
  obtain ⟨o, ⟨hlog, hm⟩, hmakes⟩ := step_moved hs h run
  rcases o with _ | ch
  · have hr : s.db.run run = some r' := (congrArg View.row hm).symm.trans hr'
    exact Or.inl ⟨by simpa [hlog] using ha, r', hr, .refl r', rfl⟩
  have hm : (s.view run).Moves ch (s'.view run) := hm
  rw [hlog, Option.toList_some, announced_snoc] at ha
  split at ha
  · rename_i htouch
    refine Or.inl ⟨ha, ?_⟩
    have hrow : (s'.view run).row = some r' := hr'
    generalize s'.view run = v' at hm hrow
    cases hm with
    | inserted => cases htouch
    | updated _ r u hr hu hg =>
      cases hrow
      cases ch with
      | touched => cases hu; exact ⟨r, hr, ⟨rfl, rfl, rfl, rfl, rfl, rfl, rfl⟩, rfl⟩
      | _ => cases htouch
  · exact Or.inr (announces_notified hs h hm (hmakes ch rfl) ha hr')

end Server

/-! ### Who will look -/

lemma Engine.claimQuery_pos {e : Engine} {n : ℕ} {q : ClaimQuery} (h : e.claimQuery n = some q) :
    n ≠ 0 := by
  rintro rfl
  cases h

namespace DispatchPc

/-- The claims that have been counted out and not started. -/
def reserved : DispatchPc → ℕ
  | .claiming available _ => available
  | .starting runs => runs
  | _ => 0

/-- The runs that have been returned and not started. -/
def started : DispatchPc → ℕ
  | .starting runs => runs
  | _ => 0

/-- The dispatch in progress looks at runs that were due at `t`, or the last one has failed. -/
def looks (t : Time) : DispatchPc → Bool
  | .select failed => failed
  | .claiming _ sent => t ≤ sent
  | .starting _ => false
  | .dispatching | .draining => true

end DispatchPc

namespace Dispatcher

variable (e : Engine) (maxConcurrency : ℕ)

/-- Somebody will look for a run that is due when the row says, or no slot is free. -/
inductive Covered (d : Dispatcher J) (r : Row J) : Prop
  | wake (h : d.wake = true)
  | leaving (h : d.leaving ≠ 0)
  | listener (h : d.listener.signals e.queue = true)
  | dispatch (h : d.pc.looks r.nextRunAt = true)
  | full (h : maxConcurrency ≤ d.pc.started + d.inFlight)

/-- The run is announced, and one the worker claims. -/
structure Concerns (d : Dispatcher J) (run : RunId) (r : Row J) : Prop where
  row : d.srv.db.run run = some r
  announced : DurablePg.announced (d.srv.log run) = true
  queue : r.queue = e.queue
  definition : (r.workflowName, r.workflowVersion) ∈ e.workflows

/-- What the loop knows of its claim, and when it drains. -/
def PcInv (d : Dispatcher J) : Prop :=
  match d.pc with
  | .claiming available sent => sent ≤ d.srv.clock ∧ (∃ q, e.claimQuery available = some q) ∧
      (maxConcurrency ≤ available + d.inFlight ∨ d.wake = true ∨ d.leaving ≠ 0)
  | .draining => d.ctxDone = true
  | _ => True

structure Inv (d : Dispatcher J) : Prop where
  srv : d.srv.Reachable
  slots : d.pc.reserved + d.inFlight ≤ maxConcurrency
  pc : d.PcInv e maxConcurrency
  covered : d.ctxDone = false → ∀ run r, d.Concerns e run r → d.Covered e maxConcurrency r

variable {e maxConcurrency} {d d' : Dispatcher J} {a : DispatchAct J}

namespace PcInv

variable (h : d.PcInv e maxConcurrency) (hpc : d'.pc = d.pc)
  (hclock : d.srv.clock ≤ d'.srv.clock) (hctx : d.ctxDone = true → d'.ctxDone = true)
include h hpc hclock hctx

omit [Jsonb J] in
lemma frame (hslots : ∀ available, maxConcurrency ≤ available + d.inFlight ∨ d.wake = true ∨
      d.leaving ≠ 0 → maxConcurrency ≤ available + d'.inFlight ∨ d'.wake = true ∨ d'.leaving ≠ 0) :
    d'.PcInv e maxConcurrency := by
  unfold PcInv at h ⊢
  rw [hpc]
  split at h
  · exact ⟨h.1.trans hclock, h.2.1, hslots _ h.2.2⟩
  · exact hctx h
  · trivial

omit [Jsonb J] in
lemma of_signals (hflight : d'.inFlight = d.inFlight) (hwake : d.wake = true → d'.wake = true)
    (hleaving : d.leaving ≠ 0 → d'.leaving ≠ 0) : d'.PcInv e maxConcurrency :=
  h.frame hpc hclock hctx fun _ => Or.imp (fun h => hflight ▸ h) (Or.imp hwake hleaving)

omit [Jsonb J] in
lemma of_wake (hwake : d'.wake = true) : d'.PcInv e maxConcurrency :=
  h.frame hpc hclock hctx fun _ _ => Or.inr (Or.inl hwake)

omit [Jsonb J] in
lemma of_leaving (hleaving : d'.leaving ≠ 0) : d'.PcInv e maxConcurrency :=
  h.frame hpc hclock hctx fun _ _ => Or.inr (Or.inr hleaving)

end PcInv

namespace Inv

lemma init (clock : Time) : (Dispatcher.init clock : Dispatcher J).Inv e maxConcurrency where
  srv := ⟨clock, .refl⟩
  slots := Nat.zero_le _
  pc := trivial
  covered _ _ _ _ := .wake rfl

lemma reachable (hd : d.Inv e maxConcurrency) {b : Act J} {s : Server J}
    (h : d.srv.step b = some s) : s.Reachable := by
  obtain ⟨clock, hs⟩ := hd.srv
  exact ⟨clock, hs.snoc trivial h⟩

lemma server (hd : d.Inv e maxConcurrency) {b : Act J} {s : Server J}
    (h : d.srv.step b = some s) :
    ({ d with srv := s, listener := d.listener.notify (d.srv.notified b) } : Dispatcher J).Inv e
      maxConcurrency where
  srv := hd.reachable h
  slots := hd.slots
  pc := hd.pc.of_signals rfl (Server.clock_le h) id rfl id id
  covered hctx run r' hc := by
    rcases Server.announced_step hd.srv.inv.tx h hc.announced hc.row with
      ⟨hann, r, hr, hkeeps, hdue⟩ | hnote
    · -- the announcement is an old one
      have hcov := hd.covered hctx run r ⟨hr, hann, hkeeps.queue.symm.trans hc.queue, by
        rw [← hkeeps.workflowName, ← hkeeps.workflowVersion]; exact hc.definition⟩
      cases hcov with
      | wake h => exact .wake h
      | leaving h => exact .leaving h
      | listener h => exact .listener (Listener.signals_notify (Or.inl h))
      | dispatch h => exact .dispatch (by rw [hdue]; exact h)
      | full h => exact .full h
    · rw [hc.queue] at hnote
      exact .listener (Listener.signals_notify (Or.inr hnote))

/-- The worker's own claim: a run that is announced and not picked has been passed over for as
many others as there were slots. -/
lemma claim (hd : d.Inv e maxConcurrency) {available : ℕ} {sent : Time} {gen : RunId → Token}
    {now : Time} {q : ClaimQuery} {s : Server J} {ids : List RunId}
    (hpc : d.pc = .claiming available sent) (hq : e.claimQuery available = some q)
    (hnow : sent ≤ now) (h : d.srv.step (.claim q gen now) = some s)
    (hids : d.srv.db.picked (q.claimable now) Row.nextRunAt d.srv.locked q.limit = ids) :
    ({ d with srv := s, pc := .starting ids.length } : Dispatcher J).Inv e maxConcurrency where
  srv := hd.reachable h
  slots := by
    have hslots := hd.slots
    rw [hpc] at hslots
    have hlimit : q.limit = available := (Engine.claimQuery_spec (J := J) hq).2.1
    have hle : ids.length ≤ available := by
      rw [← hids, ← hlimit]
      exact Db.length_picked_le
    exact (Nat.add_le_add_right hle _).trans hslots
  pc := trivial
  covered hctx run r' hc := by
    have hfull := hd.pc
    simp only [PcInv, hpc] at hfull
    rcases Server.announced_step hd.srv.inv.tx h hc.announced hc.row with
      ⟨hann, r, hr, hkeeps, hdue⟩ | hnote
    · have hqueue := hkeeps.queue.symm.trans hc.queue
      have hdef : (r.workflowName, r.workflowVersion) ∈ e.workflows := by
        rw [← hkeeps.workflowName, ← hkeeps.workflowVersion]; exact hc.definition
      obtain ⟨r₁, hr₁, hready, -⟩ := hd.srv.announced_row hann
      cases hr.symm.trans hr₁
      cases hd.covered hctx run r ⟨hr, hann, hqueue, hdef⟩ with
      | wake h => exact .wake h
      | leaving h => exact .leaving h
      | listener h => exact .listener h
      | full hall =>
        -- there were slots
        have hslots := hd.slots
        have hpos := Engine.claimQuery_pos hq
        rw [hpc] at hslots hall
        simp only [DispatchPc.reserved, DispatchPc.started] at hslots hall
        omega
      | dispatch hlooks =>
        rw [hpc] at hlooks
        have hclaimable : q.claimable now r = true := by
          rw [Engine.claimQuery_claimable hq]
          simp only [Engine.claimable, Bool.and_eq_true, decide_eq_true_eq]
          exact ⟨⟨⟨hqueue, hready⟩, (of_decide_eq_true hlooks).trans hnow⟩, hdef⟩
        have hnot : run ∉ d.srv.db.picked (q.claimable now) Row.nextRunAt d.srv.locked q.limit := by
          intro hmem
          obtain ⟨r₂, hr₂, hleased⟩ := Server.claim_leases h hmem
          obtain ⟨r₃, hr₃, hready', -⟩ := (hd.reachable h).announced_row hc.announced
          cases hr₂.symm.trans hr₃
          rw [hleased] at hready'
          cases hready'
        have hlen := (Db.picked_full hr hclaimable (hd.srv.inv.tx.not_locked hr hready) hnot).1
        rcases hfull.2.2 with hall | hwake | hleft
        · refine .full ?_
          rw [hids, (Engine.claimQuery_spec (J := J) hq).2.1] at hlen
          exact hlen ▸ hall
        · exact .wake hwake
        · exact .leaving hleft
    · cases hnote

lemma local_step (hd : d.Inv e maxConcurrency) (hsrv : d'.srv = d.srv)
    (hctx : d'.ctxDone = false → d.ctxDone = false)
    (hslots : d'.pc.reserved + d'.inFlight ≤ maxConcurrency) (hpc : d'.PcInv e maxConcurrency)
    (hcov : ∀ run r, d'.ctxDone = false → d.Concerns e run r → r.nextRunAt ≤ d.srv.clock →
      d.Covered e maxConcurrency r → d'.Covered e maxConcurrency r) :
    d'.Inv e maxConcurrency where
  srv := hsrv ▸ hd.srv
  slots := hslots
  pc := hpc
  covered hctx' run r hc := by
    have hc' : d.Concerns e run r := ⟨hsrv ▸ hc.row, hsrv ▸ hc.announced, hc.queue, hc.definition⟩
    obtain ⟨r₁, hr₁, -, hdue⟩ := hd.srv.announced_row hc'.announced
    cases hc'.row.symm.trans hr₁
    exact hcov run r hctx' hc' hdue (hd.covered (hctx hctx') run r hc')

/-- **Step**: the worker and everybody else keep the invariant. -/
theorem step (hd : d.Inv e maxConcurrency) (h : d.step e maxConcurrency a = some d') :
    d'.Inv e maxConcurrency := by
  have hslots := hd.slots
  cases does h with
  | server hs => exact hd.server hs
  | claim hpc hq hnow hs => exact hd.claim hpc hq hnow hs rfl
  | lose hpc hq hs =>
    rw [hpc] at hslots
    exact ⟨hd.reachable hs, (Nat.add_le_add_right (Nat.zero_le _) _).trans hslots, trivial,
      fun _ _ _ _ => .dispatch rfl⟩
  | cancel =>
    exact hd.local_step rfl (fun h => by cases h) hslots
      (hd.pc.of_signals rfl le_rfl (fun _ => rfl) rfl id id) fun _ _ h => by cases h
  | tick hpc =>
    rw [hpc] at hslots
    exact hd.local_step rfl id hslots trivial fun _ _ _ _ _ _ => .dispatch rfl
  | takeWake hpc =>
    rw [hpc] at hslots
    exact hd.local_step rfl id hslots trivial fun _ _ _ _ _ _ => .dispatch rfl
  | idle hpc hno =>
    rw [hpc] at hslots
    refine hd.local_step rfl id hslots trivial fun run r hctx hc _ _ => ?_
    rcases hno with hdone | hfull | hnil
    · rw [show d.ctxDone = false from hctx] at hdone; cases hdone
    · exact .full (hfull.trans (Nat.le_add_left _ _))
    · have := hc.definition
      rw [hnil] at this; cases this
  | load hpc hfree hdefs =>
    refine hd.local_step rfl id ?_ ⟨le_rfl, ?_, Or.inl ?_⟩ fun run r _ _ hdue _ =>
      .dispatch (decide_eq_true hdue)
    · simp only [DispatchPc.reserved]; omega
    · refine Option.isSome_iff_exists.mp (Option.isSome_iff_ne_none.mpr fun hnone => hdefs ?_)
      exact Engine.claimQuery_none (by omega) hnone
    · simp only; omega
  | fail hpc =>
    rw [hpc] at hslots
    exact hd.local_step rfl id ((Nat.add_le_add_right (Nat.zero_le _) _).trans hslots) trivial
      fun _ _ _ _ _ _ => .dispatch rfl
  | startClaim hpc =>
    rw [hpc] at hslots
    refine hd.local_step rfl id ?_ trivial fun run r _ _ _ hcov => ?_
    · simp only [DispatchPc.reserved] at hslots ⊢; omega
    · cases hcov with
      | wake h => exact .wake h
      | leaving h => exact .leaving h
      | listener h => exact .listener h
      | dispatch h => rw [hpc] at h; cases h
      | full h =>
        rw [hpc] at h
        refine .full ?_
        simp only [DispatchPc.started] at h ⊢
        omega
  | dispatched hpc =>
    rw [hpc] at hslots
    refine hd.local_step rfl id hslots trivial fun run r _ _ _ hcov => ?_
    cases hcov with
    | wake h => exact .wake h
    | leaving h => exact .leaving h
    | listener h => exact .listener h
    | dispatch h => rw [hpc] at h; cases h
    | full h => rw [hpc] at h; exact .full h
  | leave hpos =>
    refine hd.local_step rfl id ?_ (hd.pc.of_leaving rfl le_rfl id (Nat.succ_ne_zero _))
      fun _ _ _ _ _ _ => .leaving (Nat.succ_ne_zero _)
    simp only; omega
  | signalLeft | signalListening | signalLost =>
    exact hd.local_step rfl id hslots (hd.pc.of_wake rfl le_rfl id rfl)
      fun _ _ _ _ _ _ => .wake rfl
  | listen | breakConn =>
    exact hd.local_step rfl id hslots (hd.pc.of_signals rfl le_rfl id rfl id id)
      fun _ _ _ _ _ _ => .listener rfl
  | receive hl =>
    refine hd.local_step rfl id hslots (hd.pc.of_signals rfl le_rfl id rfl id id)
      fun run r _ _ _ hcov => ?_
    cases hcov with
    | wake h => exact .wake h
    | leaving h => exact .leaving h
    | listener h =>
      rw [hl] at h
      simp only [Listener.signals, decide_eq_true_eq, List.mem_cons] at h
      refine .listener ?_
      simp only [Listener.signals, Bool.or_eq_true, decide_eq_true_eq]
      exact h.imp Eq.symm id
    | dispatch h => exact .dispatch h
    | full h => exact .full h
  | handle hl =>
    refine hd.local_step rfl id hslots
      (hd.pc.of_signals rfl le_rfl id rfl (fun hwake => by simp [hwake]) id)
      fun run r _ _ _ hcov => ?_
    cases hcov with
    | wake h => exact .wake (by simp [h])
    | leaving h => exact .leaving h
    | listener h =>
      rw [hl] at h
      simp only [Listener.signals, Bool.or_eq_true, decide_eq_true_eq] at h
      rcases h with rfl | h
      · exact .wake (by simp)
      · exact .listener (decide_eq_true h)
    | dispatch h => exact .dispatch h
    | full h => exact .full h
  | drain hpc hdone =>
    rw [hpc] at hslots
    refine hd.local_step rfl id hslots hdone fun _ _ hctx => ?_
    rw [show d.ctxDone = false from hctx] at hdone; cases hdone

lemma of_reaches {clock : Time} (h : Reaches (Dispatcher.step e maxConcurrency) (.init clock) d) :
    d.Inv e maxConcurrency :=
  h.invariant (.init clock) fun _ _ _ ih _ => ih.step

end Inv

/-! ### A worker that rests -/

/-- The worker waits in its `select`, its last claim has not failed, and nobody is about to signal:
no claim that has given back its slot, and no notification that has not been looked at. -/
structure Resting (d : Dispatcher J) : Prop where
  ctx : d.ctxDone = false
  pc : d.pc = .select false
  wake : d.wake = false
  leaving : d.leaving = 0
  listener : d.listener = .waiting []

instance (d : Dispatcher J) : Decidable d.Resting :=
  decidable_of_iff (d.ctxDone = false ∧ d.pc = .select false ∧ d.wake = false ∧ d.leaving = 0 ∧
    d.listener = .waiting [])
    ⟨fun ⟨h₁, h₂, h₃, h₄, h₅⟩ => ⟨h₁, h₂, h₃, h₄, h₅⟩, fun ⟨h₁, h₂, h₃, h₄, h₅⟩ =>
      ⟨h₁, h₂, h₃, h₄, h₅⟩⟩

lemma Inv.full_of_resting (hd : d.Inv e maxConcurrency) (hrest : d.Resting) {run : RunId}
    {r : Row J} (hc : d.Concerns e run r) : maxConcurrency ≤ d.inFlight := by
  cases hd.covered hrest.ctx run r hc with
  | wake h => rw [hrest.wake] at h; cases h
  | leaving h => exact absurd hrest.leaving h
  | listener h => rw [hrest.listener] at h; cases h
  | dispatch h => rw [hrest.pc] at h; cases h
  | full h => rw [hrest.pc] at h; exact h.trans (Nat.zero_add _).le

/-- **No wake-up is lost.** Whatever other workers and clients do, and in whatever order its
goroutines run: when a worker with a free slot rests, connected and with nothing to receive, no
run of its queue and its definitions is announced, that is, none of them has been enqueued due at
once, delivered its event or timed out, and not been claimed since. -/
theorem no_lost_wakeup {clock : Time}
    (h : Reaches (Dispatcher.step e maxConcurrency) (.init clock) d) (hrest : d.Resting)
    (hfree : d.inFlight < maxConcurrency) {run : RunId} {r : Row J}
    (hr : d.srv.db.run run = some r) (hqueue : r.queue = e.queue)
    (hdef : (r.workflowName, r.workflowVersion) ∈ e.workflows) :
    announced (d.srv.log run) = false := by
  rw [Bool.eq_false_iff]
  intro hann
  have hfull := (Inv.of_reaches h).full_of_resting hrest ⟨hr, hann, hqueue, hdef⟩
  omega

/-- A run that is enqueued while the worker rests is claimed, and the worker rests again. -/
theorem no_lost_wakeup_enqueued : ∃ d : Dispatcher Doc, d.Resting ∧ d.inFlight = 1 ∧
    announced (d.srv.log "r") = false := by
  let e : Engine := ⟨"q", 60000000000, [("w", 1)]⟩
  let acts : List (DispatchAct Doc) :=
    [.load, .claim id 0, .dispatched, .listen, .signalListening, .takeWake, .load, .claim id 0,
      .dispatched, .server (.insertRun ⟨"r", "w", 1, "q", 3, none, .null, none⟩ 0), .receive,
      .handle, .takeWake, .load, .claim id 0, .startClaim, .dispatched]
  have hrun : ((acts.foldlM (Dispatcher.step e 2) (.init 0)).map fun d =>
      (decide d.Resting, d.inFlight,
        (d.srv.db.run "r").map fun r => (r.queue, r.workflowName, r.workflowVersion))) =
      some (true, 1, some ("q", "w", 1)) := by
    decide +kernel
  obtain ⟨d, hd, heq⟩ := Option.map_eq_some_iff.mp hrun
  simp only [Prod.mk.injEq, decide_eq_true_eq] at heq
  obtain ⟨hrest, hflight, hrow⟩ := heq
  obtain ⟨r, hr, hkey⟩ := Option.map_eq_some_iff.mp hrow
  simp only [Prod.mk.injEq] at hkey
  refine ⟨d, hrest, hflight, ?_⟩
  exact no_lost_wakeup (.of_run acts hd) hrest (by omega) hr hkey.1
    (by rw [hkey.2.1, hkey.2.2]; exact List.mem_singleton_self _)

end Dispatcher

/-! ### A worker comes to rest -/

/-- The steps that the worker's goroutines take by themselves: no ticker, nothing that fails, no
claim that is over, and nobody else. -/
def DispatchAct.own : DispatchAct J → Bool
  | .takeWake | .load | .claim .. | .startClaim | .dispatched | .signalLeft | .listen
  | .signalListening | .receive | .handle | .signalLost => true
  | .server _ | .cancel | .tick | .fail | .lose .. | .leave | .breakConn | .drain => false

/-- How many steps the listener is away from `WaitForNotification` with nothing to receive. -/
def Listener.work : Listener → ℕ
  | .down => 3
  | .registered pending => 3 * pending.length + 2
  | .waiting pending => 3 * pending.length
  | .received _ pending => 3 * pending.length + 2
  | .lost => 5

/-- How many steps the loop is away from its `select`. -/
def DispatchPc.work (maxConcurrency : ℕ) : DispatchPc → ℕ
  | .select _ | .draining => 0
  | .dispatching => maxConcurrency + 3
  | .claiming available _ => available + 2
  | .starting runs => runs + 1

/-- Everything that is sent is within its type. -/
structure Engine.Sendable (e : Engine) : Prop where
  queue : isText e.queue = true
  name : ∀ key ∈ e.workflows, isText key.1 = true
  version : ∀ key ∈ e.workflows, isInt4 key.2 = true

lemma Engine.Sendable.sendable {e : Engine} (he : e.Sendable) {n : ℕ} {q : ClaimQuery}
    (hq : e.claimQuery n = some q) : q.sendable = true := by
  obtain ⟨hqueue, -, -, hencodes, hreadable, -⟩ := Engine.claimQuery_spec (J := Unit) hq
  simp only [ClaimQuery.sendable, hencodes, hreadable, hqueue, Bool.and_eq_true, List.all_eq_true]
  exact ⟨⟨he.version, he.queue⟩, he.name⟩

namespace Dispatcher

variable {e : Engine} {maxConcurrency : ℕ} {d d' : Dispatcher J} {a : DispatchAct J}

/-- The signals that are given or about to be given, by the steps they take. -/
def signals (d : Dispatcher J) : ℕ := d.wake.toNat + 2 * d.leaving + d.listener.work

/-- A bound on the steps to come: every signal may lead to a dispatch. -/
def work (maxConcurrency : ℕ) (d : Dispatcher J) : ℕ :=
  d.pc.work maxConcurrency + (maxConcurrency + 4) * d.signals

lemma own_frame (h : d.step e maxConcurrency a = some d') (hown : a.own = true) :
    d'.ctxDone = d.ctxDone ∧ (d.pc ≠ .select true → d'.pc ≠ .select true) := by
  cases does h with
  | server | cancel | tick | fail | lose | leave | breakConn | drain => cases hown
  | signalLeft | listen | signalListening | receive | handle | signalLost => exact ⟨rfl, id⟩
  | _ => exact ⟨rfl, fun _ => by simp⟩

lemma own_clock (h : d.step e maxConcurrency a = some d') (hown : a.own = true) :
    d.srv.clock ≤ d'.srv.clock := by
  cases does h with
  | claim _ _ _ hs => exact Server.clock_le hs
  | server | lose => cases hown
  | _ => exact le_rfl

lemma own_row (hd : d.Inv e maxConcurrency) (h : d.step e maxConcurrency a = some d')
    (hown : a.own = true) {run : RunId} {r : Row J} (hr : d.srv.db.run run = some r) :
    ∃ r', d'.srv.db.run run = some r' ∧
      (r' = r ∧ d'.srv.log run = d.srv.log run ∨ r'.state = .leased) := by
  cases does h with
  | claim _ _ _ hs => exact Server.claim_row hd.srv.inv.tx hs hr
  | server | lose => cases hown
  | _ => exact ⟨r, hr, Or.inl ⟨rfl, rfl⟩⟩

/-- A run with the row `r` is leased, or the dispatch that has begun is still to look, or all slots
are given away. -/
def Polled (maxConcurrency : ℕ) (run : RunId) (r : Row J) (d : Dispatcher J) : Prop :=
  (∃ r', d.srv.db.run run = some r' ∧ r'.state = .leased) ∨
    d.srv.db.run run = some r ∧
      match d.pc with
      | .dispatching => True
      | .claiming available sent =>
        r.nextRunAt ≤ sent ∧ maxConcurrency ≤ available + d.inFlight
      | .starting runs => maxConcurrency ≤ runs + d.inFlight
      | _ => maxConcurrency ≤ d.inFlight

namespace Polled

variable {run : RunId} {r : Row J}

lemma claim (hd : d.Inv e maxConcurrency) {available : ℕ} {sent : Time} {gen : RunId → Token}
    {now : Time} {q : ClaimQuery} {s : Server J} (hq : e.claimQuery available = some q)
    (hnow : sent ≤ now) (h : d.srv.step (.claim q gen now) = some s)
    (hr : d.srv.db.run run = some r) (hclaimable : e.claimable sent r = true)
    (hfull : maxConcurrency ≤ available + d.inFlight) :
    Polled maxConcurrency run r { d with
      srv := s
      pc := .starting
        (d.srv.db.picked (q.claimable now) Row.nextRunAt d.srv.locked q.limit).length } := by
  have hclaim : q.claimable now r = true := by
    rw [Engine.claimQuery_claimable hq]
    simp only [Engine.claimable, Bool.and_eq_true, decide_eq_true_eq] at hclaimable ⊢
    exact ⟨⟨hclaimable.1.1, hclaimable.1.2.trans hnow⟩, hclaimable.2⟩
  have hready : r.state = .ready := by
    simp only [Engine.claimable, Bool.and_eq_true, decide_eq_true_eq] at hclaimable
    exact hclaimable.1.1.2
  by_cases hmem : run ∈ d.srv.db.picked (q.claimable now) Row.nextRunAt d.srv.locked q.limit
  · exact Or.inl (Server.claim_leases h hmem)
  have hlen := (Db.picked_full hr hclaim (hd.srv.inv.tx.not_locked hr hready) hmem).1
  obtain ⟨r', hr', ⟨rfl, -⟩ | hleased⟩ := Server.claim_row hd.srv.inv.tx h hr
  · refine Or.inr ⟨hr', ?_⟩
    simp only
    rw [hlen, (Engine.claimQuery_spec (J := J) hq).2.1]
    exact hfull
  · exact Or.inl ⟨r', hr', hleased⟩

/-- **Step**: the dispatch looks for the run, and takes it if it has a slot. -/
lemma step (hd : d.Inv e maxConcurrency) (hctx : d.ctxDone = false)
    (hclock : r.nextRunAt ≤ d.srv.clock) (hclaimable : e.claimable r.nextRunAt r = true)
    (hp : d.Polled maxConcurrency run r) (h : d.step e maxConcurrency a = some d')
    (hown : a.own = true) : d'.Polled maxConcurrency run r := by
  rcases hp with ⟨r', hr', hleased⟩ | ⟨hr, hpc⟩
  · -- the worker's own steps leave a lease alone
    obtain ⟨r₁, hr₁, ⟨rfl, -⟩ | hleased₁⟩ := own_row hd h hown hr'
    · exact Or.inl ⟨r₁, hr₁, hleased⟩
    · exact Or.inl ⟨r₁, hr₁, hleased₁⟩
  have hdef : (r.workflowName, r.workflowVersion) ∈ e.workflows := by
    simp only [Engine.claimable, Bool.and_eq_true, decide_eq_true_eq] at hclaimable
    exact hclaimable.2
  cases does h with
  | server | cancel | tick | fail | lose | leave | breakConn | drain => cases hown
  | takeWake => exact Or.inr ⟨hr, trivial⟩
  | idle _ hno =>
    rcases hno with hdone | hfull | hnil
    · rw [hctx] at hdone; cases hdone
    · exact Or.inr ⟨hr, hfull⟩
    · rw [hnil] at hdef; cases hdef
  | load _ hfree => exact Or.inr ⟨hr, hclock, by simp only; omega⟩
  | claim hloop hq hnow hs =>
    simp only [hloop] at hpc
    refine claim hd hq hnow hs hr ?_ hpc.2
    simp only [Engine.claimable, Bool.and_eq_true, decide_eq_true_eq] at hclaimable ⊢
    exact ⟨⟨hclaimable.1.1, hpc.1⟩, hclaimable.2⟩
  | startClaim hloop =>
    simp only [hloop] at hpc
    exact Or.inr ⟨hr, by simp only; omega⟩
  | dispatched hloop =>
    simp only [hloop] at hpc
    exact Or.inr ⟨hr, by simp only; omega⟩
  | signalLeft | listen | signalListening | receive | handle | signalLost =>
    exact Or.inr ⟨hr, hpc⟩

lemma of_run (hd : d.Inv e maxConcurrency) (hctx : d.ctxDone = false)
    (hclock : r.nextRunAt ≤ d.srv.clock) (hclaimable : e.claimable r.nextRunAt r = true)
    (hp : d.Polled maxConcurrency run r) {as : List (DispatchAct J)}
    (hown : ∀ a ∈ as, a.own = true)
    (hrun : as.foldlM (Dispatcher.step e maxConcurrency) d = some d') :
    d'.Polled maxConcurrency run r := by
  induction as generalizing d with
  | nil => cases hrun; exact hp
  | cons a as ih =>
    obtain ⟨d₁, h₁, hrun⟩ := Option.bind_eq_some_iff.mp hrun
    have ha := hown a List.mem_cons_self
    exact ih (hd.step h₁) ((own_frame h₁ ha).1.trans hctx) (hclock.trans (own_clock h₁ ha))
      (hp.step hd hctx hclock hclaimable h₁ ha)
      (fun b hb => hown b (List.mem_cons_of_mem _ hb)) hrun

end Polled

end Dispatcher

end DurablePg

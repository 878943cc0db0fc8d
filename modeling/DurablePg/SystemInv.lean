import DurablePg.DriveAnswers
import DurablePg.Inversion
import DurablePg.SystemSteps

/-!
Every reachable state of the system: the server's tables are reachable, every run has had a
lawful life, and every claim in progress satisfies its invariant.
-/

namespace DurablePg

open DurablePg.Lib

variable {J Ω : Type} [Jsonb J]

namespace Server

variable {s s' : Server J} {a : Act J}

lemma log_grows (h : s.step a = some s') (run : RunId) : s.log run <+: s'.log run := by
  obtain ⟨evs, hevs⟩ := hist_grows h
  rw [log, log, hevs, List.filterMap_append]
  exact List.prefix_append _ _

lemma claims_grow (h : s.step a = some s') {run : RunId} {token : Token}
    (ht : token ∈ (s.log run).filterMap Change.claimToken?) :
    token ∈ (s'.log run).filterMap Change.claimToken? :=
  ((log_grows h run).filterMap _).subset ht

lemma row_ok {s : Server J} (hs : s.Inv) {run : RunId} {r : Row J}
    (hr : (s.view run).row = some r) :
    r.Ok := (hs.life run).row_ok hr

end Server

namespace System

/-- What happened beside the tables. -/
def past (y : System J Ω) : Past J Ω := ⟨y.calls, y.srv.emittedEvents⟩

variable {reg : Registry Ω}

variable (reg) in
/-- The invariant of the system. -/
structure Inv (y : System J Ω) : Prop where
  srv : y.srv.Reachable
  lawful : ∀ run r, y.srv.db.run run = some r →
    ∃ wf, reg.workflow r.workflowName r.workflowVersion = some wf ∧
      Lawful y.past wf (y.srv.log run) (y.srv.view run)
  token : ∀ token p, y.procs token = some p → p.run.token = token ∧
    token ∈ (y.srv.log p.run.id).filterMap Change.claimToken?
  proc : ∀ token p, y.procs token = some p →
    p.Inv reg y.past (y.srv.view p.run.id) (y.srv.txs.get (.wait token))
  owner : ∀ token, (y.srv.txs.get (.wait token)).isSome → (y.procs token).isSome

variable {y y' : System J Ω} {s : Server J} {a : Act J} {past' : Past J Ω}

namespace Inv

lemma course (h : y.Inv reg) {run : RunId} {r : Row J} (hr : y.srv.db.run run = some r) :
    ∃ wf, reg.workflow r.workflowName r.workflowVersion = some wf ∧
      Course y.past wf (y.srv.db.checkpoint run) r := by
  obtain ⟨wf, hwf, hl⟩ := h.lawful run r hr
  exact ⟨wf, hwf, hl.course (Registry.valid hwf) hr⟩

lemma row_of_checkpoint (h : y.Inv reg) {run : RunId} {i : ℕ} {x : J}
    (hx : y.srv.db.checkpoint run i = some x) : ∃ r, y.srv.db.run run = some r := by
  have hlife := h.srv.inv.life run
  generalize y.srv.log run = l at hlife
  generalize hv : y.srv.view run = v at hlife
  cases hlife with
  | nil =>
    have hcps : y.srv.db.checkpoint run i = none := congrFun (congrArg View.cps hv) i
    rw [hcps] at hx; cases hx
  | snoc _ hm =>
    obtain ⟨r, hr⟩ := hm.row_some
    exact ⟨r, (congrArg View.row hv).trans hr⟩

lemma claim_course (h : y.Inv reg) {token : Token} {p : Proc J Ω} (hp : y.procs token = some p)
    {r : Row J} (hr : y.srv.db.run p.run.id = some r) :
    Course y.past p.wf (y.srv.db.checkpoint p.run.id) r := by
  obtain ⟨wf, hwf, hc⟩ := h.course hr
  have hk := (h.proc token p hp).knows
  obtain ⟨r', hr', -, hname, hver, -⟩ := hk.row
  have hr' : y.srv.db.run p.run.id = some r' := hr'
  rw [hr] at hr'; cases hr'
  rw [hname, hver, hk.wf] at hwf
  cases hwf; exact hc

lemma other (h : y.Inv reg) {token : Token} {p : Proc J Ω} (hp : y.procs token = some p)
    (hstep : y.srv.step a = some s) (hpast : y.past.Within past')
    (htx : s.txs.get (.wait token) = y.srv.txs.get (.wait token) ∨ s.txs.get (.wait token) = none)
    (hf : ∀ ch, y.srv.Makes a p.run.id ch → ch.Foreign token) :
    p.Inv reg past' (s.view p.run.id) (s.txs.get (.wait token)) := by
  obtain ⟨htok, -⟩ := h.token token p hp
  obtain ⟨o, ⟨-, hm⟩, hmakes⟩ := Server.step_moved h.srv.inv.tx hstep p.run.id
  refine (h.proc token p hp).foreign hpast htx (fun r hr => Server.row_ok h.srv.inv hr) ?_
  rcases o with _ | ch
  · exact Or.inl hm
  · exact Or.inr ⟨ch, hm, htok.symm ▸ hf ch (hmakes ch rfl)⟩

lemma lives (h : y.Inv reg) (hstep : y.srv.step a = some s) (hpast : y.past.Within past')
    (hins : ∀ n now, y.srv.Makes a n.id (.inserted n now) →
      ∃ wf, reg.workflow n.workflowName n.workflowVersion = some wf)
    (hfits : ∀ run r wf ch, y.srv.db.run run = some r →
      reg.workflow r.workflowName r.workflowVersion = some wf →
      y.srv.Makes a run ch → (y.srv.view run).Moves ch (s.view run) →
      ch.Fits past' wf (y.srv.view run)) (run : RunId) (r' : Row J) (hr' : s.db.run run = some r') :
    ∃ wf, reg.workflow r'.workflowName r'.workflowVersion = some wf ∧
      Lawful past' wf (s.log run) (s.view run) := by
  obtain ⟨o, ⟨hlog, hm⟩, hmakes⟩ := Server.step_moved h.srv.inv.tx hstep run
  rcases o with _ | ch
  · have hv : s.view run = y.srv.view run := hm
    have hr : y.srv.db.run run = some r' := (congrArg View.row hv).symm.trans hr'
    obtain ⟨wf, hwf, hl⟩ := h.lawful run r' hr
    refine ⟨wf, hwf, ?_⟩
    rw [hlog, hv]
    simpa using hl.mono hpast
  · have hm : (y.srv.view run).Moves ch (s.view run) := hm
    have hmk := hmakes ch rfl
    rcases hr : y.srv.db.run run with _ | r
    · -- the run is new
      have hnil : y.srv.log run = [] ∧ y.srv.view run = View.empty := by
        have hlife := h.srv.inv.life run
        generalize y.srv.log run = l at hlife
        generalize hv : y.srv.view run = v at hlife
        cases hlife with
        | nil => exact ⟨rfl, rfl⟩
        | snoc _ hm' =>
          obtain ⟨r, hr₁⟩ := hm'.row_some
          rw [← hv, show (y.srv.view run).row = none from hr] at hr₁; cases hr₁
      rw [hlog, hnil.1]
      rw [hnil.2] at hm
      generalize hv : s.view run = v at hm
      cases hm with
      | inserted n now hrow hn =>
        have hid : run = n.id := by cases hmk; rfl
        subst hid
        obtain ⟨wf, hwf⟩ := hins n now hmk
        obtain ⟨hname, hver, -⟩ := reg.compiled _ _ _ hwf
        have hrow' : r' = n.row now := by
          have := congrArg View.row hv
          rw [show (s.view n.id).row = some r' from hr'] at this
          exact Option.some.inj this
        refine ⟨wf, by rw [hrow']; exact hwf, ?_⟩
        exact Lawful.snoc Lawful.nil (View.Moves.inserted n now rfl hn) ⟨hname.symm, hver.symm⟩
      | updated ch r u hrow => cases hrow
    · obtain ⟨wf, hwf, hl⟩ := h.lawful run r hr
      have hk := hm.keeps hr hr'
      refine ⟨wf, by rw [hk.workflowName, hk.workflowVersion]; exact hwf, ?_⟩
      rw [hlog]
      exact (hl.mono hpast).snoc hm (hfits run r wf ch hr hwf hmk hm)

lemma of_step (h : y.Inv reg) (hstep : y.srv.step a = some s) (hsrv : y'.srv = s)
    (hcalls : y.calls ⊆ y'.calls)
    (hprocs : ∀ token p', y'.procs token = some p' →
      (y.procs token = some p' ∧ (∀ ch, y.srv.Makes a p'.run.id ch → ch.Foreign token) ∧
        (s.txs.get (.wait token) = y.srv.txs.get (.wait token) ∨ s.txs.get (.wait token) = none)) ∨
      (p'.run.token = token ∧ token ∈ (s.log p'.run.id).filterMap Change.claimToken? ∧
        p'.Inv reg y'.past (s.view p'.run.id) (s.txs.get (.wait token))))
    (howner : ∀ token, (s.txs.get (.wait token)).isSome → (y'.procs token).isSome)
    (hins : ∀ n now, y.srv.Makes a n.id (.inserted n now) →
      ∃ wf, reg.workflow n.workflowName n.workflowVersion = some wf)
    (hfits : ∀ run r wf ch, y.srv.db.run run = some r →
      reg.workflow r.workflowName r.workflowVersion = some wf →
      y.srv.Makes a run ch → (y.srv.view run).Moves ch (s.view run) →
      ch.Fits y'.past wf (y.srv.view run)) : y'.Inv reg := by
  subst hsrv
  have hpast : y.past.Within y'.past := ⟨hcalls, Server.emitted_grows hstep⟩
  obtain ⟨clock, hreach⟩ := h.srv
  refine ⟨⟨clock, hreach.snoc trivial hstep⟩, h.lives hstep hpast hins hfits, ?_, ?_, howner⟩
  · intro token p' hp'
    rcases hprocs token p' hp' with ⟨hp, -⟩ | ⟨htok, hmem, -⟩
    · obtain ⟨htok, hmem⟩ := h.token token p' hp
      exact ⟨htok, Server.claims_grow hstep hmem⟩
    · exact ⟨htok, hmem⟩
  · intro token p' hp'
    rcases hprocs token p' hp' with ⟨hp, hf, htx⟩ | ⟨-, -, hinv⟩
    · exact h.other hp hstep hpast htx hf
    · exact hinv

omit [Jsonb J] in
lemma procs_setProc {token token' : Token} {p p' : Proc J Ω} {srv : Server J}
    {calls : List (Call Ω)}
    (h : (⟨srv, Function.update y.procs token (some p), calls⟩ : System J Ω).procs token' =
      some p') :
    (token' = token ∧ p' = p) ∨ (token' ≠ token ∧ y.procs token' = some p') := by
  by_cases ht : token' = token
  · subst ht
    left
    exact ⟨rfl, by simpa using h.symm⟩
  · right
    exact ⟨ht, by simpa [ht] using h⟩

lemma of_claim (h : y.Inv reg) (hstep : y.srv.step a = some s) {token : Token} {p p' : Proc J Ω}
    (hp : y.procs token = some p) (hrun : p'.run = p.run)
    (hinv : p'.Inv reg ({ y with srv := s } : System J Ω).past (s.view p.run.id)
      (s.txs.get (.wait token)))
    (htx : ∀ token', token' ≠ token → a.tx? ≠ some (.wait token'))
    (hwrote : ∀ run ch, y.srv.Makes a run ch → run = p.run.id ∧ ∃ w now clock,
      ch = .wrote token w now clock ∧ ∀ r, y.srv.db.run run = some r →
        r.leaseToken = some token → w.Fits y.past p.wf r (y.srv.db.checkpoint run)) :
    (({ y with srv := s } : System J Ω).setProc token p').Inv reg := by
  obtain ⟨htok, hmem⟩ := h.token token p hp
  have hpast : y.past.Within ({ y with srv := s } : System J Ω).past :=
    ⟨fun _ => id, Server.emitted_grows hstep⟩
  refine h.of_step hstep rfl (fun _ => id) ?_ ?_ ?_ ?_
  · intro token' q hq
    rcases procs_setProc hq with ⟨rfl, rfl⟩ | ⟨hne, hq⟩
    · exact Or.inr ⟨by rw [hrun]; exact htok, by rw [hrun]; exact Server.claims_grow hstep hmem,
        by rw [hrun]; exact hinv⟩
    · refine Or.inl ⟨hq, fun ch hm => ?_, Or.inl (Server.tx_frame hstep (htx token' hne))⟩
      obtain ⟨-, w, now, clock, rfl, -⟩ := hwrote _ ch hm
      exact ⟨by simp [Change.claimToken?], fun w' now' clock' he => hne (by cases he; rfl)⟩
  · intro token' hsome
    by_cases ht : token' = token
    · subst ht; simp [setProc]
    · rw [Server.tx_frame hstep (htx token' ht)] at hsome
      simpa [setProc, ht] using h.owner token' hsome
  · intro n now hm
    obtain ⟨-, w, now', clock, he, -⟩ := hwrote _ _ hm
    cases he
  · intro run r wf ch hr hwf hm hmoves
    obtain ⟨rfl, w, now, clock, rfl, hfits⟩ := hwrote run ch hm
    intro r₁ hr₁
    obtain ⟨r₂, hr₂, hlive⟩ := hmoves.wrote_row
    have hr₂ : y.srv.db.run p.run.id = some r₂ := hr₂
    have hr₁ : y.srv.db.run p.run.id = some r₁ := hr₁
    rw [hr₁] at hr₂; cases hr₂
    -- the definition the claim drives is that of the run
    have hk := (h.proc token p hp).knows
    obtain ⟨r', hr', -, hname, hver, -⟩ := hk.row
    have hr' : y.srv.db.run p.run.id = some r' := hr'
    rw [hr] at hr'; cases hr'
    rw [hname, hver, hk.wf] at hwf; cases hwf
    exact (hfits r₁ hr₁ hlive).mono hpast

/-! ### The steps -/

omit [Jsonb J] in
lemma outside_changes {srv : Server J} (ha : a.outside = true) {run : RunId}
    {ch : Change J} (h : srv.Makes a run ch) :
    (∀ token, ch.Foreign token) ∧ (∀ n now, ch ≠ .inserted n now) ∧
      (∀ key payload now, ch = .delivered key payload now → ∃ (tx : Tx J) (n : ℕ) (e : Event J)
        (woken : List RunId), a = .commit tx.id ∧ srv.txs.get tx.id = some tx ∧
        tx.job = .emit n payload ∧ tx.phase = .emitted e woken ∧ tx.key = key) := by
  cases h with
  | renewed | recovered | timedOut | cancelled =>
    exact ⟨fun _ => ⟨by simp [Change.claimToken?], by simp⟩, by simp, by simp⟩
  | delivered tx n payload e woken run htx hjob hphase hrun =>
    refine ⟨fun _ => ⟨by simp [Change.claimToken?], by simp⟩, by simp, ?_⟩
    rintro key payload' now ⟨⟩
    exact ⟨tx, n, e, woken, rfl, htx, hjob, hphase, rfl⟩
  | waited tx token run index timeoutMs complete w clock htx hjob hphase =>
    rw [show tx.id = .wait token by rw [Tx.id, hjob]; rfl] at ha; cases ha
  | inserted | touched | claimed | wrote => cases ha

lemma outside (h : y.Inv reg) (ha : a.outside = true) (hstep : y.srv.step a = some s) :
    ({ y with srv := s } : System J Ω).Inv reg := by
  -- of the transactions of waits, only a rollback concerns one, and closes it
  have htx : ∀ token, s.txs.get (.wait token) = y.srv.txs.get (.wait token) ∨
      s.txs.get (.wait token) = none := by
    intro token
    by_cases hid : a.tx? = some (.wait token)
    · cases a with
      | rollback id =>
        cases hid
        cases Server.does hstep with
        | rollback => exact Or.inr ((Server.get_close _ _ _).trans (if_pos rfl))
      | begin job key => cases job <;> cases hid; cases ha
      | lockEventKey id | statement id | commit id => cases hid; cases ha
      | latestEvent => cases ha
      | _ => cases hid
    · exact Or.inl (Server.tx_frame hstep hid)
  refine h.of_step hstep rfl (fun _ => id) (fun token p hp => ?_) (fun token hsome => ?_)
    (fun n now hm => ?_) fun run r wf ch hr hwf hm hmoves => ?_
  · exact Or.inl ⟨hp, fun ch hm => (outside_changes ha hm).1 token, htx token⟩
  · rcases htx token with heq | heq
    · rw [heq] at hsome; exact h.owner token hsome
    · rw [heq] at hsome; cases hsome
  · exact absurd rfl ((outside_changes ha hm).2.1 n now)
  · obtain ⟨hforeign, hins, hdel⟩ := outside_changes ha hm
    cases ch with
    | inserted n now => exact absurd rfl (hins n now)
    | wrote token w now clock => exact absurd rfl ((hforeign token).2 w now clock)
    | delivered key payload now =>
      obtain ⟨tx, n, e, woken, rfl, htx, hjob, hphase, rfl⟩ := hdel key payload now rfl
      have hready := h.srv.inv.tx.ready tx (Table.get_eq_some_iff.mp htx).1
      simp only [Tx.Ready, hphase, hjob] at hready
      exact ⟨e, Server.commit_emitted htx hphase hstep, hready.1, hready.2.1⟩
    | _ => trivial

omit [Jsonb J] in
lemma insert_changes {srv : Server J} {n : NewRun J} {now : Time} {run : RunId} {ch : Change J}
    (h : srv.Makes (.insertRun n now) run ch) :
    (run = n.id ∧ ch = .inserted n now) ∨ ch = .touched now := by
  cases h with
  | inserted => exact Or.inl ⟨rfl, rfl⟩
  | touched => exact Or.inr rfl

lemma insert (h : y.Inv reg) {n : NewRun J} {now : Time} {wf : CompiledWorkflow Ω}
    (hwf : reg.workflow n.workflowName n.workflowVersion = some wf)
    (hstep : y.srv.step (.insertRun n now) = some s) :
    ({ y with srv := s } : System J Ω).Inv reg := by
  have htx : ∀ token, s.txs.get (.wait token) = y.srv.txs.get (.wait token) :=
    fun token => Server.tx_frame hstep (by simp [Act.tx?])
  refine h.of_step hstep rfl (fun _ => id) (fun token p hp => ?_) (fun token hsome => ?_)
    (fun n' now' hm => ?_) fun run r wf ch hr hwf hm hmoves => ?_
  · refine Or.inl ⟨hp, fun ch hm => ?_, Or.inl (htx token)⟩
    rcases insert_changes hm with ⟨-, rfl⟩ | rfl <;> exact ⟨by simp [Change.claimToken?], by simp⟩
  · rw [htx token] at hsome; exact h.owner token hsome
  · rcases insert_changes hm with ⟨-, he⟩ | he
    · cases he; exact ⟨wf, hwf⟩
    · cases he
  · rcases insert_changes hm with ⟨rfl, rfl⟩ | rfl
    · have hrow : y.srv.db.run n.id = none := hmoves.row_none
      rw [hr] at hrow; cases hrow
    · trivial

lemma mem_tokens_of_proc (h : y.Inv reg) {token : Token} {p : Proc J Ω}
    (hp : y.procs token = some p) : token ∈ y.srv.tokens :=
  Server.mem_tokens (h.token token p hp).2

lemma claim (h : y.Inv reg) {e : Engine} {q : ClaimQuery} {gen : RunId → Token} {now : Time}
    {lost : Bool} (hstep : y.srv.step (.claim q gen now) = some s) :
    ({ y with
      srv := s
      procs := fun token => if lost then y.procs token
        else (y.claimed reg e q gen now token).or (y.procs token) } : System J Ω).Inv reg := by
  have htx : ∀ token, s.txs.get (.wait token) = y.srv.txs.get (.wait token) :=
    fun token => Server.tx_frame hstep (by simp [Act.tx?])
  have hpast : y.past.Within ({ y with srv := s } : System J Ω).past :=
    ⟨fun _ => id, Server.emitted_grows hstep⟩
  refine h.of_step hstep rfl (fun _ => id) (fun token p hp => ?_) (fun token hsome => ?_)
    (fun n' now' hm => by cases hm) fun run r wf ch hr hwf hm hmoves => by cases hm; trivial
  · -- either the claim is an old one, or the statement has just made it
    have hcases : y.procs token = some p ∨ y.claimed reg e q gen now token = some p := by
      cases lost
      · rcases Option.or_eq_some_iff.mp hp with hp | ⟨-, hp⟩
        · exact Or.inr hp
        · exact Or.inl hp
      · exact Or.inl hp
    rcases hcases with hp | hp
    · refine Or.inl ⟨hp, fun ch hm => ?_, Or.inl (htx token)⟩
      cases hm with
      | claimed _ _ _ _ hrun hnodup hfresh =>
        refine ⟨fun he => hfresh ?_, by simp⟩
        rw [Option.some.inj he]; exact h.mem_tokens_of_proc hp
    · right
      obtain ⟨id, hid, hp⟩ := Option.bind_eq_some_iff.mp hp
      obtain ⟨r, hr, hp⟩ := Option.bind_eq_some_iff.mp hp
      have hgen : gen id = token := by simpa using List.find?_some hid
      obtain ⟨⟨r', hr', hk, hindex, hattempt⟩, hcps, hlog, hfresh⟩ :=
        Server.claim_picked hstep (List.mem_of_find?_eq_some hid) hr
      obtain ⟨wf, hwf, hcourse⟩ := h.course hr
      have hrun : p.run = r.claimedRun token (y.srv.db.checkpoint id) := by
        obtain ⟨wf', -, rfl⟩ := Option.map_eq_some_iff.mp hp; rfl
      have hpid : p.run.id = id := by rw [hrun]; exact Db.run_id hr
      have hnone : s.txs.get (.wait token) = none := by
        rw [htx token]
        by_contra hne
        obtain ⟨p', hp'⟩ := Option.isSome_iff_exists.mp
          (h.owner token (Option.isSome_iff_ne_none.mpr hne))
        exact hfresh (hgen ▸ h.mem_tokens_of_proc hp')
      rw [hpid, hnone]
      have hcps' : y.srv.db.checkpoint id = (s.view id).cps := hcps.symm
      refine ⟨by rw [hrun]; rfl, hgen ▸ hlog, ?_⟩
      rw [hcps'] at hp hcourse
      exact Proc.Inv.start hp hwf hcourse.cursor hr' hk hindex hattempt
  · rw [htx token] at hsome
    obtain ⟨p, hp⟩ := Option.isSome_iff_exists.mp (h.owner token hsome)
    cases lost <;> simp [hp]

lemma turn (h : y.Inv reg) {token : Token} {p p' : Proc J Ω} {t : Turn Ω} {ks : List (Call Ω)}
    (hp : y.procs token = some p) (ht : p.turn t = some (p', ks)) :
    ({ y.setProc token p' with calls := y.calls ++ ks } : System J Ω).Inv reg := by
  have hrun := (Proc.turn_onward ht).run
  have hpast : y.past.Within ⟨y.calls ++ ks, y.srv.emittedEvents⟩ := Past.within_calls y.past ks
  refine ⟨h.srv, fun run r hr => ?_, fun token' q hq => ?_, fun token' q hq => ?_,
    fun token' hsome => ?_⟩
  · obtain ⟨wf, hwf, hl⟩ := h.lawful run r hr
    exact ⟨wf, hwf, hl.mono hpast⟩
  · rcases procs_setProc hq with ⟨rfl, rfl⟩ | ⟨-, hq⟩
    · rw [hrun]; exact h.token token' p hp
    · exact h.token token' q hq
  · rcases procs_setProc hq with ⟨rfl, rfl⟩ | ⟨-, hq⟩
    · rw [hrun]; exact (h.proc token' p hp).turn ht
    · exact (h.proc token' q hq).mono hpast (Or.inl rfl)
  · by_cases hne : token' = token
    · subst hne; simp [setProc]
    · simpa [setProc, hne] using h.owner token' hsome

lemma of_write (h : y.Inv reg) {token : Token} {p p' : Proc J Ω} {w : Write J} {now : Time}
    (hp : y.procs token = some p) (hstep : y.srv.step (.write p.run.id token w now) = some s)
    (hrun : p'.run = p.run)
    (hfits : ∀ r, y.srv.db.run p.run.id = some r → r.leaseToken = some token →
      w.Fits y.past p.wf r (y.srv.db.checkpoint p.run.id))
    (hinv : (if y.srv.owns p.run.id token w now then ∃ now clock,
        (y.srv.view p.run.id).Moves (.wrote p.run.token w now clock) (s.view p.run.id)
      else s.view p.run.id = y.srv.view p.run.id) →
      p'.Inv reg y.past (s.view p.run.id) (y.srv.txs.get (.wait token))) :
    (({ y with srv := s } : System J Ω).setProc token p').Inv reg := by
  obtain ⟨htok, -⟩ := h.token token p hp
  have htx : s.txs.get (.wait token) = y.srv.txs.get (.wait token) :=
    Server.tx_frame hstep (by simp [Act.tx?])
  refine h.of_claim hstep hp hrun ?_ (by simp [Act.tx?]) fun run ch hm => ?_
  · rw [htx]
    refine (hinv ?_).mono ⟨fun _ => id, Server.emitted_grows hstep⟩ (Or.inl rfl)
    have ho := Server.write_outcome hstep
    split at ho
    · rename_i howns
      rw [if_pos howns, htok]; exact ⟨now, _, ho⟩
    · rename_i howns
      rw [if_neg howns, Server.view, ho]; rfl
  · cases hm with
    | wrote => exact ⟨rfl, w, now, _, rfl, hfits⟩

lemma exec (h : y.Inv reg) {token : Token} {p : Proc J Ω} {w : Write J} {now : Time} {lost : Bool}
    (hp : y.procs token = some p) (hw : p.sent = some w)
    (hstep : y.srv.step (.write p.run.id token w now) = some s) :
    (({ y with srv := s } : System J Ω).setProc token (if lost then { p with sent := none }
      else ({ p with sent := none } : Proc J Ω).answered (y.srv.owns p.run.id token w now)
        (y.srv.db.checkpoint p.run.id p.index))).Inv reg := by
  obtain ⟨htok, -⟩ := h.token token p hp
  have hi := h.proc token p hp
  refine h.of_write hp hstep ?_ (fun r hr hlive => ?_) fun hm => hi.exec hw hm lost
  · cases lost
    · exact (Proc.answered_onward ..).run
    · rfl
  · exact hi.fits_sent hr (htok.symm ▸ hlive) (h.claim_course hp hr).cursor hw

lemma execFailure (h : y.Inv reg) {token : Token} {p : Proc J Ω} {w : Write J} {now : Time}
    (hp : y.procs token = some p) (hw : p.failure = some w)
    (hstep : y.srv.step (.write p.run.id token w now) = some s) :
    (({ y with srv := s } : System J Ω).setProc token { p with failure := none }).Inv reg := by
  obtain ⟨htok, -⟩ := h.token token p hp
  have hi := h.proc token p hp
  refine h.of_write hp hstep rfl (fun r hr hlive => ?_) fun hm => hi.failed hw ?_
  · exact hi.fits_failure hr (htok.symm ▸ hlive) hw
  · split at hm
    · exact Or.inr hm
    · exact Or.inl hm

lemma of_phase (h : y.Inv reg) {token : Token} {p p' : Proc J Ω} (hp : y.procs token = some p)
    (hstep : y.srv.step a = some s) (ha : a.tx? = some (.wait token))
    (hno : ∀ run ch, ¬ y.srv.Makes a run ch) (hrun : p'.run = p.run)
    (hinv : p'.Inv reg y.past (y.srv.view p.run.id) (s.txs.get (.wait token))) :
    (({ y with srv := s } : System J Ω).setProc token p').Inv reg := by
  refine h.of_claim hstep hp hrun ?_ ?_ fun run ch hm => absurd hm (hno run ch)
  · rw [Server.view_frame h.srv.inv.tx hstep (hno _)]
    exact hinv.mono ⟨fun _ => id, Server.emitted_grows hstep⟩ (Or.inl rfl)
  · intro token' hne he
    rw [ha] at he; cases he; exact hne rfl

lemma begin (h : y.Inv reg) {token : Token} {p : Proc J Ω} {k name : String} {key : EventKey Ω}
    {timeout : Time} (hp : y.procs token = some p) (hpc : p.pc = .begin k)
    (hop : p.wf.ops[p.index]? = some (.waitEvent name key timeout))
    (hstep : y.srv.step
      (.begin (.wait token p.run.id p.index (milliseconds timeout) p.complete) k) = some s) :
    (({ y with srv := s } : System J Ω).setProc token { p with pc := .wait none }).Inv reg := by
  obtain ⟨htok, -⟩ := h.token token p hp
  refine h.of_phase hp hstep rfl (fun run ch hm => by cases hm) rfl ?_
  have htx := Server.begin_tx hstep
  rw [show s.txs.get (.wait token) = _ from htx]
  have hi := (h.proc token p hp).begun hpc hop y.srv.clock
  rwa [htok] at hi

lemma lock (h : y.Inv reg) {token : Token} {p : Proc J Ω} (hp : y.procs token = some p)
    (hstep : y.srv.step (.lockEventKey (.wait token)) = some s) :
    ({ y with srv := s } : System J Ω).Inv reg := by
  have hset : ({ y with srv := s } : System J Ω).setProc token p = { y with srv := s } := by
    simp only [setProc, System.mk.injEq, true_and, and_true]
    rw [← hp, Function.update_eq_self]
  rw [← hset]
  obtain ⟨tx, htx, hphase, htx'⟩ := Server.lock_tx hstep
  refine h.of_phase hp hstep rfl (fun run ch hm => by cases hm) rfl ?_
  have hi := h.proc token p hp
  rw [htx] at hi
  rw [htx']
  exact hi.lockedKey hphase

lemma look (h : y.Inv reg) {token : Token} {p : Proc J Ω} {tx : Tx J}
    (hp : y.procs token = some p) (htx : y.srv.txs.get (.wait token) = some tx)
    (hstep : y.srv.step (.latestEvent token) = some s) :
    (({ y with srv := s } : System J Ω).setProc token { p with
      pc := .wait ((y.srv.db.latestEvent tx.key tx.start).map fun payload =>
        receivedBytes (text payload)) }).Inv reg := by
  refine h.of_phase hp hstep rfl (fun run ch hm => by cases hm) rfl ?_
  have hi := h.proc token p hp
  rw [htx] at hi
  rw [Server.look_tx htx hstep]
  refine hi.looked fun payload hpay => ?_
  obtain ⟨e, he, hkey, -, hpayload, -⟩ := Db.latestEvent_some hpay
  exact ⟨e, h.srv.events he, hkey, hpayload⟩

lemma statement (h : y.Inv reg) {token : Token} {p p' : Proc J Ω} (hp : y.procs token = some p)
    (hstep : y.srv.step (.statement (.wait token)) = some s)
    (hp' : p' = if (s.txs.get (.wait token)).any (fun tx => tx.holdsRun p.run.id) then p
      else { p with pc := .done }) :
    (({ y with srv := s } : System J Ω).setProc token p').Inv reg := by
  obtain ⟨tx, found, run, index, timeoutMs, complete, htx, hjob, hphase, htx'⟩ :=
    Server.statement_tx hstep
  have hi := h.proc token p hp
  rw [htx] at hi
  have hi' : p.Inv reg y.past (y.srv.view p.run.id) (s.txs.get (.wait token)) := by
    rcases htx' with htx' | htx'
    · rwa [htx']
    · rw [htx']; exact hi.wrote hphase hjob _
  refine h.of_phase hp hstep rfl (fun run ch hm => by cases hm) ?_ ?_
  · rw [hp']; split <;> rfl
  · rw [hp']
    split
    · exact hi'
    · exact hi'.giveUp (Or.inl rfl) hi'.asks.failure

lemma commit (h : y.Inv reg) {token : Token} {p : Proc J Ω} {lost : Bool}
    (hp : y.procs token = some p) (hstep : y.srv.step (.commit (.wait token)) = some s) :
    (({ y with srv := s } : System J Ω).setProc token (if lost then p
      else p.answered true (y.srv.db.checkpoint p.run.id p.index))).Inv reg := by
  obtain ⟨htok, -⟩ := h.token token p hp
  have hi := h.proc token p hp
  obtain ⟨tx, htx⟩ : ∃ tx, y.srv.txs.get (.wait token) = some tx := by
    obtain ⟨tx, htx, -⟩ := Option.bind_eq_some_iff.mp hstep
    exact ⟨tx, htx⟩
  rw [htx] at hi
  obtain ⟨-, -, -, -, timeout, -, hjob, -⟩ := hi.asks.tx tx rfl
  rw [htok] at hjob
  obtain ⟨w, clock, hphase, hm⟩ := Server.waited_moves h.srv.inv.tx htx hjob hstep
  rw [← htok] at hm
  have hi' := hi.committed hphase hm lost
  refine h.of_claim hstep hp ?_ ?_ ?_ fun run ch hmk => ?_
  · cases lost
    · exact (Proc.answered_onward ..).run
    · rfl
  · rw [Server.commit_tx hstep]
    exact hi'.mono ⟨fun _ => id, Server.emitted_grows hstep⟩ (Or.inl rfl)
  · intro token' hne he; cases he; exact hne rfl
  · generalize ha : Act.commit (.wait token) = a at hmk
    cases hmk with
    | delivered tx' n payload e woken run htx' hjob' =>
      have hid := Act.commit.inj ha
      rw [← hid, htx] at htx'; cases htx'
      rw [hjob] at hjob'; cases hjob'
    | waited tx' token' run' index timeoutMs complete w' clock' htx' hjob' hphase' =>
      have hid := Act.commit.inj ha
      rw [← hid, htx] at htx'; cases htx'
      rw [hjob] at hjob'; cases hjob'
      refine ⟨rfl, _, _, _, rfl, fun r hr hlive => ?_⟩
      exact hi.fits_wait hr (htok.symm ▸ hlive) (h.claim_course hp hr).cursor hphase'
    | _ => cases ha

/-! ### Whole runs -/

lemma init (clock : Time) : (System.init clock : System J Ω).Inv reg where
  srv := ⟨clock, .refl⟩
  lawful run r hr := by cases hr
  token token p hp := by cases hp
  proc token p hp := by cases hp
  owner token hs := by cases hs

/-- **Step**: every step of the system keeps its invariant. -/
theorem step (h : y.Inv reg) {m : Move J Ω} (hstep : y.step reg m = some y') : y'.Inv reg := by
  cases does hstep with
  | outside ha hs => exact h.outside ha hs
  | insert hwf hs => exact h.insert hwf hs
  | claim hs => exact h.claim hs
  | turn hp ht => exact h.turn hp ht
  | exec hp hw hs => exact h.exec hp hw hs
  | execFailure hp hw hs => exact h.execFailure hp hw hs
  | begin hp hpc hop hs => exact h.begin hp hpc hop hs
  | lock hp hs => exact h.lock hp hs
  | look hp htx hs => exact h.look hp htx hs
  | statement hp _ hs hp' => exact h.statement hp hs hp'
  | commit hp hs => exact h.commit hp hs

end Inv

/-- **Safety**: the invariant holds in every reachable state. -/
theorem Reachable.inv (h : y.Reachable reg) : y.Inv reg := by
  obtain ⟨clock, h⟩ := h
  exact h.invariant (.init clock) fun _ _ _ ih _ hstep => ih.step hstep

lemma Reachable.later (h : y.Reachable reg) (h' : Reaches (System.step reg) y y') :
    y'.Reachable reg := by
  obtain ⟨clock, h⟩ := h
  exact ⟨clock, h.trans h'⟩

lemma Reachable.of_run (clock : Time) (moves : List (Move J Ω))
    (h : moves.foldlM (System.step reg) (System.init clock) = some y) : y.Reachable reg :=
  ⟨clock, Reaches.of_run moves h⟩

lemma step_server {m : Move J Ω} (h : y.step reg m = some y') :
    y'.srv = y.srv ∨ ∃ a, y.srv.step a = some y'.srv := by
  cases does h with
  | turn => exact Or.inl rfl
  | outside _ hs | insert _ hs | claim hs | exec _ _ hs | execFailure _ _ hs | begin _ _ _ hs
  | lock _ hs | look _ _ hs | statement _ _ hs | commit _ hs => exact Or.inr ⟨_, hs⟩

lemma srv_reaches (h : Reaches (System.step reg) y y') :
    Reaches Server.step y.srv y'.srv := by
  refine h.abstracts (P := fun _ => True) trivial fun z m z' _ hstep => ⟨trivial, ?_⟩
  rcases step_server hstep with heq | ⟨a, hs⟩
  · exact Or.inl heq
  · exact Or.inr ⟨a, trivial, hs⟩

lemma log_grows (h : Reaches (System.step reg) y y') (run : RunId) :
    y.srv.log run <+: y'.srv.log run :=
  (srv_reaches h).invariant (P := fun s => y.srv.log run <+: s.log run) (List.prefix_refl _)
    fun _ _ _ ih _ hs => ih.trans (Server.log_grows hs run)

lemma srv_log_grows {m : Move J Ω} (h : y.step reg m = some y') (run : RunId) :
    y.srv.log run <+: y'.srv.log run :=
  log_grows (.single ⟨m, trivial, h⟩) run

lemma tokens_grow (h : Reaches (System.step reg) y y') {token : Token}
    (ht : token ∈ y.srv.tokens) : token ∈ y'.srv.tokens :=
  (srv_reaches h).invariant (P := fun s => token ∈ s.tokens) ht
    fun _ _ _ ih _ hs => Server.tokens_grow hs ih

/-- What is true of a run in every later state: it is the same run, its cursor has not gone back
and its checkpoints are still there. -/
theorem Reachable.progress (h : y.Reachable reg) (h' : Reaches (System.step reg) y y')
    {run : RunId} {r : Row J} (hr : y.srv.db.run run = some r) :
    ∃ r', y'.srv.db.run run = some r' ∧ r.Keeps r' ∧ r.stepIndex ≤ r'.stepIndex ∧
      ∀ i x, y.srv.db.checkpoint run i = some x → y'.srv.db.checkpoint run i = some x := by
  obtain ⟨l, hl⟩ := log_grows h' run
  have hinv' := (h.later h').inv
  have hlife := h.inv.srv.inv.life run
  have hlife' := hinv'.srv.inv.life run
  -- the run has a row, so its life is that of some definition
  have hsome : ∃ r', y'.srv.db.run run = some r' := by
    rw [← hl] at hlife'
    exact hlife'.row_some_of_prefix hlife hr
  obtain ⟨r', hr'⟩ := hsome
  obtain ⟨wf, -, hlaw⟩ := hinv'.lawful run r' hr'
  rw [← hl] at hlaw
  exact hlaw.later hlife hr

end System

end DurablePg

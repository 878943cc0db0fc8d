import DurablePg.Contexts
import DurablePg.Genuine

/-!
Timers: a run that sleeps is not claimed, and a wait does not time out, before the time that
its parking statement has stored.

That time is counted in whole milliseconds from the start of the statement's transaction. It is
early if the duration has a fraction of a millisecond, and if the transaction has waited before
the statement ran.
-/

namespace DurablePg

open DurablePg.Lib

variable {J Ω : Type}

/-- `now()` of the statement that made a change. -/
def Change.now : Change J → Time
  | .inserted _ now | .touched now | .claimed _ _ now _ | .renewed _ now _ | .wrote _ _ now _
  | .recovered now _ | .cancelled now | .delivered _ _ now | .timedOut now => now

variable [Jsonb J]

/-! ### The time of a change -/

namespace Server

variable {s s' : Server J} {a : Act J} {run : RunId} {ch : Change J}

lemma Makes.now_le (hs : s.TxInv) (h : s.step a = some s') (hm : s.Makes a run ch) :
    ch.now ≤ s.clock := by
  cases hm with
  | delivered tx n payload e woken run htx | waited tx token run i ms complete w clock htx =>
    exact hs.start tx (Table.get_eq_some_iff.mp htx).1
  | recovered now run hnow | timedOut now run hnow => exact hnow
  | inserted | touched => cases does h <;> assumption
  | claimed | renewed | wrote | cancelled => cases does h <;> assumption

lemma Reachable.now_le (h : s.Reachable) : ∀ ch ∈ s.log run, ch.now ≤ s.clock := by
  obtain ⟨clock, hreach⟩ := h
  have hinit : (init clock : Server J).Inv ∧ ∀ ch ∈ (init clock : Server J).log run,
      ch.now ≤ (init clock : Server J).clock := ⟨inv_init clock, fun ch hch => by cases hch⟩
  refine (hreach.invariant (P := fun s => s.Inv ∧ ∀ ch ∈ s.log run, ch.now ≤ s.clock) hinit
    fun s a s' hs _ h => ⟨inv_step hs.1 h, fun ch hch => ?_⟩).2
  obtain ⟨o, ⟨hlog, -⟩, hmakes⟩ := step_moved hs.1.tx h run
  rw [hlog] at hch
  rcases List.mem_append.mp hch with hch | hch
  · exact (hs.2 ch hch).trans (clock_le h)
  · exact ((hmakes ch (by simpa using hch)).now_le hs.1.tx h).trans (clock_le h)

end Server

/-! ### Runs that sleep and runs that wait -/

namespace View.Moves

variable {v v' : View J} {ch : Change J} {r r' : Row J}

lemma ready_stays (hm : v.Moves ch v') (hr : v.row = some r) (hr' : v'.row = some r')
    (hs : r.state = .ready) :
    (r'.state = .ready ∧ r'.nextRunAt = r.nextRunAt) ∨ r'.state.terminal = true ∨
      ∃ token leaseMs now clock, ch = .claimed token leaseMs now clock ∧ r.nextRunAt ≤ now := by
  have hfound := hm.found hr
  rw [hs] at hfound
  cases hm with
  | inserted n now hrow => rw [hrow] at hr; cases hr
  | updated ch r₀ u hrow hu hg =>
    rw [hrow] at hr; cases hr; cases hr'
    cases ch with
    | inserted => cases hu
    | touched => cases hu; exact Or.inl ⟨hs, rfl⟩
    | claimed token leaseMs now clock =>
      cases hu
      simp only [Bool.and_eq_true, decide_eq_true_eq] at hg
      exact Or.inr (Or.inr ⟨token, leaseMs, now, clock, rfl, hg.2⟩)
    | cancelled => cases hu; exact Or.inr (Or.inl rfl)
    | wrote | renewed | recovered | delivered | timedOut => cases hfound

lemma waiting_stays (hm : v.Moves ch v') (hr : v.row = some r) (hr' : v'.row = some r')
    (hs : r.state = .waitingEvent) :
    (r'.state = .waitingEvent ∧ r'.stepIndex = r.stepIndex ∧
      r'.waitingDeadline = r.waitingDeadline) ∨ r'.state.terminal = true ∨
      (v'.cps r.stepIndex).isSome := by
  cases hm.awaits hr hs with
  | touched => cases hr'; exact Or.inl ⟨hs, rfl, rfl⟩
  | cancelled _ hs' => cases hr'; exact Or.inr (Or.inl (by rw [hs']; rfl))
  | delivered _ _ _ hx => exact Or.inr (Or.inr (by rw [hx, Option.isSome_or]; simp))
  | timedOut _ _ hx => exact Or.inr (Or.inr (by rw [hx, Option.isSome_or]; simp))

lemma of_terminal (hm : v.Moves ch v') (hr : v.row = some r) (hr' : v'.row = some r')
    (hterm : r.state.terminal = true) : r'.state.terminal = true := by
  obtain ⟨r₁, hr₁, -, hfrozen⟩ := hm.edge hr
  rw [hr'] at hr₁; cases hr₁
  rw [(hfrozen hterm).1.state]; exact hterm

end View.Moves

section Lawful

variable {past : Past J Ω} {wf : CompiledWorkflow Ω} {l : List (Change J)} {v : View J} {r : Row J}

/-- The run still sleeps, has ended, or has been claimed at the stored time or later. -/
def Slept (l : List (Change J)) (r : Row J) (due : Time) : Prop :=
  (r.state = .ready ∧ r.nextRunAt = due) ∨ r.state.terminal = true ∨
    ∃ token leaseMs now clock, Change.claimed token leaseMs now clock ∈ l ∧ due ≤ now

lemma Lawful.slept (h : Lawful past wf l v) (hr : v.row = some r) :
    ∀ token next ms now clock, Change.wrote token (.parkSleep next ms) now clock ∈ l →
      next ≤ r.stepIndex ∧ (∃ i d, next = i + 1 ∧ wf.ops[i]? = some (.sleep d) ∧
        ms = milliseconds d) ∧ Slept l r (now + millis ms) := by
  refine h.row_induction (motive := fun l _ r => ∀ token next ms now clock,
    Change.wrote token (.parkSleep next ms) now clock ∈ l → next ≤ r.stepIndex ∧
      (∃ i d, next = i + 1 ∧ wf.ops[i]? = some (.sleep d) ∧ ms = milliseconds d) ∧
      Slept l r (now + millis ms)) ?_ ?_ hr
  · intro n now _ _ _ token next ms now' clock hmem
    simp at hmem
  · intro l v ch v' r r' hl hm hfits hr hr' ih token next ms now clock hmem
    rcases List.mem_append.mp hmem with hmem | hmem
    · obtain ⟨hnext, hop, hslept⟩ := ih token next ms now clock hmem
      refine ⟨hnext.trans (hm.stepIndex_le hfits hr hr'), hop, ?_⟩
      rcases hslept with ⟨hs, hdue⟩ | hterm | ⟨token', leaseMs, now', clock', hmem', hle⟩
      · rcases hm.ready_stays hr hr' hs with ⟨hs', hdue'⟩ | hterm |
          ⟨token', leaseMs, now', clock', rfl, hle⟩
        · exact Or.inl ⟨hs', hdue'.trans hdue⟩
        · exact Or.inr (Or.inl hterm)
        · exact Or.inr (Or.inr ⟨token', leaseMs, now', clock', by simp, hdue ▸ hle⟩)
      · exact Or.inr (Or.inl (hm.of_terminal hr hr' hterm))
      · exact Or.inr (Or.inr ⟨token', leaseMs, now', clock', List.mem_append_left _ hmem', hle⟩)
    · cases List.mem_singleton.mp hmem
      obtain ⟨i, d, rfl, hop, hms, -⟩ : (Write.parkSleep next ms).Fits past wf r v.cps := hfits r hr
      cases hm with
      | updated _ r₀ u hrow hu hg =>
        cases hr'; cases hu
        exact ⟨le_rfl, ⟨i, d, rfl, hop, hms⟩, Or.inl ⟨rfl, rfl⟩⟩

/-- The run still waits, has ended, or its wait has an outcome. -/
def Waited (v : View J) (r : Row J) (i : ℕ) (deadline : Time) : Prop :=
  (r.state = .waitingEvent ∧ r.stepIndex = i ∧ r.waitingDeadline = some deadline) ∨
    r.state.terminal = true ∨ (v.cps i).isSome

lemma Lawful.waited (h : Lawful past wf l v) (hr : v.row = some r) :
    ∀ token i key ms now clock, Change.wrote token (.parkWait i key ms) now clock ∈ l →
      (∃ name k timeout, wf.ops[i]? = some (.waitEvent name k timeout) ∧
        ms = milliseconds timeout) ∧ Waited v r i (now + millis ms) := by
  refine h.row_induction (motive := fun l v r => ∀ token i key ms now clock,
    Change.wrote token (.parkWait i key ms) now clock ∈ l →
      (∃ name k timeout, wf.ops[i]? = some (.waitEvent name k timeout) ∧
        ms = milliseconds timeout) ∧ Waited v r i (now + millis ms)) ?_ ?_ hr
  · intro n now _ _ _ token i key ms now' clock hmem
    simp at hmem
  · intro l v ch v' r r' hl hm hfits hr hr' ih token i key ms now clock hmem
    rcases List.mem_append.mp hmem with hmem | hmem
    · obtain ⟨hop, hwaited⟩ := ih token i key ms now clock hmem
      refine ⟨hop, ?_⟩
      rcases hwaited with ⟨hs, rfl, hdue⟩ | hterm | hsome
      · rcases hm.waiting_stays hr hr' hs with ⟨hs', hi, hdue'⟩ | hterm | hsome
        · exact Or.inl ⟨hs', hi, hdue'.trans hdue⟩
        · exact Or.inr (Or.inl hterm)
        · exact Or.inr (Or.inr hsome)
      · exact Or.inr (Or.inl (hm.of_terminal hr hr' hterm))
      · obtain ⟨x, hx⟩ := Option.isSome_iff_exists.mp hsome
        exact Or.inr (Or.inr (by rw [hm.cps_some hx]; rfl))
    · cases List.mem_singleton.mp hmem
      obtain ⟨-, -, name, k, timeout, hop, hms, -⟩ :
        (Write.parkWait i key ms).Fits past wf r v.cps := hfits r hr
      cases hm with
      | updated _ r₀ u hrow hu hg =>
        cases hr'; cases hu
        exact ⟨⟨name, k, timeout, hop, hms⟩, Or.inl ⟨rfl, rfl, rfl⟩⟩

lemma Lawful.park_once {next : ℕ} {ms : ℤ} {now clock : Time} {token : Token}
    (h : Lawful past wf (l ++ [.wrote token (.parkSleep next ms) now clock]) v) {token' : Token}
    {ms' : ℤ} {now' clock' : Time} :
    Change.wrote token' (.parkSleep next ms') now' clock' ∉ l := by
  intro hmem
  obtain ⟨v₀, hl, hm, hfits⟩ := h.snoc_inv
  obtain ⟨r₀, hr₀, -⟩ := hm.wrote_row
  obtain ⟨i, d, rfl, -, -, hn⟩ : (Write.parkSleep next ms).Fits past wf r₀ v₀.cps := hfits r₀ hr₀
  have hle := (hl.slept hr₀ _ _ _ _ _ hmem).1
  have hcur := hn.cursor
  omega

end Lawful

/-! ### Parking statements -/

/-- The write puts the run to sleep, or to wait. -/
def Write.parks : Write J → Bool
  | .parkSleep .. | .parkWait .. => true
  | _ => false

namespace Server

variable {s s' : Server J} {a : Act J} {run : RunId}

/-- A parking statement that takes effect runs when its transaction starts. -/
def prompt (s : Server J) : Act J → Bool
  | .write run token w now => !w.parks || !s.owns run token w now || now = s.clock
  | .statement (.wait token) => (s.txs.get (.wait token)).all fun tx =>
      match tx.job, tx.phase with
      | .wait token run index timeoutMs complete, .looked found =>
        let w := waitWrite found tx.key index timeoutMs complete
        !w.parks || !s.owns run token w tx.start || tx.start = s.clock
      | _, _ => true
  | _ => true

/-- Every parking statement so far ran when its transaction started. -/
structure Prompt (s : Server J) : Prop where
  log : ∀ run token w now clock, Change.wrote token w now clock ∈ s.log run → w.parks = true →
    now = clock
  tx : ∀ id tx w clock, s.txs.get id = some tx → tx.phase = .wrote w clock → w.parks = true →
    tx.start = clock

lemma Prompt.step (hp : s.Prompt) (hs : s.TxInv) (ha : s.prompt a = true)
    (h : s.step a = some s') : s'.Prompt := by
  refine ⟨fun run token w now clock hmem hparks => ?_, fun id tx w clock htx hphase hparks => ?_⟩
  · obtain ⟨o, ⟨hlog, hm⟩, hmakes⟩ := step_moved hs h run
    rw [hlog] at hmem
    rcases List.mem_append.mp hmem with hmem | hmem
    · exact hp.log run token w now clock hmem hparks
    · obtain rfl : o = some (.wrote token w now clock) := by simpa using hmem
      cases hmakes _ rfl with
      | wrote =>
        have howns : s.owns run token w now = true := by
          obtain ⟨r, hr, hg⟩ := View.Moves.wrote_guard hm
          have hid : r.id = run := Db.run_id hr
          rw [hid] at hg
          exact (Option.any_eq_true _ _).mpr ⟨r, hr, hg⟩
        simpa [prompt, hparks, howns] using ha
      | waited tx token run index timeoutMs complete w clock htx hjob hphase =>
        exact hp.tx _ tx w clock htx hphase hparks
  · rcases tx_cases h htx with hget | ⟨job, key, rfl⟩ | ⟨tx₀, phase, htx₀, hid, rfl, hturns⟩
    · exact hp.tx id tx w clock hget hphase hparks
    · cases hphase
    · cases hturns with
      | @wrote token run index timeoutMs complete found hstmt hjob hphase₀ howns hhist =>
        cases hphase
        subst hstmt
        cases hid
        simpa [prompt, htx₀, hjob, hphase₀, hparks, howns] using ha
      | _ => cases hphase

end Server

/-! ### Sleeps of the system -/

/-- A worker's write moves the cursor past no sleep but the one it parks the run for. -/
lemma Proc.wrote_sleep {p : Proc J Ω} {past : Past J Ω} {w : Write J} {cps : ℕ → Option J}
    {r : Row J} {token : Token} {now clock : Time} (hprog : w.progress = true)
    (hw : p.Sends past w ∨ (∃ attempt ms msg, w = .failOrRetry attempt ms msg) ∨
      ∃ tx clock, tx.phase = .wrote w clock ∧ p.Waits past tx) {i : ℕ} {d : Time}
    (hi : i < ((w.update cps r.id token now clock).set r).stepIndex)
    (hop : p.wf.ops[i]? = some (.sleep d)) :
    i < p.index ∨ w = .parkSleep (i + 1) (milliseconds d) := by
  rcases hw with hsends | ⟨attempt, ms, msg, rfl⟩ | ⟨tx, clock, hphase, hwaits⟩
  · cases w with
    | commitStep k x complete =>
      obtain ⟨rfl, -, -, -, name, fn, timeout, hop', -⟩ := hsends
      rcases Nat.lt_succ_iff_lt_or_eq.mp hi with hlt | rfl
      · exact Or.inl hlt
      · rw [hop] at hop'; cases hop'
    | completeRun steps output =>
      obtain ⟨rfl, hindex, -⟩ := hsends
      exact Or.inl (hindex ▸ hi)
    | parkSleep next ms =>
      obtain ⟨rfl, ⟨d', hop', rfl⟩, -⟩ := hsends
      rcases Nat.lt_succ_iff_lt_or_eq.mp hi with hlt | rfl
      · exact Or.inl hlt
      · rw [hop] at hop'; cases hop'; exact Or.inr rfl
    | parkWait | failOrRetry => exact hsends.elim
  · cases hprog
  · -- a registration writes at the index, where the wait is
    obtain ⟨timeout, ⟨-, name, key, hop', -⟩, -, hrest⟩ := hwaits
    rw [hphase] at hrest
    obtain ⟨found, -, rfl⟩ := hrest
    rcases found with _ | payload
    · exact Or.inl hi
    · rcases Nat.lt_succ_iff_lt_or_eq.mp hi with hlt | rfl
      · exact Or.inl hlt
      · rw [hop] at hop'; cases hop'

namespace System

variable {reg : Registry Ω} {y y' : System J Ω} {m : Move J Ω} {run : RunId} {i : ℕ} {d : Time}

/-- The run has been parked for the sleep of this length at `i`. -/
def Parked (y : System J Ω) (run : RunId) (i : ℕ) (d : Time) : Prop :=
  ∃ token now clock,
    Change.wrote token (.parkSleep (i + 1) (milliseconds d)) now clock ∈ y.srv.log run

/-- The time stored for the sleep at `i` has come. -/
def SleepOver (y : System J Ω) (run : RunId) (i : ℕ) : Prop :=
  ∀ token ms now clock, Change.wrote token (.parkSleep (i + 1) ms) now clock ∈ y.srv.log run →
    now + millis ms ≤ y.srv.clock

variable (reg) in
/-- No cursor and no worker is past a sleep the run was not parked for, and no worker before
its time. -/
structure Sleeps (y : System J Ω) : Prop where
  row : ∀ run r i d, y.srv.db.run run = some r → i < r.stepIndex →
    y.opAt reg run i = some (.sleep d) → y.Parked run i d
  proc : ∀ token p i d, y.procs token = some p → i < p.index → p.wf.ops[i]? = some (.sleep d) →
    y.Parked p.run.id i d ∧ y.SleepOver p.run.id i

lemma clock_le (h : y.step reg m = some y') : y.srv.clock ≤ y'.srv.clock := by
  rcases step_server h with heq | ⟨a, hs⟩
  · rw [heq]
  · exact Server.clock_le hs

lemma Parked.step (hp : y.Parked run i d) (h : y.step reg m = some y') : y'.Parked run i d := by
  obtain ⟨token, now, clock, hmem⟩ := hp
  exact ⟨token, now, clock, (srv_log_grows h run).subset hmem⟩

lemma Parked.mem_log (hp : y.Parked run i d) (hi : y.Inv reg) (h : y.step reg m = some y')
    {token : Token} {ms : ℤ} {now clock : Time}
    (hmem : Change.wrote token (.parkSleep (i + 1) ms) now clock ∈ y'.srv.log run) :
    Change.wrote token (.parkSleep (i + 1) ms) now clock ∈ y.srv.log run := by
  rcases step_server h with heq | ⟨a, hs⟩
  · rwa [heq] at hmem
  · obtain ⟨o, ⟨hlog, hm⟩, -⟩ := Server.step_moved hi.srv.inv.tx hs run
    rw [hlog] at hmem
    rcases List.mem_append.mp hmem with hmem | hmem
    · exact hmem
    · obtain rfl : o = some (.wrote token (.parkSleep (i + 1) ms) now clock) := by
        simpa using hmem
      have hm : (y.srv.view run).Moves _ (y'.srv.view run) := hm
      obtain ⟨r', hr'⟩ := hm.row_some
      obtain ⟨wf, -, hlaw⟩ := (hi.step h).lawful run r' hr'
      rw [hlog] at hlaw
      obtain ⟨token', now', clock', hmem'⟩ := hp
      exact absurd hmem' hlaw.park_once

lemma SleepOver.step (ho : y.SleepOver run i) (hp : y.Parked run i d) (hi : y.Inv reg)
    (h : y.step reg m = some y') : y'.SleepOver run i := fun token ms now clock hmem =>
  (ho token ms now clock (hp.mem_log hi h hmem)).trans (clock_le h)

lemma Sleeps.row_step (hs : Sleeps reg y) (h : y.Inv reg) (hstep : y.step reg m = some y')
    {r' : Row J} (hr' : y'.srv.db.run run = some r') (hlt : i < r'.stepIndex)
    (hop : y'.opAt reg run i = some (.sleep d)) : y'.Parked run i d := by
  rcases h.writes hstep with heq | ⟨a, hs', hwrites⟩
  · rw [heq] at hr'
    exact (hs.row run r' i d hr' hlt (by simpa [opAt, heq] using hop)).step hstep
  rcases hr : y.srv.db.run run with _ | r
  · -- the run has just been inserted
    obtain ⟨n, now, -, -, rfl, -⟩ := Server.inserted_of_none h.srv.inv.tx hs' hr hr'
    exact absurd hlt (Nat.not_lt_zero i)
  have hop₀ : y.opAt reg run i = some (.sleep d) := (h.opAt_step hstep hr).symm.trans hop
  have hold : i < r.stepIndex → y'.Parked run i d := fun hlt =>
    (hs.row run r i d hr hlt hop₀).step hstep
  obtain ⟨o, ⟨hlog, hm⟩, hmakes⟩ := Server.step_moved h.srv.inv.tx hs' run
  rcases o with _ | ch
  · rw [show y'.srv.db.run run = y.srv.db.run run from congrArg View.row hm, hr] at hr'
    cases hr'; exact hold hlt
  have hm : (y.srv.view run).Moves ch (y'.srv.view run) := hm
  replace hr' : (y'.srv.view run).row = some r' := hr'
  generalize y'.srv.view run = v' at hm hr'
  cases hm.effect (show (y.srv.view run).row = some r from hr) with
  | quiet hq => cases hr'; exact hold (hq.stepIndex ▸ hlt)
  | outcome _ _ hindex => cases hr'; exact hold (hindex ▸ hlt)
  | @progress token w now clock hprog hg =>
    cases hr'
    obtain ⟨p, hp, rfl, -, hw⟩ := hwrites _ _ _ _ _ (hmakes _ rfl)
    rw [h.opAt_proc hp] at hop₀
    have hw' : p.Sends y.past w ∨ (∃ attempt ms msg, w = .failOrRetry attempt ms msg) ∨
        ∃ tx clock, tx.phase = .wrote w clock ∧ p.Waits y.past tx := by
      rcases hw with hsends | hfail | ⟨tx, -, -, hphase, -, hwaits⟩
      · exact Or.inl hsends
      · exact Or.inr (Or.inl hfail)
      · exact Or.inr (Or.inr ⟨tx, clock, hphase, hwaits⟩)
    rcases Proc.wrote_sleep hprog hw' hlt hop₀ with hlt | rfl
    · exact (hs.proc token p i d hp hlt hop₀).1.step hstep
    · exact ⟨token, now, clock, by rw [hlog]; simp⟩

lemma Inv.claimed_over (h : y.Inv reg) {q : ClaimQuery} {gen : RunId → Token} {now : Time}
    {s : Server J} (hs : y.srv.step (.claim q gen now) = some s) {r : Row J}
    (hid : run ∈ y.srv.db.picked (q.claimable now) Row.nextRunAt y.srv.locked q.limit)
    (hr : y.srv.db.run run = some r) : y.SleepOver run i := by
  intro token ms now' clock hmem
  obtain ⟨r₁, hr₁, hclaimable, -⟩ := Db.mem_picked hid
  rw [hr] at hr₁; cases hr₁
  simp only [ClaimQuery.claimable, Bool.and_eq_true, decide_eq_true_eq] at hclaimable
  obtain ⟨⟨⟨-, hready⟩, hdue⟩, -⟩ := hclaimable
  have hnow : now ≤ y.srv.clock := by cases Server.does hs with | claim hnow => exact hnow
  obtain ⟨wf, -, hlaw⟩ := h.lawful run r hr
  rcases (hlaw.slept hr _ _ _ _ _ hmem).2.2 with ⟨-, hnext⟩ | hterm |
    ⟨token', leaseMs, now'', clock'', hclaimed, hle⟩
  · exact (hnext ▸ hdue).trans hnow
  · rw [hready] at hterm; cases hterm
  · exact hle.trans (h.srv.now_le _ hclaimed)

lemma Sleeps.proc_step (hs : Sleeps reg y) (h : y.Inv reg) (hstep : y.step reg m = some y')
    {token : Token} {p' : Proc J Ω} (hp' : y'.procs token = some p') (hlt : i < p'.index)
    (hop : p'.wf.ops[i]? = some (.sleep d)) :
    y'.Parked p'.run.id i d ∧ y'.SleepOver p'.run.id i := by
  have h' := h.step hstep
  rcases procs_step hstep hp' with ⟨p, hp, hon⟩ | ⟨e, q, gen, now, id, r, hs', hid, hr, hstart⟩
  · rw [hon.run]
    rcases Nat.lt_or_ge i p.index with hi | hi
    · obtain ⟨hparked, hover⟩ := hs.proc token p i d hp hi (hon.wf ▸ hop)
      exact ⟨hparked.step hstep, hover.step hparked h hstep⟩
    · -- the worker has passed an operation that has a value, so it is not a sleep
      have hknows := (h'.proc token p' hp').knows
      have hlen : i < p.values.length := by
        rw [← hon.length, hknows.length]
        exact (List.getElem?_eq_some_iff.mp hop).1
      obtain ⟨raw, hraw⟩ := Option.isSome_iff_exists.mp (hon.passed i hi hlt hlen)
      obtain ⟨x, -, hx⟩ := hknows.agree i raw hraw
      obtain ⟨r, hr, -⟩ := hknows.row
      have hnone := (h'.claim_course hp' hr).cursor.sleep i _ hop rfl
      rw [show y'.srv.db.checkpoint p'.run.id i = some x from hx] at hnone
      cases hnone
  · obtain ⟨wf, hwf, rfl⟩ := Option.map_eq_some_iff.mp hstart
    have hwf' : reg.workflow r.workflowName r.workflowVersion = some wf :=
      (Option.ite_none_right_eq_some.mp hwf).2
    obtain rfl : r.id = id := Db.run_id hr
    have hparked := hs.row r.id r i d hr hlt ((opAt_eq hr hwf').trans hop)
    exact ⟨hparked.step hstep, (h.claimed_over hs' hid hr).step hparked h hstep⟩

theorem Reachable.sleeps (hy : y.Reachable reg) : Sleeps reg y := by
  obtain ⟨clock, h⟩ := hy
  have hinit : Sleeps reg (init clock : System J Ω) :=
    ⟨fun run r i d hr => (by cases hr), fun token p i d hp => (by cases hp)⟩
  exact (h.invariant (P := fun z => z.Inv reg ∧ Sleeps reg z) ⟨.init clock, hinit⟩
    fun _ _ _ ih _ hstep => ⟨ih.1.step hstep,
      fun _ _ _ _ hr hlt hop => ih.2.row_step ih.1 hstep hr hlt hop,
      fun _ _ _ _ hp hlt hop => ih.2.proc_step ih.1 hstep hp hlt hop⟩).2

/-! ### Waits of the system -/

/-- The run has been parked at the wait with this timeout at `i`. -/
def ParkedAt (y : System J Ω) (run : RunId) (i : ℕ) (timeout : Time) : Prop :=
  ∃ token key now clock,
    Change.wrote token (.parkWait i key (milliseconds timeout)) now clock ∈ y.srv.log run

/-- The deadline stored for the wait at `i` has passed. -/
def WaitOver (y : System J Ω) (run : RunId) (i : ℕ) : Prop :=
  ∀ token key ms now clock, Change.wrote token (.parkWait i key ms) now clock ∈ y.srv.log run →
    now + millis ms ≤ y.srv.clock

variable (reg) in
/-- A wait has timed out only at its deadline or later. -/
def TimesOut (y : System J Ω) : Prop :=
  ∀ run i name key timeout, y.opAt reg run i = some (.waitEvent name key timeout) →
    y.srv.db.checkpoint run i = some timedOut → y.ParkedAt run i timeout ∧ y.WaitOver run i

lemma Inv.fits (h : y.Inv reg) (hstep : y.step reg m = some y') {ch : Change J}
    (hlog : y'.srv.log run = y.srv.log run ++ [ch]) {r' : Row J}
    (hr' : y'.srv.db.run run = some r') : ∃ wf, ch.Fits y'.past wf (y.srv.view run) := by
  obtain ⟨wf, -, hlaw⟩ := (h.step hstep).lawful run r' hr'
  rw [hlog] at hlaw
  obtain ⟨v, hl, -, hfits⟩ := hlaw.snoc_inv
  rw [hl.life.unique (h.srv.inv.life run)] at hfits
  exact ⟨wf, hfits⟩

lemma WaitOver.step (ho : y.WaitOver run i) (h : y.Inv reg) (hstep : y.step reg m = some y')
    {x : J} (hx : y.srv.db.checkpoint run i = some x) : y'.WaitOver run i := by
  intro token key ms now clock hmem
  refine (ho token key ms now clock ?_).trans (clock_le hstep)
  rcases step_server hstep with heq | ⟨a, hs⟩
  · rwa [heq] at hmem
  · obtain ⟨o, ⟨hlog, hm⟩, -⟩ := Server.step_moved h.srv.inv.tx hs run
    rw [hlog] at hmem
    rcases List.mem_append.mp hmem with hmem | hmem
    · exact hmem
    · obtain rfl : o = some (.wrote token (.parkWait i key ms) now clock) := by simpa using hmem
      have hm : (y.srv.view run).Moves _ (y'.srv.view run) := hm
      obtain ⟨r, hr, -⟩ := hm.wrote_guard
      obtain ⟨r', hr'⟩ := hm.row_some
      obtain ⟨wf, hfits⟩ := h.fits hstep hlog hr'
      obtain ⟨-, hnone, -⟩ := hfits r hr
      rw [show (y.srv.view run).cps i = some x from hx] at hnone
      cases hnone

lemma Inv.promoted (h : y.Inv reg) {a : Act J} (hs : y.srv.step a = some y'.srv) {now : Time}
    (hlog : y'.srv.log run = y.srv.log run ++ [.timedOut now])
    (hm : (y.srv.view run).Moves (.timedOut now) (y'.srv.view run))
    (hmk : y.srv.Makes a run (.timedOut now)) {r : Row J} (hr : y.srv.db.run run = some r)
    (hwait : r.state = .waitingEvent) (hnone : y.srv.db.checkpoint run r.stepIndex = none)
    {name : String} {key : EventKey Ω} {timeout : Time}
    (hop : y.opAt reg run r.stepIndex = some (.waitEvent name key timeout)) :
    y'.ParkedAt run r.stepIndex timeout ∧ y'.WaitOver run r.stepIndex := by
  obtain ⟨wf, hwf, hlaw⟩ := h.lawful run r hr
  obtain ⟨token, k, ms, start, clock, hmem, -, hdeadline⟩ := hlaw.life.parked hr hwait
  obtain ⟨⟨name', key', timeout', hop', rfl⟩, -⟩ := hlaw.waited hr _ _ _ _ _ _ hmem
  rw [← opAt_eq hr hwf, hop] at hop'
  cases hop'
  have hle : start + millis (milliseconds timeout) ≤ now := by
    generalize y'.srv.view run = v' at hm
    cases hm with
    | updated _ r₀ u hrow hu hg =>
      cases hr.symm.trans hrow; cases hu
      simpa [timedOutWait, hwait, hdeadline] using hg
  have hnow : now ≤ y'.srv.clock := (hmk.now_le h.srv.inv.tx hs).trans (Server.clock_le hs)
  refine ⟨⟨token, k, start, clock, by rw [hlog]; exact List.mem_append_left _ hmem⟩, ?_⟩
  intro token' k' ms' start' clock' hmem'
  rw [hlog] at hmem'
  have hmem' : Change.wrote token' (.parkWait r.stepIndex k' ms') start' clock' ∈
      y.srv.log run := by simpa using hmem'
  rcases (hlaw.waited hr _ _ _ _ _ _ hmem').2 with ⟨-, -, hdeadline'⟩ | hterm | hsome
  · rw [hdeadline] at hdeadline'
    rw [← Option.some.inj hdeadline']; exact hle.trans hnow
  · rw [hwait] at hterm; cases hterm
  · rw [show (y.srv.view run).cps r.stepIndex = none from hnone] at hsome; cases hsome

lemma TimesOut.step (ht : TimesOut reg y) (h : y.Inv reg) (hstep : y.step reg m = some y') :
    TimesOut reg y' := by
  intro run i name key timeout hop hx
  have hold : y.srv.db.checkpoint run i = some timedOut →
      y'.ParkedAt run i timeout ∧ y'.WaitOver run i := by
    intro hx₀
    obtain ⟨r, hr⟩ := h.row_of_checkpoint hx₀
    obtain ⟨⟨token, k, now, clock, hmem⟩, hover⟩ :=
      ht run i name key timeout ((h.opAt_step hstep hr).symm.trans hop) hx₀
    exact ⟨⟨token, k, now, clock, (srv_log_grows hstep run).subset hmem⟩,
      hover.step h hstep hx₀⟩
  rcases h.writes hstep with heq | ⟨a, hs, hwrites⟩
  · exact hold (heq ▸ hx)
  obtain ⟨o, ⟨hlog, hm⟩, hmakes⟩ := Server.step_moved h.srv.inv.tx hs run
  rcases o with _ | ch
  · exact hold ((congrFun (congrArg View.cps hm) i).symm.trans hx)
  have hm : (y.srv.view run).Moves ch (y'.srv.view run) := hm
  rcases hx₀ : y.srv.db.checkpoint run i with _ | x₀
  · rcases hm.recorded hx₀ hx with ⟨now, r, rfl, hr, hwait, rfl, -⟩ |
      ⟨k, payload, now, r, rfl, -, -, -, -, hpayload⟩ | ⟨token, complete, now, clock, rfl⟩
    · exact h.promoted hs hlog hm (hmakes _ rfl) hr hwait hx₀
        ((h.opAt_step hstep hr).symm.trans hop)
    · exact absurd hpayload.symm (Jsonb.received_ne_timedOut payload)
    · -- neither a step nor a delivery records that the wait timed out
      obtain ⟨r, hr, -⟩ := hm.wrote_guard
      have hop := (h.opAt_step hstep hr).symm.trans hop
      obtain ⟨p, hp, rfl, -, hsends | ⟨_, _, _, hw⟩ | ⟨tx, -, -, hphase, -, hwaits⟩⟩ :=
        hwrites _ _ _ _ _ (hmakes _ rfl)
      · obtain ⟨rfl, -, -, -, name', fn, timeout', hop', -⟩ := hsends
        rw [h.opAt_proc hp, hop'] at hop; cases hop
      · cases hw
      · obtain ⟨timeout', -, -, hrest⟩ := hwaits
        rw [hphase] at hrest
        obtain ⟨found, -, hw⟩ := hrest
        rcases found with _ | payload
        · cases hw
        · exact absurd (Write.commitStep.inj hw).2.1.symm (Jsonb.received_ne_timedOut payload)
  · have hx' := hm.cps_some (i := i) hx₀
    rw [show (y'.srv.view run).cps i = some timedOut from hx] at hx'
    cases hx'
    exact hold hx₀

theorem Reachable.timesOut (hy : y.Reachable reg) : TimesOut reg y := by
  obtain ⟨clock, h⟩ := hy
  have hinit : TimesOut reg (init clock : System J Ω) := fun run i name key timeout _ hx => by
    cases hx
  exact (h.invariant (P := fun z => z.Inv reg ∧ TimesOut reg z) ⟨.init clock, hinit⟩
    fun _ _ _ ih _ hstep => ⟨ih.1.step hstep, ih.2.step ih.1 hstep⟩).2

/-! ### Prompt runs -/

/-- A parking statement that takes effect runs when its transaction starts. -/
def prompt (y : System J Ω) : Move J Ω → Bool
  | .exec token now _ => (y.procs token).all fun p => p.sent.all fun w =>
      y.srv.prompt (.write p.run.id token w now)
  | .statement token => y.srv.prompt (.statement (.wait token))
  | _ => true

lemma prompt_outside {s : Server J} {a : Act J} (ha : a.outside = true) :
    s.prompt a = true := by
  cases a with
  | write => cases ha
  | statement id =>
    cases id with
    | emit => rfl
    | wait => cases ha
  | _ => rfl

lemma prompt_server (h : y.Inv reg) (hm : y.prompt m = true) (hstep : y.step reg m = some y') :
    y'.srv = y.srv ∨ ∃ a, y.srv.step a = some y'.srv ∧ y.srv.prompt a = true := by
  cases does hstep with
  | turn => exact Or.inl rfl
  | outside ha hs => exact Or.inr ⟨_, hs, prompt_outside ha⟩
  | insert _ hs | claim hs | begin _ _ _ hs | lock _ hs | look _ _ hs | commit _ hs =>
    exact Or.inr ⟨_, hs, rfl⟩
  | exec hp hw hs heq =>
    subst heq
    exact Or.inr ⟨_, hs, by simpa [prompt, hp, hw] using hm⟩
  | execFailure hp hw hs =>
    obtain ⟨ms, msg, rfl⟩ := (h.proc _ _ hp).asks.failure _ hw
    exact Or.inr ⟨_, hs, by simp [Server.prompt, Write.parks]⟩
  | statement _ _ hs _ heq =>
    subst heq
    exact Or.inr ⟨_, hs, hm⟩

/-- The runs in question. -/
abbrev PromptRuns (reg : Registry Ω) (y y' : System J Ω) : Prop :=
  ReachesBy (step reg) (fun y m => y.prompt m = true) y y'

lemma PromptRuns.inv {clock : Time} (h : PromptRuns reg (init clock) y) :
    y.Reachable reg ∧ y.srv.Prompt := by
  have hinit : (init clock : System J Ω).Reachable reg ∧
      (init clock : System J Ω).srv.Prompt :=
    ⟨⟨clock, .refl⟩, fun run token w now clock hmem => (by cases hmem),
      fun id tx w clock htx => (by cases htx)⟩
  refine h.invariant (P := fun y => y.Reachable reg ∧ y.srv.Prompt) hinit ?_
  rintro y m y' ⟨hy, hp⟩ hm hstep
  refine ⟨hy.later (.single ⟨m, trivial, hstep⟩), ?_⟩
  rcases prompt_server hy.inv hm hstep with heq | ⟨a, hs, ha⟩
  · rw [heq]; exact hp
  · exact hp.step hy.inv.srv.inv.tx ha hs

/-- **Timers are not early**, where parking statements are prompt: a worker is past a sleep of
whole milliseconds only when that time has passed since the run was parked for it, and a wait
with a timeout of whole milliseconds has timed out only when that time has passed since the run
was parked there. -/
theorem timers_not_early {clock : Time} (h : PromptRuns reg (init clock) y) :
    (∀ token p i d, y.procs token = some p → i < p.index → p.wf.ops[i]? = some (.sleep d) →
      1000000 ∣ d → y.Parked p.run.id i d ∧ ∀ token' ms now parked,
        Change.wrote token' (.parkSleep (i + 1) ms) now parked ∈ y.srv.log p.run.id →
        parked + d ≤ y.srv.clock) ∧
    ∀ run i name key timeout, y.opAt reg run i = some (.waitEvent name key timeout) →
      y.srv.db.checkpoint run i = some timedOut → 1000000 ∣ timeout →
      y.ParkedAt run i timeout ∧ ∀ token k ms now parked,
        Change.wrote token (.parkWait i k ms) now parked ∈ y.srv.log run →
        parked + timeout ≤ y.srv.clock := by
  obtain ⟨hy, hprompt⟩ := h.inv
  refine ⟨fun token p i d hp hi hop hd => ?_, fun run i name key timeout hop hx hd => ?_⟩
  · obtain ⟨hparked, hover⟩ := hy.sleeps.proc token p i d hp hi hop
    refine ⟨hparked, fun token' ms now parked hmem => ?_⟩
    obtain ⟨r, hr, -⟩ := (hy.inv.proc token p hp).knows.row
    obtain ⟨wf, hwf, hlaw⟩ := hy.inv.lawful p.run.id r hr
    obtain ⟨-, ⟨j, d', hj, hop', rfl⟩, -⟩ := hlaw.slept hr _ _ _ _ _ hmem
    obtain rfl := Nat.succ.inj hj
    rw [← opAt_eq hr hwf, hy.inv.opAt_proc hp, hop] at hop'
    cases hop'
    have hle := hover _ _ _ _ hmem
    rwa [millis_milliseconds hd, hprompt.log _ _ _ _ _ hmem rfl] at hle
  · obtain ⟨hparked, hover⟩ := hy.timesOut run i name key timeout hop hx
    refine ⟨hparked, fun token k ms now parked hmem => ?_⟩
    obtain ⟨r, hr⟩ := hy.inv.row_of_checkpoint hx
    obtain ⟨wf, hwf, hlaw⟩ := hy.inv.lawful run r hr
    obtain ⟨⟨name', key', timeout', hop', rfl⟩, -⟩ := hlaw.waited hr _ _ _ _ _ _ hmem
    rw [← opAt_eq hr hwf, hop] at hop'
    cases hop'
    have hle := hover _ _ _ _ _ hmem
    rwa [millis_milliseconds hd, hprompt.log _ _ _ _ _ hmem rfl] at hle

def sleepLength : Operation Unit → Option Time
  | .sleep d => some d
  | _ => none

def waitLength : Operation Unit → Option Time
  | .waitEvent _ _ timeout => some timeout
  | _ => none

lemma eq_of_sleepLength {op : Operation Unit} (h : sleepLength op = some d) : op = .sleep d := by
  cases op <;> cases h; rfl

lemma eq_of_waitLength {op : Operation Unit} (h : waitLength op = some d) :
    ∃ name key, op = .waitEvent name key d := by
  cases op <;> cases h; exact ⟨_, _, rfl⟩

/-- A millisecond of sleep, and a wait for a millisecond. -/
def sleepAndWait : Registry Unit := .single "w" 1 [.sleep 1000000, .waitEvent "e" "k" 1000000]

/-- A run of these operations in which the wait times out. -/
def timedOutRun : List (Move Doc Unit) :=
  [.enqueue worker "w" (utf8 "null") [] "r" 0, .claim worker 1 (fun _ => "c") 0 false,
    .turn "c" .sleep, .exec "c" 0 false, .outside (.tick 1000000),
    .claim worker 1 (fun _ => "d") 1000000 false, .turn "d" (.invoke () []), .begin "d",
    .lockEventKey "d", .latestEvent "d", .statement "d", .commit "d" false,
    .outside (.tick 2000000), .outside (.promoteTimedOut 2000000)]

theorem timers_not_early_timedOutRun : ∃ (y : System Doc Unit) (p : Proc Doc Unit),
    PromptRuns sleepAndWait (init 0) y ∧ y.procs "d" = some p ∧ p.index = 1 ∧
    y.srv.db.checkpoint "r" 1 = some timedOut ∧ y.Parked p.run.id 0 1000000 ∧
    y.ParkedAt "r" 1 1000000 := by
  have hrun : (timedOutRun.foldlM (fun (y : System Doc Unit) m =>
      if y.prompt m then y.step sleepAndWait m else none) (init 0)).bind (fun y =>
        (y.procs "d").bind fun p => (p.wf.ops[0]?).bind fun op =>
          (y.opAt sleepAndWait "r" 1).map fun op' => decide (p.index = 1 ∧
            sleepLength op = some 1000000 ∧ waitLength op' = some 1000000 ∧
            y.srv.db.checkpoint "r" 1 = some timedOut)) = some true := by decide +kernel
  obtain ⟨y, hy, h⟩ := Option.bind_eq_some_iff.mp hrun
  obtain ⟨p, hp, h⟩ := Option.bind_eq_some_iff.mp h
  obtain ⟨op, hop, h⟩ := Option.bind_eq_some_iff.mp h
  obtain ⟨op', hop', h⟩ := Option.map_eq_some_iff.mp h
  obtain ⟨hindex, hsleep, hwait, hx⟩ := of_decide_eq_true h
  obtain rfl := eq_of_sleepLength hsleep
  obtain ⟨name, key, rfl⟩ := eq_of_waitLength hwait
  have hreach : PromptRuns sleepAndWait (init 0) y := ReachesBy.of_run _ hy
  obtain ⟨hsleeps, hwaits⟩ := timers_not_early hreach
  exact ⟨y, p, hreach, hp, hindex, hx, (hsleeps "d" p 0 _ hp (by omega) hop (by decide)).1,
    (hwaits "r" 1 name key _ hop' hx (by decide)).1⟩

/-- The index, the start of the transaction and the time of a parking statement. -/
def parkedTimes : Change Doc → Option (ℕ × Time × Time)
  | .wrote _ (.parkSleep next _) now clock => some (next - 1, now, clock)
  | .wrote _ (.parkWait i _ _) now clock => some (i, now, clock)
  | _ => none

/-- A sleep of a millisecond and a half, and the operation after it. -/
def longSleep : Registry Unit := .single "w" 1
  [.sleep 1500000, .step "a" (some fun _ _ => .returns (.ok (utf8 "true"))) []]

def shortened : List (Move Doc Unit) :=
  [.enqueue worker "w" (utf8 "null") [] "r" 0, .claim worker 1 (fun _ => "c") 0 false,
    .turn "c" .sleep, .exec "c" 0 false, .outside (.tick 1000000),
    .claim worker 1 (fun _ => "d") 1000000 false, .turn "d" (.invoke () [])]

/-- A wait for a millisecond whose registration waits for the lock of its key. -/
def shortWait : Registry Unit := .single "w" 1 [.waitEvent "e" "k" 1000000]

def contended : List (Move Doc Unit) :=
  [.enqueue worker "w" (utf8 "null") [] "r" 0, .claim worker 1 (fun _ => "c") 0 false,
    .turn "c" (.invoke () []), .emitEvent 0 "k" (utf8 "null"), .outside (.lockEventKey (.emit 0)),
    .begin "c", .outside (.tick 900000), .outside (.rollback (.emit 0)), .lockEventKey "c",
    .latestEvent "c", .statement "c", .commit "c" false, .outside (.tick 1000000),
    .outside (.promoteTimedOut 1000000)]

/-- The operation after a sleep of 1.5 ms starts 1 ms after the run was parked for it; a wait
for 1 ms times out 0.1 ms after the run was parked at it. -/
theorem timers_early :
    (∃ y : System Doc Unit, Reaches (step longSleep) (init 0) y ∧
      (y.opAt longSleep "r" 0).bind sleepLength = some 1500000 ∧
      y.calls.map (fun c => (c.run, c.index)) = [("r", 1)] ∧
      (y.srv.log "r").filterMap parkedTimes = [(0, 0, 0)] ∧ y.srv.clock = 1000000) ∧
    ∃ y : System Doc Unit, Reaches (step shortWait) (init 0) y ∧
      (y.opAt shortWait "r" 0).bind waitLength = some 1000000 ∧
      y.srv.db.checkpoint "r" 0 = some timedOut ∧
      (y.srv.log "r").filterMap parkedTimes = [(0, 0, 900000)] ∧ y.srv.clock = 1000000 := by
  constructor
  · have hrun : (shortened.foldlM (step longSleep) (init 0)).map (fun y => decide (
        (y.opAt longSleep "r" 0).bind sleepLength = some 1500000 ∧
        y.calls.map (fun c => (c.run, c.index)) = [("r", 1)] ∧
        (y.srv.log "r").filterMap parkedTimes = [(0, 0, 0)] ∧ y.srv.clock = 1000000)) =
        some true := by decide +kernel
    obtain ⟨y, hy, h⟩ := Option.map_eq_some_iff.mp hrun
    exact ⟨y, Reaches.of_run _ hy, of_decide_eq_true h⟩
  · have hrun : (contended.foldlM (step shortWait) (init 0)).map (fun y => decide (
        (y.opAt shortWait "r" 0).bind waitLength = some 1000000 ∧
        y.srv.db.checkpoint "r" 0 = some timedOut ∧
        (y.srv.log "r").filterMap parkedTimes = [(0, 0, 900000)] ∧ y.srv.clock = 1000000)) =
        some true := by decide +kernel
    obtain ⟨y, hy, h⟩ := Option.map_eq_some_iff.mp hrun
    exact ⟨y, Reaches.of_run _ hy, of_decide_eq_true h⟩

end System

end DurablePg

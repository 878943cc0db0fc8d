import DurablePg.PoolInv

/-!
Concurrency and quiescence of an engine: one worker at a time, no more claims than slots, every
run executed and released once, and `WaitForIdle` that returns when nothing is left.

Forgetting the runs, the engine takes the steps of `Host`.
-/

namespace DurablePg.Pool

open DurablePg.Lib

variable {s s' : Pool} {a : PoolAct}

/-! ### Runs to go -/

/-- The steps until the goroutine has released its lease entry. -/
def phaseTogo : GoPhase → ℕ
  | .spawned => 3
  | .executing => 2
  | .executed => 1
  | _ => 0

/-- The steps until the run at a place has been executed and released. -/
def togo (s : Pool) (t : ℕ) : ℕ :=
  match s.claims[t]? with
  | some g => phaseTogo g.phase
  | none => t - s.claims.length + 4

lemma togo_setPhase {c : ℕ} {g : Goroutine} (hg : s.claims[c]? = some g) {phase : GoPhase}
    (hp : phaseTogo phase ≤ phaseTogo g.phase) (t : ℕ) :
    (s.setPhase c g phase).togo t ≤ s.togo t := by
  have hlt := (List.getElem?_eq_some_iff.mp hg).1
  unfold togo
  simp only [Pool.setPhase, List.getElem?_set, List.length_set]
  by_cases hc : c = t
  · subst hc
    rw [hg, if_pos rfl, if_pos hlt]
    exact hp
  · rw [if_neg hc]

/-- **No step takes a run back.** -/
lemma togo_step (h : s.step a = some s') (t : ℕ) : s'.togo t ≤ s.togo t := by
  cases does h with
  | refused | full | busy | startWorker | dispatch | claimed | dispatched | cancel | drained
  | endWorker | waitForIdle | enterWait | leaveWait | returnIdle => exact le_rfl
  | startClaim =>
    unfold togo
    rcases lt_trichotomy t s.claims.length with ht | rfl | ht
    · rw [List.getElem?_append_left ht]
      simp [List.getElem?_eq_getElem ht]
    · simp [phaseTogo]
    · rw [List.getElem?_eq_none ht.le, List.getElem?_eq_none (by simp; omega)]
      simp only [List.length_append, List.length_singleton]
      omega
  | execute hg hp | executed hg hp | release hg hp | leave hg hp | done hg hp | gone hg hp =>
    exact togo_setPhase hg (by rw [hp]; decide) t

lemma step_startClaim {n run : ℕ} {rest : List ℕ} {w : WorkerCall} (hw : s.workers[n]? = some w)
    (hl : w.loop = some (.starting (run :: rest))) : s.step (.startClaim n) = some { s with
      workers := s.workers.set n ⟨some (.starting rest), w.inFlight + 1⟩
      activeClaims := s.activeClaims.add
      claims := s.claims ++ [⟨n, run, .spawned⟩] } := by
  simp only [Pool.step, hw, hl, Option.bind_eq_bind, Option.bind_some]
  rfl

/-- **No run is stuck**: as long as a run that was returned is not executed and released, some
step brings it nearer. -/
lemma Inv.togo_lt (h : s.Inv) {t : ℕ} (ht : t < s.returned.length) (hne : s.togo t ≠ 0) :
    ∃ a s', s.step a = some s' ∧ s'.togo t < s.togo t := by
  rcases hg : s.claims[t]? with _ | g
  · -- the run is with the running worker
    have hge : s.claims.length ≤ t := List.getElem?_eq_none_iff.mp hg
    have hrun : s.workerRunning = true := by
      by_contra hidle
      have := h.ordered.idle (by simpa using hidle)
      omega
    obtain ⟨w, hw⟩ : ∃ w, s.workers[s.workers.length - 1]? = some w :=
      ⟨_, List.getElem?_eq_getElem (by
        have := List.length_pos_iff.mpr (h.flagged.some_worker hrun)
        omega)⟩
    have hlen := List.length_pos_iff.mpr (h.flagged.some_worker hrun)
    obtain ⟨l, hl⟩ := Option.isSome_iff_exists.mp
      ((h.flagged.last _ w hw).mpr ⟨hrun, by omega⟩)
    have hp := h.ordered.pending _ w l hw hl
    obtain ⟨k, hk⟩ : ∃ k, s.returned.length - s.claims.length = k + 1 :=
      ⟨s.returned.length - s.claims.length - 1, by omega⟩
    rw [hk, List.range'_succ] at hp
    cases l with
    | starting runs =>
      have hruns : runs = s.claims.length :: List.range' (s.claims.length + 1) k := hp
      subst hruns
      refine ⟨_, _, step_startClaim hw hl, ?_⟩
      unfold togo
      rw [hg]
      rcases hge.lt_or_eq with hlt | rfl
      · rw [List.getElem?_eq_none (by simp; omega)]
        simp only [List.length_append, List.length_singleton]
        omega
      · simp [phaseTogo]
    | select | claiming | draining | returned => cases hp
  · have htogo : s.togo t = phaseTogo g.phase := by rw [togo, hg]
    have hlt := (List.getElem?_eq_some_iff.mp hg).1
    rw [htogo] at hne ⊢
    have hnew : ∀ phase, (s.setPhase t g phase).togo t = phaseTogo phase := by
      intro phase
      simp [togo, Pool.setPhase, hlt]
    have hstep : s.step (.advance t) = s.claimStep t g := by
      simp [Pool.step, hg]
    unfold claimStep at hstep
    cases hp : g.phase with
    | spawned =>
      rw [hp] at hstep
      exact ⟨_, _, hstep, (hnew .executing).trans_lt (by decide)⟩
    | executing =>
      rw [hp] at hstep
      exact ⟨_, _, hstep, (hnew .executed).trans_lt (by decide)⟩
    | executed =>
      rw [hp] at hstep
      exact ⟨_, _, hstep, (hnew .released).trans_lt (by decide)⟩
    | released | left | done | gone => rw [hp] at hne; exact absurd rfl hne

/-! ### `WaitForIdle` -/

lemma Inv.frozen (h : s.Inv) {m : ℕ} (hmu : s.workerMu = some m) (hstep : s.step a = some s') :
    s'.claims.length = s.claims.length ∧ s'.returned = s.returned := by
  -- a step of a dispatch loop needs a running worker, and then the mutex is free
  have hfree : ∀ {n : ℕ} {w : WorkerCall} {l : Loop}, s.workers[n]? = some w → w.loop = some l →
      s'.claims.length = s.claims.length ∧ s'.returned = s.returned := by
    intro n w l hw hl
    rw [h.flagged.mutex_free hw hl] at hmu
    cases hmu
  cases does hstep with
  | refused | full | busy | startWorker | waitForIdle | enterWait | leaveWait | returnIdle =>
    exact ⟨rfl, rfl⟩
  | dispatch hw hl | claimed hw hl | startClaim hw hl | dispatched hw hl | cancel hw hl
  | drained hw hl | endWorker hw hl => exact hfree hw hl
  | execute | executed | release | leave | done | gone => exact ⟨List.length_set, rfl⟩

lemma Inv.over (h : s.Inv) {m : ℕ} (hmu : s.workerMu = some m)
    (hdone : s.activeClaims.waiters[m]? = some .returned) :
    ∀ g ∈ s.claims, g.phase.active = false := by
  have hzero := h.tracked.waits m hmu (Or.inr hdone)
  rw [h.tracked.counter, List.countP_eq_zero] at hzero
  intro g hg
  simpa using hzero g hg

lemma executions_step (hover : ∀ g ∈ s.claims, g.phase.active = false)
    (hstep : s.step a = some s') : s'.executions = s.executions := by
  cases does hstep with
  | execute hg hp =>
    have := hover _ (List.mem_of_getElem? hg)
    rw [hp] at this
    cases this
  | _ => rfl

/-! ### The main result -/

/-- The claims of a worker that are being executed. -/
def executing (s : Pool) (n : ℕ) : ℕ :=
  s.claims.countP fun g => g.worker = n && g.phase = .executing

lemma Inv.executing_le (h : s.Inv) (n : ℕ) : s.executing n ≤ s.maxConcurrency := by
  have hle : s.executing n ≤ s.held n := by
    refine List.countP_mono_left fun g _ hg => ?_
    simp only [Bool.and_eq_true, decide_eq_true_eq] at hg ⊢
    exact ⟨hg.1, by rw [hg.2]; rfl⟩
  rcases hw : s.workers[n]? with _ | w
  · -- no such worker, no such claim
    have hzero : s.held n = 0 := by
      refine List.countP_eq_zero.mpr fun g hg => ?_
      have := h.slotted.owner g hg
      have := List.getElem?_eq_none_iff.mp hw
      simp only [Bool.and_eq_true, decide_eq_true_eq, not_and]
      omega
    omega
  · have hcount := h.slotted.counted n w hw
    have hbound := h.slotted.bound n w hw
    omega

lemma Inv.executions_count (h : s.Inv) (t : ℕ) :
    s.executions.count t = if (s.claims[t]?).any (fun g => g.phase.begun) then 1 else 0 := by
  rw [h.counted.executions, countP_run h.ordered.runs]

lemma Inv.releases_count (h : s.Inv) (t : ℕ) :
    s.releases.count t = if (s.claims[t]?).any (fun g => g.phase.freed) then 1 else 0 := by
  rw [h.counted.releases, countP_run h.ordered.runs]

lemma Inv.togo_eq_zero (h : s.Inv) (t : ℕ) :
    s.togo t = 0 ↔ s.executions.count t = 1 ∧ s.releases.count t = 1 := by
  rw [h.executions_count, h.releases_count, togo]
  rcases s.claims[t]? with _ | g
  · simp
  · cases hp : g.phase <;> simp [phaseTogo, hp, GoPhase.begun, GoPhase.freed]

lemma Inv.mem_executions (h : s.Inv) {t : ℕ} (ht : t ∈ s.executions) : t < s.returned.length := by
  have hpos := List.count_pos_iff.mpr ht
  rw [h.executions_count] at hpos
  rcases hg : s.claims[t]? with _ | g
  · rw [hg] at hpos
    cases hpos
  · exact (List.getElem?_eq_some_iff.mp hg).1.trans_le h.ordered.le

/-- **Worker concurrency and quiescence**, in every state the engine reaches: two running workers
are one; no worker executes more than `MaxConcurrency` claims; a run is executed and released
once at most, both just when it has nothing to go, no step takes that back, and while it has
something to go a step brings it nearer; while a `WaitForIdle` is in progress no claim is added;
and when it returns `nil` every run that was ever returned has had its claim, every claim is
over, and no step starts one. -/
theorem worker_quiescence {maxConcurrency : ℕ}
    (h : Reaches step (init maxConcurrency) s) :
    (∀ (n n' : ℕ) w w', s.workers[n]? = some w → s.workers[n']? = some w' →
      w.loop.isSome → w'.loop.isSome → n = n') ∧
    (∀ n, s.executing n ≤ maxConcurrency) ∧
    (∀ t, s.executions.count t ≤ 1 ∧ s.releases.count t ≤ 1 ∧
      (t ∈ s.executions → t < s.returned.length) ∧
      (s.togo t = 0 ↔ s.executions.count t = 1 ∧ s.releases.count t = 1) ∧
      (∀ a s', s.step a = some s' → s'.togo t ≤ s.togo t) ∧
      (t < s.returned.length → s.togo t ≠ 0 →
        ∃ a s', s.step a = some s' ∧ s'.togo t < s.togo t)) ∧
    (∀ m a s', s.workerMu = some m → s.step a = some s' →
      s'.claims.length = s.claims.length ∧ s'.returned = s.returned) ∧
    ∀ m s', s.step (.returnIdle m false) = some s' →
      s.claims.length = s.returned.length ∧ (∀ g ∈ s.claims, g.phase.active = false) ∧
      ∀ a s'', s.step a = some s'' → s''.executions = s.executions := by
  have hinv := inv_of_reaches h
  refine ⟨fun n n' w w' hw hw' => hinv.flagged.unique hw hw', fun n => ?_, fun t => ?_,
    fun m a s' hmu hstep => hinv.frozen hmu hstep, fun m s' hstep => ?_⟩
  · rw [← maxConcurrency_of_reaches h]
    exact hinv.executing_le n
  · refine ⟨?_, ?_, hinv.mem_executions, hinv.togo_eq_zero t, fun a s' hstep => togo_step hstep t,
      hinv.togo_lt⟩
    · rw [hinv.executions_count]
      split <;> decide
    · rw [hinv.releases_count]
      split <;> decide
  · obtain ⟨⟨hmu, hdone⟩, -⟩ := Option.ite_none_right_eq_some.mp hstep
    have hdone : s.activeClaims.waiters[m]? = some .returned := by simpa using hdone
    have hover := hinv.over hmu hdone
    exact ⟨hinv.ordered.idle (hinv.flagged.mutex (by rw [hmu]; rfl)), hover,
      fun a s'' => executions_step hover⟩

/-- Two claims outlive the drain of their worker, one of them not even begun, and `WaitForIdle`
waits for both. -/
def drainedEarly : List PoolAct :=
  [.startWorker, .dispatch 0, .claimed 0 ["a", "b"], .startClaim 0, .startClaim 0, .dispatched 0,
    .dispatch 0, .advance 0, .cancel 0, .drained 0 true, .endWorker 0, .startWorker, .cancel 1,
    .drained 1 false, .endWorker 1, .waitForIdle, .enterWait 0, .advance 1, .advance 0, .advance 0,
    .advance 0, .advance 0, .advance 1, .advance 1, .advance 1, .advance 1, .leaveWait 0]

theorem worker_quiescence_drainedEarly : ∃ s s',
    drainedEarly.foldlM step (init 2) = some s ∧ s.step (.returnIdle 0 false) = some s' ∧
    s.claims.length = 2 ∧ (∀ g ∈ s.claims, g.phase.active = false) ∧
    s.executions.count 0 ≤ 1 ∧ s.executing 0 ≤ 2 := by
  have hrun : (drainedEarly.foldlM step (init 2)).bind (fun s =>
      (s.step (.returnIdle 0 false)).map fun _ => s.returned.length) = some 2 := by decide +kernel
  obtain ⟨s, hs, hrun⟩ := Option.bind_eq_some_iff.mp hrun
  obtain ⟨s', hs', hlen⟩ := Option.map_eq_some_iff.mp hrun
  obtain ⟨-, hbound, honce, -, hidle⟩ := worker_quiescence (.of_run _ hs)
  obtain ⟨hall, hover, -⟩ := hidle 0 s' hs'
  exact ⟨s, s', hs, hs', hall.trans hlen, hover, (honce 0).1, hbound 0⟩

/-! ### The goroutines of `Host` -/

def hostLoop : Loop → Dispatching
  | .select => .select
  | .claiming available => .claiming available
  | .starting runs => .starting runs.length
  | .draining => .draining
  | .returned => .returned

def hostPhase : GoPhase → ClaimPhase
  | .spawned | .executing | .executed => .executing
  | .released => .released
  | .left => .left
  | .done | .gone => .done

def hostClaim (g : Goroutine) : ActiveClaim := ⟨g.worker, hostPhase g.phase⟩

/-- Of the workers, the last one is left while it runs. -/
def hostWorker (workers : List WorkerCall) : Option HostWorker :=
  workers.getLast?.bind fun w => w.loop.map fun l => ⟨workers.length - 1, hostLoop l, w.inFlight⟩

/-- The engine without its runs. -/
def host (s : Pool) : Host where
  maxConcurrency := s.maxConcurrency
  started := s.workers.length
  worker := hostWorker s.workers
  activeClaims := s.activeClaims
  claims := s.claims.map hostClaim
  workerMu := s.workerMu

section Simulation

variable {n c : ℕ} {w w' : WorkerCall} {l : Loop} {g : Goroutine}

lemma hostWorker_running (hf : s.Flagged) (hw : s.workers[n]? = some w) (hl : w.loop = some l) :
    hostWorker s.workers = some ⟨n, hostLoop l, w.inFlight⟩ := by
  have hlast := (hf.running hw hl).2
  have hn : s.workers.length - 1 = n := by omega
  simp only [hostWorker, List.getLast?_eq_getElem?, hn, hw, Option.bind_some, hl, Option.map_some]

lemma hostWorker_idle (hf : s.Flagged) (hrun : s.workerRunning = false) :
    hostWorker s.workers = none := by
  rw [hostWorker, List.getLast?_eq_getElem?]
  rcases hw : s.workers[s.workers.length - 1]? with _ | w
  · rfl
  · have hnone : w.loop = none := by
      rcases hl : w.loop with _ | l
      · rfl
      · rw [(hf.running hw hl).1] at hrun
        cases hrun
    rw [Option.bind_some, hnone, Option.map_none]

lemma hostWorker_set (hf : s.Flagged) (hw : s.workers[n]? = some w) (hl : w.loop = some l) :
    hostWorker (s.workers.set n w') = w'.loop.map fun l => ⟨n, hostLoop l, w'.inFlight⟩ := by
  have hlast := (hf.running hw hl).2
  have hn : s.workers.length - 1 = n := by omega
  rw [hostWorker, List.getLast?_eq_getElem?, List.length_set, hn,
    List.getElem?_set_self (by omega), Option.bind_some]

lemma hostWorker_modify (workers : List WorkerCall) (n : ℕ) :
    hostWorker (workers.modify n fun w => { w with inFlight := w.inFlight - 1 }) =
      (hostWorker workers).map fun w =>
        if w.number = n then { w with inFlight := w.inFlight - 1 } else w := by
  simp only [hostWorker, List.getLast?_eq_getElem?, List.length_modify, List.getElem?_modify]
  rcases workers[workers.length - 1]? with _ | w
  · rfl
  · rcases hl : w.loop with _ | l
    · split <;> simp [hl]
    · by_cases hn : workers.length - 1 = n
      · simp [hn, hl]
      · simp [hn, Ne.symm hn, hl]

lemma host_setLoop (hf : s.Flagged) (hw : s.workers[n]? = some w) (hl : w.loop = some l)
    (l' : Loop) : (s.setLoop n w (some l')).host =
      s.host.setLoop ⟨n, hostLoop l, w.inFlight⟩ (hostLoop l') := by
  simp only [host, Pool.setLoop, Host.setLoop, List.length_set, hostWorker_set hf hw hl,
    Option.map_some]

lemma host_loop (hf : s.Flagged) (hw : s.workers[n]? = some w) (hl : w.loop = some l)
    {b : HostAct} (hb : s.host.step b = s.host.worker.bind fun w => s.host.loopStep w b)
    (h : s.host.loopStep ⟨n, hostLoop l, w.inFlight⟩ b = some s'.host) :
    s'.host = s.host ∨ ∃ b, s.host.step b = some s'.host := by
  refine Or.inr ⟨b, ?_⟩
  have hworker : s.host.worker = some ⟨n, hostLoop l, w.inFlight⟩ := hostWorker_running hf hw hl
  rw [hb, hworker, Option.bind_some]
  exact h

lemma host_setPhase_same (hg : s.claims[c]? = some g) {phase : GoPhase}
    (hp : hostPhase phase = hostPhase g.phase) : (s.setPhase c g phase).host = s.host := by
  have hclaims : (s.setPhase c g phase).claims.map hostClaim = s.claims.map hostClaim :=
    map_set_eq _ hg (by simp [hostClaim, hp])
  simp only [host]
  rw [hclaims]
  rfl

lemma host_advance (hg : s.claims[c]? = some g) {b : HostAct}
    (hb : s.host.step b = s.host.claims[c]?.bind fun claim => s.host.claimStep c claim b)
    (h : s.host.claimStep c (hostClaim g) b = some s'.host) :
    s'.host = s.host ∨ ∃ b, s.host.step b = some s'.host := by
  refine Or.inr ⟨b, ?_⟩
  have hclaim : s.host.claims[c]? = some (hostClaim g) := by
    simp only [host, List.getElem?_map, hg, Option.map_some]
  rw [hb, hclaim, Option.bind_some]
  exact h

/-- **Every step is one of `Host`, or none that it sees.** -/
theorem host_step (h : s.Inv) (hstep : s.step a = some s') :
    s'.host = s.host ∨ ∃ b, s.host.step b = some s'.host := by
  have hf := h.flagged
  cases does hstep with
  | refused | full | busy => exact Or.inl rfl
  | startWorker hmu hrun =>
    refine Or.inr ⟨.startWorker, ?_⟩
    simp only [Host.step, Host.startWorker, host, hmu, hostWorker_idle hf hrun, Option.isSome_none,
      Bool.false_eq_true, if_false]
    simp [hostWorker, hostLoop]
  | @dispatch n w hw hl hfree =>
    refine host_loop hf hw hl (b := .dispatch) rfl ?_
    have hfree : ¬ (s.host.maxConcurrency : ℤ) - w.inFlight ≤ 0 := not_le.mpr hfree
    rw [host_setLoop hf hw hl]
    simp only [Host.loopStep, hostLoop, if_true]
    rw [if_neg hfree]
    rfl
  | @claimed n available w runs hw hl hlen =>
    refine host_loop hf hw hl (b := .claimed runs.length) rfl ?_
    have hloop := host_setLoop hf hw hl (.starting (List.range' s.returned.length runs.length))
    simp only [hostLoop, List.length_range'] at hloop
    simp only [Host.loopStep, hostLoop]
    rw [if_pos hlen]
    exact congrArg some hloop.symm
  | startClaim hw hl =>
    refine host_loop hf hw hl (b := .startClaim) rfl ?_
    simp only [Host.loopStep, hostLoop, List.length_cons, host, hostWorker_set hf hw hl,
      Option.map_some, List.length_set, List.map_append]
    rfl
  | dispatched hw hl =>
    refine host_loop hf hw hl (b := .dispatched) rfl ?_
    rw [host_setLoop hf hw hl]
    rfl
  | cancel hw hl =>
    refine host_loop hf hw hl (b := .cancel) rfl ?_
    rw [host_setLoop hf hw hl]
    rfl
  | @drained n w timeout hw hl hall =>
    refine host_loop hf hw hl (b := .drained timeout) rfl ?_
    rw [host_setLoop hf hw hl]
    simp only [Host.loopStep, hostLoop, decide_true, Bool.true_and]
    refine if_pos (Bool.or_eq_true_iff.mpr (hall.imp id fun hgone => ?_))
    simp only [host, List.all_map, List.all_eq_true, Function.comp_apply] at hgone ⊢
    intro g hg
    rcases Bool.or_eq_true_iff.mp (hgone g hg) with hne | hphase
    · exact Bool.or_eq_true_iff.mpr (Or.inl hne)
    · have hphase : g.phase = .gone := by simpa using hphase
      simp [hostClaim, hphase, hostPhase]
  | endWorker hw hl hmu =>
    refine host_loop hf hw hl (b := .endWorker) rfl ?_
    simp only [Host.loopStep, hostLoop, host, Pool.setLoop, hostWorker_set hf hw hl,
      Option.map_none, List.length_set, hmu, and_self, if_true]
  | execute hg hp | executed hg hp | gone hg hp =>
    exact Or.inl (host_setPhase_same hg (by rw [hp]; rfl))
  | @release c g hg hp =>
    refine host_advance hg (b := .release c) rfl ?_
    simp only [Host.claimStep, hostClaim, hp, hostPhase, if_true, Host.setClaim, host,
      Pool.setPhase, List.map_set]
  | @leave c g hg hp =>
    refine host_advance hg (b := .leave c) rfl ?_
    simp only [Host.claimStep, hostClaim, hp, hostPhase, if_true, Host.setClaim, host,
      Pool.setPhase, List.map_set, hostWorker_modify, List.length_modify]
  | @done c g wg hg hp hwg =>
    refine host_advance hg (b := .done c) rfl ?_
    simp only [Host.claimStep, hostClaim, hp, hostPhase, if_true, Host.setClaim, host,
      Pool.setPhase, List.map_set, hwg, Option.map_some]
  | waitForIdle hmu hrun =>
    refine Or.inr ⟨.waitForIdle, ?_⟩
    simp only [Host.step, Host.waitForIdle, host, hmu, hostWorker_idle hf hrun, Option.isSome_none,
      Bool.false_eq_true, if_false]
  | @enterWait m wg hwg =>
    have hwg : s.host.activeClaims.enter m = some wg := hwg
    refine Or.inr ⟨.enterWait m, ?_⟩
    simp only [Host.step, hwg, Option.map_some]
    rfl
  | @leaveWait m wg hwg =>
    have hwg : s.host.activeClaims.leave m = some wg := hwg
    refine Or.inr ⟨.leaveWait m, ?_⟩
    simp only [Host.step, hwg, Option.map_some]
    rfl
  | @returnIdle m expired hmu hdone => exact Or.inr ⟨.returnIdle m expired, if_pos ⟨hmu, hdone⟩⟩

/-- What the engine reaches is, without its runs, what `Host` reaches. -/
theorem host_reaches {maxConcurrency : ℕ} (h : Reaches step (init maxConcurrency) s) :
    Reaches Host.step (Host.init maxConcurrency) s.host := by
  have hinit : (init maxConcurrency).Inv ∧
      Reaches Host.step (Host.init maxConcurrency) (init maxConcurrency).host :=
    ⟨Inv.init _, .refl⟩
  refine (h.invariant (P := fun s => s.Inv ∧
    Reaches Host.step (Host.init maxConcurrency) s.host) hinit ?_).2
  rintro z a z' ⟨hz, ih⟩ - hstep
  refine ⟨hz.step hstep, ?_⟩
  rcases host_step hz hstep with hsame | ⟨b, hb⟩
  · rw [hsame]; exact ih
  · exact ih.snoc trivial hb

end Simulation

end DurablePg.Pool

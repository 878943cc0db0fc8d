import DurablePg.Defences
import DurablePg.Lib.Interleave
import DurablePg.Lifecycle

/-!
Workflows as those who write them may picture them: programs that do not crash.

In the picture there are no workers, claims, leases and retries. A run executes the operations of
its definition one after another, each of them once and on the results of those before it, until
all have been executed, or until it fails or is canceled. The system refines the picture: what a
run has recorded moves as the picture does, whatever becomes of the workers.
-/

namespace DurablePg

open DurablePg.Lib Relation

variable {J Ω : Type}

/-! ### The picture -/

inductive Verdict
  | running
  | completed
  | failed
  | cancelled
  deriving DecidableEq

/-- The execution of a run. -/
structure Exec (J : Type) where
  workflowName : String
  version : ℤ
  input : J
  /-- The results of the operations executed so far; a sleep has none. -/
  results : List (Option J)
  verdict : Verdict
  output : Option J

section Semantics

variable [Jsonb J]

/-- The context shows the run, its input and its results so far, in some spelling. -/
structure StepContext.Shows (sc : StepContext) (wf : CompiledWorkflow Ω) (run : RunId)
    (x : Exec J) (name : String) : Prop where
  runID : sc.runID = run
  workflow : sc.workflow = x.workflowName
  input : sc.input = text x.input
  stepKey : sc.stepKey = toString x.results.length ++ ":" ++ name
  names : sc.names = wf.names
  values : sc.values.map (Option.map parse) = x.results.map (Option.map some)

/-- The results that the next operation can have, with the events that have been emitted. -/
inductive Exec.Yields (wf : CompiledWorkflow Ω) (events : Set (String × J)) (run : RunId)
    (x : Exec J) : Operation Ω → Option J → Prop
  | step {name : String} {fn : StepFunc Ω} {timeout : Time} {ω : Ω} {sc : StepContext}
    {raw : Bytes} {v : J} (hsc : sc.Shows wf run x name)
    (hraw : executeStepSafely name fn ω sc = .ok raw) (hv : parse raw = some v) :
    Yields wf events run x (.step name fn timeout) (some v)
  | sleep {d : Time} : Yields wf events run x (.sleep d) none
  | received {name : String} {key : EventKey Ω} {timeout : Time} {ω : Ω} {sc : StepContext}
    {k : String} {payload : J} (hsc : sc.Shows wf run x name) (hk : key.resolve ω sc = .ok k)
    (he : (k, payload) ∈ events) :
    Yields wf events run x (.waitEvent name key timeout) (some (received payload))
  | timedOut {name : String} {key : EventKey Ω} {timeout : Time} :
    Yields wf events run x (.waitEvent name key timeout) (some timedOut)

/-- What can happen to a run. -/
inductive Exec.Step (reg : Registry Ω) (events : Set (String × J)) (run : RunId) :
    Option (Exec J) → Option (Exec J) → Prop
  | enqueue {name : String} {version : ℤ} {input : J} {wf : CompiledWorkflow Ω}
    (hwf : reg.workflow name version = some wf) :
    Step reg events run none (some ⟨name, version, input, [], .running, none⟩)
  | perform {x : Exec J} {wf : CompiledWorkflow Ω} {op : Operation Ω} {v : Option J}
    (hrun : x.verdict = .running) (hwf : reg.workflow x.workflowName x.version = some wf)
    (hop : wf.ops[x.results.length]? = some op) (hv : x.Yields wf events run op v) :
    Step reg events run (some x) (some { x with results := x.results ++ [v] })
  | finish {x : Exec J} {wf : CompiledWorkflow Ω} (hrun : x.verdict = .running)
    (hwf : reg.workflow x.workflowName x.version = some wf)
    (hall : x.results.length = wf.ops.length) :
    Step reg events run (some x) (some { x with
      verdict := .completed
      output := wf.outputIndex.bind fun i => x.results.getD i none })
  | fail {x : Exec J} (hrun : x.verdict = .running) :
    Step reg events run (some x) (some { x with verdict := .failed })
  | cancel {x : Exec J} (hrun : x.verdict = .running) :
    Step reg events run (some x) (some { x with verdict := .cancelled })

structure Ideal (J : Type) where
  execs : RunId → Option (Exec J)
  /-- The keys and payloads of the events emitted so far. -/
  events : Set (String × J)

inductive Ideal.Step (reg : Registry Ω) (s : Ideal J) : Ideal J → Prop
  | emit (key : String) (payload : J) :
    Step reg s { s with events := insert (key, payload) s.events }
  | exec {execs : RunId → Option (Exec J)}
    (h : Interleaved (Exec.Step reg s.events) s.execs execs) : Step reg s { s with execs := execs }

end Semantics

/-! ### What is recorded -/

def RunState.verdict : RunState → Verdict
  | .ready | .leased | .waitingEvent => .running
  | .completed => .completed
  | .failed => .failed
  | .cancelled => .cancelled

/-- The operations that have been executed: those before the cursor, and the wait at the cursor
once it has its outcome. -/
def Row.executed (r : Row J) (cps : ℕ → Option J) : ℕ :=
  r.stepIndex + if (cps r.stepIndex).isSome then 1 else 0

/-- The execution up to an operation. -/
def Row.execTo (r : Row J) (cps : ℕ → Option J) (k : ℕ) : Exec J where
  workflowName := r.workflowName
  version := r.workflowVersion
  input := r.inputJson
  results := (List.range k).map cps
  verdict := .running
  output := none

def View.exec (v : View J) : Option (Exec J) :=
  v.row.map fun r => { r.execTo v.cps (r.executed v.cps) with
    verdict := r.state.verdict
    output := r.outputJson }

def Past.events (past : Past J Ω) : Set (String × J) :=
  {p | ∃ e ∈ past.emitted, (e.eventKey, e.payload) = p}

def System.ideal (y : System J Ω) : Ideal J :=
  ⟨fun run => (y.srv.view run).exec, y.past.events⟩

/-! ### One run -/

section OneRun

variable [Jsonb J] {past : Past J Ω} {wf : CompiledWorkflow Ω} {r r' : Row J}
  {cps cps' : ℕ → Option J} {reg : Registry Ω} {v v' : View J}

lemma StepContext.Sees.shows {sc : StepContext} {i : ℕ} {name : String}
    (h : sc.Sees wf r cps i name) : sc.Shows wf r.id (r.execTo cps i) name where
  runID := h.runID
  workflow := h.workflow
  input := h.input
  stepKey := by simpa [Row.execTo] using h.stepKey
  names := h.names
  values := by
    refine List.ext_getElem (by simp [Row.execTo, h.length]) fun j hj _ => ?_
    have hj : j < sc.values.length := by simpa using hj
    have hvalue := h.values j (h.length ▸ hj)
    rw [List.getD_eq_getElem?_getD, List.getElem?_eq_getElem hj, Option.getD_some] at hvalue
    simpa [Row.execTo] using hvalue

lemma Past.Result.yields {k : ℕ} {op : Operation Ω} {x : J} (h : past.Result wf r cps k op x) :
    (r.execTo cps k).Yields wf past.events r.id op (some x) := by
  cases h with
  | step h =>
    obtain ⟨c, -, -, -, hsees, raw, hraw, hx⟩ := h
    exact .step hsees.shows hraw hx
  | timedOut => exact .timedOut
  | @received _ _ _ k e h he hk =>
    obtain ⟨c, -, -, -, hsees, hresolve⟩ := h
    exact .received hsees.shows hresolve ⟨e, he, by rw [hk]⟩

omit [Jsonb J] in
lemma Row.executed_mono (hle : r.stepIndex ≤ r'.stepIndex)
    (hcps : ∀ i x, cps i = some x → cps' i = some x) : r.executed cps ≤ r'.executed cps' := by
  unfold Row.executed
  rcases hle.lt_or_eq with hlt | heq
  · split <;> omega
  · rcases hx : cps r.stepIndex with _ | x
    · simp [heq]
    · simp [← heq, hcps _ _ hx]

omit [Jsonb J] in
lemma exec_of_running (hok : r.Ok) (h : r.state.terminal = false) :
    View.exec ⟨some r, cps⟩ = some (r.execTo cps (r.executed cps)) := by
  have hout : r.outputJson = none := hok.not_completed (by rintro hs; rw [hs] at h; cases h)
  have hverdict : r.state.verdict = .running := by
    cases hs : r.state with
    | ready | leased | waitingEvent => rfl
    | completed | failed | cancelled => rw [hs] at h; cases h
  simp [View.exec, hverdict, hout, Row.execTo]

namespace Course

lemma executed_le (h : Course past wf cps r) : r.executed cps ≤ wf.ops.length := by
  unfold Row.executed
  split
  · rename_i hsome
    obtain ⟨⟨op, hop, -⟩, -⟩ := h.cursor.here hsome
    exact (List.getElem?_eq_some_iff.mp hop).1
  · exact h.cursor.le

lemma yields (h : Course past wf cps r) {k : ℕ} (hk : k < r.executed cps) {op : Operation Ω}
    (hop : wf.ops[k]? = some op) : (r.execTo cps k).Yields wf past.events r.id op (cps k) := by
  rcases hx : cps k with _ | x
  · have hlt : k < r.stepIndex := by
      unfold Row.executed at hk
      split at hk
      · rename_i hsome
        have hne : k ≠ r.stepIndex := by rintro rfl; rw [hx] at hsome; cases hsome
        omega
      · omega
    cases op with
    | sleep d => exact .sleep
    | step | waitEvent =>
      have hsome := h.cursor.below k _ hlt hop rfl
      rw [hx] at hsome; cases hsome
  · obtain ⟨op', hop', hres⟩ := h.origin k x hx
    cases hop.symm.trans hop'
    exact hres.yields

/-- Whatever has been executed can be executed in the picture, one operation after another. -/
lemma performs (h : Course past wf cps r)
    (hwf : reg.workflow r.workflowName r.workflowVersion = some wf) {k k' : ℕ} (hle : k ≤ k')
    (hk' : k' ≤ r.executed cps) : ReflTransGen (Exec.Step reg past.events r.id)
      (some (r.execTo cps k)) (some (r.execTo cps k')) := by
  induction k', hle using Nat.le_induction with
  | base => exact .refl
  | succ k' hle ih =>
    have hlt : k' < wf.ops.length := hk'.trans h.executed_le
    have hstep : Exec.Step reg past.events r.id (some (r.execTo cps k')) _ :=
      .perform rfl hwf (by simp [Row.execTo, List.getElem?_eq_getElem hlt])
        (h.yields hk' (List.getElem?_eq_getElem hlt))
    have hnext : r.execTo cps (k' + 1) =
        { r.execTo cps k' with results := (r.execTo cps k').results ++ [cps k'] } := by
      simp [Row.execTo, List.range_succ]
    rw [hnext]
    exact (ih (by omega)).tail hstep

lemma ends (h : Course past wf cps r) (hok : r.Ok)
    (hwf : reg.workflow r.workflowName r.workflowVersion = some wf) :
    ReflTransGen (Exec.Step reg past.events r.id) (some (r.execTo cps (r.executed cps)))
      (View.exec ⟨some r, cps⟩) := by
  have hout : r.state ≠ .completed → r.outputJson = none := hok.not_completed
  cases hstate : r.state with
  | ready | leased | waitingEvent => rw [exec_of_running hok (by rw [hstate]; rfl)]
  | failed =>
    have heq : View.exec ⟨some r, cps⟩ =
        some { r.execTo cps (r.executed cps) with verdict := .failed } := by
      simp [View.exec, hstate, RunState.verdict, hout, Row.execTo]
    rw [heq]
    exact .single (.fail rfl)
  | cancelled =>
    have heq : View.exec ⟨some r, cps⟩ =
        some { r.execTo cps (r.executed cps) with verdict := .cancelled } := by
      simp [View.exec, hstate, RunState.verdict, hout, Row.execTo]
    rw [heq]
    exact .single (.cancel rfl)
  | completed =>
    have hlen : r.executed cps = wf.ops.length := by
      have hindex := h.cursor.completed hstate
      have hle := h.executed_le
      unfold Row.executed at hle ⊢
      omega
    have heq : View.exec ⟨some r, cps⟩ = some { r.execTo cps (r.executed cps) with
        verdict := .completed
        output := wf.outputIndex.bind fun i =>
          (r.execTo cps (r.executed cps)).results.getD i none } := by
      have hget : ∀ i, (r.execTo cps (r.executed cps)).results.getD i none = cps i := by
        intro i
        rcases Nat.lt_or_ge i (r.executed cps) with hi | hi
        · simp [Row.execTo, hi]
        · simp [Row.execTo, hi, h.cursor.beyond (hlen ▸ hi)]
      simp only [View.exec, Option.map_some, hstate, RunState.verdict, hget, h.output hstate]
    rw [heq]
    exact .single (.finish rfl hwf (by simp [Row.execTo, hlen]))

lemma execTo_later (h : Course past wf cps r) (h' : Course past wf cps' r') (hk : r.Keeps r')
    (hcps : ∀ i x, cps i = some x → cps' i = some x) :
    r'.execTo cps' (r.executed cps) = r.execTo cps (r.executed cps) := by
  have hsame : ∀ j < r.executed cps, cps' j = cps j := by
    intro j hj
    rcases hx : cps j with _ | x
    · -- only a sleep has no result
      obtain ⟨op, hop⟩ : ∃ op, wf.ops[j]? = some op :=
        ⟨_, List.getElem?_eq_getElem (hj.trans_le h.executed_le)⟩
      have hyields := h.yields hj hop
      rw [hx] at hyields
      generalize hv : (none : Option J) = v at hyields
      cases hyields with
      | sleep => exact h'.cursor.sleep j _ hop rfl
      | _ => cases hv
    · exact hcps j x hx
  have hresults : (List.range (r.executed cps)).map cps' = (List.range (r.executed cps)).map cps :=
    List.map_congr_left fun j hj => hsame j (List.mem_range.mp hj)
  simp only [Row.execTo, hresults, hk.workflowName, hk.workflowVersion, hk.inputJson]

end Course

end OneRun

/-! ### The system -/

namespace Ideal

variable [Jsonb J] {reg : Registry Ω}

lemma reaches_events (execs : RunId → Option (Exec J)) (events : Set (String × J))
    (evs : List (Event J)) : ReflTransGen (Step reg) ⟨execs, events⟩
      ⟨execs, events ∪ {p | ∃ e ∈ evs, (e.eventKey, e.payload) = p}⟩ := by
  induction evs generalizing events with
  | nil => simp; exact .refl
  | cons e evs ih =>
    have hset : events ∪ {p | ∃ e' ∈ e :: evs, (e'.eventKey, e'.payload) = p} =
        insert (e.eventKey, e.payload) events ∪
          {p | ∃ e' ∈ evs, (e'.eventKey, e'.payload) = p} := by
      ext p
      simp only [List.mem_cons, Set.mem_union, Set.mem_ofPred_eq, Set.mem_insert_iff]
      grind
    rw [hset]
    exact .head (.emit e.eventKey e.payload) (ih _)

lemma reaches_execs {events : Set (String × J)} {execs execs' : RunId → Option (Exec J)}
    (h : ReflTransGen (Interleaved (Exec.Step reg events)) execs execs') :
    ReflTransGen (Step reg) ⟨execs, events⟩ ⟨execs', events⟩ :=
  h.lift (Ideal.mk · events) fun _ _ hstep => .exec hstep

end Ideal

namespace System

variable [Jsonb J] {reg : Registry Ω} {y y' : System J Ω}

lemma Reachable.exec_later (hy : y.Reachable reg) (h : Reaches (step reg) y y') (run : RunId) :
    ReflTransGen (Exec.Step reg y'.past.events run) (y.srv.view run).exec
      (y'.srv.view run).exec := by
  have hinv' := (hy.later h).inv
  rcases hr' : y'.srv.db.run run with _ | r'
  · have hnone : y.srv.db.run run = none := by
      by_contra hne
      obtain ⟨r, hr⟩ := Option.ne_none_iff_exists'.mp hne
      obtain ⟨r₁, hr₁, -⟩ := hy.progress h hr
      rw [hr'] at hr₁; cases hr₁
    have heq : (y'.srv.view run).exec = (y.srv.view run).exec := by
      simp [Server.view, View.exec, hr', hnone]
    rw [heq]
  obtain ⟨wf, hwf, hl'⟩ := hinv'.lawful run r' hr'
  have hc' := hl'.course (Registry.valid hwf) hr'
  have hid' := Db.run_id hr'
  have hends := hc'.ends (Server.row_ok hinv'.srv.inv hr') hwf
  rw [hid'] at hends
  have hview' : (y'.srv.view run).exec =
      View.exec ⟨some r', y'.srv.db.checkpoint run⟩ := by rw [Server.view, hr']
  rw [hview']
  rcases hr : y.srv.db.run run with _ | r
  · -- the run has been enqueued
    have hnone : (y.srv.view run).exec = none := by simp [Server.view, View.exec, hr]
    have hperf := hc'.performs hwf (Nat.zero_le _) le_rfl
    rw [hid'] at hperf
    rw [hnone]
    exact .head (.enqueue hwf) (hperf.trans hends)
  · have hview : (y.srv.view run).exec =
      View.exec ⟨some r, y.srv.db.checkpoint run⟩ := by rw [Server.view, hr]
    rw [hview]
    by_cases hterm : r.state.terminal = true
    · -- a run that has ended stays as it is
      obtain ⟨r₁, hr₁, hfrozen, hcps⟩ := hy.inv.srv.frozen (srv_reaches h) hr hterm
      cases hr'.symm.trans hr₁
      rw [hfrozen, funext hcps]
      exact .refl
    · obtain ⟨r₁, hr₁, hk, hle, hcps⟩ := hy.progress h hr
      cases hr'.symm.trans hr₁
      obtain ⟨l, hlog⟩ := log_grows h run
      have hc : Course y'.past wf (y.srv.db.checkpoint run) r := by
        rw [← hlog] at hl'
        obtain ⟨v, hv⟩ := hl'.of_append
        obtain rfl := (hy.inv.srv.inv.life run).unique hv.life
        exact hv.course (Registry.valid hwf) hr
      have hperf := hc'.performs hwf (Row.executed_mono hle hcps) le_rfl
      rw [hid', hc.execTo_later hc' hk hcps] at hperf
      rw [exec_of_running (Server.row_ok hy.inv.srv.inv hr) (by simpa using hterm)]
      exact hperf.trans hends

lemma emitted_later (h : Reaches (step reg) y y') :
    y.srv.emittedEvents ⊆ y'.srv.emittedEvents :=
  (srv_reaches h).invariant (P := fun s => y.srv.emittedEvents ⊆ s.emittedEvents)
    (List.Subset.refl _) fun _ _ _ ih _ hs => List.Subset.trans ih (Server.emitted_grows hs)

lemma events_later (h : Reaches (step reg) y y') :
    y.past.events ∪ y'.past.events = y'.past.events := by
  refine Set.union_eq_self_of_subset_left ?_
  rintro p ⟨e, he, hp⟩
  exact ⟨e, emitted_later h he, hp⟩

lemma Reachable.exec_absent (hy : y.Reachable reg) (h : Reaches (step reg) y y') {run : RunId}
    (hrun : run ∉ y'.srv.db.runs.rows.map Row.id) :
    (y'.srv.view run).exec = (y.srv.view run).exec := by
  have hnone : y'.srv.db.run run = none := by
    by_contra hne
    obtain ⟨r, hr⟩ := Option.ne_none_iff_exists'.mp hne
    exact hrun (List.mem_map.mpr ⟨r, Db.mem_of_run hr, Db.run_id hr⟩)
  have hexec : (y'.srv.view run).exec = none := by simp [Server.view, View.exec, hnone]
  -- no step of the picture takes a run out of it
  rcases ReflTransGen.cases_tail (hy.exec_later h run) with heq | ⟨x, -, hlast⟩
  · exact heq
  · rw [hexec] at hlast; cases hlast

/-- Between two states of the system, the picture moves: the events come first, and then the runs
one after another. -/
lemma Reachable.ideal_later (hy : y.Reachable reg) (h : Reaches (step reg) y y') :
    ReflTransGen (Ideal.Step reg) y.ideal y'.ideal := by
  have hemit : ReflTransGen (Ideal.Step reg) y.ideal ⟨y.ideal.execs, y'.past.events⟩ := by
    rw [← events_later h]
    exact Ideal.reaches_events y.ideal.execs y.past.events y'.srv.emittedEvents
  exact hemit.trans (Ideal.reaches_execs (Interleaved.all (y'.srv.db.runs.rows.map Row.id)
    (fun run hrun => hy.exec_absent h hrun) fun run => hy.exec_later h run))

omit [Jsonb J] in
lemma ideal_init (clock : Time) : (init clock : System J Ω).ideal = ⟨fun _ => none, ∅⟩ := by
  have hevents : (init clock : System J Ω).past.events = ∅ := by
    refine Set.eq_empty_iff_forall_notMem.mpr ?_
    rintro p ⟨e, he, -⟩
    cases he
  rw [ideal, hevents]
  rfl

/-- **Durable execution**: whatever workers, crashes, lost answers, leases, retries, waits and
timeouts there are, and in whichever order, the runs move as programs do that execute the
operations of their definitions one after another, each once and on the results of those before
it, until they complete, fail or are canceled. -/
theorem refines_ideal (hy : y.Reachable reg) :
    ReflTransGen (Ideal.Step reg) ⟨fun _ => none, ∅⟩ y.ideal ∧
      ∀ y', Reaches (step reg) y y' → ReflTransGen (Ideal.Step reg) y.ideal y'.ideal := by
  refine ⟨?_, fun y' h => hy.ideal_later h⟩
  obtain ⟨clock, hclock⟩ := hy
  rw [← ideal_init clock]
  exact Reachable.ideal_later ⟨clock, .refl⟩ hclock

/-- The step is executed and the sleep is over; then the wait receives its event, and the run
completes. -/
theorem refines_ideal_threeClaims : ∃ (y y' : System Doc Unit) (x x' : Exec Doc),
    y.ideal.execs "r" = some x ∧ x.results = [some (.bool true), none] ∧ x.verdict = .running ∧
    y'.ideal.execs "r" = some x' ∧
    x'.results = [some (.bool true), none, some (.received (.bool false))] ∧
    x'.verdict = .completed ∧
    ReflTransGen (Ideal.Step threeOps) y.ideal y'.ideal := by
  have hrun : ((threeClaims.take 14).foldlM (step threeOps) (init 0)).bind (fun y =>
      ((threeClaims.drop 14).foldlM (step threeOps) y).bind fun y' =>
      (y.ideal.execs "r").bind fun x => (y'.ideal.execs "r").map fun x' =>
        (x.results, x.verdict, x'.results, x'.verdict)) =
      some ([some (.bool true), none], .running,
        [some (.bool true), none, some (.received (.bool false))], .completed) := by
    decide +kernel
  obtain ⟨y, hy, hrun⟩ := Option.bind_eq_some_iff.mp hrun
  obtain ⟨y', hy', hrun⟩ := Option.bind_eq_some_iff.mp hrun
  obtain ⟨x, hx, hrun⟩ := Option.bind_eq_some_iff.mp hrun
  obtain ⟨x', hx', hrun⟩ := Option.map_eq_some_iff.mp hrun
  simp only [Prod.mk.injEq] at hrun
  obtain ⟨hresults, hverdict, hresults', hverdict'⟩ := hrun
  exact ⟨y, y', x, x', hx, hresults, hverdict, hx', hresults', hverdict',
    (refines_ideal (.of_run 0 _ hy)).2 y' (.of_run _ hy')⟩

end System

end DurablePg

import DurablePg.Builder
import DurablePg.Life

/-!
Lawful lives: what a run of a definition goes through when its writes come from workers that
drive that definition.

A write is lawful when it fits the run it finds: it acts at an operation not before the
cursor, with every earlier result checkpointed, and what it stores came out of a call on
those results or out of an event. The cursor invariant and the origin of every checkpoint
follow from this alone, by induction on the life of the run.
-/

namespace DurablePg

variable {J Ω : Type}

/-! ### Calls and results -/

/-- One invocation of a step function or of an event-key resolver. -/
structure Call (Ω : Type) where
  run : RunId
  token : Token
  index : ℕ
  ω : Ω
  ctx : StepContext

/-- What happened beside the run's own row: the calls made and the events emitted. -/
structure Past (J Ω : Type) where
  calls : List (Call Ω)
  emitted : List (Event J)

def Past.Within (past past' : Past J Ω) : Prop :=
  past.calls ⊆ past'.calls ∧ past.emitted ⊆ past'.emitted

variable [Jsonb J]

/-- The context is the one the operation at `i` is called on: the run, its input, and the
checkpoints below `i` up to the normalisation of their texts. -/
structure StepContext.Sees (sc : StepContext) (wf : CompiledWorkflow Ω) (r : Row J)
    (cps : ℕ → Option J) (i : ℕ) (name : String) : Prop where
  runID : sc.runID = r.id
  workflow : sc.workflow = r.workflowName
  input : sc.input = text r.inputJson
  stepKey : sc.stepKey = toString i ++ ":" ++ name
  names : sc.names = wf.names
  length : sc.values.length = i
  values : ∀ j < i, (sc.values.getD j none).map parse = (cps j).map some

/-- A call of the operation at `i` was made, and `P` holds of it. -/
def Past.Called (past : Past J Ω) (wf : CompiledWorkflow Ω) (r : Row J) (cps : ℕ → Option J)
    (i : ℕ) (name : String) (P : Ω → StepContext → Prop) : Prop :=
  ∃ k ∈ past.calls, k.run = r.id ∧ k.index = i ∧ k.ctx.Sees wf r cps i name ∧ P k.ω k.ctx

/-- What the operation at `i` can leave in its checkpoint, from the checkpoints below `i`. -/
inductive Past.Result (past : Past J Ω) (wf : CompiledWorkflow Ω) (r : Row J)
    (cps : ℕ → Option J) (i : ℕ) : Operation Ω → J → Prop
  | step {name : String} {fn : StepFunc Ω} {timeout : Time} {v : J}
    (h : past.Called wf r cps i name fun ω sc =>
      ∃ raw, executeStepSafely name fn ω sc = .ok raw ∧ parse raw = some v) :
    Result past wf r cps i (.step name fn timeout) v
  | timedOut {name : String} {key : EventKey Ω} {timeout : Time} :
    Result past wf r cps i (.waitEvent name key timeout) timedOut
  | received {name : String} {key : EventKey Ω} {timeout : Time} {k : String} {e : Event J}
    (h : past.Called wf r cps i name fun ω sc => key.resolve ω sc = .ok k)
    (he : e ∈ past.emitted) (hk : e.eventKey = k) :
    Result past wf r cps i (.waitEvent name key timeout) (received e.payload)

section Congruence

variable {past past' : Past J Ω} {wf : CompiledWorkflow Ω} {r r' : Row J}
  {cps cps' : ℕ → Option J} {i : ℕ}

lemma StepContext.Sees.congr {sc : StepContext} {name : String} (h : sc.Sees wf r cps i name)
    (hr : r.Keeps r') (hcps : ∀ j < i, cps' j = cps j) : sc.Sees wf r' cps' i name where
  runID := by rw [hr.id]; exact h.runID
  workflow := by rw [hr.workflowName]; exact h.workflow
  input := by rw [hr.inputJson]; exact h.input
  stepKey := h.stepKey
  names := h.names
  length := h.length
  values j hj := by rw [hcps j hj]; exact h.values j hj

lemma Past.Called.congr {name : String} {P : Ω → StepContext → Prop}
    (h : past.Called wf r cps i name P) (hpast : past.Within past') (hr : r.Keeps r')
    (hcps : ∀ j < i, cps' j = cps j) : past'.Called wf r' cps' i name P := by
  obtain ⟨k, hk, hrun, hi, hsees, hP⟩ := h
  exact ⟨k, hpast.1 hk, by rw [hr.id]; exact hrun, hi, hsees.congr hr hcps, hP⟩

lemma Past.Result.congr {op : Operation Ω} {v : J} (h : past.Result wf r cps i op v)
    (hpast : past.Within past') (hr : r.Keeps r') (hcps : ∀ j < i, cps' j = cps j) :
    past'.Result wf r' cps' i op v := by
  cases h with
  | step h => exact .step (h.congr hpast hr hcps)
  | timedOut => exact .timedOut
  | received h he hk => exact .received (h.congr hpast hr hcps) (hpast.2 he) hk

omit [Jsonb J] in
lemma Past.Within.refl (past : Past J Ω) : past.Within past := ⟨fun _ => id, fun _ => id⟩

omit [Jsonb J] in
lemma Past.within_calls (past : Past J Ω) (ks : List (Call Ω)) :
    past.Within { past with calls := past.calls ++ ks } :=
  ⟨List.subset_append_left _ _, fun _ => id⟩

lemma Past.Result.not_sleep {op : Operation Ω} {v : J} (h : past.Result wf r cps i op v) :
    op.isSleep = false := by
  cases h <;> rfl

end Congruence

/-! ### Lawful changes -/

/-- The operation at `i` is next: not before the cursor, with every result below it stored. -/
structure Next (wf : CompiledWorkflow Ω) (r : Row J) (cps : ℕ → Option J) (i : ℕ) : Prop where
  cursor : r.stepIndex ≤ i
  le : i ≤ wf.ops.length
  below : ∀ j op, j < i → wf.ops[j]? = some op → op.isSleep = false → (cps j).isSome

/-- The write is what driving the definition makes of the run it finds. -/
def Write.Fits (past : Past J Ω) (wf : CompiledWorkflow Ω) (r : Row J) (cps : ℕ → Option J) :
    Write J → Prop
  | .commitStep i v complete => Next wf r cps i ∧ cps i = none ∧
      (complete = true ↔ i + 1 = wf.ops.length) ∧
      ∃ op, wf.ops[i]? = some op ∧ past.Result wf r cps i op v
  | .completeRun steps output => steps = wf.ops.length ∧ Next wf r cps steps ∧
      output = wf.outputIndex.bind cps
  | .parkSleep next ms => ∃ i d, next = i + 1 ∧ wf.ops[i]? = some (.sleep d) ∧
      ms = milliseconds d ∧ Next wf r cps i
  | .parkWait i k ms => Next wf r cps i ∧ cps i = none ∧ ∃ name key timeout,
      wf.ops[i]? = some (.waitEvent name key timeout) ∧ ms = milliseconds timeout ∧
      past.Called wf r cps i name fun ω sc => key.resolve ω sc = .ok k
  | .failOrRetry attempt _ _ => attempt = r.attempt + 1

/-- The change is lawful for a run of the definition. -/
def Change.Fits (past : Past J Ω) (wf : CompiledWorkflow Ω) (v : View J) : Change J → Prop
  | .inserted n _ => n.workflowName = wf.name ∧ n.workflowVersion = wf.version
  | .wrote _ w _ _ => ∀ r, v.row = some r → w.Fits past wf r v.cps
  | .delivered key payload _ => ∃ e ∈ past.emitted, e.eventKey = key ∧ e.payload = payload
  | _ => True

/-- The life of a run of the definition, all of whose changes are lawful. -/
inductive Lawful (past : Past J Ω) (wf : CompiledWorkflow Ω) : List (Change J) → View J → Prop
  | nil : Lawful past wf [] View.empty
  | snoc {l : List (Change J)} {v v' : View J} {ch : Change J} (hl : Lawful past wf l v)
    (hm : v.Moves ch v') (hfits : ch.Fits past wf v) : Lawful past wf (l ++ [ch]) v'

section Mono

variable {past past' : Past J Ω} {wf : CompiledWorkflow Ω}

lemma Write.Fits.mono {r : Row J} {cps : ℕ → Option J} {w : Write J}
    (h : w.Fits past wf r cps) (hpast : past.Within past') : w.Fits past' wf r cps := by
  cases w with
  | commitStep i v complete =>
    obtain ⟨hn, hi, hc, op, hop, hres⟩ := h
    exact ⟨hn, hi, hc, op, hop, hres.congr hpast (.refl r) fun _ _ => rfl⟩
  | parkWait i k ms =>
    obtain ⟨hn, hi, name, key, timeout, hop, hms, hcall⟩ := h
    exact ⟨hn, hi, name, key, timeout, hop, hms, hcall.congr hpast (.refl r) fun _ _ => rfl⟩
  | completeRun | parkSleep | failOrRetry => exact h

lemma Change.Fits.mono {v : View J} {ch : Change J} (h : ch.Fits past wf v)
    (hpast : past.Within past') : ch.Fits past' wf v := by
  cases ch with
  | wrote token w now clock => exact fun r hr => (h r hr).mono hpast
  | delivered key payload now =>
    obtain ⟨e, he, hk⟩ := h
    exact ⟨e, hpast.2 he, hk⟩
  | _ => exact h

lemma Lawful.mono {l : List (Change J)} {v : View J} (h : Lawful past wf l v)
    (hpast : past.Within past') : Lawful past' wf l v := by
  induction h with
  | nil => exact .nil
  | snoc hl hm hfits ih => exact .snoc ih hm (hfits.mono hpast)

lemma Lawful.life {l : List (Change J)} {v : View J} (h : Lawful past wf l v) : Life l v := by
  induction h with
  | nil => exact .nil
  | snoc hl hm hfits ih => exact .snoc ih hm

lemma Lawful.snoc_inv {l : List (Change J)} {ch : Change J} {v' : View J}
    (h : Lawful past wf (l ++ [ch]) v') :
    ∃ v, Lawful past wf l v ∧ v.Moves ch v' ∧ ch.Fits past wf v := by
  generalize hl : l ++ [ch] = l' at h
  cases h with
  | nil => simp at hl
  | snoc hl' hm hfits =>
    obtain ⟨rfl, rfl⟩ := List.append_singleton_inj.mp hl
    exact ⟨_, hl', hm, hfits⟩

end Mono

section Induction

variable {past : Past J Ω} {wf : CompiledWorkflow Ω} {l : List (Change J)} {v : View J}

lemma Lawful.of_row_none (h : Lawful past wf l v) (hrow : v.row = none) :
    l = [] ∧ v = View.empty := by
  cases h with
  | nil => exact ⟨rfl, rfl⟩
  | snoc _ hm =>
    obtain ⟨r, hr⟩ := hm.row_some
    rw [hrow] at hr; cases hr

/-- Induction along the life of a run that exists: from its insertion, change by change. -/
theorem Lawful.row_induction {motive : List (Change J) → View J → Row J → Prop}
    (inserted : ∀ (n : NewRun J) now, n.storable = true → n.workflowName = wf.name →
      n.workflowVersion = wf.version →
      motive [.inserted n now] ⟨some (n.row now), fun _ => none⟩ (n.row now))
    (updated : ∀ l v ch v' r r', Lawful past wf l v → v.Moves ch v' → ch.Fits past wf v →
      v.row = some r → v'.row = some r' → motive l v r → motive (l ++ [ch]) v' r')
    (h : Lawful past wf l v) {r : Row J} (hr : v.row = some r) : motive l v r := by
  induction h generalizing r with
  | nil => cases hr
  | @snoc l v v' ch hl hm hfits ih =>
    rcases hv : v.row with _ | r₀
    · obtain ⟨rfl, rfl⟩ := hl.of_row_none hv
      cases hm with
      | inserted n now hrow hn => cases hr; exact inserted n now hn hfits.1 hfits.2
      | updated _ _ _ hrow => cases hrow
    · exact updated l v ch v' r₀ r hl hm hfits hv hr (ih hv)

end Induction

end DurablePg

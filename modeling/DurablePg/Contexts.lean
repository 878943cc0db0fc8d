import DurablePg.Replay

/-!
What step functions and event-key resolvers get to see.

A context is put together from values computed in the same claim, values the server returned
and values loaded by the claim. Every one of them is a checkpoint up to its text, and
checkpoints stay, so any two calls of an operation see the same.
-/

namespace DurablePg

open DurablePg.Lib

variable {J Ω : Type} [Jsonb J]

/-! ### Lookups -/

namespace StepContext.Sees

variable {sc sc' : StepContext} {wf : CompiledWorkflow Ω} {r : Row J} {cps : ℕ → Option J} {i : ℕ}
  {name : String}

lemma raw (h : sc.Sees wf r cps i name) (x : String) :
    (sc.raw x).map parse = ((wf.names x).bind fun j => if j < i then cps j else none).map some := by
  unfold StepContext.raw
  rw [h.names]
  rcases wf.names x with _ | j
  · rfl
  · simp only [Option.bind_some]
    split
    · rename_i hj; exact h.values j hj
    · rename_i hj
      have hlen := h.length
      simp [List.getElem?_eq_none (show sc.values.length ≤ j by omega)]

lemma raw_below (h : sc.Sees wf r cps i name) (hv : wf.Valid) {j : ℕ} {op : Operation Ω}
    {x : String} (hop : wf.ops[j]? = some op) (hx : op.name? = some x) (hj : j < i)
    (hsome : (cps j).isSome) :
    ∃ raw v, sc.raw x = some raw ∧ cps j = some v ∧ parse raw = some v := by
  obtain ⟨v, hv'⟩ := Option.isSome_iff_exists.mp hsome
  have hname : wf.names x = some j := (hv.names x j).mpr (by rw [hop]; exact hx)
  have hraw := h.raw x
  rw [hname, Option.bind_some, if_pos hj, hv', Option.map_some] at hraw
  obtain ⟨raw, hraw, hparse⟩ := Option.map_eq_some_iff.mp hraw
  exact ⟨raw, v, hraw, hv', hparse⟩

lemma raw_above (h : sc.Sees wf r cps i name) (hv : wf.Valid) {j : ℕ} {op : Operation Ω}
    {x : String} (hop : wf.ops[j]? = some op) (hx : op.name? = some x) (hj : i ≤ j) :
    sc.raw x = none := by
  have hname : wf.names x = some j := (hv.names x j).mpr (by rw [hop]; exact hx)
  have hraw := h.raw x
  rw [hname, Option.bind_some, if_neg (by omega)] at hraw
  exact Option.map_eq_none_iff.mp hraw

end StepContext.Sees

omit [Jsonb J] in
lemma StepContext.value_congr {δ α : Type} {sc sc' : StepContext} (f : Bytes → α)
    (dec : Bytes → Except String δ) (hdec : ∀ b b', f b = f b' → dec b = dec b') (x : String)
    (h : (sc.raw x).map f = (sc'.raw x).map f) : sc.value dec x = sc'.value dec x := by
  unfold StepContext.value
  rcases hb : sc.raw x with _ | b
  · rw [hb, Option.map_none, eq_comm, Option.map_eq_none_iff] at h
    rw [h]
  · rw [hb, Option.map_some, eq_comm, Option.map_eq_some_iff] at h
    obtain ⟨b', hb', hf⟩ := h
    rw [hb']
    simp only [hdec b' b hf]

/-! ### Values a claim keeps -/

namespace Proc

variable {p p' : Proc J Ω}

lemma turn_calls {t : Turn Ω} {ks : List (Call Ω)} (h : p.turn t = some (p', ks)) {k : Call Ω}
    (hk : k ∈ ks) : p.value p.index = none ∧ ∃ ω op name, k = p.call ω name ∧
      p.wf.ops[p.index]? = some op ∧ op.name? = some name := by
  cases turns h with
  | failed hpc hnone hop hname =>
    rw [List.mem_singleton.mp hk]
    exact ⟨hnone, _, _, _, rfl, hop, hname⟩
  | returned hpc hnone hop | resolved hpc hnone hop =>
    rw [List.mem_singleton.mp hk]
    exact ⟨hnone, _, _, _, rfl, hop, rfl⟩
  | _ => cases hk

end Proc

/-! ### Calls -/

namespace System

variable {reg : Registry Ω} {y y' : System J Ω}

lemma procs_step {m : Move J Ω} (h : y.step reg m = some y') {token : Token} {p' : Proc J Ω}
    (hp' : y'.procs token = some p') :
    (∃ p, y.procs token = some p ∧ p.Onward p') ∨
    ∃ e q gen now id r, y.srv.step (.claim q gen now) = some y'.srv ∧
      id ∈ y.srv.db.picked (q.claimable now) Row.nextRunAt y.srv.locked q.limit ∧
      y.srv.db.run id = some r ∧
      Proc.start e reg (r.claimedRun token (y.srv.db.checkpoint id)) = some p' := by
  -- one claim goes on and the others stay as they are
  have hset : ∀ {token₀ : Token} {p p₁ : Proc J Ω} {srv : Server J} {calls : List (Call Ω)},
      (⟨srv, Function.update y.procs token₀ (some p₁), calls⟩ : System J Ω).procs token = some p' →
      y.procs token₀ = some p → p.Onward p₁ → ∃ p, y.procs token = some p ∧ p.Onward p' := by
    intro token₀ p p₁ srv calls hp' hp hon
    rcases Inv.procs_setProc hp' with ⟨rfl, rfl⟩ | ⟨-, hq⟩
    · exact ⟨p, hp, hon⟩
    · exact ⟨p', hq, .refl p'⟩
  cases does h with
  | outside | insert | lock => exact Or.inl ⟨p', hp', .refl p'⟩
  | @claim e q gen now s lost hs =>
    by_cases hl : lost = true
    · simp only [hl, if_true] at hp'
      exact Or.inl ⟨p', hp', .refl p'⟩
    · simp only [hl, Bool.false_eq_true, if_false] at hp'
      rcases Option.or_eq_some_iff.mp hp' with hp' | ⟨-, hp'⟩
      · obtain ⟨id, hid, hp'⟩ := Option.bind_eq_some_iff.mp hp'
        obtain ⟨r, hr, hp'⟩ := Option.bind_eq_some_iff.mp hp'
        exact Or.inr ⟨e, q, gen, now, id, r, hs, List.mem_of_find?_eq_some hid, hr, hp'⟩
      · exact Or.inl ⟨p', hp', .refl p'⟩
  | turn hp ht => exact Or.inl (hset hp' hp (Proc.turn_onward ht))
  | @exec token₀ p w now s lost hp hw hs =>
    have hsent : p.Onward { p with sent := none } := .of_values rfl rfl rfl rfl
    refine Or.inl (hset hp' hp ?_)
    cases lost
    · exact hsent.trans (Proc.answered_onward ..)
    · exact hsent
  | execFailure hp | begin hp | look hp => exact Or.inl (hset hp' hp (.of_values rfl rfl rfl rfl))
  | statement hp _ _ hp'' =>
    subst hp''
    refine Or.inl (hset hp' hp ?_)
    split <;> exact .of_values rfl rfl rfl rfl
  | @commit token₀ p s lost hp hs =>
    refine Or.inl (hset hp' hp ?_)
    cases lost
    · exact Proc.answered_onward ..
    · exact .refl p

lemma calls_step {m : Move J Ω} (h : y.step reg m = some y') {k : Call Ω} (hk : k ∈ y'.calls) :
    k ∈ y.calls ∨ y'.srv = y.srv ∧ ∃ token p ω op name, y.procs token = some p ∧ k = p.call ω name ∧
      p.value p.index = none ∧ p.wf.ops[p.index]? = some op ∧ op.name? = some name := by
  cases does h with
  | turn hp ht =>
    rcases List.mem_append.mp hk with hk | hk
    · exact Or.inl hk
    · obtain ⟨hnone, ω, op, name, hcall, hop, hname⟩ := Proc.turn_calls ht hk
      exact Or.inr ⟨rfl, _, _, ω, op, name, hp, hcall, hnone, hop, hname⟩
  | _ => exact Or.inl hk

/-- What a call that was made saw: the run and the checkpoints below its operation, all of
them. -/
structure Made (reg : Registry Ω) (y : System J Ω) (k : Call Ω) (r : Row J)
    (wf : CompiledWorkflow Ω) (name : String) : Prop where
  row : y.srv.db.run k.run = some r
  registered : reg.workflow r.workflowName r.workflowVersion = some wf
  op : ∃ op, wf.ops[k.index]? = some op ∧ op.name? = some name
  sees : k.ctx.Sees wf r (y.srv.db.checkpoint k.run) k.index name
  below : ∀ j op, j < k.index → wf.ops[j]? = some op → op.isSleep = false →
    (y.srv.db.checkpoint k.run j).isSome

lemma Made.later {k : Call Ω} {r : Row J} {wf : CompiledWorkflow Ω} {name : String}
    (h : Made reg y k r wf name) (hy : y.Reachable reg) (h' : Reaches (step reg) y y') :
    ∃ r', Made reg y' k r' wf name := by
  obtain ⟨r', hr', hk, -, hcps⟩ := hy.progress h' h.row
  have hwf' : reg.workflow r'.workflowName r'.workflowVersion = some wf := by
    rw [hk.workflowName, hk.workflowVersion]; exact h.registered
  obtain ⟨wf', hwf'', hc'⟩ := (hy.later h').inv.course hr'
  rw [hwf'] at hwf''; cases hwf''
  obtain ⟨wf₀, hwf₀, hc⟩ := hy.inv.course h.row
  rw [h.registered] at hwf₀; cases hwf₀
  have hsome : ∀ j, (y.srv.db.checkpoint k.run j).isSome →
      y'.srv.db.checkpoint k.run j = y.srv.db.checkpoint k.run j := by
    intro j hj
    obtain ⟨x, hx⟩ := Option.isSome_iff_exists.mp hj
    rw [hx]; exact hcps j x hx
  refine ⟨r', hr', hwf', h.op, h.sees.congr hk fun j hj => ?_, fun j op hj hop hs => ?_⟩
  · -- a sleep has no checkpoint now or later, and any other operation below has its own
    obtain ⟨op₀, hop₀, -⟩ := h.op
    have hlt : j < wf.ops.length := hj.trans (List.getElem?_eq_some_iff.mp hop₀).1
    have hop := List.getElem?_eq_getElem hlt
    cases hs : (wf.ops[j]).isSleep with
    | true => rw [hc'.cursor.sleep j _ hop hs, hc.cursor.sleep j _ hop hs]
    | false => exact hsome j (h.below j _ hj hop hs)
  · rw [hsome j (h.below j op hj hop hs)]; exact h.below j op hj hop hs

/-- Every call there is saw the checkpoints of its run, and was made under a claim. -/
theorem Reachable.made (hy : y.Reachable reg) {k : Call Ω} (hk : k ∈ y.calls) :
    k.token ∈ y.srv.tokens ∧ ∃ r wf name, Made reg y k r wf name := by
  obtain ⟨clock, h⟩ := hy
  refine (h.invariant (P := fun z => z.Reachable reg ∧ ∀ k ∈ z.calls, k.token ∈ z.srv.tokens ∧
    ∃ r wf name, Made reg z k r wf name) ⟨⟨clock, .refl⟩, fun k hk => by cases hk⟩ ?_).2 k hk
  rintro z m z' ⟨hz, ih⟩ - hstep
  have hreach : Reaches (step reg) z z' := .single ⟨m, trivial, hstep⟩
  refine ⟨hz.later hreach, fun k hk => ?_⟩
  rcases calls_step hstep hk with hk | ⟨hsrv, token, p, ω, op, name, hp, rfl, -, hop, hname⟩
  · obtain ⟨htok, r, wf, name, hmade⟩ := ih k hk
    obtain ⟨r', hmade'⟩ := hmade.later hz hreach
    exact ⟨tokens_grow hreach htok, r', wf, name, hmade'⟩
  · have hinv := hz.inv
    have hknows := (hinv.proc token p hp).knows
    obtain ⟨r, hr, hid, hname', hver, -⟩ := hknows.row
    have hr : z.srv.db.run p.run.id = some r := hr
    rw [hsrv]
    refine ⟨?_, r, p.wf, name, ?_, ?_, ⟨op, hop, hname⟩, ?_, ?_⟩
    · change p.run.token ∈ z.srv.tokens
      rw [(hinv.token token p hp).1]
      exact hinv.mem_tokens_of_proc hp
    · rw [hsrv]; exact hr
    · rw [hname', hver]; exact hknows.wf
    · rw [hsrv]; exact hknows.sees hr (hinv.claim_course hp hr).cursor name
    · intro j op' hj hop' hs
      obtain ⟨raw, hraw⟩ := Option.isSome_iff_exists.mp (hknows.filled j op' hj hop' hs)
      obtain ⟨x, -, hx⟩ := hknows.agree j raw hraw
      rw [hsrv]
      exact Option.isSome_iff_exists.mpr ⟨x, hx⟩

/-- A claim made once an operation has its checkpoint loads it, and never calls the operation. -/
lemma Reachable.not_called (hy : y.Reachable reg) {run : RunId} {i : ℕ} {x : J}
    (hx : y.srv.db.checkpoint run i = some x) (h : Reaches (step reg) y y') {k : Call Ω}
    (hk : k ∈ y'.calls) (hrun : k.run = run) (hi : k.index = i) : k.token ∈ y.srv.tokens := by
  -- the later claims of the run all hold a value at the index
  let Loaded (z : System J Ω) : Prop := ∀ token p, z.procs token = some p → p.run.id = run →
    token ∉ y.srv.tokens → (p.value i).isSome
  have hinv := h.invariant (P := fun z => (Reaches (step reg) y z ∧ Loaded z) ∧
    ∀ k ∈ z.calls, k.run = run → k.index = i → k.token ∈ y.srv.tokens)
    ⟨⟨.refl, fun token p hp _ hnew => absurd (hy.inv.mem_tokens_of_proc hp) hnew⟩,
      fun k hk _ _ => (hy.made hk).1⟩ ?_
  · exact hinv.2 k hk hrun hi
  rintro z m z' ⟨⟨hz, hloaded⟩, hcalls⟩ - hstep
  have hzr := hy.later hz
  refine ⟨⟨hz.snoc trivial hstep, fun token p' hp' hid hnew => ?_⟩, fun k hk hrun hi => ?_⟩
  · rcases procs_step hstep hp' with ⟨p, hp, hon⟩ | ⟨e, q, gen, now, id, r, -, -, hr, hstart⟩
    · exact hon.value i (hloaded token p hp (by rw [← hon.run]; exact hid) hnew)
    · have hvalue := Proc.start_value hstart i
      obtain ⟨wf, hwf, rfl⟩ := Option.map_eq_some_iff.mp hstart
      have hid : id = run := (Db.run_id hr).symm.trans hid
      subst hid
      -- the checkpoint is still there, and within the definition
      obtain ⟨r₀, hr₀, hcp⟩ : ∃ r₀, y.srv.db.run id = some r₀ ∧
          z.srv.db.checkpoint id i = some x := by
        obtain ⟨r₀, hr₀⟩ := hy.inv.row_of_checkpoint hx
        obtain ⟨-, -, -, -, hcps⟩ := hy.progress hz hr₀
        exact ⟨r₀, hr₀, hcps i x hx⟩
      obtain ⟨wf', hwf', hc⟩ := hzr.inv.course hr
      have hwf : reg.workflow r.workflowName r.workflowVersion = some wf := by
        simp only [Engine.workflow, Option.ite_none_right_eq_some] at hwf
        exact hwf.2
      rw [hwf'] at hwf; cases hwf
      have hlt : i < wf.ops.length := by
        by_contra hge
        rw [hc.cursor.beyond (by omega)] at hcp; cases hcp
      rw [hvalue, if_pos hlt]
      simp [Row.claimedRun, hcp]
  · rcases calls_step hstep hk with hk | ⟨-, token, p, ω, op, name, hp, rfl, hnone, -⟩
    · exact hcalls k hk hrun hi
    · -- the operation called has no value
      have htok := (hzr.inv.token token p hp).1
      change p.run.token ∈ y.srv.tokens
      rw [htok]
      by_contra hnew
      have hsome := hloaded token p hp hrun hnew
      have hi : p.index = i := hi
      rw [← hi, hnone] at hsome; cases hsome

/-- **Replay stability**: any two calls of an operation see the same run, input, keys and
results; the results they see are those of the operations below it; and a claim made once the
operation has a checkpoint does not call it. -/
theorem replay_stable (hy : y.Reachable reg) :
    (∀ k ∈ y.calls, ∀ k' ∈ y.calls, k.run = k'.run → k.index = k'.index →
      k.ctx.runID = k'.ctx.runID ∧ k.ctx.workflow = k'.ctx.workflow ∧
      k.ctx.input = k'.ctx.input ∧ k.ctx.stepKey = k'.ctx.stepKey ∧
      k.ctx.idempotencyKey = k'.ctx.idempotencyKey ∧
      (∀ x, (k.ctx.rawValue x).map (parse : Bytes → Option J) = (k'.ctx.rawValue x).map parse) ∧
      ∀ (δ : Type) (dec : Bytes → Except String δ),
        (∀ b b', (parse b : Option J) = parse b' → dec b = dec b') →
        ∀ x, k.ctx.value dec x = k'.ctx.value dec x) ∧
    (∀ k ∈ y.calls, ∃ r wf, y.srv.db.run k.run = some r ∧
      reg.workflow r.workflowName r.workflowVersion = some wf ∧
      ∀ j op x, wf.ops[j]? = some op → op.name? = some x →
        (j < k.index → ∃ raw v, k.ctx.rawValue x = some raw ∧ parse raw = some v ∧
          y.srv.db.checkpoint k.run j = some v ∧
          ∀ (δ : Type) (dec : Bytes → Except String δ),
            (∀ d, dec raw = .ok d → k.ctx.value dec x = .ok (some d)) ∧
            ∀ e, dec raw = .error e →
              k.ctx.value dec x = .error ("decode step value " ++ x.quote ++ ": " ++ e)) ∧
        (k.index ≤ j → k.ctx.rawValue x = none ∧
          ∀ (δ : Type) (dec : Bytes → Except String δ), k.ctx.value dec x = .ok none)) ∧
    ∀ run i x, y.srv.db.checkpoint run i = some x → ∀ y', Reaches (step reg) y y' →
      ∀ k ∈ y'.calls, k.run = run → k.index = i → k.token ∈ y.srv.tokens := by
  refine ⟨fun k hk k' hk' hrun hi => ?_, fun k hk => ?_,
    fun run i x hx y' h k hk hrun hi => hy.not_called hx h hk hrun hi⟩
  · obtain ⟨-, r, wf, name, hmade⟩ := hy.made hk
    obtain ⟨-, r', wf', name', hmade'⟩ := hy.made hk'
    -- the two calls belong to one row and one operation
    have hr := hmade.row
    rw [hrun, hmade'.row] at hr; cases hr
    have hwf := hmade.registered
    rw [hmade'.registered] at hwf; cases hwf
    obtain ⟨op, hop, hname⟩ := hmade.op
    obtain ⟨op', hop', hname'⟩ := hmade'.op
    rw [hi, hop'] at hop; cases hop
    rw [hname'] at hname; cases hname
    have hsees := hmade.sees
    rw [hrun, hi] at hsees
    have hsees' := hmade'.sees
    have hid := hsees.runID.trans hsees'.runID.symm
    have hkey := hsees.stepKey.trans hsees'.stepKey.symm
    have hraw : ∀ x, (k.ctx.raw x).map (parse : Bytes → Option J) = (k'.ctx.raw x).map parse :=
      fun x => (hsees.raw x).trans (hsees'.raw x).symm
    exact ⟨hid, hsees.workflow.trans hsees'.workflow.symm, hsees.input.trans hsees'.input.symm,
      hkey, by rw [StepContext.idempotencyKey, StepContext.idempotencyKey, hid, hkey], hraw,
      fun δ dec hdec x => StepContext.value_congr parse dec hdec x (hraw x)⟩
  · obtain ⟨-, r, wf, name, hmade⟩ := hy.made hk
    have hv := Registry.valid hmade.registered
    refine ⟨r, wf, hmade.row, hmade.registered, fun j op x hop hx => ⟨fun hj => ?_, fun hj => ?_⟩⟩
    · have hsome := hmade.below j op hj hop (Operation.isSleep_of_name? hx)
      obtain ⟨raw, v, hraw, hcp, hparse⟩ := hmade.sees.raw_below hv hop hx hj hsome
      refine ⟨raw, v, hraw, hparse, hcp, fun δ dec => ⟨fun d hd => ?_, fun e he => ?_⟩⟩
      · simp only [StepContext.value, hraw, hd]
      · simp only [StepContext.value, hraw, he]
    · have hraw := hmade.sees.raw_above hv hop hx hj
      exact ⟨hraw, fun δ dec => by simp only [StepContext.value, hraw]⟩

/-- Two steps. -/
def twoSteps : Registry Unit := .single "w" 1
  [.step "a" (some fun _ _ => .returns (.ok (utf8 "true"))) [],
    .step "b" (some fun _ _ => .returns (.ok (utf8 "false"))) []]

/-- The worker crashes in the second step, and another one calls it again. -/
def secondCall : List (Move Doc Unit) :=
  [.enqueue worker "w" (utf8 "null") [] "r" 0,
    .claim worker 1 (fun _ => "c") 0 false, .turn "c" (.invoke () []), .exec "c" 0 false,
    .turn "c" (.invoke () []), .turn "c" .stop, .outside (.tick 60000000000),
    .outside (.recoverLeases 60000000000), .outside (.tick 90000000000),
    .claim worker 1 (fun _ => "d") 90000000000 false, .turn "d" (.invoke () [])]

theorem replay_stable_secondCall : ∃ y k k',
    secondCall.foldlM (step twoSteps) (init 0) = some y ∧ k ∈ y.calls ∧ k' ∈ y.calls ∧
    k.token = "c" ∧ k'.token = "d" ∧ k.index = 1 ∧ k'.index = 1 ∧
    k.ctx.stepKey = k'.ctx.stepKey ∧
    (k.ctx.rawValue "a").map (parse : Bytes → Option Doc) = (k'.ctx.rawValue "a").map parse ∧
    (∃ raw v, k'.ctx.rawValue "a" = some raw ∧ (parse raw : Option Doc) = some v ∧
      k'.ctx.value (fun b => .ok (parse b : Option Doc)) "a" = .ok (some (some v))) ∧
    k'.ctx.value (fun b => .ok (parse b : Option Doc)) "b" = .ok none := by
  have hrun : (secondCall.foldlM (step twoSteps) (init 0)).map (fun y =>
      (y.calls.map fun k => (k.run, k.token, k.index),
        (y.srv.db.run "r").map fun r => (r.workflowName, r.workflowVersion))) =
      some ([("r", "c", 0), ("r", "c", 1), ("r", "d", 1)], some ("w", 1)) := by decide +kernel
  obtain ⟨y, hy, hrun⟩ := Option.map_eq_some_iff.mp hrun
  obtain ⟨hcalls, hrow⟩ := Prod.mk.inj hrun
  obtain ⟨k, hk, hkey⟩ := List.mem_map.mp (hcalls ▸ List.mem_cons_of_mem _ List.mem_cons_self)
  obtain ⟨k', hk', hkey'⟩ := List.mem_map.mp
    (hcalls ▸ List.mem_cons_of_mem _ (List.mem_cons_of_mem _ List.mem_cons_self))
  simp only [Prod.mk.injEq] at hkey hkey'
  obtain ⟨hr, ht, hi⟩ := hkey
  obtain ⟨hr', ht', hi'⟩ := hkey'
  obtain ⟨hsame, hlookup, -⟩ := replay_stable (.of_run 0 _ hy)
  obtain ⟨-, -, -, hstep, -, hraw, -⟩ := hsame k hk k' hk' (hr.trans hr'.symm) (hi.trans hi'.symm)
  -- the two operations of the definition, by their names
  obtain ⟨r, wf, hrow', hwf, hlookup⟩ := hlookup k' hk'
  rw [hr'] at hrow'
  rw [hrow', Option.map_some, Option.some.injEq, Prod.mk.injEq] at hrow
  have hnames : (twoSteps.workflow "w" 1).map (fun wf => wf.ops.map Operation.name?) =
      some [some "a", some "b"] := by decide
  rw [hrow.1, hrow.2] at hwf
  rw [hwf, Option.map_some, Option.some.injEq] at hnames
  have hop : ∀ (j : ℕ) (x : String), [some "a", some "b"][j]? = some (some x) →
      ∃ op : Operation Unit, wf.ops[j]? = some op ∧ op.name? = some x := by
    intro j x hx
    rw [← hnames, List.getElem?_map] at hx
    exact Option.map_eq_some_iff.mp hx
  obtain ⟨opA, hopA, hnameA⟩ := hop 0 "a" rfl
  obtain ⟨opB, hopB, hnameB⟩ := hop 1 "b" rfl
  obtain ⟨raw, v, hrawA, hparse, -, hvalue⟩ := (hlookup 0 opA "a" hopA hnameA).1 (by omega)
  exact ⟨y, k, k', hy, hk, hk', ht, ht', hi, hi', hstep, hraw "a",
    ⟨raw, v, hrawA, hparse, (hvalue _ _).1 _ (by rw [hparse])⟩,
    ((hlookup 1 opB "b" hopB hnameB).2 (by omega)).2 _ _⟩

end System

end DurablePg

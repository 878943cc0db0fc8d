import DurablePg.DriveInv

/-!
The invariant of a claim in progress is kept: by what others do to its run, by the turns of
its worker, and by the answers the worker gets.
-/

namespace DurablePg

open DurablePg.Lib

variable {J Ω : Type} [Jsonb J]

namespace Proc

variable {p p' : Proc J Ω} {reg : Registry Ω} {past past' : Past J Ω} {v v' : View J}
  {tx tx' : Option (Tx J)} {r : Row J}

/-! ### What others do -/

omit [Jsonb J] in
lemma Called.mono {name : String} {P : Ω → StepContext → Prop} (h : p.Called past name P)
    (hpast : past.Within past') : p.Called past' name P := by
  obtain ⟨ω, hmem, hP⟩ := h
  exact ⟨ω, hpast.1 hmem, hP⟩

omit [Jsonb J] in
lemma Resolved.mono {k : String} {timeout : Time} (h : p.Resolved past k timeout)
    (hpast : past.Within past') : p.Resolved past' k timeout := by
  obtain ⟨hnone, name, key, hop, hcall⟩ := h
  exact ⟨hnone, name, key, hop, hcall.mono hpast⟩

lemma Sends.mono {w : Write J} (h : p.Sends past w) (hpast : past.Within past') :
    p.Sends past' w := by
  cases w with
  | commitStep i x complete =>
    obtain ⟨hi, hc, hnone, hraw, name, fn, timeout, hop, hcall⟩ := h
    exact ⟨hi, hc, hnone, hraw, name, fn, timeout, hop, hcall.mono hpast⟩
  | completeRun | parkSleep | parkWait | failOrRetry => exact h

lemma Found.mono {key : String} {found : Option J} (h : p.Found past key found)
    (hpast : past.Within past') : p.Found past' key found := by
  refine ⟨h.1, fun payload hp => ?_⟩
  obtain ⟨e, he, hk⟩ := h.2 payload hp
  exact ⟨e, hpast.2 he, hk⟩

lemma Waits.mono {t : Tx J} (h : p.Waits past t) (hpast : past.Within past') :
    p.Waits past' t := by
  obtain ⟨timeout, hres, hjob, hphase⟩ := h
  refine ⟨timeout, hres.mono hpast, hjob, ?_⟩
  split at hphase
  · exact hphase
  · exact hphase
  · exact hphase.mono hpast
  · obtain ⟨found, hfound, hw⟩ := hphase
    exact ⟨found, hfound.mono hpast, hw⟩
  · exact hphase

lemma Asks.mono (h : p.Asks past tx) (hpast : past.Within past') (htx : tx' = tx ∨ tx' = none) :
    p.Asks past' tx' where
  idle := h.idle
  key k hk := (h.key k hk).imp fun _ hres => hres.mono hpast
  sent w hw := (h.sent w hw).mono hpast
  failure := h.failure
  tx t ht := by
    rcases htx with rfl | rfl
    · obtain ⟨h₁, h₂, h₃, h₄, h₅⟩ := h.tx t ht
      exact ⟨h₁, h₂, h₃, h₄, h₅.mono hpast⟩
    · cases ht

omit [Jsonb J] in
lemma Driving.mono (h : p.Driving tx') (htx : tx' = tx ∨ tx' = none) : p.Driving tx := by
  rcases htx with rfl | rfl
  · exact h
  · rcases h with h | h | h | h
    · exact Or.inl h
    · exact Or.inr (Or.inl h)
    · exact Or.inr (Or.inr (Or.inl h))
    · cases h

lemma Knows.moves (h : p.Knows reg v) {ch : Change J} (hm : v.Moves ch v') : p.Knows reg v' where
  wf := h.wf
  row := by
    obtain ⟨r, hr, hid, hname, hver, hinput⟩ := h.row
    obtain ⟨r', hr'⟩ := hm.row_some
    have hk := hm.keeps hr hr'
    exact ⟨r', hr', hk.id.trans hid, hk.workflowName.trans hname, hk.workflowVersion.trans hver,
      by rw [hk.inputJson]; exact hinput⟩
  length := h.length
  le := h.le
  agree i raw hraw := by
    obtain ⟨x, hx, hcps⟩ := h.agree i raw hraw
    exact ⟨x, hx, hm.cps_some hcps⟩
  filled := h.filled

lemma Inv.mono (h : p.Inv reg past v tx) (hpast : past.Within past')
    (htx : tx' = tx ∨ tx' = none) : p.Inv reg past' v tx' := by
  refine ⟨h.knows, h.asks.mono hpast htx, fun r hr hlive => ?_⟩
  have hh := h.holds r hr hlive
  exact ⟨hh.attempt, fun hd => hh.cursor (hd.mono htx), fun hd => hh.loaded (hd.mono htx)⟩

/-- **Others**: what others do to the run of a claim keeps its invariant. -/
lemma Inv.foreign (h : p.Inv reg past v tx) (hpast : past.Within past')
    (htx : tx' = tx ∨ tx' = none) (hok : ∀ r, v.row = some r → r.Ok)
    (hm : v' = v ∨ ∃ ch : Change J, v.Moves ch v' ∧ ch.Foreign p.run.token) :
    p.Inv reg past' v' tx' := by
  rcases hm with rfl | ⟨ch, hm, hf⟩
  · exact h.mono hpast htx
  · refine ⟨h.knows.moves hm, h.asks.mono hpast htx, fun r' hr' hlive => ?_⟩
    obtain ⟨r, hr, ht, hattempt, hindex, hcps⟩ := hm.live hok hr' hlive hf
    have hh := h.holds r hr ht
    refine ⟨hattempt.trans hh.attempt, fun hd => ?_, fun hd => ?_⟩
    · rw [hindex]; exact hh.cursor (hd.mono htx)
    · rw [hcps]; exact hh.loaded (hd.mono htx)

/-! ### The worker's turns -/

/-- One turn, by cases: what the worker finds, what it becomes and what it calls. -/
inductive Turns (p : Proc J Ω) : Turn Ω → Proc J Ω → List (Call Ω) → Prop
  | advance {raw : Bytes} (hpc : p.pc = .loop) (hvalue : p.value p.index = some raw) :
    Turns p .advance { p with index := p.index + 1 } []
  /-- The step function fails, its result is refused, or the key cannot be resolved. -/
  | failed {ω : Ω} {refusal cause : Bytes} {op : Operation Ω} {name : String} (hpc : p.pc = .loop)
    (hnone : p.value p.index = none) (hop : p.wf.ops[p.index]? = some op)
    (hname : op.name? = some name) :
    Turns p (.invoke ω refusal) { p with pc := .fail cause } [p.call ω name]
  | returned {ω : Ω} {refusal raw : Bytes} {name : String} {fn : StepFunc Ω} {timeout : Time}
    {x : J} (hpc : p.pc = .loop) (hnone : p.value p.index = none)
    (hop : p.wf.ops[p.index]? = some (.step name fn timeout))
    (hraw : executeStepSafely name fn ω (p.stepContext name) = .ok raw) (hx : parse raw = some x) :
    Turns p (.invoke ω refusal) { p with
      pc := .await (some raw)
      sent := some (.commitStep p.index x p.complete) } [p.call ω name]
  | resolved {ω : Ω} {refusal : Bytes} {name k : String} {key : EventKey Ω} {timeout : Time}
    (hpc : p.pc = .loop) (hnone : p.value p.index = none)
    (hop : p.wf.ops[p.index]? = some (.waitEvent name key timeout))
    (hk : key.resolve ω (p.stepContext name) = .ok k) :
    Turns p (.invoke ω refusal) { p with pc := .begin k } [p.call ω name]
  | sleep {d : Time} (hpc : p.pc = .loop) (hnone : p.value p.index = none)
    (hop : p.wf.ops[p.index]? = some (.sleep d)) :
    Turns p .sleep { p with
      pc := .await none
      sent := some (.parkSleep (p.index + 1) (milliseconds d)) } []
  | complete {refusal : Bytes} {output : Option J} (hpc : p.pc = .loop)
    (hop : p.wf.ops[p.index]? = none)
    (hout : output = (p.wf.outputIndex.bind p.value).bind parse) :
    Turns p (.finish refusal) { p with
      pc := .await none
      sent := some (.completeRun p.wf.ops.length output) } []
  /-- The server would not read the output. -/
  | refused {refusal raw : Bytes} (hpc : p.pc = .loop) (hop : p.wf.ops[p.index]? = none)
    (hout : p.wf.outputIndex.bind p.value = some raw) (hx : (parse raw : Option J) = none) :
    Turns p (.finish refusal) { p with pc := .fail refusal } []
  | error {cause : Bytes}
    (hpc : (∃ raw, p.pc = .await raw) ∨ (∃ k, p.pc = .begin k) ∨ ∃ raw, p.pc = .wait raw) :
    Turns p (.error cause) { p with pc := .fail cause } []
  | failOrRetry {cause : Bytes} (hpc : p.pc = .fail cause) :
    Turns p .failOrRetry { p with pc := .done, failure := some (p.failOrRetry cause) } []
  | stop : Turns p .stop { p with pc := .done } []

lemma invoke_turns {ω : Ω} {refusal : Bytes} {op : Operation Ω} {ks : List (Call Ω)}
    (hpc : p.pc = .loop) (hnone : p.value p.index = none) (hop : p.wf.ops[p.index]? = some op)
    (h : p.invoke ω refusal op = some (p', ks)) : p.Turns (.invoke ω refusal) p' ks := by
  cases op with
  | step name fn timeout =>
    simp only [Proc.invoke] at h
    split at h
    · cases h; exact .failed hpc hnone hop rfl
    · rename_i raw hraw
      split at h
      · cases h; exact .failed hpc hnone hop rfl
      · rename_i x hx
        cases h; exact .returned hpc hnone hop hraw hx
  | waitEvent name key timeout =>
    simp only [Proc.invoke] at h
    split at h
    · cases h; exact .failed hpc hnone hop rfl
    · rename_i k hk
      cases h; exact .resolved hpc hnone hop hk
  | sleep d => cases h

lemma finish_turns (hpc : p.pc = .loop) (hop : p.wf.ops[p.index]? = none) (refusal : Bytes) :
    p.Turns (.finish refusal) (p.finish refusal) [] := by
  unfold Proc.finish
  split
  · rename_i hout
    exact .complete hpc hop (by rw [hout]; rfl)
  · rename_i raw hout
    split
    · rename_i hx
      exact .refused hpc hop hout hx
    · rename_i x hx
      exact .complete hpc hop (by rw [hout]; exact hx.symm)

theorem turns {t : Turn Ω} {ks : List (Call Ω)} (h : p.turn t = some (p', ks)) :
    p.Turns t p' ks := by
  cases t with
  | advance =>
    simp only [Proc.turn] at h
    split at h
    · rename_i raw hpc hvalue
      cases h; exact .advance hpc hvalue
    · cases h
  | invoke ω refusal =>
    obtain ⟨op, hop, h⟩ := Option.bind_eq_some_iff.mp h
    split at h
    · rename_i hpc hnone
      exact invoke_turns hpc hnone hop h
    · cases h
  | sleep =>
    obtain ⟨op, hop, h⟩ := Option.bind_eq_some_iff.mp h
    split at h
    · rename_i d hpc hnone
      cases h; exact .sleep hpc hnone hop
    · cases h
  | finish refusal =>
    simp only [Proc.turn] at h
    split at h
    · rename_i hpc hop
      cases h; exact finish_turns hpc hop refusal
    · cases h
  | error cause =>
    simp only [Proc.turn] at h
    split at h
    · rename_i raw hpc
      cases h; exact .error (Or.inl ⟨raw, hpc⟩)
    · rename_i k hpc
      cases h; exact .error (Or.inr (Or.inl ⟨k, hpc⟩))
    · rename_i raw hpc
      cases h; exact .error (Or.inr (Or.inr ⟨raw, hpc⟩))
    · cases h
  | failOrRetry =>
    simp only [Proc.turn] at h
    split at h
    · rename_i cause hpc
      cases h; exact .failOrRetry hpc
    · cases h
  | stop => cases h; exact .stop

lemma Asks.no_tx (h : p.Asks past tx)
    (hpc : p.pc = .loop ∨ (∃ k, p.pc = .begin k) ∨ ∃ raw, p.pc = .await raw) : tx = none := by
  rcases htx : tx with _ | t
  · rfl
  · obtain ⟨-, hloop, hbegin, hawait, -⟩ := h.tx t htx
    rcases hpc with hpc | ⟨k, hpc⟩ | ⟨raw, hpc⟩
    · exact absurd hpc hloop
    · exact absurd hpc (hbegin k)
    · exact absurd hpc (hawait raw)

/-- A claim whose worker waits for nothing and sends nothing more from the loop. -/
def GivenUp (pc : Pc) : Prop := pc = .done ∨ ∃ cause, pc = .fail cause

lemma Inv.giveUp (h : p.Inv reg past v tx) {pc : Pc} (hpc : GivenUp pc) {w : Option (Write J)}
    (hw : ∀ w', w = some w' → ∃ ms msg, w' = .failOrRetry (p.run.attempt + 1) ms msg) :
    ({ p with pc := pc, failure := w } : Proc J Ω).Inv reg past v tx := by
  have hne : pc ≠ .loop ∧ (∀ k, pc ≠ .begin k) ∧ (∀ raw, pc ≠ .await raw) ∧
      ∀ raw, pc ≠ .wait raw := by
    rcases hpc with rfl | ⟨cause, rfl⟩ <;> simp
  obtain ⟨hloop, hbegin, hawait, hwait⟩ := hne
  refine ⟨⟨h.knows.wf, h.knows.row, h.knows.length, h.knows.le, h.knows.agree, h.knows.filled⟩,
    ⟨?_, ?_, ?_, hw, ?_⟩, ?_⟩
  · rintro (hl | ⟨k, hk⟩ | ⟨raw, hraw⟩)
    · exact absurd hl hloop
    · exact absurd hk (hbegin k)
    · exact absurd hraw (hwait raw)
  · exact fun k hk => absurd hk (hbegin k)
  · intro w' hw'
    have hsends := h.asks.sent w' hw'
    cases w' with
    | commitStep i x complete =>
      obtain ⟨hi, hc, hnone, -, hcall⟩ := hsends
      exact ⟨hi, hc, hnone, fun raw hraw => absurd hraw (hawait raw), hcall⟩
    | completeRun steps output =>
      obtain ⟨hi, hc, hout, -⟩ := hsends
      exact ⟨hi, hc, hout, fun raw hraw => absurd hraw (hawait raw)⟩
    | parkSleep next ms =>
      obtain ⟨hi, hd, -⟩ := hsends
      exact ⟨hi, hd, fun raw hraw => absurd hraw (hawait raw)⟩
    | parkWait | failOrRetry => exact hsends.elim
  · intro t ht
    obtain ⟨hsent, -, -, -, timeout, hres, hjob, hphase⟩ := h.asks.tx t ht
    have hfound : ∀ {found}, p.Found past t.key found →
        ({ p with pc := pc, failure := w } : Proc J Ω).Found past t.key found :=
      fun hf => ⟨fun raw hraw => absurd hraw (hwait raw), hf.2⟩
    refine ⟨hsent, hloop, hbegin, hawait, timeout, hres, hjob, ?_⟩
    split at hphase
    · exact fun raw hraw => absurd hraw (hwait raw)
    · exact fun raw hraw => absurd hraw (hwait raw)
    · exact hfound hphase
    · obtain ⟨found, hf, hw⟩ := hphase
      exact ⟨found, hfound hf, hw⟩
    · exact hphase
  · intro r hr hlive
    have hh := h.holds r hr hlive
    have hd : ({ p with pc := pc, failure := w } : Proc J Ω).Driving tx → p.Driving tx := by
      rintro (hl | ⟨k, hk⟩ | hsent)
      · exact absurd hl hloop
      · exact absurd hk (hbegin k)
      · exact Or.inr (Or.inr hsent)
    exact ⟨hh.attempt, fun hd' => hh.cursor (hd hd'), fun hd' => hh.loaded (hd hd')⟩

lemma Inv.loop (h : p.Inv reg past v tx) (hpc : p.pc = .loop) : p.sent = none ∧ tx = none :=
  ⟨h.asks.idle (Or.inl hpc), h.asks.no_tx (Or.inl hpc)⟩

lemma Inv.leave (h : p.Inv reg past v tx) (hpc : p.pc = .loop) {pc : Pc} {sent : Option (Write J)}
    (hloop : pc ≠ .loop) (hwait : ∀ raw, pc ≠ .wait raw)
    (hidle : (∃ k, pc = .begin k) → sent = none)
    (hkey : ∀ k, pc = .begin k → ∃ timeout, p.Resolved past k timeout)
    (hsends : ∀ w, sent = some w → ({ p with pc := pc, sent := sent } : Proc J Ω).Sends past w) :
    ({ p with pc := pc, sent := sent } : Proc J Ω).Inv reg past v tx := by
  obtain ⟨-, rfl⟩ := h.loop hpc
  refine ⟨⟨h.knows.wf, h.knows.row, h.knows.length, h.knows.le, h.knows.agree, h.knows.filled⟩,
    ⟨?_, hkey, hsends, h.asks.failure, fun t ht => by cases ht⟩, fun r hr hlive => ?_⟩
  · rintro (hl | hk | ⟨raw, hraw⟩)
    · exact absurd hl hloop
    · exact hidle hk
    · exact absurd hraw (hwait raw)
  · have hh := h.holds r hr hlive
    exact ⟨hh.attempt, fun _ => hh.cursor (Or.inl hpc), fun _ => hh.loaded (Or.inl hpc)⟩

lemma Inv.advance (h : p.Inv reg past v tx) (hpc : p.pc = .loop) {raw : Bytes}
    (hv : p.value p.index = some raw) :
    ({ p with index := p.index + 1 } : Proc J Ω).Inv reg past v tx := by
  obtain ⟨hsent, rfl⟩ := h.loop hpc
  have hlt : p.index < p.wf.ops.length := by
    by_contra hge
    have hlen := h.knows.length
    have hnone : p.values[p.index]? = none := List.getElem?_eq_none (by omega)
    simp [value, hnone] at hv
  refine ⟨⟨h.knows.wf, h.knows.row, h.knows.length, hlt, h.knows.agree, ?_⟩, ⟨fun _ => hsent, ?_,
    ?_, h.asks.failure, fun t ht => by cases ht⟩, fun r hr hlive => ?_⟩
  · intro i op hi hop hs
    rcases Nat.lt_succ_iff_lt_or_eq.mp hi with hi | rfl
    · exact h.knows.filled i op hi hop hs
    · change (p.value p.index).isSome
      rw [hv]; rfl
  · intro k hk
    change p.pc = .begin k at hk
    rw [hpc] at hk; cases hk
  · intro w hw
    change p.sent = some w at hw
    rw [hsent] at hw; cases hw
  · have hh := h.holds r hr hlive
    exact ⟨hh.attempt, fun _ => Nat.le_succ_of_le (hh.cursor (Or.inl hpc)),
      fun _ => hh.loaded (Or.inl hpc)⟩

/-- **Turns**: a turn of the worker keeps the invariant of its claim. -/
theorem Inv.turn (h : p.Inv reg past v tx) {t : Turn Ω} {ks : List (Call Ω)}
    (ht : p.turn t = some (p', ks)) : p'.Inv reg { past with calls := past.calls ++ ks } v tx := by
  have h := h.mono (Past.within_calls past ks) (Or.inl rfl)
  have hmem : ∀ {k : Call Ω}, k ∈ ks → k ∈ past.calls ++ ks := fun hk => List.mem_append_right _ hk
  cases turns ht with
  | advance hpc hvalue => exact h.advance hpc hvalue
  | failed => exact h.giveUp (Or.inr ⟨_, rfl⟩) h.asks.failure
  | @returned ω _ raw name fn timeout x hpc hnone hop hraw hx =>
    refine h.leave hpc (by simp) (by simp) (by simp) (by simp) fun w hw => ?_
    cases hw
    refine ⟨rfl, rfl, hnone, fun raw' hraw' => ?_, name, fn, timeout, hop, ω,
      hmem (List.mem_singleton.mpr rfl), raw, hraw, hx⟩
    cases hraw'
    exact ⟨raw, rfl, hx⟩
  | @resolved ω _ name k key timeout hpc hnone hop hk =>
    have hsent := (h.loop hpc).1
    refine h.leave hpc (by simp) (by simp) (fun _ => hsent) (fun k' hk' => ?_) fun w hw => ?_
    · cases hk'
      exact ⟨timeout, hnone, name, key, hop, ω, hmem (List.mem_singleton.mpr rfl), hk⟩
    · rw [hsent] at hw; cases hw
  | @sleep d hpc hnone hop =>
    refine h.leave hpc (by simp) (by simp) (by simp) (by simp) fun w hw => ?_
    cases hw
    exact ⟨rfl, ⟨d, hop, rfl⟩, fun raw hraw => by cases hraw; rfl⟩
  | complete hpc hop hout =>
    have hindex : p.index = p.wf.ops.length := by
      have := List.getElem?_eq_none_iff.mp hop
      have := h.knows.le
      omega
    refine h.leave hpc (by simp) (by simp) (by simp) (by simp) fun w hw => ?_
    cases hw
    exact ⟨rfl, hindex, hout, fun raw hraw => by cases hraw; rfl⟩
  | refused => exact h.giveUp (Or.inr ⟨_, rfl⟩) h.asks.failure
  | error => exact h.giveUp (Or.inr ⟨_, rfl⟩) h.asks.failure
  | failOrRetry => exact h.giveUp (Or.inl rfl) fun w hw => by cases hw; exact ⟨_, _, rfl⟩
  | stop => exact h.giveUp (Or.inl rfl) h.asks.failure

/-! ### Claims go on -/

omit [Jsonb J] in
/-- The claim went on from `p` to `p'`: the index does not go back and passes values only, and
values stay. -/
structure Onward (p p' : Proc J Ω) : Prop where
  run : p'.run = p.run
  wf : p'.wf = p.wf
  length : p'.values.length = p.values.length
  index : p.index ≤ p'.index
  below : ∀ i < p.index, p'.value i = p.value i
  value : ∀ i, (p.value i).isSome → (p'.value i).isSome
  passed : ∀ i, p.index ≤ i → i < p'.index → i < p.values.length → (p'.value i).isSome

omit [Jsonb J] in
lemma Onward.of_values (hrun : p'.run = p.run) (hwf : p'.wf = p.wf) (hindex : p'.index = p.index)
    (hvalues : p'.values = p.values) : p.Onward p' where
  run := hrun
  wf := hwf
  length := congrArg List.length hvalues
  index := hindex.ge
  below i _ := by rw [Proc.value, hvalues]; rfl
  value i := by rw [Proc.value, Proc.value, hvalues]; exact id
  passed i hge hlt := by omega

omit [Jsonb J] in
lemma Onward.refl (p : Proc J Ω) : p.Onward p := .of_values rfl rfl rfl rfl

omit [Jsonb J] in
lemma Onward.trans {p'' : Proc J Ω} (h : p.Onward p') (h' : p'.Onward p'') : p.Onward p'' where
  run := h'.run.trans h.run
  wf := h'.wf.trans h.wf
  length := h'.length.trans h.length
  index := h.index.trans h'.index
  below i hi := (h'.below i (hi.trans_le h.index)).trans (h.below i hi)
  value i hi := h'.value i (h.value i hi)
  passed i hge hlt hlen := by
    rcases Nat.lt_or_ge i p'.index with hlt' | hge'
    · exact h'.value i (h.passed i hge hlt' hlen)
    · exact h'.passed i hge' hlt (h.length ▸ hlen)

lemma stored_onward (p : Proc J Ω) (raw : Bytes) (existing : Option J) :
    p.Onward (p.stored raw existing) := by
  -- a value is put at the index
  have hne : ∀ (b : Bytes) i, i ≠ p.index →
      (p.values.set p.index (some b)).getD i none = p.value i := by
    intro b i hi
    simp [value, List.getElem?_set_ne hi.symm]
  have hsome : ∀ (b : Bytes) i, (p.value i).isSome →
      ((p.values.set p.index (some b)).getD i none).isSome := by
    intro b i h
    rcases eq_or_ne i p.index with rfl | hi
    · have hlt : p.index < p.values.length := by
        by_contra hge
        simp [value, List.getElem?_eq_none (show p.values.length ≤ p.index by omega)] at h
      simp [hlt]
    · rw [hne b i hi]; exact h
  unfold stored
  split
  · exact ⟨rfl, rfl, List.length_set .., le_rfl, fun i hi => hne _ i hi.ne, fun i => hsome _ i,
      fun i hge hlt => absurd hlt (Nat.not_lt.mpr hge)⟩
  · refine ⟨rfl, rfl, List.length_set .., Nat.le_succ _, fun i hi => hne _ i hi.ne,
      fun i => hsome _ i, fun i hge hlt hlen => ?_⟩
    obtain rfl : i = p.index := Nat.le_antisymm (Nat.lt_succ_iff.mp hlt) hge
    simp [value, hlen]

lemma answered_onward (p : Proc J Ω) (owned : Bool) (existing : Option J) :
    p.Onward (p.answered owned existing) := by
  unfold answered
  split
  · split
    · exact stored_onward ..
    · exact .of_values rfl rfl rfl rfl
  · split
    · exact stored_onward ..
    · exact .of_values rfl rfl rfl rfl
  · exact .of_values rfl rfl rfl rfl
  · exact .of_values rfl rfl rfl rfl
  · exact .refl p

lemma turn_onward {t : Turn Ω} {ks : List (Call Ω)} (h : p.turn t = some (p', ks)) :
    p.Onward p' := by
  cases turns h with
  | @advance raw hpc hvalue =>
    refine ⟨rfl, rfl, rfl, Nat.le_succ _, fun _ _ => rfl, fun _ => id, fun i hge hlt _ => ?_⟩
    obtain rfl : i = p.index := Nat.le_antisymm (Nat.lt_succ_iff.mp hlt) hge
    exact Option.isSome_iff_exists.mpr ⟨raw, hvalue⟩
  | _ => exact .of_values rfl rfl rfl rfl

end Proc

end DurablePg

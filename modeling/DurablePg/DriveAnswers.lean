import DurablePg.DriveTurns

/-!
A claim starts, its statements run and are answered, and the transactions of its waits go
through their phases: each keeps the invariant of the claim.
-/

namespace DurablePg

open DurablePg.Lib

variable {J Ω : Type} [Jsonb J]

namespace View.Moves

variable {v v' : View J} {token : Token} {w : Write J} {now clock : Time} {r r' : Row J}

lemma wrote_guard (hm : v.Moves (.wrote token w now clock) v') :
    ∃ r, v.row = some r ∧ (w.update v.cps r.id token now clock).guard r = true := by
  cases hm with
  | updated _ r u hrow hu hg => cases hu; exact ⟨r, hrow, hg⟩

lemma wrote_row (hm : v.Moves (.wrote token w now clock) v') :
    ∃ r, v.row = some r ∧ r.leaseToken = some token := by
  obtain ⟨r, hrow, hg⟩ := hm.wrote_guard
  obtain ⟨-, -, htok, -⟩ := fence_iff.mp (Write.fence_of_guard hg)
  exact ⟨r, hrow, htok⟩

lemma wrote_attempt (hm : v.Moves (.wrote token w now clock) v') (hr : v.row = some r)
    (hr' : v'.row = some r') (ht : r'.leaseToken = some token) : r'.attempt = r.attempt := by
  cases hm with
  | updated _ r₀ u hrow hu hg =>
    rw [hrow] at hr; cases hr; cases hu; cases hr'
    cases w with
    | commitStep | completeRun | parkSleep | parkWait => rfl
    | failOrRetry => cases ht

lemma committed {i : ℕ} {x : J} {complete : Bool}
    (hm : v.Moves (.wrote token (.commitStep i x complete) now clock) v')
    (hr' : v'.row = some r') : v'.cps = record v.cps i x ∧ r'.stepIndex = i + 1 ∧
      (complete = true → r'.leaseToken = none) := by
  cases hm with
  | updated _ r₀ u hrow hu hg =>
    cases hu; cases hr'
    refine ⟨?_, rfl, fun hc => by simp [Write.update, commitStep, hc]⟩
    funext j
    simp only [Update.recordAt, hg, if_true]
    rfl

end View.Moves

namespace Proc

variable {p p' : Proc J Ω} {reg : Registry Ω} {past past' : Past J Ω} {v v' : View J}
  {tx tx' : Option (Tx J)} {r : Row J}

lemma Asks.of_idle (hsent : p.sent = none) (hbegin : ∀ k, p.pc ≠ .begin k)
    (hfailure : ∀ w, p.failure = some w → ∃ ms msg, w = .failOrRetry (p.run.attempt + 1) ms msg) :
    p.Asks past none where
  idle _ := hsent
  key k hk := absurd hk (hbegin k)
  sent w hw := by rw [hsent] at hw; cases hw
  failure := hfailure
  tx t ht := by cases ht

/-! ### The start of a claim -/

omit [Jsonb J] in
lemma start_value {e : Engine} {run : ClaimedRun} (h : start e reg run = some p) (i : ℕ) :
    p.value i = if i < p.wf.ops.length then run.checkpoints i else none := by
  obtain ⟨wf, -, rfl⟩ := Option.map_eq_some_iff.mp h
  by_cases hi : i < wf.ops.length <;> simp [value, hi]

lemma Inv.start {e : Engine} {token : Token} (h : start e reg (r.claimedRun token v.cps) = some p)
    {wf : CompiledWorkflow Ω} (hwf : reg.workflow r.workflowName r.workflowVersion = some wf)
    (hc : Cursor wf r v.cps) {r' : Row J} (hr' : v.row = some r') (hk : r.Keeps r')
    (hindex : r'.stepIndex = r.stepIndex) (hattempt : r'.attempt = r.attempt) :
    p.Inv reg past v none := by
  have hvalue := start_value h
  obtain ⟨wf', hwf', rfl⟩ := Option.map_eq_some_iff.mp h
  have hwf'' : reg.workflow r.workflowName r.workflowVersion = some wf' := by
    simp only [Engine.workflow, Option.ite_none_right_eq_some] at hwf'
    exact hwf'.2
  rw [hwf] at hwf''; cases hwf''
  have hsome : ∀ i x, v.cps i = some x → i < wf.ops.length := by
    intro i x hx
    by_contra hge
    rw [hc.beyond (by omega)] at hx; cases hx
  refine ⟨⟨hwf, ⟨r', hr', hk.id, hk.workflowName, hk.workflowVersion, by rw [hk.inputJson]; rfl⟩,
    by simp, hc.le, ?_, ?_⟩, .of_idle rfl (by simp) (by simp),
    fun r₁ hr₁ _ => ⟨?_, fun _ => ?_, fun _ => ?_⟩⟩
  · intro i raw hraw
    rw [hvalue] at hraw
    split at hraw
    · obtain ⟨x, hx, rfl⟩ := Option.map_eq_some_iff.mp hraw
      exact ⟨x, Jsonb.parse_text x, hx⟩
    · cases hraw
  · intro i op hi hop hs
    obtain ⟨x, hx⟩ := Option.isSome_iff_exists.mp (hc.below i op hi hop hs)
    rw [hvalue, if_pos (hsome i x hx)]
    simp [Row.claimedRun, hx]
  · rw [hr'] at hr₁; cases hr₁; exact hattempt
  · rw [hr'] at hr₁; cases hr₁; exact hindex.le
  · intro i x hx
    rw [hvalue, if_pos (hsome i x hx)]
    simp [Row.claimedRun, hx]

/-! ### Answers -/

lemma Inv.drop (h : p.Inv reg past v tx) (hloop : p.pc ≠ .loop) (hbegin : ∀ k, p.pc ≠ .begin k)
    (hm : v' = v ∨ ∃ w now clock, v.Moves (.wrote p.run.token w now clock) v') :
    ({ p with sent := none } : Proc J Ω).Inv reg past v' none := by
  refine ⟨?_, .of_idle rfl hbegin h.asks.failure,
    fun r' hr' hlive => ⟨?_, fun hd => ?_, fun hd => ?_⟩⟩
  · have hk : p.Knows reg v' := by
      rcases hm with rfl | ⟨w, now, clock, hm⟩
      · exact h.knows
      · exact h.knows.moves hm
    exact ⟨hk.wf, hk.row, hk.length, hk.le, hk.agree, hk.filled⟩
  · rcases hm with rfl | ⟨w, now, clock, hm⟩
    · exact (h.holds r' hr' hlive).attempt
    · obtain ⟨r, hr, ht⟩ := hm.wrote_row
      exact (hm.wrote_attempt hr hr' hlive).trans (h.holds r hr ht).attempt
  all_goals
    -- nothing is on its way any more
    rcases hd with hl | ⟨k, hk⟩ | hs | ht
    · exact absurd hl hloop
    · exact absurd hk (hbegin k)
    · cases hs
    · cases ht

lemma Inv.stored (h : p.Inv reg past v tx) (hd : p.Driving tx) {raw : Bytes} {x : J}
    {now clock : Time} (hx : parse raw = some x) (hnone : p.value p.index = none)
    (hlt : p.index < p.wf.ops.length)
    (hm : v.Moves (.wrote p.run.token (.commitStep p.index x p.complete) now clock) v') :
    (({ p with sent := none } : Proc J Ω).stored raw (v.cps p.index)).Inv reg past v' none := by
  obtain ⟨r, hr, ht⟩ := hm.wrote_row
  obtain ⟨r', hr'⟩ := hm.row_some
  obtain ⟨hcps, hindex, hdone⟩ := hm.committed hr'
  have hcp := h.none_of_value hr ht hd hnone
  have hknows := h.knows.moves hm
  have hlen := h.knows.length
  -- the values afterwards
  let values := p.values.set p.index (some raw)
  have hvalue : ∀ i, values.getD i none = if i = p.index then some raw else p.value i := by
    intro i
    by_cases hi : i = p.index
    · subst hi; simp [values, hlen, hlt]
    · simp [values, value, hi, List.getElem?_set_ne (Ne.symm hi)]
  have hagree : ∀ i b, values.getD i none = some b → ∃ y, parse b = some y ∧ v'.cps i = some y := by
    intro i b hb
    rw [hvalue] at hb
    split at hb
    · rename_i hi
      cases hb
      exact ⟨x, hx, by rw [hcps, hi, record_self hcp]⟩
    · exact hknows.agree i b hb
  have hfilled : ∀ n, n ≤ p.index + 1 → ∀ i op, i < n → p.wf.ops[i]? = some op →
      op.isSleep = false → (values.getD i none).isSome := by
    intro n hn i op hi hop hs
    rw [hvalue]
    split
    · rfl
    · exact h.knows.filled i op (by omega) hop hs
  unfold Proc.stored
  rw [hcp]
  simp only [Option.map_none, Option.getD_none]
  split
  · rename_i hcomplete
    refine ⟨⟨hknows.wf, hknows.row, (List.length_set ..).trans hlen, h.knows.le, hagree,
      hfilled _ (Nat.le_succ _)⟩, .of_idle rfl (by simp) h.asks.failure, fun r₁ hr₁ hlive => ?_⟩
    -- the run has completed
    rw [hr'] at hr₁; cases hr₁
    rw [hdone hcomplete] at hlive; cases hlive
  · refine ⟨⟨hknows.wf, hknows.row, (List.length_set ..).trans hlen, hlt, hagree,
      hfilled _ le_rfl⟩, .of_idle rfl (by simp) h.asks.failure, fun r₁ hr₁ hlive => ?_⟩
    rw [hr'] at hr₁; cases hr₁
    have hh := h.holds r hr ht
    refine ⟨(hm.wrote_attempt hr hr' hlive).trans hh.attempt, fun _ => hindex.le,
      fun _ i y hy => ?_⟩
    change (values.getD i none).isSome
    rw [hvalue]
    split
    · rfl
    · rename_i hi
      rw [hcps, record_ne hi] at hy
      exact hh.loaded hd i y hy

/-- **Statements**: the server runs the statement of `drive`, and the worker may learn of it. -/
theorem Inv.exec (h : p.Inv reg past v tx) {w : Write J} (hw : p.sent = some w) {owned : Bool}
    (hm : if owned then ∃ now clock, v.Moves (.wrote p.run.token w now clock) v' else v' = v)
    (lost : Bool) :
    (if lost then { p with sent := none }
      else ({ p with sent := none } : Proc J Ω).answered owned (v.cps p.index)).Inv
        reg past v' tx := by
  have hloop : p.pc ≠ .loop := by
    intro hpc; rw [h.asks.idle (Or.inl hpc)] at hw; cases hw
  have hbegin : ∀ k, p.pc ≠ .begin k := by
    intro k hpc; rw [h.asks.idle (Or.inr (Or.inl ⟨k, hpc⟩))] at hw; cases hw
  have htx : tx = none := by
    rcases htx : tx with _ | t
    · rfl
    · rw [(h.asks.tx t htx).1] at hw; cases hw
  have hdrop : ({ p with sent := none } : Proc J Ω).Inv reg past v' none := by
    refine h.drop hloop hbegin ?_
    cases owned
    · exact Or.inl hm
    · obtain ⟨now, clock, hm⟩ := hm; exact Or.inr ⟨w, now, clock, hm⟩
  have hdone : ({ p with sent := none, pc := .done } : Proc J Ω).Inv reg past v' none :=
    hdrop.giveUp (Or.inl rfl) hdrop.asks.failure
  have hd : p.Driving tx := Or.inr (Or.inr (Or.inl (by simp [hw])))
  have hsends := h.asks.sent w hw
  rw [htx]
  cases lost
  · simp only [Bool.false_eq_true, if_false, answered]
    split
    · -- the answer to a commit
      rename_i raw hpc
      cases owned
      · exact hdone
      · cases w with
        | commitStep i x complete =>
          obtain ⟨rfl, rfl, hnone, hraw, name, fn, timeout, hop, -⟩ := hsends
          obtain ⟨b, hb, hx⟩ := hraw _ hpc
          cases hb
          obtain ⟨now, clock, hm⟩ := hm
          exact h.stored hd hx hnone (List.getElem?_eq_some_iff.mp hop).1 hm
        | completeRun steps output => have := hsends.2.2.2 _ hpc; cases this
        | parkSleep next ms => have := hsends.2.2 _ hpc; cases this
        | parkWait | failOrRetry => exact hsends.elim
    · -- in the transaction of a wait nothing is on its way
      rename_i raw hpc
      have hnone : p.sent = none := h.asks.idle (Or.inr (Or.inr ⟨_, hpc⟩))
      rw [hnone] at hw; cases hw
    · exact hdone
    · exact hdone
    · exact hdrop
  · exact hdrop

/-- **Deliveries**: the transaction of a wait commits, and the worker may learn of it. -/
theorem Inv.committed {t : Tx J} (h : p.Inv reg past v (some t)) {w : Write J} {clock : Time}
    (hphase : t.phase = .wrote w clock) {now clock' : Time}
    (hm : v.Moves (.wrote p.run.token w now clock') v') (lost : Bool) :
    (if lost then p else p.answered true (v.cps p.index)).Inv reg past v' none := by
  obtain ⟨hsent, hloop, hbegin, hawait, timeout, hres, -, hw⟩ := h.asks.tx t rfl
  rw [hphase] at hw
  obtain ⟨found, hfound, rfl⟩ := hw
  have hp : ({ p with sent := none } : Proc J Ω) = p := by rw [← hsent]
  have hdrop : p.Inv reg past v' none := by
    have := h.drop hloop hbegin (Or.inr ⟨_, _, _, hm⟩)
    rwa [hp] at this
  have hdone : ({ p with pc := .done } : Proc J Ω).Inv reg past v' none :=
    hdrop.giveUp (Or.inl rfl) hdrop.asks.failure
  cases lost
  · simp only [Bool.false_eq_true, if_false, answered, if_true]
    split
    · rename_i raw hpc; exact absurd hpc (hawait _)
    · -- an event was found, and its outcome is stored
      rename_i raw hpc
      have hraw := hfound.1 _ hpc
      rcases found with _ | payload
      · cases hraw
      · cases hraw
        obtain ⟨hnone, name, key, hop, -⟩ := hres
        have hstored := h.stored (Or.inr (Or.inr (Or.inr rfl))) (Jsonb.parse_received payload) hnone
          (List.getElem?_eq_some_iff.mp hop).1 hm
        rwa [hp] at hstored
    · exact hdone
    · exact hdone
    · exact hdrop
  · exact hdrop

lemma Inv.failed (h : p.Inv reg past v tx) {w : Write J} (hw : p.failure = some w)
    (hm : v' = v ∨ ∃ now clock, v.Moves (.wrote p.run.token w now clock) v') :
    ({ p with failure := none } : Proc J Ω).Inv reg past v' tx := by
  have hknows : p.Knows reg v' := by
    rcases hm with rfl | ⟨now, clock, hm⟩
    · exact h.knows
    · exact h.knows.moves hm
  refine ⟨⟨hknows.wf, hknows.row, hknows.length, hknows.le, hknows.agree, hknows.filled⟩,
    ⟨h.asks.idle, h.asks.key, h.asks.sent, by simp, h.asks.tx⟩, fun r hr hlive => ?_⟩
  rcases hm with rfl | ⟨now, clock, hm⟩
  · have hh := h.holds r hr hlive
    exact ⟨hh.attempt, hh.cursor, hh.loaded⟩
  · -- the claim has given up its lease
    obtain ⟨ms, msg, rfl⟩ := h.asks.failure w hw
    cases hm with
    | updated _ r₀ u hrow hu hg => cases hu; cases hr; cases hlive

/-! ### The phases of a wait -/

lemma Inv.phase {t t' : Tx J} (h : p.Inv reg past v (some t)) (pc : Pc)
    (hpc : pc = p.pc ∨ ∃ raw, pc = .wait raw)
    (hw : ({ p with pc := pc } : Proc J Ω).Waits past t') :
    ({ p with pc := pc } : Proc J Ω).Inv reg past v (some t') := by
  obtain ⟨hsent, hloop, hbegin, hawait, -⟩ := h.asks.tx t rfl
  have hne : pc ≠ .loop ∧ (∀ k, pc ≠ .begin k) ∧ ∀ raw, pc ≠ .await raw := by
    rcases hpc with rfl | ⟨raw, rfl⟩
    · exact ⟨hloop, hbegin, hawait⟩
    · simp
  refine ⟨⟨h.knows.wf, h.knows.row, h.knows.length, h.knows.le, h.knows.agree, h.knows.filled⟩,
    ⟨fun _ => hsent, fun k hk => absurd hk (hne.2.1 k), fun w hw => ?_, h.asks.failure,
    fun t₁ ht₁ => ?_⟩, fun r hr hlive => ?_⟩
  · change p.sent = some w at hw
    rw [hsent] at hw; cases hw
  · cases ht₁; exact ⟨hsent, hne.1, hne.2.1, hne.2.2, hw⟩
  · have hd : p.Driving (some t) := Or.inr (Or.inr (Or.inr rfl))
    have hh := h.holds r hr hlive
    exact ⟨hh.attempt, fun _ => hh.cursor hd, fun _ => hh.loaded hd⟩

lemma Inv.begun (h : p.Inv reg past v tx) {k : String} (hpc : p.pc = .begin k) {name : String}
    {key : EventKey Ω} {timeout : Time}
    (hop : p.wf.ops[p.index]? = some (.waitEvent name key timeout)) (clock : Time) :
    ({ p with pc := .wait none } : Proc J Ω).Inv reg past v (some
      ⟨.wait p.run.token p.run.id p.index (milliseconds timeout) p.complete, k, clock,
        .begun⟩) := by
  have hsent := h.asks.idle (Or.inr (Or.inl ⟨k, hpc⟩))
  obtain ⟨timeout', hnone, name', key', hop', hcall⟩ := h.asks.key k hpc
  rw [hop] at hop'; cases hop'
  refine ⟨⟨h.knows.wf, h.knows.row, h.knows.length, h.knows.le, h.knows.agree, h.knows.filled⟩,
    ⟨fun _ => hsent, by simp, fun w hw => ?_, h.asks.failure, fun t ht => ?_⟩, fun r hr hlive => ?_⟩
  · change p.sent = some w at hw
    rw [hsent] at hw; cases hw
  · cases ht
    refine ⟨hsent, by simp, by simp, by simp, timeout, ⟨hnone, name, key, hop, hcall⟩, rfl, ?_⟩
    intro raw hraw; cases hraw; rfl
  · have hd : p.Driving tx := Or.inr (Or.inl ⟨k, hpc⟩)
    have hh := h.holds r hr hlive
    exact ⟨hh.attempt, fun _ => hh.cursor hd, fun _ => hh.loaded hd⟩

lemma Inv.lockedKey {t : Tx J} (h : p.Inv reg past v (some t)) (hphase : t.phase = .begun) :
    p.Inv reg past v (some { t with phase := .locked }) := by
  obtain ⟨-, -, -, -, timeout, hres, hjob, hp⟩ := h.asks.tx t rfl
  rw [hphase] at hp
  exact h.phase p.pc (Or.inl rfl) ⟨timeout, hres, hjob, hp⟩

lemma Inv.looked {t : Tx J} (h : p.Inv reg past v (some t)) {found : Option J}
    (hfound : ∀ payload, found = some payload →
      ∃ e ∈ past.emitted, e.eventKey = t.key ∧ e.payload = payload) :
    ({ p with pc := .wait (found.map fun payload => receivedBytes (text payload)) } :
      Proc J Ω).Inv reg past v (some { t with phase := .looked found }) := by
  obtain ⟨-, -, -, -, timeout, hres, hjob, -⟩ := h.asks.tx t rfl
  refine h.phase _ (Or.inr ⟨_, rfl⟩) ⟨timeout, hres, hjob, fun raw hraw => ?_, hfound⟩
  cases hraw; rfl

lemma Inv.wrote {t : Tx J} (h : p.Inv reg past v (some t)) {found : Option J}
    (hphase : t.phase = .looked found) {timeoutMs : ℤ} {complete : Bool} {token : Token}
    {run : RunId} {index : ℕ} (hjob : t.job = .wait token run index timeoutMs complete)
    (clock : Time) : p.Inv reg past v (some { t with
      phase := .wrote (Server.waitWrite found t.key index timeoutMs complete) clock }) := by
  obtain ⟨-, -, -, -, timeout, hres, hjob', hp⟩ := h.asks.tx t rfl
  rw [hphase] at hp
  rw [hjob] at hjob'; cases hjob'
  exact h.phase p.pc (Or.inl rfl) ⟨timeout, hres, hjob, found, hp, rfl⟩

end Proc

end DurablePg

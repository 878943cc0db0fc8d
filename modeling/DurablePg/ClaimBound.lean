import DurablePg.Budget
import DurablePg.Lifecycle

/-!
How often a run can be claimed.

Neither the cursor nor the counters bound the claims of a run by themselves: a progress write
starts the lease failures again, a parked wait does so without moving the cursor, and a
replayed checkpoint moves on without a write. What bounds them is an allowance. It counts the
failures and the lease recoveries a run can still survive, and grants the whole budget of
recoveries again for every operation that has not made progress; an operation makes progress
once. Every claim that ends without ending the run has used up some of the allowance.
-/

namespace DurablePg

open DurablePg.Lib

variable {J Ω : Type}

/-- The claims in the life of a run. -/
def claimCount (l : List (Change J)) : ℕ := (l.filterMap Change.claimToken?).length

/-- The operations that have made progress: those before the cursor, and the wait at the cursor
once it is registered or has its outcome. -/
def Row.progressed (r : Row J) (cps : ℕ → Option J) : ℕ :=
  r.stepIndex + if r.state = .waitingEvent ∨ (cps r.stepIndex).isSome then 1 else 0

/-- What is left of the budget of a run of a definition of `n` operations. -/
def Row.allowance (n : ℕ) (r : Row J) (cps : ℕ → Option J) : ℕ :=
  if r.state.terminal then 0 else
    (r.maxAttempts - 1 - r.attempt) + (r.maxAttempts - 1 - r.leaseFailures) +
      r.maxAttempts * (n - r.progressed cps)

/-- The run has been claimed for what it is doing, or has ended. -/
def RunState.held (s : RunState) : ℕ := if s = .ready ∨ s = .waitingEvent then 0 else 1

lemma RunState.held_le (s : RunState) : s.held ≤ 1 := by unfold held; split <;> omega

lemma RunState.held_terminal {s : RunState} (h : s.terminal = true) : s.held = 1 := by
  cases s <;> simp_all [terminal, held]

lemma claimCount_snoc (l : List (Change J)) (ch : Change J) :
    claimCount (l ++ [ch]) = claimCount l + claimCount [ch] := by
  simp [claimCount, List.filterMap_append]

namespace Row

variable {n : ℕ} {r r' : Row J} {cps cps' : ℕ → Option J}

lemma allowance_terminal (h : r.state.terminal = true) : r.allowance n cps = 0 := by
  simp [allowance, h]

lemma allowance_running (h : r.state.terminal = false) :
    r.allowance n cps = (r.maxAttempts - 1 - r.attempt) + (r.maxAttempts - 1 - r.leaseFailures) +
      r.maxAttempts * (n - r.progressed cps) := by
  simp [allowance, h]

lemma progressed_of_waiting (h : r.state = .waitingEvent) :
    r.progressed cps = r.stepIndex + 1 := by
  simp [progressed, h]

lemma progressed_of_some (h : (cps r.stepIndex).isSome) : r.progressed cps = r.stepIndex + 1 := by
  simp [progressed, h]

/-- A change spends the allowance: it never grows, and a claim, or a change that takes a run out
of a claim without ending it, costs at least one. -/
structure Spends (n : ℕ) (r : Row J) (cps : ℕ → Option J) (ch : Change J) (r' : Row J)
    (cps' : ℕ → Option J) : Prop where
  le : r'.allowance n cps' ≤ r.allowance n cps
  held : r'.allowance n cps' + r.state.held + claimCount [ch] ≤
    r.allowance n cps + r'.state.held

namespace Spends

variable {ch : Change J}

lemma of_terminal (h : r'.state.terminal = true) (hch : claimCount [ch] = 0) :
    Spends n r cps ch r' cps' := by
  have hle := r.state.held_le
  refine ⟨?_, ?_⟩ <;> rw [allowance_terminal h]
  · exact Nat.zero_le _
  · rw [RunState.held_terminal h, hch]; omega

lemma of_eq (ha : r'.attempt = r.attempt) (hl : r'.leaseFailures = r.leaseFailures)
    (hm : r'.maxAttempts = r.maxAttempts) (ht : r'.state.terminal = r.state.terminal)
    (hp : r'.progressed cps' = r.progressed cps)
    (hs : r.state.held + claimCount [ch] ≤ r'.state.held) : Spends n r cps ch r' cps' := by
  have heq : r'.allowance n cps' = r.allowance n cps := by
    simp only [allowance, ha, hl, hm, ht, hp]
  exact ⟨heq.le, by omega⟩

lemma of_lt (h : r'.allowance n cps' < r.allowance n cps) (hch : claimCount [ch] = 0) :
    Spends n r cps ch r' cps' := by
  have hle := r.state.held_le
  exact ⟨h.le, by omega⟩

end Spends

end Row

variable {wf : CompiledWorkflow Ω} {r : Row J} {cps : ℕ → Option J} in
lemma Next.progressed_le {k : ℕ} (hn : Next wf r cps k) (hnone : cps k = none)
    (hs : r.state ≠ .waitingEvent) : r.progressed cps ≤ k := by
  have hcur := hn.cursor
  by_cases hsome : (cps r.stepIndex).isSome
  · have hne : r.stepIndex ≠ k := by
      rintro rfl
      rw [hnone] at hsome; cases hsome
    rw [Row.progressed_of_some hsome]; omega
  · simp only [Row.progressed, hs, hsome]; simpa using hcur

namespace Cursor

variable {wf : CompiledWorkflow Ω} {r : Row J} {cps : ℕ → Option J}

lemma progressed_le_length (h : Cursor wf r cps) : r.progressed cps ≤ wf.ops.length := by
  have hwait : (∃ op, wf.ops[r.stepIndex]? = some op ∧ op.isWait = true) →
      r.stepIndex < wf.ops.length :=
    fun ⟨op, hop, _⟩ => (List.getElem?_eq_some_iff.mp hop).1
  by_cases hp : r.state = .waitingEvent ∨ (cps r.stepIndex).isSome
  · have hlt : r.stepIndex < wf.ops.length :=
      hp.elim (fun hw => hwait (h.waiting hw)) fun hs => hwait (h.here hs).1
    rw [Row.progressed, if_pos hp]
    exact hlt
  · rw [Row.progressed, if_neg hp]
    exact h.le

/-- Progress costs more than the recoveries it grants again. -/
lemma allowance_lt {r' : Row J} {cps' : ℕ → Option J} (h' : Cursor wf r' cps')
    (hs : r.state.terminal = false) (hlf : r.leaseFailures < r.maxAttempts)
    (ha : r'.attempt = r.attempt) (hm : r'.maxAttempts = r.maxAttempts)
    (hp : r.progressed cps < r'.progressed cps') :
    r'.allowance wf.ops.length cps' < r.allowance wf.ops.length cps := by
  have hn := h'.progressed_le_length
  rw [Row.allowance_running hs]
  by_cases ht : r'.state.terminal = true
  · have hpos : 0 < r.maxAttempts * (wf.ops.length - r.progressed cps) :=
      Nat.mul_pos (by omega) (by omega)
    rw [Row.allowance_terminal ht]
    omega
  · have hgrant : r.maxAttempts * (wf.ops.length - r'.progressed cps') + r.maxAttempts ≤
        r.maxAttempts * (wf.ops.length - r.progressed cps) := by
      rw [← Nat.mul_succ]
      exact Nat.mul_le_mul_left _ (by omega)
    rw [Row.allowance_running (by simpa using ht), ha, hm]
    omega

end Cursor

/-! ### One change -/

namespace Row.Spends

variable {wf : CompiledWorkflow Ω} {n : ℕ} {r r' : Row J} {cps cps' : ℕ → Option J}
  {ch : Change J}

lemma of_next {i : ℕ} (hn : Next wf r cps i) (hnone : cps i = none) (hs : r.state = .leased)
    (hlf : r.leaseFailures < r.maxAttempts) (h' : Cursor wf r' cps')
    (ha : r'.attempt = r.attempt) (hm : r'.maxAttempts = r.maxAttempts)
    (hp : i < r'.progressed cps') (hch : claimCount [ch] = 0) :
    r.Spends wf.ops.length cps ch r' cps' := by
  refine .of_lt (h'.allowance_lt (by simp [hs, RunState.terminal]) hlf ha hm ?_) hch
  calc r.progressed cps ≤ i := hn.progressed_le hnone (by simp [hs])
    _ < r'.progressed cps' := hp

lemma of_counted (hs : r.state = .leased) (hm : r'.maxAttempts = r.maxAttempts)
    (hp : r'.stepIndex = r.stepIndex) (hcps : cps' = cps) (hch : claimCount [ch] = 0)
    (h : r'.state = .failed ∨ r'.state = .ready ∧ r.attempt ≤ r'.attempt ∧
      r.leaseFailures ≤ r'.leaseFailures ∧ r'.attempt < r.maxAttempts ∧
      r'.leaseFailures < r.maxAttempts ∧
      r.attempt + r.leaseFailures < r'.attempt + r'.leaseFailures) :
    r.Spends n cps ch r' cps' := by
  rcases h with hf | ⟨hready, hcount⟩
  · exact .of_terminal (by simp [hf, RunState.terminal]) hch
  · have hprog : r'.progressed cps' = r.progressed cps := by
      simp [progressed, hcps, hp, hs, hready]
    refine .of_lt ?_ hch
    rw [allowance_running (by simp [hready, RunState.terminal]),
      allowance_running (by simp [hs, RunState.terminal]), hm, hprog]
    omega

/-- A wait gets its outcome, and the run can be claimed again: the progress was counted when the
wait was registered. -/
lemma of_outcome (hs : r.state = .waitingEvent) (hready : r'.state = .ready)
    (ha : r'.attempt = r.attempt) (hl : r'.leaseFailures = r.leaseFailures)
    (hm : r'.maxAttempts = r.maxAttempts) (hp : r'.stepIndex = r.stepIndex)
    (hsome : (cps' r'.stepIndex).isSome) (hch : claimCount [ch] = 0) :
    r.Spends n cps ch r' cps' := by
  refine .of_eq ha hl hm (by simp [hs, hready, RunState.terminal]) ?_ ?_
  · rw [progressed_of_some hsome, progressed_of_waiting hs, hp]
  · rw [hch, hs, hready]; decide

variable [Jsonb J]

lemma write {past : Past J Ω} {l : List (Change J)} {w : Write J} {token : Token}
    {now clock : Time} (hfits : w.Fits past wf r cps) (hb : r.Budget l)
    (hg : (w.update cps r.id token now clock).guard r = true) (h : Cursor wf r cps)
    (h' : Cursor wf ((w.update cps r.id token now clock).set r)
      fun i => (cps i).or ((w.update cps r.id token now clock).recordAt r i)) :
    r.Spends wf.ops.length cps (.wrote token w now clock)
      ((w.update cps r.id token now clock).set r)
      fun i => (cps i).or ((w.update cps r.id token now clock).recordAt r i) := by
  obtain ⟨-, hs, -⟩ := fence_iff.mp (Write.fence_of_guard hg)
  obtain ⟨ha, hlf⟩ := hb.below (by simp [hs])
  cases w with
  | commitStep i x complete =>
    obtain ⟨hn, hnone, -⟩ := hfits
    exact .of_next hn hnone hs hlf h' rfl rfl (Nat.le_add_right _ _) rfl
  | completeRun steps output => exact .of_terminal rfl rfl
  | parkSleep next ms =>
    obtain ⟨i, d, rfl, hop, -, hn⟩ := hfits
    exact .of_next hn (h.sleep i _ hop rfl) hs hlf h' rfl rfl (Nat.le_add_right _ _) rfl
  | parkWait i k ms =>
    obtain ⟨hn, hnone, -⟩ := hfits
    refine .of_next hn hnone hs hlf h' rfl rfl ?_ rfl
    simp [progressed, Write.update, parkWait]
  | failOrRetry attempt ms msg =>
    obtain rfl : attempt = r.attempt + 1 := hfits
    refine .of_counted hs rfl rfl (by funext i; simp [Update.recordAt, Write.update, failOrRetry])
      rfl ?_
    simp only [Write.update, failOrRetry]
    split
    · exact Or.inl rfl
    · exact Or.inr ⟨rfl, by omega⟩

end Row.Spends

lemma Update.recordAt_isSome {u : Update J} {r : Row J} {i : ℕ} {x : J} {old : Option J}
    (hg : u.guard r = true) (hrec : u.record r = some (i, x)) :
    (old.or (u.recordAt r i)).isSome := by
  simp [Update.recordAt, hg, hrec]

section Step

variable [Jsonb J] {past : Past J Ω} {wf : CompiledWorkflow Ω} {l : List (Change J)}
  {v v' : View J} {ch : Change J} {r r' : Row J}

/-- **Step**: one lawful change spends the allowance. -/
lemma View.Moves.spends (hm : v.Moves ch v') (hfits : ch.Fits past wf v) (hr : v.row = some r)
    (hr' : v'.row = some r') (hb : r.Budget l) (h : Cursor wf r v.cps)
    (h' : Cursor wf r' v'.cps) : r.Spends wf.ops.length v.cps ch r' v'.cps := by
  cases hm with
  | inserted n now hrow => rw [hrow] at hr; cases hr
  | updated ch r₀ u hrow hu hg =>
    rw [hrow] at hr; cases hr; cases hr'
    have hfound := Change.finds_of_guard hu hg
    cases ch with
    | inserted => cases hu
    | touched now =>
      cases hu
      exact .of_eq rfl rfl rfl rfl (by simp [Row.progressed, Update.recordAt]) le_rfl
    | claimed token leaseMs now clock =>
      cases hu
      have hs : r.state = .ready := of_decide_eq_true hfound
      refine .of_eq rfl rfl rfl (by simp [claim, hs, RunState.terminal]) ?_
        (by rw [hs]; exact le_rfl)
      simp [Row.progressed, Update.recordAt, claim, hs]
    | renewed leaseMs now clock =>
      cases hu
      exact .of_eq rfl rfl rfl rfl (by simp [Row.progressed, Update.recordAt, renewLeases]) le_rfl
    | wrote token w now clock => cases hu; exact .write (hfits r hrow) hb hg h h'
    | recovered now clock =>
      cases hu
      have hs : r.state = .leased := of_decide_eq_true hfound
      obtain ⟨ha, hlf⟩ := hb.below (by simp [hs])
      refine .of_counted hs rfl rfl (by funext i; simp [Update.recordAt, recoverLeases]) rfl ?_
      simp only [recoverLeases]
      split
      · exact Or.inl rfl
      · exact Or.inr ⟨rfl, by omega⟩
    | cancelled now => cases hu; exact .of_terminal rfl rfl
    | delivered key payload now =>
      cases hu
      have hs : r.state = .waitingEvent := of_decide_eq_true hfound
      exact .of_outcome hs rfl rfl rfl rfl rfl (Update.recordAt_isSome hg rfl) rfl
    | timedOut now =>
      cases hu
      have hs : r.state = .waitingEvent := of_decide_eq_true hfound
      exact .of_outcome hs rfl rfl rfl rfl rfl (Update.recordAt_isSome hg rfl) rfl

lemma View.Moves.leaseToken_eq (hm : v.Moves ch v') (hr : v.row = some r)
    (hr' : v'.row = some r') (hs : r.state = .leased) (hs' : r'.state = .leased) :
    r'.leaseToken = r.leaseToken := by
  cases hm with
  | inserted n now hrow => rw [hrow] at hr; cases hr
  | updated ch r₀ u hrow hu hg =>
    rw [hrow] at hr; cases hr; cases hr'
    cases ch with
    | inserted => cases hu
    | touched | renewed => cases hu; rfl
    | claimed token leaseMs now clock => cases hu; simp [hs] at hg
    | wrote token w now clock =>
      cases hu
      cases w with
      | commitStep i x complete => cases complete <;> simp_all [Write.update, commitStep]
      | completeRun | parkSleep | parkWait => cases hs'
      | failOrRetry =>
        simp only [Write.update, failOrRetry] at hs'
        split at hs' <;> cases hs'
    | recovered now clock =>
      cases hu
      simp only [recoverLeases] at hs'
      split at hs' <;> cases hs'
    | cancelled | delivered | timedOut => cases hu; cases hs'

/-! ### A whole life -/

omit [Jsonb J] in
lemma NewRun.allowance (n : NewRun J) (now : Time) (k : ℕ) :
    (n.row now).allowance k (fun _ => none) =
      2 * ((n.row now).maxAttempts - 1) + (n.row now).maxAttempts * k := by
  have hprog : (n.row now).progressed (fun _ => none) = 0 := rfl
  rw [Row.allowance_running rfl, hprog, Nat.sub_zero]
  simp only [NewRun.row]
  omega

/-- **Claims against the allowance**, along a lawful life. -/
theorem Lawful.claimCount_le (hv : wf.Valid) (h : Lawful past wf l v) (hr : v.row = some r) :
    claimCount l + r.allowance wf.ops.length v.cps ≤
      2 * (r.maxAttempts - 1) + r.maxAttempts * wf.ops.length + r.state.held := by
  refine h.row_induction (motive := fun l v r => claimCount l + r.allowance wf.ops.length v.cps ≤
    2 * (r.maxAttempts - 1) + r.maxAttempts * wf.ops.length + r.state.held) ?_ ?_ hr
  · intro n now _ _ _
    rw [NewRun.allowance]
    exact Nat.le_of_eq (Nat.zero_add _)
  · intro l v ch v' r r' hl hm hfits hr hr' ih
    have hspend := (hm.spends hfits hr hr' (hl.budget hr) (hl.course hv hr).cursor
      ((hl.snoc hm hfits).course hv hr').cursor).held
    rw [claimCount_snoc, (hm.keeps hr hr').maxAttempts]
    omega

/-- From a claim on, the allowance does not grow, and it is less once the run has been taken out
of the claim without ending. -/
theorem Lawful.allowance_later (hv : wf.Valid) {l' : List (Change J)}
    (h : Lawful past wf (l ++ l') v') (hl : Life l v) (hr : v.row = some r)
    (hs : r.state = .leased) : ∃ r', v'.row = some r' ∧
      r'.allowance wf.ops.length v'.cps ≤ r.allowance wf.ops.length v.cps ∧
      (r'.state = .leased ∧ r'.leaseToken = r.leaseToken ∨ r'.state.terminal = true ∨
        r'.allowance wf.ops.length v'.cps < r.allowance wf.ops.length v.cps) := by
  -- the changes after the claim, the last one first
  induction l' using List.reverseRecOn generalizing v' with
  | nil =>
    rw [List.append_nil] at h
    obtain rfl := hl.unique h.life
    exact ⟨r, hr, le_rfl, Or.inl ⟨hs, rfl⟩⟩
  | append_singleton l' ch ih =>
    rw [← List.append_assoc] at h
    obtain ⟨v₁, h₁, hm, hfits⟩ := h.snoc_inv
    obtain ⟨r₁, hr₁, hle, hcase⟩ := ih h₁
    obtain ⟨r', hr'⟩ := hm.row_some
    have hspend := hm.spends hfits hr₁ hr' (h₁.budget hr₁) (h₁.course hv hr₁).cursor
      (h.course hv hr').cursor
    refine ⟨r', hr', hspend.le.trans hle, ?_⟩
    rcases hcase with ⟨hs₁, htoken⟩ | hterm | hlt
    · by_cases hs' : r'.state = .leased
      · exact Or.inl ⟨hs', (hm.leaseToken_eq hr₁ hr' hs₁ hs').trans htoken⟩
      by_cases hterm : r'.state.terminal = true
      · exact Or.inr (Or.inl hterm)
      -- the run is ready or waits: it has been taken out of the claim
      have hfree : r'.state.held = 0 := by
        cases hstate : r'.state <;> simp_all [RunState.held, RunState.terminal]
      have hheld := hspend.held
      rw [hs₁, hfree] at hheld
      have hone : RunState.leased.held = 1 := rfl
      exact Or.inr (Or.inr (by omega))
    · obtain ⟨r₂, hr₂, -, hfrozen⟩ := hm.edge hr₁
      rw [hr₂] at hr'; cases hr'
      exact Or.inr (Or.inl (by rw [(hfrozen hterm).1.state]; exact hterm))
    · exact Or.inr (Or.inr (hspend.le.trans_lt hlt))

end Step

/-! ### Reachable states -/

namespace System

variable [Jsonb J] {reg : Registry Ω} {y : System J Ω} {run : RunId} {r : Row J}

/-- **No run is claimed for ever**: the claims of a run are bounded by its budget and its
definition, and the allowance is less at every claim than at the one before. -/
theorem claims_bounded (hy : y.Reachable reg) (hr : y.srv.db.run run = some r) :
    ∃ wf, reg.workflow r.workflowName r.workflowVersion = some wf ∧
      claimCount (y.srv.log run) ≤
        (wf.ops.length + 2) * (r.maxAttempts - 1) + wf.ops.length + 1 ∧
      ∀ y' r' token token', Reaches (step reg) y y' → y'.srv.db.run run = some r' →
        r.leaseToken = some token → r'.leaseToken = some token' → token' ≠ token →
        r'.allowance wf.ops.length (y'.srv.db.checkpoint run) <
          r.allowance wf.ops.length (y.srv.db.checkpoint run) := by
  obtain ⟨wf, hwf, hl⟩ := hy.inv.lawful run r hr
  have hv := reg.valid hwf
  refine ⟨wf, hwf, ?_, fun y' r' token token' h' hr' ht ht' hne => ?_⟩
  · have hle := hl.claimCount_le hv hr
    have hheld := r.state.held_le
    have hpos : 0 < r.maxAttempts := by
      by_cases hs : r.state = .failed
      · have := (hl.budget hr).failed.mp hs; omega
      · have := (hl.budget hr).below hs; omega
    obtain ⟨m, hm⟩ := Nat.exists_eq_add_of_lt hpos
    have hbound : 2 * (r.maxAttempts - 1) + r.maxAttempts * wf.ops.length =
        (wf.ops.length + 2) * (r.maxAttempts - 1) + wf.ops.length := by
      rw [hm, Nat.zero_add, Nat.add_sub_cancel]; ring
    omega
  · obtain ⟨l, hlog⟩ := log_grows h' run
    have hlife := hy.inv.srv.inv.life run
    have hok := hlife.row_ok hr
    have hs : r.state = .leased := hok.token.mp (by simp [ht])
    obtain ⟨wf', hwf', hl'⟩ := (hy.later h').inv.lawful run r' hr'
    obtain ⟨r₁, hr₁, hk, -⟩ := hy.progress h' hr
    rw [hr₁] at hr'; cases hr'
    rw [hk.workflowName, hk.workflowVersion, hwf] at hwf'; cases hwf'
    rw [← hlog] at hl'
    obtain ⟨r₂, hr₂, -, hcase⟩ := hl'.allowance_later hv hlife hr hs
    rw [show (y'.srv.view run).row = some r' from hr₁] at hr₂; cases hr₂
    have hs' : r'.state = .leased :=
      ((hy.later h').inv.srv.inv.life run).row_ok hr₁ |>.token.mp (by simp [ht'])
    rcases hcase with ⟨-, heq⟩ | hterm | hlt
    · rw [ht, ht'] at heq; cases heq; exact absurd rfl hne
    · rw [hs'] at hterm; cases hterm
    · exact hlt

/-- A wait whose key is resolved or not. -/
def resolvedWait : Registry Bool := .single "w" 1
  [.waitEventFunc "e" (some fun ω _ => if ω then .returns "k" else .fails []) 1000000]

/-- Two attempts: the resolver fails once, and a lease is lost once before the wait is registered
and once after it has timed out. -/
def fiveClaims : List (Move Doc Bool) :=
  [.enqueue worker "w" (utf8 "null") [.withMaxAttempts 2] "r" 0,
    .claim worker 1 (fun _ => "a") 0 false, .turn "a" (.invoke false []), .turn "a" .failOrRetry,
    .execFailure "a" 0, .outside (.tick 30000000000),
    .claim worker 1 (fun _ => "b") 30000000000 false, .outside (.tick 90000000000),
    .outside (.recoverLeases 90000000000), .outside (.tick 120000000000),
    .claim worker 1 (fun _ => "c") 120000000000 false, .turn "c" (.invoke true []), .begin "c",
    .lockEventKey "c", .latestEvent "c", .statement "c", .commit "c" false,
    .outside (.tick 130000000000), .outside (.promoteTimedOut 130000000000),
    .claim worker 1 (fun _ => "d") 130000000000 false, .outside (.tick 190000000000),
    .outside (.recoverLeases 190000000000), .outside (.tick 220000000000),
    .claim worker 1 (fun _ => "f") 220000000000 false]

/-- The bound is reached. -/
theorem claims_bounded_fiveClaims : ∃ y r y' r',
    (fiveClaims.take 2).foldlM (step resolvedWait) (init 0) = some y ∧
    y.srv.db.run "r" = some r ∧ (fiveClaims.drop 2).foldlM (step resolvedWait) y = some y' ∧
    y'.srv.db.run "r" = some r' ∧ claimCount (y'.srv.log "r") = 5 ∧
    ∃ wf, resolvedWait.workflow r'.workflowName r'.workflowVersion = some wf ∧
      (wf.ops.length + 2) * (r'.maxAttempts - 1) + wf.ops.length + 1 = 5 ∧
      r'.allowance wf.ops.length (y'.srv.db.checkpoint "r") <
        r.allowance wf.ops.length (y.srv.db.checkpoint "r") := by
  have hrun : ((fiveClaims.take 2).foldlM (step resolvedWait) (init 0)).bind (fun y =>
      (y.srv.db.run "r").bind fun r =>
      ((fiveClaims.drop 2).foldlM (step resolvedWait) y).bind fun y' =>
      (y'.srv.db.run "r").bind fun r' =>
      (resolvedWait.workflow r'.workflowName r'.workflowVersion).map fun wf =>
      decide (r.leaseToken = some "a" ∧ r'.leaseToken = some "f" ∧
        claimCount (y'.srv.log "r") = 5 ∧ r'.maxAttempts = 2 ∧ wf.ops.length = 1)) =
      some true := by decide +kernel
  obtain ⟨y, hy, hrun⟩ := Option.bind_eq_some_iff.mp hrun
  obtain ⟨r, hr, hrun⟩ := Option.bind_eq_some_iff.mp hrun
  obtain ⟨y', hy', hrun⟩ := Option.bind_eq_some_iff.mp hrun
  obtain ⟨r', hr', hrun⟩ := Option.bind_eq_some_iff.mp hrun
  obtain ⟨wf', hwf', hrun⟩ := Option.map_eq_some_iff.mp hrun
  obtain ⟨ht, ht', hcount, hmax, hops⟩ := of_decide_eq_true hrun
  have hreach : y.Reachable resolvedWait := .of_run 0 _ hy
  obtain ⟨wf, hwf, -, hlt⟩ := claims_bounded hreach hr
  obtain ⟨r₁, hr₁, hk, -⟩ := hreach.progress (Reaches.of_run _ hy') hr
  rw [hr'] at hr₁; cases hr₁
  rw [← hk.workflowName, ← hk.workflowVersion, hwf'] at hwf; cases hwf
  exact ⟨y, r, y', r', hy, hr, hy', hr', hcount, wf', hwf', by rw [hops, hmax],
    hlt y' r' "a" "f" (Reaches.of_run _ hy') hr' ht ht' (by decide)⟩

end System

end DurablePg

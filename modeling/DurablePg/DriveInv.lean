import DurablePg.Course
import DurablePg.Drive
import DurablePg.Server

/-!
What a claim in progress knows about its run, what it has asked the server for, and what is
true of the run while the claim still holds its lease.

The run is seen as its row and checkpoints, the transaction of a wait as the server keeps it;
which other claims there are does not matter here.
-/

namespace DurablePg

open DurablePg.Lib

variable {J Ω : Type}

/-- The claim can still make progress: it is about to send a statement, or one is on its way. -/
def Proc.Driving (p : Proc J Ω) (tx : Option (Tx J)) : Prop :=
  p.pc = .loop ∨ (∃ k, p.pc = .begin k) ∨ p.sent.isSome ∨ tx.isSome

variable [Jsonb J]

namespace Proc

/-- What stays true of a claim, also once its lease is lost. -/
structure Knows (p : Proc J Ω) (reg : Registry Ω) (v : View J) : Prop where
  wf : reg.workflow p.run.workflowName p.run.version = some p.wf
  row : ∃ r, v.row = some r ∧ r.id = p.run.id ∧ r.workflowName = p.run.workflowName ∧
    r.workflowVersion = p.run.version ∧ text r.inputJson = p.run.input
  length : p.values.length = p.wf.ops.length
  le : p.index ≤ p.wf.ops.length
  agree : ∀ i raw, p.value i = some raw → ∃ x, parse raw = some x ∧ v.cps i = some x
  filled : ∀ i op, i < p.index → p.wf.ops[i]? = some op → op.isSleep = false → (p.value i).isSome

/-- A call of the operation at the index has been made, and `P` holds of it. -/
def Called (p : Proc J Ω) (past : Past J Ω) (name : String) (P : Ω → StepContext → Prop) : Prop :=
  ∃ ω, p.call ω name ∈ past.calls ∧ P ω (p.stepContext name)

/-- The wait at the index has been called, and its key is `k`. -/
def Resolved (p : Proc J Ω) (past : Past J Ω) (k : String) (timeout : Time) : Prop :=
  p.value p.index = none ∧ ∃ name key, p.wf.ops[p.index]? = some (.waitEvent name key timeout) ∧
    p.Called past name fun ω sc => key.resolve ω sc = .ok k

/-- The statement on its way is one that `drive` sends from here. -/
def Sends (p : Proc J Ω) (past : Past J Ω) : Write J → Prop
  | .commitStep i x complete => i = p.index ∧ complete = p.complete ∧ p.value p.index = none ∧
      (∀ raw, p.pc = .await raw → ∃ b, raw = some b ∧ parse b = some x) ∧
      ∃ name fn timeout, p.wf.ops[p.index]? = some (.step name fn timeout) ∧
        p.Called past name fun ω sc =>
          ∃ b, executeStepSafely name fn ω sc = .ok b ∧ parse b = some x
  | .completeRun steps output => steps = p.wf.ops.length ∧ p.index = p.wf.ops.length ∧
      output = (p.wf.outputIndex.bind p.value).bind parse ∧ ∀ raw, p.pc = .await raw → raw = none
  | .parkSleep next ms => next = p.index + 1 ∧
      (∃ d, p.wf.ops[p.index]? = some (.sleep d) ∧ ms = milliseconds d) ∧
      ∀ raw, p.pc = .await raw → raw = none
  | _ => False

/-- What the registration has found on its key, and what the worker makes of it. -/
def Found (p : Proc J Ω) (past : Past J Ω) (key : String) (found : Option J) : Prop :=
  (∀ raw, p.pc = .wait raw → raw = found.map fun payload => receivedBytes (text payload)) ∧
    ∀ payload, found = some payload → ∃ e ∈ past.emitted, e.eventKey = key ∧ e.payload = payload

/-- The open transaction is that of the wait at the index. -/
def Waits (p : Proc J Ω) (past : Past J Ω) (tx : Tx J) : Prop :=
  ∃ timeout, p.Resolved past tx.key timeout ∧
    tx.job = .wait p.run.token p.run.id p.index (milliseconds timeout) p.complete ∧
    match tx.phase with
    | .begun | .locked => ∀ raw, p.pc = .wait raw → raw = none
    | .looked found => p.Found past tx.key found
    | .wrote w _ => ∃ found, p.Found past tx.key found ∧
        w = Server.waitWrite found tx.key p.index (milliseconds timeout) p.complete
    | .emitted .. => False

/-- What the claim has asked for. -/
structure Asks (p : Proc J Ω) (past : Past J Ω) (tx : Option (Tx J)) : Prop where
  idle : p.pc = .loop ∨ (∃ k, p.pc = .begin k) ∨ (∃ raw, p.pc = .wait raw) → p.sent = none
  key : ∀ k, p.pc = .begin k → ∃ timeout, p.Resolved past k timeout
  sent : ∀ w, p.sent = some w → p.Sends past w
  failure : ∀ w, p.failure = some w → ∃ ms msg, w = .failOrRetry (p.run.attempt + 1) ms msg
  tx : ∀ t, tx = some t → p.sent = none ∧ p.pc ≠ .loop ∧ (∀ k, p.pc ≠ .begin k) ∧
    (∀ raw, p.pc ≠ .await raw) ∧ p.Waits past t

/-- What is true of the run while the claim holds its lease. -/
structure Holds (p : Proc J Ω) (v : View J) (tx : Option (Tx J)) (r : Row J) : Prop where
  attempt : r.attempt = p.run.attempt
  cursor : p.Driving tx → r.stepIndex ≤ p.index
  loaded : p.Driving tx → ∀ i x, v.cps i = some x → (p.value i).isSome

/-- The invariant of a claim in progress. -/
structure Inv (p : Proc J Ω) (reg : Registry Ω) (past : Past J Ω) (v : View J)
    (tx : Option (Tx J)) : Prop where
  knows : p.Knows reg v
  asks : p.Asks past tx
  holds : ∀ r, v.row = some r → r.leaseToken = some p.run.token → p.Holds v tx r

end Proc

/-! ### Statements that fit -/

namespace Proc

variable {p p' : Proc J Ω} {reg : Registry Ω} {past past' : Past J Ω} {v v' : View J}
  {tx tx' : Option (Tx J)} {r : Row J}

lemma Knows.sees (h : p.Knows reg v) (hr : v.row = some r) (hc : Cursor p.wf r v.cps)
    (name : String) : (p.stepContext name).Sees p.wf r v.cps p.index name := by
  obtain ⟨r', hr', hid, hname, -, hinput⟩ := h.row
  rw [hr] at hr'; cases hr'
  have hlen := h.length
  have hle := h.le
  refine ⟨hid.symm, hname.symm, hinput.symm, rfl, rfl, ?_, ?_⟩
  · simp only [stepContext, List.length_take]; omega
  · intro j hj
    have hval : (p.stepContext name).values.getD j none = p.value j := by
      simp [stepContext, value, hj]
    rw [hval]
    rcases hv : p.value j with _ | raw
    · -- no value below the index: the operation there is a sleep
      obtain ⟨op, hop⟩ : ∃ op, p.wf.ops[j]? = some op :=
        ⟨_, List.getElem?_eq_getElem (by omega)⟩
      have hs : op.isSleep = true := by
        by_contra hs
        have := h.filled j op hj hop (by simpa using hs)
        rw [hv] at this; cases this
      rw [hc.sleep j _ hop hs]; rfl
    · obtain ⟨x, hx, hcps⟩ := h.agree j raw hv
      simp [hx, hcps]

lemma Knows.called (h : p.Knows reg v) (hr : v.row = some r) (hc : Cursor p.wf r v.cps)
    {name : String} {P : Ω → StepContext → Prop} (hcall : p.Called past name P) :
    past.Called p.wf r v.cps p.index name P := by
  obtain ⟨ω, hmem, hP⟩ := hcall
  obtain ⟨r', hr', hid, -⟩ := h.row
  rw [hr] at hr'; cases hr'
  exact ⟨_, hmem, hid.symm, rfl, h.sees hr hc name, hP⟩

lemma Inv.next (h : p.Inv reg past v tx) (hr : v.row = some r)
    (hlive : r.leaseToken = some p.run.token) (hd : p.Driving tx) :
    Next p.wf r v.cps p.index := by
  refine ⟨(h.holds r hr hlive).cursor hd, h.knows.le, fun j op hj hop hs => ?_⟩
  obtain ⟨raw, hraw⟩ := Option.isSome_iff_exists.mp (h.knows.filled j op hj hop hs)
  obtain ⟨x, -, hx⟩ := h.knows.agree j raw hraw
  rw [hx]; rfl

lemma Inv.none_of_value (h : p.Inv reg past v tx) (hr : v.row = some r)
    (hlive : r.leaseToken = some p.run.token) (hd : p.Driving tx) {i : ℕ}
    (hi : p.value i = none) : v.cps i = none := by
  by_contra hne
  obtain ⟨x, hx⟩ := Option.ne_none_iff_exists'.mp hne
  have := (h.holds r hr hlive).loaded hd i x hx
  rw [hi] at this; cases this

lemma Inv.cps_eq (h : p.Inv reg past v tx) (hr : v.row = some r)
    (hlive : r.leaseToken = some p.run.token) (hd : p.Driving tx) (i : ℕ) :
    (p.value i).bind parse = v.cps i := by
  rcases hi : p.value i with _ | raw
  · exact (h.none_of_value hr hlive hd hi).symm
  · obtain ⟨x, hx, hcps⟩ := h.knows.agree i raw hi
    rw [hcps]; exact hx

omit [Jsonb J] in
lemma complete_iff : p.complete = true ↔ p.index + 1 = p.wf.ops.length := by
  simp [complete]

lemma Inv.fits_sent (h : p.Inv reg past v tx) (hr : v.row = some r)
    (hlive : r.leaseToken = some p.run.token) (hc : Cursor p.wf r v.cps) {w : Write J}
    (hw : p.sent = some w) : w.Fits past p.wf r v.cps := by
  have hd : p.Driving tx := Or.inr (Or.inr (Or.inl (by simp [hw])))
  have hnext := h.next hr hlive hd
  have hsends := h.asks.sent w hw
  cases w with
  | commitStep i x complete =>
    obtain ⟨rfl, rfl, hnone, -, name, fn, timeout, hop, hcall⟩ := hsends
    exact ⟨hnext, h.none_of_value hr hlive hd hnone, complete_iff, _, hop,
      .step (h.knows.called hr hc hcall)⟩
  | completeRun steps output =>
    obtain ⟨rfl, hindex, rfl, -⟩ := hsends
    refine ⟨rfl, hindex ▸ hnext, ?_⟩
    rw [Option.bind_assoc]
    exact congrArg _ (funext fun i => h.cps_eq hr hlive hd i)
  | parkSleep next ms =>
    obtain ⟨rfl, ⟨d, hop, hms⟩, -⟩ := hsends
    exact ⟨p.index, d, rfl, hop, hms, hnext⟩
  | parkWait | failOrRetry => exact hsends.elim

lemma Inv.fits_failure (h : p.Inv reg past v tx) (hr : v.row = some r)
    (hlive : r.leaseToken = some p.run.token) {w : Write J} (hw : p.failure = some w) :
    w.Fits past p.wf r v.cps := by
  obtain ⟨ms, msg, rfl⟩ := h.asks.failure w hw
  exact congrArg (· + 1) (h.holds r hr hlive).attempt.symm

lemma Inv.fits_wait {t : Tx J} (h : p.Inv reg past v (some t)) (hr : v.row = some r)
    (hlive : r.leaseToken = some p.run.token) (hc : Cursor p.wf r v.cps) {w : Write J}
    {clock : Time} (hphase : t.phase = .wrote w clock) : w.Fits past p.wf r v.cps := by
  have hd : p.Driving (some t) := Or.inr (Or.inr (Or.inr rfl))
  have hnext := h.next hr hlive hd
  obtain ⟨-, -, -, -, timeout, ⟨hnone, name, key, hop, hcall⟩, -, hp⟩ := h.asks.tx t rfl
  rw [hphase] at hp
  obtain ⟨found, ⟨-, hfound⟩, rfl⟩ := hp
  have hcps := h.none_of_value hr hlive hd hnone
  rcases found with _ | payload
  · exact ⟨hnext, hcps, name, key, timeout, hop, rfl, h.knows.called hr hc hcall⟩
  · obtain ⟨e, he, hkey, rfl⟩ := hfound payload rfl
    exact ⟨hnext, hcps, complete_iff, _, hop, .received (h.knows.called hr hc hcall) he hkey⟩

end Proc

end DurablePg

import DurablePg.Contexts
import DurablePg.Doc
import DurablePg.Genuine
import DurablePg.Lib.JsonRaw

/-!
The outcome of a wait, from where it is recorded to `StepContext.Event`.

Three places spell an outcome: the worker that finds an event puts the payload's bytes between
two constants, the server builds an object around the payload of an emission that finds the run
parked, and a timeout is recorded as a string. A later step sees the worker's bytes, if it runs
under the same claim, or what the server prints.
-/

namespace DurablePg

open DurablePg.Lib

variable {J Ω : Type}

/-- JSONB with the texts the server prints for it. -/
class JsonbText (J : Type) extends Jsonb J where
  isValue_text : ∀ v, Json.IsValue (text v)
  text_received : ∀ p, text (received p) = utf8 "\x7b\"received\": " ++ text p ++ utf8 "\x7d"
  text_timedOut : text timedOut = utf8 "\"timed_out\""

/-! ### `Event` -/

/-- The field `received` of an outcome, if it is an object that has one. -/
def outcomeReceived (raw : Bytes) : Option Bytes := Json.rawField (utf8 "received") raw

/-- `Event`, for a destination that `dec` decodes into, or for none. -/
def StepContext.event {δ : Type} (sc : StepContext) (dec : Option (Bytes → Except String δ))
    (wait : String) : Bool × Except String (Option δ) :=
  match sc.raw wait with
  | none => (false, .error ("durablepg: step result not found: " ++ wait))
  | some raw =>
    if raw = utf8 "\"timed_out\"" then (false, .ok none)
    else
      match outcomeReceived raw with
      | none => (false, .error ("decode wait outcome " ++ wait.quote ++ ": not an event outcome"))
      | some payload =>
        match dec with
        | none => (true, .ok none)
        | some dec =>
          match dec payload with
          | .ok v => (true, .ok (some v))
          | .error e => (true, .error ("decode event payload " ++ wait.quote ++ ": " ++ e))

/-! ### Texts of outcomes -/

lemma chars_received : Json.Chars (utf8 "received") := by
  rw [show utf8 "received" = [114, 101, 99, 101, 105, 118, 101, 100] by decide]
  repeat refine .plain (by decide) ?_
  exact .nil

lemma outcomeReceived_object {payload w : Bytes} (hw : Json.Blank w)
    (hpayload : Json.IsValue payload) :
    outcomeReceived (utf8 "\x7b\"received\":" ++ (w ++ payload) ++ utf8 "\x7d") = some payload := by
  have hobject := Json.rawObject_single chars_received hw hpayload
  have heq : utf8 "\x7b\"received\":" ++ (w ++ payload) ++ utf8 "\x7d" =
      123 :: 34 :: (utf8 "received" ++ 34 :: 58 :: (w ++ (payload ++ [125]))) := by
    rw [show utf8 "\x7b\"received\":" = 123 :: 34 :: (utf8 "received" ++ [34, 58]) by decide,
      show utf8 "\x7d" = [125] by decide]
    simp
  rw [heq]
  exact Json.rawField_single hobject (by decide)

section Texts

variable [JsonbText J]

/-- The ways in which the outcome that delivers a payload reaches a step. -/
inductive Delivery (p : J) : Bytes → Prop
  /-- The worker puts the bytes together, and the step runs under the same claim. -/
  | inMemory : Delivery p (receivedBytes (text p))
  /-- The server has stored those bytes, and a later claim loads them. -/
  | readBack {x : J} (hx : parse (receivedBytes (text p)) = some x) : Delivery p (text x)
  /-- The server has built the outcome when the event was emitted. -/
  | built : Delivery p (text (received p))

lemma Delivery.spelled {p : J} {raw : Bytes} (h : Delivery p raw) :
    raw = receivedBytes (text p) ∨ raw = text (received p) := by
  cases h with
  | inMemory => exact Or.inl rfl
  | readBack hx =>
    rw [Jsonb.parse_received] at hx
    cases hx
    exact Or.inr rfl
  | built => exact Or.inr rfl

lemma Delivery.outcomeReceived {p : J} {raw : Bytes} (h : Delivery p raw) :
    outcomeReceived raw = some (text p) := by
  rcases h.spelled with rfl | rfl
  · have hbare := outcomeReceived_object Json.blank_nil (JsonbText.isValue_text p)
    rwa [List.nil_append] at hbare
  · have hspace := outcomeReceived_object Json.blank_space (JsonbText.isValue_text p)
    rw [JsonbText.text_received, show utf8 "\x7b\"received\": " = utf8 "\x7b\"received\":" ++ [32]
      by decide]
    simpa using hspace

lemma Delivery.ne_timedOut {p : J} {raw : Bytes} (h : Delivery p raw) :
    raw ≠ utf8 "\"timed_out\"" := by
  have hhead : raw.head? = some 123 := by
    rcases h.spelled with rfl | rfl
    · rfl
    · rw [JsonbText.text_received]
      rfl
  rintro rfl
  cases hhead

lemma received_injective : Function.Injective (received : J → J) := by
  intro p p' h
  have htext := (Delivery.built (p := p)).outcomeReceived
  rw [h, (Delivery.built (p := p')).outcomeReceived] at htext
  have hparse := Jsonb.parse_text p
  rw [← Option.some.inj htext, Jsonb.parse_text] at hparse
  exact (Option.some.inj hparse).symm

/-- The decoder of values as such. -/
def decodeValue (b : Bytes) : Except String J :=
  match parse b with
  | some v => .ok v
  | none => .error "invalid JSON"

/-- `Event` reports an event on the wait, and decodes the payload. -/
structure StepContext.Receives (sc : StepContext) (wait : String) (p : J) : Prop where
  received : ∀ (δ : Type) (dec : Option (Bytes → Except String δ)), (sc.event dec wait).1 = true
  discarded : ∀ δ : Type, sc.event (δ := δ) none wait = (true, .ok none)
  decoded : ∀ (δ : Type) (dec : Bytes → Except String δ) (v : δ), dec (text p) = .ok v →
    sc.event (some dec) wait = (true, .ok (some v))
  value : sc.event (some decodeValue) wait = (true, .ok (some p))

/-- `Event` reports a timeout on the wait. -/
def StepContext.FindsTimeout (sc : StepContext) (wait : String) : Prop :=
  ∀ (δ : Type) (dec : Option (Bytes → Except String δ)), sc.event dec wait = (false, .ok none)

/-- What `Event` reports of the wait, for an event with this payload or for none. -/
def StepContext.Reports (sc : StepContext) (wait : String) : Option J → Prop
  | some p => sc.Receives wait p
  | none => sc.FindsTimeout wait

lemma Delivery.receives {p : J} {raw : Bytes} (h : Delivery p raw) {sc : StepContext}
    {wait : String} (hraw : sc.raw wait = some raw) : sc.Receives wait p := by
  have hevent : ∀ (δ : Type) (dec : Option (Bytes → Except String δ)), sc.event dec wait =
      match dec with
      | none => (true, .ok none)
      | some dec =>
        match dec (text p) with
        | .ok v => (true, .ok (some v))
        | .error e => (true, .error ("decode event payload " ++ wait.quote ++ ": " ++ e)) := by
    intro δ dec
    simp only [StepContext.event, hraw, if_neg h.ne_timedOut, h.outcomeReceived]
  refine ⟨fun δ dec => ?_, fun δ => hevent δ none, fun δ dec v hv => ?_, ?_⟩
  · rw [hevent]
    rcases dec with _ | dec
    · rfl
    · cases hdec : dec (text p) <;> simp only [hdec]
  · rw [hevent]
    simp only [hv]
  · rw [hevent]
    simp only [decodeValue, Jsonb.parse_text]

lemma findsTimeout {sc : StepContext} {wait : String}
    (hraw : sc.raw wait = some (text (timedOut : J))) : sc.FindsTimeout wait := by
  intro δ dec
  rw [JsonbText.text_timedOut] at hraw
  simp only [StepContext.event, hraw, if_true]

end Texts

/-! ### What claims keep -/

variable [Jsonb J]

/-- What stands for the outcome of a wait: a text of the server, or the bytes that the worker has
put around one. -/
def Spelled (J : Type) [Jsonb J] (raw : Bytes) : Prop :=
  ∃ v : J, raw = text v ∨ raw = receivedBytes (text v)

namespace Proc

variable {p p' : Proc J Ω}

/-- The outcomes that a claim keeps, and the one it is about to store. -/
structure Outcomes (p : Proc J Ω) : Prop where
  values : ∀ i op raw, p.wf.ops[i]? = some op → op.isWait = true → p.value i = some raw →
    Spelled J raw
  found : ∀ raw, p.pc = .wait (some raw) → ∃ payload : J, raw = receivedBytes (text payload)

lemma turn_values {t : Turn Ω} {ks : List (Call Ω)} (h : p.turn t = some (p', ks)) :
    p'.values = p.values ∧ p'.wf = p.wf ∧ ∀ raw, p'.pc ≠ .wait (some raw) := by
  cases turns h with
  | advance hpc => exact ⟨rfl, rfl, fun raw hraw => by rw [hpc] at hraw; cases hraw⟩
  | _ => exact ⟨rfl, rfl, fun raw hraw => by cases hraw⟩

lemma Outcomes.of_values (h : p.Outcomes) (hvalues : p'.values = p.values) (hwf : p'.wf = p.wf)
    (hpc : ∀ raw, p'.pc = .wait (some raw) → ∃ payload : J, raw = receivedBytes (text payload)) :
    p'.Outcomes where
  values i op raw hop hwait hraw := by
    rw [hwf] at hop
    rw [value, hvalues] at hraw
    exact h.values i op raw hop hwait hraw
  found := hpc

lemma Outcomes.stored (h : p.Outcomes) {raw : Bytes} (existing : Option J)
    (hraw : ∀ op, p.wf.ops[p.index]? = some op → op.isWait = true → Spelled J raw) :
    (p.stored raw existing).Outcomes := by
  have hvalues : ∀ i op b, p.wf.ops[i]? = some op → op.isWait = true →
      (p.values.set p.index (some ((existing.map text).getD raw))).getD i none = some b →
      Spelled J b := by
    intro i op b hop hwait hb
    by_cases hi : p.index = i
    · subst hi
      rw [List.getD_eq_getElem?_getD, List.getElem?_set_self'] at hb
      rcases hold : p.values[p.index]? with _ | old
      · rw [hold] at hb; cases hb
      · rw [hold] at hb
        obtain rfl : (existing.map text).getD raw = b := Option.some.inj hb
        rcases existing with _ | x
        · exact hraw op hop hwait
        · exact ⟨x, Or.inl rfl⟩
    · rw [List.getD_eq_getElem?_getD, List.getElem?_set_ne hi] at hb
      exact h.values i op b hop hwait (by rw [value, List.getD_eq_getElem?_getD]; exact hb)
  unfold Proc.stored
  split <;> exact ⟨hvalues, (fun _ hraw => by cases hraw)⟩

lemma Outcomes.answered (h : p.Outcomes) (owned : Bool) (existing : Option J)
    (hawait : ∀ raw, p.pc = .await (some raw) → ∀ op, p.wf.ops[p.index]? = some op →
      op.isWait = false) : (p.answered owned existing).Outcomes := by
  unfold Proc.answered
  split
  · rename_i raw hpc
    split
    · refine h.stored existing fun op hop hwait => ?_
      rw [hawait raw hpc op hop] at hwait; cases hwait
    · exact h.of_values rfl rfl (fun _ hraw => by cases hraw)
  · rename_i raw hpc
    split
    · obtain ⟨payload, hpayload⟩ := h.found raw hpc
      exact h.stored existing fun _ _ _ => ⟨payload, Or.inr hpayload⟩
    · exact h.of_values rfl rfl (fun _ hraw => by cases hraw)
  · exact h.of_values rfl rfl (fun _ hraw => by cases hraw)
  · exact h.of_values rfl rfl (fun _ hraw => by cases hraw)
  · exact h

lemma Asks.await_step {past : Past J Ω} {tx : Option (Tx J)} (h : p.Asks past tx) {w : Write J}
    (hw : p.sent = some w) {raw : Bytes} (hpc : p.pc = .await (some raw)) {op : Operation Ω}
    (hop : p.wf.ops[p.index]? = some op) : op.isWait = false := by
  have hsends := h.sent w hw
  cases w with
  | commitStep =>
    obtain ⟨-, -, -, -, name, fn, timeout, hstep, -⟩ := hsends
    rw [hop] at hstep; cases hstep
    rfl
  | completeRun => cases hsends.2.2.2 _ hpc
  | parkSleep => cases hsends.2.2 _ hpc
  | parkWait | failOrRetry => exact hsends.elim

end Proc

namespace System

variable {reg : Registry Ω} {y y' : System J Ω}

lemma outcomes_step (hinv : y.Inv reg) (h : ∀ token p, y.procs token = some p → p.Outcomes)
    {m : Move J Ω} (hstep : y.step reg m = some y') (token : Token) (p' : Proc J Ω)
    (hp' : y'.procs token = some p') : p'.Outcomes := by
  -- one claim goes on and the others stay as they are
  have hset : ∀ {token₀ : Token} {p₁ : Proc J Ω} {srv : Server J} {calls : List (Call Ω)},
      (⟨srv, Function.update y.procs token₀ (some p₁), calls⟩ : System J Ω).procs token = some p' →
      p₁.Outcomes → p'.Outcomes := by
    intro token₀ p₁ srv calls hp' hp₁
    rcases Inv.procs_setProc hp' with ⟨rfl, rfl⟩ | ⟨-, hq⟩
    · exact hp₁
    · exact h token p' hq
  cases does hstep with
  | outside | insert | lock => exact h token p' hp'
  | @claim e q gen now s lost hs =>
    by_cases hl : lost = true
    · simp only [hl, if_true] at hp'
      exact h token p' hp'
    · simp only [hl, Bool.false_eq_true, if_false] at hp'
      rcases Option.or_eq_some_iff.mp hp' with hnew | ⟨-, hold⟩
      · -- every value has been loaded
        obtain ⟨id, -, hnew⟩ := Option.bind_eq_some_iff.mp hnew
        obtain ⟨r, -, hstart⟩ := Option.bind_eq_some_iff.mp hnew
        have hvalue := Proc.start_value hstart
        obtain ⟨wf, -, rfl⟩ := Option.map_eq_some_iff.mp hstart
        refine ⟨fun i op raw _ _ hraw => ?_, (fun _ hpc => by cases hpc)⟩
        rw [hvalue i, Option.ite_none_right_eq_some] at hraw
        obtain ⟨x, -, rfl⟩ := Option.map_eq_some_iff.mp hraw.2
        exact ⟨x, Or.inl rfl⟩
      · exact h token p' hold
  | turn hp ht =>
    obtain ⟨hvalues, hwf, hpc⟩ := Proc.turn_values ht
    exact hset hp' ((h _ _ hp).of_values hvalues hwf fun raw hraw => absurd hraw (hpc raw))
  | @exec token₀ p w now s lost hp hw hs =>
    have hsent : ({ p with sent := none } : Proc J Ω).Outcomes :=
      (h _ _ hp).of_values rfl rfl (h _ _ hp).found
    refine hset hp' ?_
    cases lost
    · exact hsent.answered _ _ fun raw hpc op hop =>
        (hinv.proc _ _ hp).asks.await_step hw hpc hop
    · exact hsent
  | execFailure hp => exact hset hp' ((h _ _ hp).of_values rfl rfl (h _ _ hp).found)
  | begin hp => exact hset hp' ((h _ _ hp).of_values rfl rfl (fun _ hraw => by cases hraw))
  | look hp =>
    refine hset hp' ((h _ _ hp).of_values rfl rfl fun raw hraw => ?_)
    obtain ⟨payload, -, rfl⟩ := Option.map_eq_some_iff.mp (Pc.wait.inj hraw)
    exact ⟨payload, rfl⟩
  | statement hp _ _ hp'' =>
    subst hp''
    refine hset hp' ?_
    split
    · exact h _ _ hp
    · exact (h _ _ hp).of_values rfl rfl (fun _ hraw => by cases hraw)
  | @commit token₀ p s lost hp hs =>
    refine hset hp' ?_
    cases lost
    · refine (h _ _ hp).answered _ _ fun raw hpc => ?_
      obtain ⟨tx, htx⟩ : ∃ tx, y.srv.txs.get (.wait token₀) = some tx := by
        obtain ⟨tx, htx, -⟩ := Option.bind_eq_some_iff.mp hs
        exact ⟨tx, htx⟩
      exact absurd hpc (((hinv.proc _ _ hp).asks.tx tx htx).2.2.2.1 _)
    · exact h _ _ hp

theorem Reachable.outcomes (hy : y.Reachable reg) {token : Token} {p : Proc J Ω}
    (hp : y.procs token = some p) : p.Outcomes := by
  obtain ⟨clock, h⟩ := hy
  refine (h.invariant (P := fun z => z.Reachable reg ∧
    ∀ token p, z.procs token = some p → p.Outcomes)
    ⟨⟨clock, .refl⟩, fun token p hp => by cases hp⟩ ?_).2 token p hp
  rintro z m z' ⟨hz, ih⟩ - hstep
  exact ⟨hz.later (.single ⟨m, trivial, hstep⟩), outcomes_step hz.inv ih hstep⟩

/-- A call sees the outcomes of the waits below it as its claim had them. -/
theorem Reachable.call_spelled (hy : y.Reachable reg) {k : Call Ω} (hk : k ∈ y.calls) {r : Row J}
    {wf : CompiledWorkflow Ω} {name : String} (hmade : Made reg y k r wf name) {j : ℕ}
    {op : Operation Ω} (hop : wf.ops[j]? = some op) (hwait : op.isWait = true) {raw : Bytes}
    (hraw : k.ctx.values.getD j none = some raw) : Spelled J raw := by
  obtain ⟨clock, h⟩ := hy
  refine (h.invariant (P := fun z => z.Reachable reg ∧ ∀ k ∈ z.calls, ∀ r wf name,
    Made reg z k r wf name → ∀ j op raw, wf.ops[j]? = some op → op.isWait = true →
      k.ctx.values.getD j none = some raw → Spelled J raw)
    ⟨⟨clock, .refl⟩, fun k hk => by cases hk⟩ ?_).2 k hk r wf name hmade j op raw hop hwait hraw
  rintro z m z' ⟨hz, ih⟩ - hstep
  have hreach : Reaches (step reg) z z' := .single ⟨m, trivial, hstep⟩
  refine ⟨hz.later hreach, fun k hk r wf name hmade j op raw hop hwait hraw => ?_⟩
  rcases calls_step hstep hk with hk | ⟨hsrv, token, p, ω, op', name', hp, rfl, -, -, -⟩
  · -- the row of an earlier call still names its definition
    obtain ⟨-, r₀, wf₀, name₀, hmade₀⟩ := hz.made hk
    obtain ⟨r', hr', hkeeps, -⟩ := hz.progress hreach hmade₀.row
    rw [hmade.row] at hr'; cases hr'
    have hwf := hmade.registered
    rw [hkeeps.workflowName, hkeeps.workflowVersion, hmade₀.registered] at hwf; cases hwf
    exact ih k hk r₀ wf name₀ hmade₀ j op raw hop hwait hraw
  · -- the claim that makes the call drives that definition
    have hknows := (hz.inv.proc token p hp).knows
    obtain ⟨r₀, hr₀, -, hname, hver, -⟩ := hknows.row
    have hr := hmade.row
    rw [hsrv] at hr
    have hr₀ : z.srv.db.run p.run.id = some r₀ := hr₀
    rw [show (p.call ω name').run = p.run.id from rfl, hr₀] at hr; cases hr
    have hwf := hmade.registered
    rw [hname, hver, hknows.wf] at hwf; cases hwf
    refine (hz.outcomes hp).values j op raw hop hwait ?_
    have hlt : j < p.index := by
      by_contra hge
      rw [List.getD_eq_getElem?_getD, List.getElem?_eq_none (by
        simp only [Proc.call, Proc.stepContext, List.length_take]; omega)] at hraw
      cases hraw
    simpa [Proc.call, Proc.stepContext, Proc.value, hlt] using hraw

end System

/-! ### The outcomes of a system -/

namespace System

/-- How a step of the system decides the wait at index `j` of a run: for an event with this
payload, or for none. -/
inductive Decides (reg : Registry Ω) (y y' : System J Ω) (run : RunId) : ℕ → Option J → Prop
  /-- `waitForEvent` has found an event, and commits. -/
  | found {token : Token} {lost : Bool} {tx : Tx J} {index : ℕ} {timeoutMs : ℤ} {complete : Bool}
    {payload : J} {clock : Time} (hstep : y.step reg (.commit token lost) = some y')
    (htx : y.srv.txs.get (.wait token) = some tx)
    (hjob : tx.job = .wait token run index timeoutMs complete)
    (hphase : tx.phase = .wrote (Server.waitWrite (some payload) tx.key index timeoutMs complete)
      clock) : Decides reg y y' run index (some payload)
  /-- `EmitEvent` commits, and the run is parked on the key with time left. -/
  | emitted {n : ℕ} {tx : Tx J} {payload : J} {r : Row J} {deadline : Time}
    (hstep : y.step reg (.outside (.commit (.emit n))) = some y')
    (htx : y.srv.txs.get (.emit n) = some tx) (hjob : tx.job = .emit n payload)
    (hr : y.srv.db.run run = some r) (hwait : r.state = .waitingEvent)
    (hkey : r.waitingEventKey = some tx.key) (hdeadline : r.waitingDeadline = some deadline)
    (htime : tx.start < deadline) : Decides reg y y' run r.stepIndex (some payload)
  /-- `promoteTimedOut` wakes the run. -/
  | promoted {now : Time} {r r' : Row J}
    (hstep : y.step reg (.outside (.promoteTimedOut now)) = some y')
    (hr : y.srv.db.run run = some r) (hwait : r.state = .waitingEvent)
    (hr' : y'.srv.db.run run = some r') (hwoken : r'.state ≠ .waitingEvent) :
    Decides reg y y' run r.stepIndex none

/-- The value that stands for an outcome in the table of checkpoints. -/
def outcome : Option J → J
  | some payload => received payload
  | none => timedOut

variable {reg : Registry Ω} {y y' : System J Ω} {run : RunId}

lemma found_checkpoint (hy : y.Inv reg) {token : Token} {lost : Bool} {tx : Tx J} {index : ℕ}
    {timeoutMs : ℤ} {complete : Bool} {payload : J} {clock : Time}
    (hstep : y.step reg (.commit token lost) = some y')
    (htx : y.srv.txs.get (.wait token) = some tx)
    (hjob : tx.job = .wait token run index timeoutMs complete)
    (hphase : tx.phase = .wrote (Server.waitWrite (some payload) tx.key index timeoutMs complete)
      clock) :
    (∃ name key timeout, y.opAt reg run index = some (.waitEvent name key timeout)) ∧
      y'.srv.db.checkpoint run index = some (received payload) := by
  obtain ⟨p, hp, hbind⟩ := Option.bind_eq_some_iff.mp hstep
  obtain ⟨s, hs, heq⟩ := Option.bind_eq_some_iff.mp hbind
  cases heq
  -- the transaction is that of the claim's wait
  obtain ⟨htok, -⟩ := hy.token token p hp
  have hi := hy.proc token p hp
  rw [htx] at hi
  obtain ⟨-, -, -, -, timeout, ⟨-, name, key, hop, -⟩, hjob', -⟩ := hi.asks.tx tx rfl
  rw [hjob] at hjob'; cases hjob'
  obtain ⟨w, clock', hphase', hm⟩ := Server.waited_moves hy.srv.inv.tx htx hjob hs
  rw [hphase] at hphase'; cases hphase'
  refine ⟨⟨name, key, timeout, (hy.opAt_proc hp).trans hop⟩, ?_⟩
  generalize hv : s.view p.run.id = v' at hm
  refine (congrFun (congrArg View.cps hv) p.index).trans ?_
  cases hm with
  | updated _ r₀ u hrow hu hg =>
    cases hu
    have hg' := (Bool.and_eq_true_iff.mp hg).1
    have hfits := hi.fits_wait hrow (fence_iff.mp hg').2.2.1 (hy.claim_course hp hrow).cursor hphase
    have hnone : (y.srv.view p.run.id).cps p.index = none := hfits.2.1
    simp only [hnone, Option.none_or, Update.recordAt, hg, if_true]
    exact if_pos rfl

lemma promoted_checkpoint (hy : y.Inv reg) {now : Time} {r r' : Row J}
    (hstep : y.step reg (.outside (.promoteTimedOut now)) = some y')
    (hr : y.srv.db.run run = some r) (hwait : r.state = .waitingEvent)
    (hr' : y'.srv.db.run run = some r') (hwoken : r'.state ≠ .waitingEvent) :
    y'.srv.db.checkpoint run r.stepIndex = some timedOut := by
  simp only [step, Option.ite_none_right_eq_some, Option.map_eq_some_iff] at hstep
  obtain ⟨-, s, hs, rfl⟩ := hstep
  obtain ⟨wf, -, hc⟩ := hy.course hr
  have hnone : (y.srv.view run).cps r.stepIndex = none := hc.cursor.none_of_waiting hwait
  obtain ⟨o, ⟨-, hm⟩, hmakes⟩ := Server.step_moved hy.srv.inv.tx hs run
  rcases o with _ | ch
  · -- a run that the statement leaves alone still waits
    have hv : s.view run = y.srv.view run := hm
    have hsame : s.db.run run = some r := (congrArg View.row hv).trans hr
    rw [show s.db.run run = some r' from hr'] at hsame
    cases hsame
    exact absurd hwait hwoken
  · have hmk := hmakes ch rfl
    have hm : (y.srv.view run).Moves ch (s.view run) := hm
    cases hmk with
    | timedOut =>
      generalize hv : s.view run = v' at hm
      refine (congrFun (congrArg View.cps hv) r.stepIndex).trans ?_
      cases hm.awaits hr hwait with
      | timedOut _ _ hx => rw [hx, hnone]; rfl

lemma emitted_checkpoint (hy : y.Reachable reg) {n : ℕ} {tx : Tx J} {payload : J} {r : Row J}
    {deadline : Time} (hstep : y.step reg (.outside (.commit (.emit n))) = some y')
    (htx : y.srv.txs.get (.emit n) = some tx) (hjob : tx.job = .emit n payload)
    (hr : y.srv.db.run run = some r) (hwait : r.state = .waitingEvent)
    (hkey : r.waitingEventKey = some tx.key) (hdeadline : r.waitingDeadline = some deadline)
    (htime : tx.start < deadline) :
    y'.srv.db.checkpoint run r.stepIndex = some (received payload) := by
  simp only [step, Option.ite_none_right_eq_some, Option.map_eq_some_iff] at hstep
  obtain ⟨-, s, hs, rfl⟩ := hstep
  obtain ⟨wf, -, hc⟩ := hy.inv.course hr
  have hid : tx.id = .emit n := by rw [Tx.id, hjob]; rfl
  -- an emission that commits has run its statement, and holds every run parked on its key
  obtain ⟨e, woken, hphase⟩ : ∃ e woken, tx.phase = .emitted e woken := by
    obtain ⟨tx', htx', hcommit⟩ := Option.bind_eq_some_iff.mp hs
    rw [htx] at htx'; cases htx'
    simp only [Server.commit, hjob] at hcommit
    cases hphase : tx.phase with
    | emitted e woken => exact ⟨e, woken, rfl⟩
    | _ => rw [hphase] at hcommit; cases hcommit
  have hwoken : run ∈ woken := hy.delivers.woken _ tx n payload e woken htx hjob hphase run r hr
    (by simp [wake, hwait, hkey, hdeadline, htime])
  exact Server.delivered_checkpoint (hid ▸ htx) hjob hphase (hid ▸ hs) hr hwoken
    (hc.cursor.none_of_waiting hwait)

lemma Decides.checkpoint (hy : y.Reachable reg) {j : ℕ} {o : Option J}
    (h : Decides reg y y' run j o) :
    (∃ name key timeout, y.opAt reg run j = some (.waitEvent name key timeout)) ∧
      y'.srv.db.checkpoint run j = some (outcome o) := by
  have hparked : ∀ {r : Row J}, y.srv.db.run run = some r → r.state = .waitingEvent →
      ∃ name key timeout, y.opAt reg run r.stepIndex = some (.waitEvent name key timeout) := by
    intro r hr hwait
    obtain ⟨wf, hwf, hc⟩ := hy.inv.course hr
    obtain ⟨name, key, timeout, -, hop, -⟩ := hc.waitKey hwait
    exact ⟨name, key, timeout, (opAt_eq hr hwf).trans hop⟩
  cases h with
  | found hstep htx hjob hphase => exact found_checkpoint hy.inv hstep htx hjob hphase
  | emitted hstep htx hjob hr hwait hkey hdeadline htime =>
    exact ⟨hparked hr hwait, emitted_checkpoint hy hstep htx hjob hr hwait hkey hdeadline htime⟩
  | promoted hstep hr hwait hr' hwoken =>
    exact ⟨hparked hr hwait, promoted_checkpoint hy.inv hstep hr hwait hr' hwoken⟩

lemma Reachable.opAt_later (hy : y.Reachable reg) (h : Reaches (step reg) y y') {i : ℕ}
    {op : Operation Ω} (hop : y.opAt reg run i = some op) : y'.opAt reg run i = some op := by
  obtain ⟨r, hr, hrest⟩ := Option.bind_eq_some_iff.mp hop
  obtain ⟨wf, hwf, hop⟩ := Option.bind_eq_some_iff.mp hrest
  obtain ⟨r', hr', hkeeps, -⟩ := hy.progress h hr
  rw [← hkeeps.workflowName, ← hkeeps.workflowVersion] at hwf
  exact (opAt_eq hr' hwf).trans hop

lemma Decides.reaches {j : ℕ} {o : Option J} (h : Decides reg y y' run j o) :
    Reaches (step reg) y y' := by
  cases h with
  | found hstep => exact .single ⟨_, trivial, hstep⟩
  | emitted hstep => exact .single ⟨_, trivial, hstep⟩
  | promoted hstep => exact .single ⟨_, trivial, hstep⟩

end System

namespace System

variable {K : Type} [JsonbText K] {reg : Registry Ω} {y : System K Ω}

lemma Reachable.call_reports (hy : y.Reachable reg) {k : Call Ω} (hk : k ∈ y.calls) {r : Row K}
    {wf : CompiledWorkflow Ω} {name₀ : String} (hmade : Made reg y k r wf name₀) {j : ℕ}
    {name : String} {key : EventKey Ω} {timeout : Time} (hj : j < k.index)
    (hop : wf.ops[j]? = some (.waitEvent name key timeout)) {o : Option K}
    (hx : y.srv.db.checkpoint k.run j = some (outcome o)) : k.ctx.Reports name o := by
  -- the bytes the call sees for the checkpoint
  have hname : wf.names name = some j :=
    ((Registry.valid hmade.registered).names name j).mpr (by rw [hop]; rfl)
  obtain ⟨raw, hraw, hparse⟩ : ∃ raw, k.ctx.raw name = some raw ∧ parse raw = some (outcome o) := by
    have hsees := hmade.sees.raw name
    rw [hname, Option.bind_some, if_pos hj, hx] at hsees
    exact Option.map_eq_some_iff.mp hsees
  have hvalue : k.ctx.values.getD j none = some raw := by
    rw [StepContext.raw, hmade.sees.names, hname] at hraw
    exact hraw
  obtain ⟨v, hspelled⟩ := hy.call_spelled hk hmade hop rfl hvalue
  rcases o with _ | p
  · change parse raw = some timedOut at hparse
    rcases hspelled with rfl | rfl
    · rw [Jsonb.parse_text] at hparse; cases hparse
      exact findsTimeout hraw
    · rw [Jsonb.parse_received] at hparse
      exact absurd (Option.some.inj hparse) (Jsonb.received_ne_timedOut v)
  · change parse raw = some (received p) at hparse
    rcases hspelled with rfl | rfl
    · rw [Jsonb.parse_text] at hparse; cases hparse
      exact Delivery.built.receives hraw
    · rw [Jsonb.parse_received] at hparse
      obtain rfl := received_injective (Option.some.inj hparse)
      exact Delivery.inMemory.receives hraw

/-- **Event outcomes**: on whichever way the outcome of a wait reaches a step, `Event` reports an
event and decodes its payload, whatever that is, or reports the timeout that was recorded. Every
call of every system sees the outcomes of the waits below it in one of these ways; and once a
step of the system has decided a wait, be it a registration that has found an event, an emission
that finds the run parked, or a timeout, every later call behind the wait is told just that. -/
theorem event_outcome (hy : y.Reachable reg) :
    (∀ (p : K) (raw : Bytes), Delivery p raw → ∀ (sc : StepContext) (wait : String),
      sc.raw wait = some raw → sc.Receives wait p) ∧
    (∀ (sc : StepContext) (wait : String), sc.raw wait = some (text (timedOut : K)) →
      sc.FindsTimeout wait) ∧
    (∀ k ∈ y.calls, ∃ r wf, y.srv.db.run k.run = some r ∧
      reg.workflow r.workflowName r.workflowVersion = some wf ∧
      ∀ j name key timeout, j < k.index → wf.ops[j]? = some (.waitEvent name key timeout) →
        (∃ e ∈ y.srv.emittedEvents, y.srv.db.checkpoint k.run j = some (received e.payload) ∧
          k.ctx.Receives name e.payload) ∨
        (y.srv.db.checkpoint k.run j = some timedOut ∧ k.ctx.FindsTimeout name)) ∧
    ∀ y₁ run j o, Decides reg y y₁ run j o → ∃ name key timeout,
      y.opAt reg run j = some (.waitEvent name key timeout) ∧
      ∀ y', Reaches (step reg) y₁ y' → ∀ k ∈ y'.calls, k.run = run → j < k.index →
        k.ctx.Reports name o := by
  refine ⟨fun p raw h sc wait hraw => h.receives hraw, fun sc wait hraw => findsTimeout hraw,
    fun k hk => ?_, fun y₁ run j o hdecides => ?_⟩
  · obtain ⟨-, r, wf, name₀, hmade⟩ := hy.made hk
    refine ⟨r, wf, hmade.row, hmade.registered, fun j name key timeout hj hop => ?_⟩
    obtain ⟨wf', hwf', hcourse⟩ := hy.inv.course hmade.row
    rw [hmade.registered] at hwf'; cases hwf'
    obtain ⟨x, hx⟩ := Option.isSome_iff_exists.mp (hmade.below j _ hj hop rfl)
    obtain ⟨op, hop', hresult⟩ := hcourse.origin j x hx
    rw [hop] at hop'; cases hop'
    cases hresult with
    | timedOut => exact Or.inr ⟨hx, hy.call_reports hk hmade hj hop (o := none) hx⟩
    | @received _ _ _ _ e _ he _ =>
      exact Or.inl ⟨e, he, hx, hy.call_reports hk hmade hj hop (o := some e.payload) hx⟩
  · obtain ⟨⟨name, key, timeout, hop⟩, hx⟩ := hdecides.checkpoint hy
    refine ⟨name, key, timeout, hop, fun y' hreach k hk hrun hj => ?_⟩
    subst hrun
    -- the operations of the run and what was recorded are still there at the call
    have hy₁ := hy.later hdecides.reaches
    obtain ⟨r₁, hr₁⟩ := hy₁.inv.row_of_checkpoint hx
    obtain ⟨r', hr', -, -, hcps⟩ := hy₁.progress hreach hr₁
    obtain ⟨-, r₂, wf, name₂, hmade⟩ := (hy₁.later hreach).made hk
    have hsame := hy.opAt_later (hdecides.reaches.trans hreach) hop
    rw [opAt_eq hmade.row hmade.registered] at hsame
    exact (hy₁.later hreach).call_reports hk hmade hj hsame (hcps j _ hx)

end System

/-! ### A document type -/

instance : JsonbText Doc where
  isValue_text d := by
    induction d with
    | null => exact .litNull
    | bool b =>
      cases b
      · exact .litFalse
      · exact .litTrue
    | timedOut =>
      have hchars : Json.Chars [116, 105, 109, 101, 100, 95, 111, 117, 116] := by
        repeat refine .plain (by decide) ?_
        exact .nil
      exact .string hchars
    | received d ih =>
      change Json.Derives .value (Doc.text d) at ih
      have hobject := Json.Derives.object
        (.member Json.blank_nil chars_received Json.blank_nil Json.blank_space ih Json.blank_nil)
      change Json.Derives .value (Doc.head ++ (32 :: Doc.text d ++ [125]))
      rw [show Doc.head = 123 :: 34 :: (utf8 "received" ++ [34, 58]) by decide]
      simpa using hobject
  text_received d := by
    change Doc.head ++ (32 :: Doc.text d ++ [125]) = _ ++ Doc.text d ++ _
    rw [show utf8 "\x7b\"received\": " = Doc.head ++ [32] by decide,
      show utf8 "\x7d" = [125] by decide]
    simp
  text_timedOut := rfl

namespace System

/-- A wait and a step behind it. -/
def waitThenStep : Registry Unit := .single "w" 1
  [.waitEvent "e" "k" 1000000, .step "a" (some fun _ _ => .returns (.ok (utf8 "true"))) []]

lemma waitThenStep_name {y : System Doc Unit} {run : RunId} {name : String} {key : EventKey Unit}
    {timeout : Time} (hop : y.opAt waitThenStep run 0 = some (.waitEvent name key timeout)) :
    name = "e" := by
  obtain ⟨r, -, hop⟩ := Option.bind_eq_some_iff.mp hop
  obtain ⟨wf, hwf, hop⟩ := Option.bind_eq_some_iff.mp hop
  unfold waitThenStep Registry.single at hwf
  simp only at hwf
  split at hwf
  · rename_i hc
    simp only [Option.ite_none_right_eq_some, Option.some.injEq] at hwf
    obtain ⟨-, rfl⟩ := hwf
    cases hc
    cases hop
    rfl
  · cases hwf

/-- The wait finds an event whose payload looks like a timeout, and is about to commit. -/
def aboutToCommit : List (Move Doc Unit) :=
  [.enqueue worker "w" (utf8 "null") [] "r" 0, .emitEvent 0 "k" (utf8 "\"timed_out\""),
    .outside (.lockEventKey (.emit 0)), .outside (.statement (.emit 0)),
    .outside (.commit (.emit 0)), .claim worker 1 (fun _ => "c") 0 false,
    .turn "c" (.invoke () []), .begin "c", .lockEventKey "c", .latestEvent "c", .statement "c"]

/-- The step behind the wait is called by the same claim, and by a later one. -/
def calledTwice : List (Move Doc Unit) :=
  [.turn "c" (.invoke () []), .turn "c" .stop, .outside (.tick 60000000000),
    .outside (.recoverLeases 60000000000), .outside (.tick 90000000000),
    .claim worker 1 (fun _ => "d") 90000000000 false, .turn "d" (.invoke () [])]

/-- The wait finds nothing, and the run is parked. -/
def parkedAtWait : List (Move Doc Unit) :=
  [.enqueue worker "w" (utf8 "null") [] "r" 0, .claim worker 1 (fun _ => "c") 0 false,
    .turn "c" (.invoke () []), .begin "c", .lockEventKey "c", .latestEvent "c", .statement "c",
    .commit "c" false]

/-- An event whose payload looks like a timeout is about to reach the parked run. -/
def aboutToEmit : List (Move Doc Unit) := parkedAtWait ++
  [.emitEvent 0 "k" (utf8 "\"timed_out\""), .outside (.lockEventKey (.emit 0)),
    .outside (.statement (.emit 0))]

/-- The deadline of the parked run has come. -/
def aboutToTimeOut : List (Move Doc Unit) := parkedAtWait ++ [.outside (.tick 1000000)]

/-- The run is claimed once more, and the step behind the wait is called. -/
def calledBehind (now : Time) : List (Move Doc Unit) :=
  [.claim worker 1 (fun _ => "d") now false, .turn "d" .advance, .turn "d" (.invoke () [])]

theorem event_outcome_decided :
    (∃ y y₁ y' k k', aboutToCommit.foldlM (step waitThenStep) (init 0) = some y ∧
      Decides waitThenStep y y₁ "r" 0 (some .timedOut) ∧
      calledTwice.foldlM (step waitThenStep) y₁ = some y' ∧ k ∈ y'.calls ∧ k' ∈ y'.calls ∧
      k.ctx.raw "e" = some (receivedBytes (text Doc.timedOut)) ∧
      k'.ctx.raw "e" = some (text (Doc.received .timedOut)) ∧
      k.ctx.Reports "e" (some Doc.timedOut) ∧ k'.ctx.Reports "e" (some Doc.timedOut)) ∧
    (∃ y y₁ y' k, aboutToEmit.foldlM (step waitThenStep) (init 0) = some y ∧
      Decides waitThenStep y y₁ "r" 0 (some .timedOut) ∧
      (calledBehind 0).foldlM (step waitThenStep) y₁ = some y' ∧ k ∈ y'.calls ∧ k.index = 1 ∧
      k.ctx.Reports "e" (some Doc.timedOut)) ∧
    ∃ y y₁ y' k, aboutToTimeOut.foldlM (step waitThenStep) (init 0) = some y ∧
      Decides waitThenStep y y₁ "r" 0 none ∧
      (calledBehind 1000000).foldlM (step waitThenStep) y₁ = some y' ∧ k ∈ y'.calls ∧
      k.index = 1 ∧ k.ctx.Reports "e" (none : Option Doc) := by
  have htold : ∀ {y y₁ y' : System Doc Unit} {o : Option Doc} {k : Call Unit},
      y.Reachable waitThenStep → Decides waitThenStep y y₁ "r" 0 o →
      Reaches (step waitThenStep) y₁ y' → k ∈ y'.calls → k.run = "r" → k.index = 1 →
      k.ctx.Reports "e" o := by
    intro y y₁ y' o k hy hdecides hreach hk hrun hindex
    obtain ⟨-, -, -, hreports⟩ := event_outcome hy
    obtain ⟨name, key, timeout, hop, hcalls⟩ := hreports y₁ "r" 0 o hdecides
    obtain rfl := waitThenStep_name hop
    exact hcalls y' hreach k hk hrun (by omega)
  refine ⟨?_, ?_, ?_⟩
  · have hrun : ((aboutToCommit.foldlM (step waitThenStep) (init 0)).any fun y =>
        (y.srv.txs.get (.wait "c")).any fun tx =>
        (y.step waitThenStep (.commit "c" false)).any fun y₁ =>
        (calledTwice.foldlM (step waitThenStep) y₁).any fun y' =>
        decide (tx.job = .wait "c" "r" 0 1 false) &&
        decide (tx.phase = .wrote (Server.waitWrite (some Doc.timedOut) tx.key 0 1 false) 0) &&
        (y'.calls.any fun k => decide (k.run = "r" ∧ k.index = 1 ∧
          k.ctx.raw "e" = some (receivedBytes (text Doc.timedOut)))) &&
        y'.calls.any fun k => decide (k.run = "r" ∧ k.index = 1 ∧
          k.ctx.raw "e" = some (text (Doc.received .timedOut)))) = true := by
      decide +kernel
    simp only [Option.any_eq_true, List.any_eq_true, Bool.and_eq_true, decide_eq_true_eq] at hrun
    obtain ⟨y, hy, tx, htx, y₁, hstep, y', hy', ⟨⟨hjob, hphase⟩, k, hk, hkrun, hkindex, hraw⟩,
      k', hk', hkrun', hkindex', hraw'⟩ := hrun
    have hdecides := Decides.found hstep htx hjob hphase
    exact ⟨y, y₁, y', k, k', hy, hdecides, hy', hk, hk', hraw, hraw',
      htold (.of_run 0 _ hy) hdecides (.of_run _ hy') hk hkrun hkindex,
      htold (.of_run 0 _ hy) hdecides (.of_run _ hy') hk' hkrun' hkindex'⟩
  · have hrun : ((aboutToEmit.foldlM (step waitThenStep) (init 0)).any fun y =>
        (y.srv.txs.get (.emit 0)).any fun tx => (y.srv.db.run "r").any fun r =>
        (y.step waitThenStep (.outside (.commit (.emit 0)))).any fun y₁ =>
        ((calledBehind 0).foldlM (step waitThenStep) y₁).any fun y' => y'.calls.any fun k =>
        decide (tx.job = .emit 0 .timedOut ∧ r.state = .waitingEvent ∧
          r.waitingEventKey = some tx.key ∧ r.waitingDeadline = some 1000000 ∧
          tx.start < 1000000 ∧ r.stepIndex = 0 ∧ k.run = "r" ∧ k.index = 1)) = true := by
      decide +kernel
    simp only [Option.any_eq_true, List.any_eq_true, decide_eq_true_eq] at hrun
    obtain ⟨y, hy, tx, htx, r, hr, y₁, hstep, y', hy', k, hk, hjob, hwait, hkey, hdeadline, htime,
      hindex, hkrun, hkindex⟩ := hrun
    have hdecides := Decides.emitted hstep htx hjob hr hwait hkey hdeadline htime
    rw [hindex] at hdecides
    exact ⟨y, y₁, y', k, hy, hdecides, hy', hk, hkindex,
      htold (.of_run 0 _ hy) hdecides (.of_run _ hy') hk hkrun hkindex⟩
  · have hrun : ((aboutToTimeOut.foldlM (step waitThenStep) (init 0)).any fun y =>
        (y.srv.db.run "r").any fun r =>
        (y.step waitThenStep (.outside (.promoteTimedOut 1000000))).any fun y₁ =>
        (y₁.srv.db.run "r").any fun r₁ =>
        ((calledBehind 1000000).foldlM (step waitThenStep) y₁).any fun y' => y'.calls.any fun k =>
        decide (r.state = .waitingEvent ∧ r.stepIndex = 0 ∧ r₁.state ≠ .waitingEvent ∧
          k.run = "r" ∧ k.index = 1)) = true := by
      decide +kernel
    simp only [Option.any_eq_true, List.any_eq_true, decide_eq_true_eq] at hrun
    obtain ⟨y, hy, r, hr, y₁, hstep, r₁, hr₁, y', hy', k, hk, hwait, hindex, hwoken, hkrun,
      hkindex⟩ := hrun
    have hdecides := Decides.promoted hstep hr hwait hr₁ hwoken
    rw [hindex] at hdecides
    exact ⟨y, y₁, y', k, hy, hdecides, hy', hk, hkindex,
      htold (.of_run 0 _ hy) hdecides (.of_run _ hy') hk hkrun hkindex⟩

end System

end DurablePg

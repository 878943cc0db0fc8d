import DurablePg.EventLog
import DurablePg.Lifecycle
import DurablePg.Replay

/-!
Delivery of events: no event is lost between the registration of a wait and its emission.

A registration and an emission on one key exclude each other by the key's lock. So an emission
sees every wait registered before it and wakes it, unless the deadline has passed, and a
registration sees every event emitted before it.
-/

namespace DurablePg

open DurablePg.Lib

variable {J Ω : Type} [Jsonb J]

lemma View.Moves.waiting {v v' : View J} {ch : Change J} (hm : v.Moves ch v') {r' : Row J}
    (hr' : v'.row = some r') (hs : r'.state = .waitingEvent) :
    (∃ r, v.row = some r ∧ r.state = .waitingEvent ∧ r'.stepIndex = r.stepIndex ∧
      r'.waitingEventKey = r.waitingEventKey ∧ r'.waitingDeadline = r.waitingDeadline) ∨
    ∃ token i key ms now clock, ch = .wrote token (.parkWait i key ms) now clock ∧
      r'.stepIndex = i ∧ r'.waitingEventKey = some key ∧
      r'.waitingDeadline = some (now + millis ms) := by
  cases hm with
  | inserted n now => cases hr'; cases hs
  | updated ch r u hrow hu hg =>
    cases hr'
    cases ch with
    | inserted => cases hu
    | touched | renewed => cases hu; exact Or.inl ⟨r, hrow, hs, rfl, rfl, rfl⟩
    | claimed | cancelled | delivered | timedOut => cases hu; cases hs
    | recovered now clock =>
      cases hu
      simp only [recoverLeases] at hs
      split at hs <;> cases hs
    | wrote token w now clock =>
      have hleased : r.state = .leased := of_decide_eq_true (Change.finds_of_guard hu hg)
      cases hu
      cases w with
      | parkWait i key ms =>
        exact Or.inr ⟨token, i, key, ms, now, clock, rfl, rfl, rfl, rfl⟩
      | commitStep i x complete =>
        cases complete
        · change r.state = .waitingEvent at hs
          rw [hleased] at hs; cases hs
        · cases hs
      | completeRun | parkSleep => cases hs
      | failOrRetry attempt ms msg =>
        simp only [Write.update, failOrRetry] at hs
        split at hs <;> cases hs

/-- What becomes of a run that waits. -/
inductive View.Awaits (v : View J) (r : Row J) : Change J → View J → Prop
  | touched (now : Time) : Awaits v r (.touched now) ⟨some { r with updatedAt := now }, v.cps⟩
  | cancelled (now : Time) {r' : Row J} (hs : r'.state = .cancelled) :
    Awaits v r (.cancelled now) ⟨some r', v.cps⟩
  | delivered (key : String) (payload : J) (now : Time) {v' : View J}
    (hcps : v'.cps r.stepIndex = (v.cps r.stepIndex).or (some (received payload))) :
    Awaits v r (.delivered key payload now) v'
  | timedOut (now : Time) {v' : View J} (hdue : r.waitingDeadline.any (· ≤ now) = true)
    (hcps : v'.cps r.stepIndex = (v.cps r.stepIndex).or (some DurablePg.timedOut)) :
    Awaits v r (.timedOut now) v'

lemma View.Moves.awaits {v v' : View J} {ch : Change J} (hm : v.Moves ch v') {r : Row J}
    (hr : v.row = some r) (hs : r.state = .waitingEvent) : v.Awaits r ch v' := by
  have hfound := hm.found hr
  rw [hs] at hfound
  cases hm with
  | inserted n now hrow => rw [hrow] at hr; cases hr
  | updated ch r₀ u hrow hu hg =>
    rw [hrow] at hr; cases hr
    -- a change that records nothing leaves the checkpoints as they are
    have hcps : u.record r = none → (fun i => (v.cps i).or (u.recordAt r i)) = v.cps := by
      intro hrec; funext i; simp [Update.recordAt, hrec]
    have hrec : ∀ {x}, u.record r = some (r.stepIndex, x) →
        (v.cps r.stepIndex).or (u.recordAt r r.stepIndex) = (v.cps r.stepIndex).or (some x) := by
      intro x hx; simp [Update.recordAt, hg, hx]
    cases ch with
    | inserted => cases hu
    | touched now => cases hu; rw [hcps rfl]; exact .touched now
    | cancelled now => cases hu; rw [hcps rfl]; exact .cancelled now rfl
    | delivered key payload now => cases hu; exact .delivered key payload now (hrec rfl)
    | timedOut now => cases hu; exact .timedOut now (Bool.and_eq_true_iff.mp hg).2 (hrec rfl)
    | wrote | claimed | renewed | recovered => cases hfound

lemma Life.parked {l : List (Change J)} {v : View J} (h : Life l v) {r : Row J}
    (hr : v.row = some r) (hs : r.state = .waitingEvent) : ∃ token key ms start clock,
      Change.wrote token (.parkWait r.stepIndex key ms) start clock ∈ l ∧
      r.waitingEventKey = some key ∧ r.waitingDeadline = some (start + millis ms) := by
  induction h generalizing r with
  | nil => cases hr
  | snoc hl hm ih =>
    rcases hm.waiting hr hs with ⟨r₀, hr₀, hs₀, hi, hk, hd⟩ |
      ⟨token, i, key, ms, start, clock, rfl, rfl, hk, hd⟩
    · obtain ⟨token, key, ms, start, clock, hmem, hk₀, hd₀⟩ := ih hr₀ hs₀
      rw [hi, hk, hd]
      exact ⟨token, key, ms, start, clock, List.mem_append_left _ hmem, hk₀, hd₀⟩
    · exact ⟨token, key, ms, start, clock,
        List.mem_append_right _ (List.mem_singleton_self _), hk, hd⟩

/-- The action parks nobody outside a registration. -/
def Act.Registers (a : Act J) : Prop :=
  ∀ run token i key ms now, a ≠ .write run token (.parkWait i key ms) now

namespace Server

variable {s s' : Server J} {a : Act J} {run : RunId}

lemma Makes.parked {token : Token} {i : ℕ} {key : String} {ms : ℤ} {now clock : Time}
    (hreg : s.Registering)
    (h : s.Makes a run (.wrote token (.parkWait i key ms) now clock)) :
    a = .write run token (.parkWait i key ms) now ∨ ∃ tx complete, a = .commit (.wait token) ∧
      s.txs.get (.wait token) = some tx ∧ tx.job = .wait token run i ms complete ∧
      tx.phase = .wrote (.parkWait i key ms) clock ∧ tx.key = key ∧ now = tx.start ∧
      Searching s.hist token key none := by
  generalize hch : Change.wrote token (.parkWait i key ms) now clock = ch at h
  cases h with
  | wrote => cases hch; exact Or.inl rfl
  | waited tx token' run index timeoutMs complete w clock' htx hjob hphase =>
    cases hch
    have hid : tx.id = .wait token := by rw [Tx.id, hjob]; rfl
    rw [hid] at htx ⊢
    obtain ⟨found, hw, hsearch⟩ :=
      (hreg token tx run index timeoutMs complete htx hjob).2 _ _ hphase
    rcases found with _ | payload
    · cases hw
      exact Or.inr ⟨tx, complete, rfl, htx, hjob, hphase, rfl, rfl, hsearch⟩
    · cases hw
  | _ => cases hch

/-- An emission about to commit has locked every run that it should wake. -/
def Woken (s : Server J) : Prop :=
  ∀ id tx n payload e woken, s.txs.get id = some tx → tx.job = .emit n payload →
    tx.phase = .emitted e woken → ∀ run r, s.db.run run = some r →
    (wake tx.key payload tx.start).guard r = true → run ∈ woken

lemma Woken.step (hw : s.Woken) (hs : s.Inv) (hreg : s.Registering) (ha : a.Registers)
    (h : s.step a = some s') : s'.Woken := by
  intro id tx n payload e woken htx hjob hphase run r' hr' hg
  rcases emitted_phase h htx hphase with htx₀ | ⟨-, -, hdb, -, -, -, -, hwoken⟩
  · -- the emission holds its key since before the step
    have hold : ∀ r, s.db.run run = some r → r.state = .waitingEvent →
        r'.waitingEventKey = r.waitingEventKey → r'.waitingDeadline = r.waitingDeadline →
        run ∈ woken := by
      intro r hr hs hkey hdead
      refine hw id tx n payload e woken htx₀ hjob hphase run r hr ?_
      simp only [wake, Bool.and_eq_true, decide_eq_true_eq] at hg ⊢
      rw [← hkey, ← hdead]
      exact ⟨⟨hs, hg.1.2⟩, hg.2⟩
    have hwait : r'.state = .waitingEvent ∧ r'.waitingEventKey = some tx.key := by
      simp only [wake, Bool.and_eq_true, decide_eq_true_eq] at hg
      exact hg.1
    obtain ⟨o, ⟨-, hm⟩, hmakes⟩ := step_moved hs.tx h run
    rcases o with _ | ch
    · have hv : s'.view run = s.view run := hm
      exact hold r' ((congrArg View.row hv).symm.trans hr') hwait.1 rfl rfl
    · have hm : (s.view run).Moves ch (s'.view run) := hm
      rcases hm.waiting hr' hwait.1 with ⟨r, hr, hs', -, hkey, hdead⟩ |
        ⟨token, i, key, ms, now, clock, rfl, -, hkey, -⟩
      · exact hold r hr hs' hkey hdead
      · -- a registration on the same key would hold it too
        rcases (hmakes _ rfl).parked hreg with rfl | ⟨tx', complete, -, htx', hjob', hphase', hk, -⟩
        · exact (ha _ _ _ _ _ _ rfl).elim
        · obtain ⟨hmem, hid⟩ := Table.get_eq_some_iff.mp htx₀
          obtain ⟨hmem', hid'⟩ := Table.get_eq_some_iff.mp htx'
          rw [hwait.2] at hkey; cases hkey
          have hids := hs.tx.keys tx hmem tx' hmem' (by simp [Tx.holdsKey, hphase])
            (by simp [Tx.holdsKey, hphase']) hk.symm
          rw [Tx.id, Tx.id, hjob, hjob'] at hids; cases hids
  · rw [hwoken n payload hjob]
    rw [hdb] at hr'
    exact Db.mem_selected.mpr ⟨r', hr', hg⟩

/-! ### Registered waits -/

/-- Every event on the key came no sooner than the deadline. -/
def Late (evs : List (Ev J)) (key : String) (deadline : Time) : Prop :=
  ∀ e clock, Ev.emitted e clock ∈ evs → e.eventKey = key → deadline ≤ clock

omit [Jsonb J] in
lemma Late.append {evs evs' : List (Ev J)} {key : String} {deadline : Time}
    (h : Late evs key deadline) (h' : Late evs' key deadline) :
    Late (evs ++ evs') key deadline := by
  intro e clock hmem hkey
  rcases List.mem_append.mp hmem with hmem | hmem
  · exact h e clock hmem hkey
  · exact h' e clock hmem hkey

/-- How a registered wait stands, given the events since its registration. -/
inductive Registered (s : Server J) (run : RunId) (i : ℕ) (key : String) (deadline : Time)
    (evs : List (Ev J)) : Prop
  | waiting (r : Row J) (hr : s.db.run run = some r) (hs : r.state = .waitingEvent)
    (hi : r.stepIndex = i) (hk : r.waitingEventKey = some key)
    (hd : r.waitingDeadline = some deadline) (hnone : s.db.checkpoint run i = none)
    (hlate : Late evs key deadline)
  | timedOut (h : s.db.checkpoint run i = some timedOut) (hd : deadline ≤ s.clock)
    (hlate : Late evs key deadline)
  | received (x : J) (h : s.db.checkpoint run i = some x) (hx : x ≠ DurablePg.timedOut)
  | ended (r : Row J) (hr : s.db.run run = some r) (hs : r.state.terminal = true)
    (h : s.db.checkpoint run i = none)

lemma delivered_checkpoint {tx : Tx J} {n : ℕ} {payload : J} {e : Event J} {woken : List RunId}
    (htx : s.txs.get tx.id = some tx) (hjob : tx.job = .emit n payload)
    (hphase : tx.phase = .emitted e woken) (h : s.step (.commit tx.id) = some s') {r : Row J}
    (hr : s.db.run run = some r) (hwoken : run ∈ woken)
    (hnone : s.db.checkpoint run r.stepIndex = none) :
    s'.db.checkpoint run r.stepIndex = some (DurablePg.received payload) := by
  generalize ha : Act.commit tx.id = a at h
  cases does h with
  | @emitted tx' n' payload' e' woken' hmem hjob' hphase' =>
    have hid := Act.commit.inj ha
    obtain rfl := tx_of_id htx hmem hid.symm
    rw [hjob] at hjob'; cases hjob'
    rw [hphase] at hphase'; cases hphase'
    refine (exec_checkpoint _ _ _ run r.stepIndex).trans ?_
    change (s.db.checkpoint run r.stepIndex).or ((s.db.run run).bind fun r' =>
      ((wake tx'.key payload tx'.start).pinned woken).recordAt r' r.stepIndex) = _
    rw [hnone, hr]
    simp [Update.recordAt, Update.pinned, wake, Db.run_id hr, hwoken]
  | @waited tx' token run' index timeoutMs complete w clock hmem hjob' =>
    have hid := Act.commit.inj ha
    rw [tx_of_id htx hmem hid.symm, hjob] at hjob'; cases hjob'
  | _ => cases ha

/-- **Step**: a registered wait goes on to stand as it should. -/
lemma Registered.step {i : ℕ} {key : String} {deadline : Time} {evs evs' : List (Ev J)}
    (hreg : s.Registered run i key deadline evs) (hs : s.Inv) (hw : s.Woken) (hheld : s.Holding)
    (h : s.step a = some s') (hhist : s'.hist = s.hist ++ evs') :
    s'.Registered run i key deadline (evs ++ evs') := by
  obtain ⟨evs₁, hevs₁, hfinds, -⟩ := finds hheld h
  obtain rfl := List.append_cancel_left (hhist.symm.trans hevs₁)
  have hclock := clock_le h
  -- a checkpoint stays
  have hsome : ∀ x, s.db.checkpoint run i = some x → s'.db.checkpoint run i = some x := by
    intro x hx
    obtain ⟨o, ⟨-, hm⟩, -⟩ := step_moved hs.tx h run
    rcases o with _ | ch
    · have hv : s'.view run = s.view run := hm
      exact (congrFun (congrArg View.cps hv) i).trans hx
    · exact View.Moves.cps_some hm hx
  cases hreg with
  | received x hx hne => exact .received x (hsome x hx) hne
  | timedOut hx hd hlate =>
    refine .timedOut (hsome _ hx) (hd.trans hclock) (hlate.append fun e clock hmem _ => ?_)
    obtain ⟨rfl, -⟩ := hfinds _ hmem
    exact hd
  | ended r hr hterm hnone =>
    obtain ⟨r', hr', -, hfix⟩ := step_lifecycle hs h hr
    obtain ⟨hf, hcps⟩ := hfix hterm
    exact .ended r' hr' (by rw [hf.state]; exact hterm) ((hcps i).trans hnone)
  | waiting r hr hstate hi hk hd hnone hlate =>
    by_cases hlate' : Late evs' key deadline
    · -- no event in time
      have hlate := hlate.append hlate'
      obtain ⟨o, ⟨-, hm⟩, hmakes⟩ := step_moved hs.tx h run
      rcases o with _ | ch
      · have hv : s'.view run = s.view run := hm
        exact .waiting r ((congrArg View.row hv).trans hr) hstate hi hk hd
          ((congrFun (congrArg View.cps hv) i).trans hnone) hlate
      · have hm : (s.view run).Moves ch (s'.view run) := hm
        have hmk := hmakes ch rfl
        have hcps : (s.view run).cps i = none := hnone
        generalize hv : s'.view run = v' at hm
        have hrow' : s'.db.run run = v'.row := congrArg View.row hv
        have hcps' : s'.db.checkpoint run i = v'.cps i := congrFun (congrArg View.cps hv) i
        cases hm.awaits hr hstate with
        | touched => exact .waiting _ hrow' hstate hi hk hd (hcps'.trans hcps) hlate
        | cancelled _ hs' => exact .ended _ hrow' (by rw [hs']; rfl) (hcps'.trans hcps)
        | delivered _ payload _ hx =>
          rw [hi, hcps] at hx
          exact .received _ (hcps'.trans hx) (Jsonb.received_ne_timedOut payload)
        | timedOut now hdue hx =>
          cases hmk with
          | timedOut _ _ hnow =>
            rw [hi, hcps] at hx
            have hdue : deadline ≤ now := by simpa [hd] using hdue
            exact .timedOut (hcps'.trans hx) ((hdue.trans hnow).trans hclock) hlate
    · -- an emission that began before the deadline has locked the run, and wakes it
      simp only [Late, not_forall, not_le] at hlate'
      obtain ⟨e, clock, hmem, hkey, hlt⟩ := hlate'
      obtain ⟨rfl, tx, n, payload, woken, htx, rfl, hjob, hphase⟩ := hfinds _ hmem
      have hmemtx := (Table.get_eq_some_iff.mp htx).1
      have hready := hs.tx.ready tx hmemtx
      simp only [Tx.Ready, hphase, hjob] at hready
      have hstart := hs.tx.start tx hmemtx
      have hwoken : run ∈ woken := by
        refine hw tx.id tx n payload e woken htx hjob hphase run r hr ?_
        have hkey' : tx.key = key := hready.1.symm.trans hkey
        simp [wake, hstate, hk, hd, hkey', hstart.trans_lt hlt]
      refine .received (DurablePg.received payload) ?_ (Jsonb.received_ne_timedOut payload)
      rw [← hi] at hnone ⊢
      exact delivered_checkpoint htx hjob hphase h hr hwoken hnone

lemma makes_of_mem (hs : s.TxInv) (h : s.step a = some s') {evs : List (Ev J)}
    (hhist : s'.hist = s.hist ++ evs) {ch : Change J} (hmem : Ev.change run ch ∈ evs) :
    s.Makes a run ch ∧ (s.view run).Moves ch (s'.view run) := by
  obtain ⟨o, ⟨hlog, hm⟩, hmakes⟩ := step_moved hs h run
  have hmem : ch ∈ o.toList := by
    rw [log, log, hhist, List.filterMap_append, List.append_cancel_left_eq] at hlog
    rw [← hlog]
    exact List.mem_filterMap.mpr ⟨_, hmem, by simp [Ev.changeOf]⟩
  obtain rfl : o = some ch := by simpa using hmem
  exact ⟨hmakes ch rfl, hm⟩

end Server

/-! ### Reachable states -/

namespace System

variable {reg : Registry Ω} {y y' : System J Ω}

/-- What is written under a token comes from its claim: a statement `drive` or `failOrRetry`
sent, or the statement of a registration, when it commits. -/
lemma Inv.writes (h : y.Inv reg) {m : Move J Ω} (hstep : y.step reg m = some y') :
    y'.srv = y.srv ∨ ∃ a : Act J, y.srv.step a = some y'.srv ∧
      ∀ run token w now clock, y.srv.Makes a run (.wrote token w now clock) →
        ∃ p, y.procs token = some p ∧ p.run.id = run ∧ p.run.token = token ∧
          (p.Sends y.past w ∨ (∃ attempt ms msg, w = .failOrRetry attempt ms msg) ∨
            ∃ tx, a = .commit (.wait token) ∧ y.srv.txs.get (.wait token) = some tx ∧
              tx.phase = .wrote w clock ∧ now = tx.start ∧ p.Waits y.past tx) := by
  cases does hstep with
  | turn => exact Or.inl rfl
  | @outside a s ha hs =>
    refine Or.inr ⟨a, hs, fun run token w now clock hm => ?_⟩
    exact absurd rfl (((Inv.outside_changes ha hm).1 token).2 w now clock)
  | insert _ hs | claim hs | begin _ _ _ hs | lock _ hs | look _ _ hs | statement _ _ hs =>
    exact Or.inr ⟨_, hs, fun run token w now clock hm => by cases hm⟩
  | exec hp hw hs =>
    refine Or.inr ⟨_, hs, fun run token w now clock hm => ?_⟩
    cases hm
    exact ⟨_, hp, rfl, (h.token _ _ hp).1, Or.inl ((h.proc _ _ hp).asks.sent _ hw)⟩
  | execFailure hp hw hs =>
    refine Or.inr ⟨_, hs, fun run token w now clock hm => ?_⟩
    cases hm
    obtain ⟨ms, msg, hfail⟩ := (h.proc _ _ hp).asks.failure _ hw
    exact ⟨_, hp, rfl, (h.token _ _ hp).1, Or.inr (Or.inl ⟨_, ms, msg, hfail⟩)⟩
  | @commit token p s lost hp hs =>
    refine Or.inr ⟨_, hs, fun run token' w now clock hm => ?_⟩
    generalize ha : Act.commit (.wait token) = a at hm
    cases hm with
    | wrote => cases ha
    | waited tx token'' run index timeoutMs complete w clock htx hjob hphase =>
      have hid : tx.id = .wait token' := by rw [Tx.id, hjob]; rfl
      have ha := Act.commit.inj ha
      rw [hid] at ha htx
      cases ha
      obtain ⟨-, -, -, -, hwaits⟩ := (h.proc token p hp).asks.tx tx htx
      have hwaits' := hwaits
      obtain ⟨timeout, -, hjob', -⟩ := hwaits'
      rw [hjob] at hjob'; cases hjob'
      exact ⟨p, hp, rfl, rfl, Or.inr (Or.inr ⟨tx, by rw [hid], htx, hphase, rfl, hwaits⟩)⟩

lemma Inv.registers (h : y.Inv reg) {m : Move J Ω} (hstep : y.step reg m = some y') :
    y'.srv = y.srv ∨ ∃ a : Act J, a.Registers ∧ y.srv.step a = some y'.srv := by
  refine (h.writes hstep).imp_right ?_
  rintro ⟨a, hs, hwrites⟩
  refine ⟨a, fun run token i key ms now he => ?_, hs⟩
  subst he
  obtain ⟨p, -, -, -, hsends | ⟨_, _, _, hw⟩ | ⟨tx, ha, -⟩⟩ := hwrites run token _ now _ (.wrote ..)
  · exact hsends
  · cases hw
  · cases ha

/-- What the history says of registrations. -/
structure Delivers (s : Server J) : Prop where
  woken : s.Woken
  registered : ∀ pre run token i key ms start clock post,
    s.hist = pre ++ .change run (.wrote token (.parkWait i key ms) start clock) :: post →
    Server.Searching pre token key none ∧ s.Registered run i key (start + millis ms) post

lemma Delivers.step (hd : Delivers y.srv) (h : y.Inv reg) {m : Move J Ω}
    (hstep : y.step reg m = some y') : Delivers y'.srv := by
  have hinv := h.srv.inv
  have hheld := h.srv.holding
  have hreg := h.srv.eventInv.registering
  rcases h.registers hstep with heq | ⟨a, ha, hs⟩
  · rw [heq]; exact hd
  refine ⟨hd.woken.step hinv hreg ha hs, fun pre run token i key ms start clock post he => ?_⟩
  obtain ⟨evs, hevs⟩ := Server.hist_grows hs
  rw [hevs] at he
  rcases append_eq_append_cons he with ⟨l, rfl, hl⟩ | ⟨l, hl, rfl⟩
  · -- the registration commits
    have hmem : Ev.change run (.wrote token (.parkWait i key ms) start clock) ∈ evs := by
      rw [hl]; simp
    obtain ⟨hmk, hm⟩ := Server.makes_of_mem hinv.tx hs hevs hmem
    rcases hmk.parked hreg with rfl | ⟨tx, complete, rfl, htx, hjob, hphase, rfl, rfl, hsearch⟩
    · exact (ha _ _ _ _ _ _ rfl).elim
    · obtain ⟨run', w, now, clock', -, hone⟩ := Server.commit_logged hinv.tx hheld hs
      rw [hevs, List.append_cancel_left_eq] at hone
      rw [hone] at hl
      obtain ⟨rfl, rfl⟩ : l = [] ∧ post = [] := by
        rcases l with _ | ⟨x, l⟩
        · simp only [List.nil_append, List.cons.injEq] at hl
          exact ⟨rfl, hl.2.symm⟩
        · simp at hl
      rw [List.append_nil]
      refine ⟨hsearch, ?_⟩
      obtain ⟨r', hr'⟩ := hm.row_some
      have hrow : r'.state = .waitingEvent ∧ r'.stepIndex = i ∧ r'.waitingEventKey = some tx.key ∧
          r'.waitingDeadline = some (tx.start + millis ms) := by
        generalize y'.srv.view run = v' at hm hr'
        cases hm with
        | updated _ r u hrow hu hg => cases hu; cases hr'; exact ⟨rfl, rfl, rfl, rfl⟩
      obtain ⟨wf, -, hc⟩ := (h.step hstep).course hr'
      have hnone := hc.cursor.none_of_waiting hrow.1
      rw [hrow.2.1] at hnone
      exact .waiting r' hr' hrow.1 hrow.2.1 hrow.2.2.1 hrow.2.2.2 hnone fun e clock hmem => by
        cases hmem
  · obtain ⟨hsearch, hregd⟩ := hd.registered pre run token i key ms start clock l hl
    exact ⟨hsearch, hregd.step hinv hd.woken hheld hs hevs⟩

theorem Reachable.delivers (hy : y.Reachable reg) : Delivers y.srv := by
  obtain ⟨clock, h⟩ := hy
  refine (h.invariant (P := fun z => z.Inv reg ∧ Delivers z.srv) ⟨.init clock, ?_, ?_⟩
    fun _ _ _ ih _ hstep => ⟨ih.1.step hstep, ih.2.step ih.1 hstep⟩).2
  · intro id tx n payload e woken htx; cases htx
  · intro pre run token i key ms start clock post he
    simp [System.init, Server.init] at he

/-- **No event is lost**: if a wait that was registered has timed out, every event on its key
that was emitted before the registration looked for one had expired, none was emitted until
the registration committed, and none from then on before the deadline. A wait has at most one
outcome, which stays. -/
theorem no_lost_event (hy : y.Reachable reg) :
    (∀ pre run token i key ms start clock post,
      y.srv.hist = pre ++ .change run (.wrote token (.parkWait i key ms) start clock) :: post →
      ∃ h₁ t h₂, pre = h₁ ++ .looked token key none t :: h₂ ∧
        (∀ k f t', Ev.looked token k f t' ∉ h₂) ∧
        (y.srv.db.checkpoint run i = some timedOut →
          (∀ e te, Ev.emitted e te ∈ h₁ → e.eventKey = key → e.expiresAt ≤ t) ∧
          (∀ e te, Ev.emitted e te ∈ h₂ → e.eventKey ≠ key) ∧
          ∀ e te, Ev.emitted e te ∈ post → e.eventKey = key → start + millis ms ≤ te)) ∧
    (∀ run r, y.srv.db.run run = some r → r.state = .waitingEvent →
      y.srv.db.checkpoint run r.stepIndex = none ∧ ∃ token key ms start clock,
        Change.wrote token (.parkWait r.stepIndex key ms) start clock ∈ y.srv.log run ∧
        r.waitingEventKey = some key ∧ r.waitingDeadline = some (start + millis ms)) ∧
    ∀ run i x y', y.srv.db.checkpoint run i = some x → Reaches (step reg) y y' →
      y'.srv.db.checkpoint run i = some x := by
  have hinv := hy.inv
  refine ⟨fun pre run token i key ms start clock post he => ?_, fun run r hr hs => ⟨?_, ?_⟩,
    fun run i x y' hx h => ?_⟩
  · obtain ⟨⟨h₁, t, h₂, rfl, hlooked, hemitted⟩, hreg⟩ :=
      hy.delivers.registered pre run token i key ms start clock post he
    refine ⟨h₁, t, h₂, rfl, hlooked, fun hout => ⟨?_, hemitted, ?_⟩⟩
    · rw [List.append_assoc, List.cons_append] at he
      exact hinv.srv.eventInv.searched h₁ token key t _ he
    · cases hreg with
      | timedOut _ _ hlate => exact hlate
      | waiting _ _ _ _ _ _ hnone => rw [hnone] at hout; cases hout
      | received x hx hne => rw [hx] at hout; exact absurd (Option.some.inj hout) hne
      | ended _ _ _ hnone => rw [hnone] at hout; cases hout
  · obtain ⟨wf, -, hc⟩ := hinv.course hr
    exact hc.cursor.none_of_waiting hs
  · exact (hinv.srv.inv.life run).parked hr hs
  · obtain ⟨r, hr⟩ := hinv.row_of_checkpoint hx
    obtain ⟨-, -, -, -, hcps⟩ := hy.progress h hr
    exact hcps i x hx

/-- The wait times out, and the event comes too late. -/
def lateEvent : List (Move Doc Unit) :=
  threeClaims.take 14 ++ [.outside (.tick 4000000), .outside (.promoteTimedOut 4000000),
    .emitEvent 0 "k" (utf8 "false"), .outside (.lockEventKey (.emit 0)),
    .outside (.statement (.emit 0)), .outside (.commit (.emit 0))]

/-- The registration of the wait. -/
def registersWait : Ev Doc → Bool
  | .change run (.wrote _ (.parkWait i key ms) start _) =>
    run = "r" && i = 2 && key = "k" && ms = 1 && start = 2000000
  | _ => false

theorem no_lost_event_lateEvent : ∃ y pre token clock post,
    lateEvent.foldlM (step threeOps) (init 0) = some y ∧
    y.srv.db.checkpoint "r" 2 = some .timedOut ∧
    y.srv.hist = pre ++ .change "r" (.wrote token (.parkWait 2 "k" 1) 2000000 clock) :: post ∧
    (y.srv.hist.filterMap Ev.emitted?).length = 1 ∧
    ∀ e te, Ev.emitted e te ∈ post → e.eventKey = "k" → 3000000 ≤ te := by
  have hrun : (lateEvent.foldlM (step threeOps) (init 0)).map (fun y =>
      (y.srv.db.checkpoint "r" 2, (y.srv.hist.filterMap Ev.emitted?).length,
        y.srv.hist.any registersWait)) = some (some .timedOut, 1, true) := by decide +kernel
  obtain ⟨y, hy, hlog⟩ := Option.map_eq_some_iff.mp hrun
  simp only [Prod.mk.injEq] at hlog
  obtain ⟨hout, hone, hany⟩ := hlog
  obtain ⟨ev, hev, hev'⟩ := List.any_eq_true.mp hany
  unfold registersWait at hev'
  split at hev'
  · rename_i run token i key ms start clock
    simp only [Bool.and_eq_true, decide_eq_true_eq] at hev'
    obtain ⟨⟨⟨⟨rfl, rfl⟩, rfl⟩, rfl⟩, rfl⟩ := hev'
    obtain ⟨pre, post, hhist⟩ := List.append_of_mem hev
    obtain ⟨h₁, t, h₂, -, -, htimed⟩ :=
      (no_lost_event (.of_run 0 _ hy)).1 pre _ token _ _ _ _ clock post hhist
    exact ⟨y, pre, token, clock, post, hy, hout, hhist, hone, (htimed hout).2.2⟩
  · cases hev'

end System

end DurablePg

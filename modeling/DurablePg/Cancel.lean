import DurablePg.Inversion
import DurablePg.Lifecycle

/-!
`Cancel`: an `UPDATE` and, if that changed no row, a separate read of the state, with any other
statements in between.
-/

namespace DurablePg

open DurablePg.Lib

variable {J : Type}

/-- What `Cancel` returns. -/
inductive CancelResult
  | outcome (cancelled : Bool) (state : RunState)
  | runNotFound
  /-- A statement failed, or its answer was lost. -/
  | failed
  deriving DecidableEq

/-- Which statement a call sends next. -/
inductive CancelPc
  | cancelRun
  | runState
  | returned (result : CancelResult)
  deriving DecidableEq

structure CancelCall where
  id : RunId
  pc : CancelPc
  deriving DecidableEq

/-- The server, and the calls of `Cancel` made so far. -/
structure Cancels (J : Type) where
  srv : Server J
  calls : List CancelCall

inductive CancelAct (J : Type)
  /-- Any other statement. -/
  | server (a : Act J)
  | call (id : RunId)
  | cancelRun (m : ℕ) (now : Time)
  | runState (m : ℕ)
  | error (m : ℕ)

variable [Jsonb J]

namespace Cancels

def init (clock : Time) : Cancels J := ⟨.init clock, []⟩

def setPc (y : Cancels J) (m : ℕ) (c : CancelCall) (pc : CancelPc) : Cancels J :=
  { y with calls := y.calls.set m { c with pc := pc } }

/-- The `UPDATE` of a call, and whether it changed a row. -/
def cancelRun (y : Cancels J) (m : ℕ) (c : CancelCall) (now : Time) : Option (Cancels J) := do
  let s ← y.srv.step (.cancelRun c.id now)
  let affected := (y.srv.db.run c.id).any (DurablePg.cancelRun c.id now).guard
  some ({ y with srv := s }.setPc m c
    (if affected then .returned (.outcome true .cancelled) else .runState))

def runState (y : Cancels J) (c : CancelCall) : CancelResult :=
  match y.srv.db.run c.id with
  | none => .runNotFound
  | some r => .outcome false r.state

def step (y : Cancels J) : CancelAct J → Option (Cancels J)
  | .server a => (y.srv.step a).map fun s => { y with srv := s }
  | .call id => some { y with calls := y.calls ++ [⟨id, .cancelRun⟩] }
  | .cancelRun m now => do
    let c ← y.calls[m]?
    if c.pc = .cancelRun then y.cancelRun m c now else none
  | .runState m => do
    let c ← y.calls[m]?
    if c.pc = .runState then some (y.setPc m c (.returned (y.runState c))) else none
  | .error m => do
    let c ← y.calls[m]?
    if c.pc = .cancelRun ∨ c.pc = .runState then some (y.setPc m c (.returned .failed)) else none

/-- No run is inserted under an id while a `Cancel` of that id is between its statements. -/
def exclusive (y : Cancels J) : CancelAct J → Bool
  | .server (.insertRun n _) => y.srv.db.runs.rows.any n.conflicts ||
      y.calls.all fun c => c.pc ≠ .runState || c.id ≠ n.id
  | _ => true

variable {y y' z : Cancels J} {clock : Time} {a : CancelAct J} {m : ℕ} {id : RunId}

/-- The runs in question. -/
abbrev Runs (y y' : Cancels J) : Prop := ReachesBy step (fun y a => y.exclusive a = true) y y'

def Returned (y : Cancels J) (m : ℕ) (id : RunId) (result : CancelResult) : Prop :=
  y.calls[m]? = some ⟨id, .returned result⟩

/-- This call moved the run from a state that is not final to `cancelled`. -/
def CancelledBy (clock : Time) (y : Cancels J) (m : ℕ) (id : RunId) : Prop :=
  ∃ z now z' r r', Runs (init clock) z ∧ z.step (.cancelRun m now) = some z' ∧ Runs z' y ∧
    z.srv.db.run id = some r ∧ r.state.terminal = false ∧
    z'.srv.db.run id = some r' ∧ r'.state = .cancelled

/-- What the state of a call says of its run. -/
def Truth (clock : Time) (y : Cancels J) (m : ℕ) (id : RunId) : CancelPc → Prop
  | .cancelRun | .returned .failed => True
  | .runState => ∀ r, y.srv.db.run id = some r → r.state.terminal = true
  | .returned (.outcome true state) => state = .cancelled ∧
      (∃ r, y.srv.db.run id = some r ∧ r.state = .cancelled) ∧ y.CancelledBy clock m id
  | .returned (.outcome false state) => state.terminal = true ∧
      ∃ r, y.srv.db.run id = some r ∧ r.state = state
  | .returned .runNotFound => ∃ z, Runs (init clock) z ∧ Runs z y ∧
      z.calls[m]? = some ⟨id, .runState⟩ ∧ z.srv.db.run id = none

structure Inv (clock : Time) (y : Cancels J) : Prop where
  runs : Runs (init clock) y
  srv : y.srv.Reachable
  truth : ∀ m c, y.calls[m]? = some c → y.Truth clock m c.id c.pc
  /-- At most one call reports that it has cancelled a run. -/
  once : ∀ m m' id st st', y.Returned m id (.outcome true st) →
    y.Returned m' id (.outcome true st') → m = m'

/-! ### Steps -/

lemma srv_step (h : y.step a = some y') : y'.srv = y.srv ∨ ∃ b, y.srv.step b = some y'.srv ∧
    ((∃ n now, b = .insertRun n now) → a = .server b) := by
  cases a with
  | server b =>
    obtain ⟨s, hs, rfl⟩ := Option.map_eq_some_iff.mp h
    exact Or.inr ⟨b, hs, fun _ => rfl⟩
  | call id => cases h; exact Or.inl rfl
  | cancelRun m now =>
    obtain ⟨c, -, h⟩ := Option.bind_eq_some_iff.mp h
    obtain ⟨-, h⟩ := Option.ite_none_right_eq_some.mp h
    obtain ⟨s, hs, h⟩ := Option.bind_eq_some_iff.mp h
    cases h
    exact Or.inr ⟨_, hs, fun ⟨n, now, he⟩ => by cases he⟩
  | runState m | error m =>
    obtain ⟨c, -, h⟩ := Option.bind_eq_some_iff.mp h
    obtain ⟨-, h⟩ := Option.ite_none_right_eq_some.mp h
    cases h; exact Or.inl rfl

lemma state_step (hy : y.srv.Reachable) (h : y.step a = some y') {r : Row J}
    (hr : y.srv.db.run id = some r) (hterm : r.state.terminal = true) :
    ∃ r', y'.srv.db.run id = some r' ∧ r'.state = r.state := by
  rcases srv_step h with heq | ⟨b, hs, -⟩
  · exact ⟨r, by rw [heq]; exact hr, rfl⟩
  · obtain ⟨r', hr', -, hfix⟩ := Server.step_lifecycle hy.inv hs hr
    exact ⟨r', hr', (hfix hterm).1.state⟩

lemma Truth.step {pc : CancelPc} (ht : y.Truth clock m id pc) (hy : y.srv.Reachable)
    (hcall : y.calls[m]? = some ⟨id, pc⟩) (ha : y.exclusive a = true) (h : y.step a = some y') :
    y'.Truth clock m id pc := by
  have hruns : ∀ z, Runs z y → Runs z y' := fun z hz => hz.snoc ha h
  cases pc with
  | cancelRun => trivial
  | runState =>
    intro r' hr'
    rcases hr : y.srv.db.run id with _ | r
    · -- a row that was not there has been inserted
      rcases srv_step h with heq | ⟨b, hs, hb⟩
      · rw [heq, hr] at hr'; cases hr'
      · obtain ⟨n, now, rfl, rfl, -, hnew⟩ := Server.inserted_of_none hy.inv.tx hs hr hr'
        rw [hb ⟨n, now, rfl⟩] at ha
        simp only [exclusive, hnew, Bool.false_or, List.all_eq_true] at ha
        have hfree := ha _ (List.mem_of_getElem? hcall)
        simp at hfree
    · obtain ⟨r₁, hr₁, hstate⟩ := state_step hy h hr (ht r hr)
      rw [hr'] at hr₁; cases hr₁
      rw [hstate]; exact ht r hr
  | returned result =>
    cases result with
    | outcome cancelled state =>
      cases cancelled with
      | true =>
        obtain ⟨hstate, ⟨r, hr, hcancelled⟩, z, now, z', r₀, r₁, hz, hstep, hz', hrest⟩ := ht
        obtain ⟨r', hr', hstate'⟩ := state_step hy h hr (by rw [hcancelled]; rfl)
        exact ⟨hstate, ⟨r', hr', hstate'.trans hcancelled⟩, z, now, z', r₀, r₁, hz, hstep,
          hruns z' hz', hrest⟩
      | false =>
        obtain ⟨hterm, r, hr, hstate⟩ := ht
        obtain ⟨r', hr', hstate'⟩ := state_step hy h hr (by rw [hstate]; exact hterm)
        exact ⟨hterm, r', hr', hstate'.trans hstate⟩
    | runNotFound =>
      obtain ⟨z, hz, hz', hrest⟩ := ht
      exact ⟨z, hz, hruns z hz', hrest⟩
    | failed => trivial

lemma cancelRun_truth (hi : y.Inv clock) {now : Time} (hcall : y.calls[m]? = some ⟨id, .cancelRun⟩)
    (h : y.step (.cancelRun m now) = some y') : ∃ pc, y'.calls = y.calls.set m ⟨id, pc⟩ ∧
      y'.Truth clock m id pc ∧
      ∀ st, pc = .returned (.outcome true st) → ∃ r, y.srv.db.run id = some r ∧
        r.state.terminal = false := by
  have hstep := h
  obtain ⟨c, hc, h⟩ := Option.bind_eq_some_iff.mp h
  rw [hcall] at hc; cases hc
  obtain ⟨-, h⟩ := Option.ite_none_right_eq_some.mp h
  obtain ⟨s, hs, h⟩ := Option.bind_eq_some_iff.mp h
  have hsrv : y'.srv = s := by cases h; rfl
  have hcalls : y'.calls = y.calls.set m ⟨id,
      if (y.srv.db.run id).any (DurablePg.cancelRun id now).guard
      then .returned (.outcome true .cancelled) else .runState⟩ := by cases h; rfl
  have hrun : y'.srv.db.run id = (y.srv.db.run id).map fun r =>
      if (DurablePg.cancelRun id now).guard r then (DurablePg.cancelRun id now).set r else r := by
    rw [hsrv]
    cases Server.does hs with
    | cancel => exact Server.exec_run _ _ _ id
  refine ⟨_, hcalls, ?_⟩
  rcases hr : y.srv.db.run id with _ | r
  · -- there is no such run
    refine ⟨fun r' hr' => ?_, fun st hst => by simp at hst⟩
    rw [hrun, hr] at hr'; cases hr'
  rw [hr, Option.map_some] at hrun
  by_cases hg : (DurablePg.cancelRun id now).guard r = true
  · rw [if_pos hg] at hrun
    have hterm : r.state.terminal = false := by
      cases hstate : r.state <;> simp_all [DurablePg.cancelRun, RunState.terminal]
    rw [Option.any_some, if_pos hg]
    exact ⟨⟨rfl, ⟨_, hrun, rfl⟩, y, now, y', r, _, hi.runs, hstep, .refl, hr, hterm, hrun, rfl⟩,
      fun _ _ => ⟨r, rfl, hterm⟩⟩
  · -- the run has ended
    rw [Option.any_some, if_neg hg]
    refine ⟨fun r' hr' => ?_, fun st hst => by simp at hst⟩
    rw [hrun, if_neg hg] at hr'; cases hr'
    have hid := Db.run_id hr
    cases hstate : r.state <;> simp_all [DurablePg.cancelRun, RunState.terminal]

lemma Inv.move (hi : y.Inv clock) (ha : y.exclusive a = true) (h : y.step a = some y')
    (hsrv : y'.srv.Reachable) {pc : CancelPc} (hcalls : y'.calls = y.calls.set m ⟨id, pc⟩)
    (ht : y'.Truth clock m id pc)
    (hnew : ∀ st, pc = .returned (.outcome true st) → ∃ r, y.srv.db.run id = some r ∧
      r.state.terminal = false) : y'.Inv clock := by
  have hcases : ∀ (n : ℕ) c, y'.calls[n]? = some c →
      (n = m ∧ c = ⟨id, pc⟩) ∨ y.calls[n]? = some c := by
    intro n c hc
    rw [hcalls, List.getElem?_set] at hc
    split at hc
    · rename_i hmn
      exact Or.inl ⟨hmn.symm, (Option.some.inj (Option.ite_none_right_eq_some.mp hc).2).symm⟩
    · exact Or.inr hc
  -- a run that a call has reported cancelled is not cancelled again
  have hfresh : ∀ n id' st st', y.Returned n id' (.outcome true st) →
      (⟨id', .returned (.outcome true st')⟩ : CancelCall) ≠ ⟨id, pc⟩ := by
    rintro n id' st st' hn ⟨⟩
    obtain ⟨-, ⟨r, hr, hstate⟩, -⟩ := hi.truth n _ hn
    obtain ⟨r', hr', hterm⟩ := hnew st' rfl
    rw [hr] at hr'; cases hr'
    rw [hstate] at hterm; cases hterm
  refine ⟨hi.runs.snoc ha h, hsrv, fun n c hc => ?_, fun n n' id' st st' hn hn' => ?_⟩
  · rcases hcases n c hc with ⟨rfl, rfl⟩ | hc
    · exact ht
    · exact (hi.truth n c hc).step hi.srv hc ha h
  · rcases hcases n _ hn with ⟨rfl, heq⟩ | hn <;> rcases hcases n' _ hn' with ⟨rfl, heq'⟩ | hn'
    · rfl
    · exact absurd heq (hfresh n' id' st' st hn')
    · exact absurd heq' (hfresh n id' st st' hn)
    · exact hi.once n n' id' st st' hn hn'

lemma Inv.keep (hi : y.Inv clock) (ha : y.exclusive a = true) (h : y.step a = some y')
    (hsrv : y'.srv.Reachable)
    (hcalls : ∀ (n : ℕ) c, y'.calls[n]? = some c → y.calls[n]? = some c ∨ c.pc = .cancelRun) :
    y'.Inv clock := by
  refine ⟨hi.runs.snoc ha h, hsrv, fun n c hc => ?_, fun n n' id' st st' hn hn' => ?_⟩
  · rcases hcalls n c hc with hc | hpc
    · exact (hi.truth n c hc).step hi.srv hc ha h
    · rw [hpc]; trivial
  · rcases hcalls n _ hn with hn | hpc
    · rcases hcalls n' _ hn' with hn' | hpc
      · exact hi.once n n' id' st st' hn hn'
      · cases hpc
    · cases hpc

/-- **Step**: every call says the truth about its run. -/
lemma Inv.step (hi : y.Inv clock) (ha : y.exclusive a = true) (h : y.step a = some y') :
    y'.Inv clock := by
  have hsrv : y'.srv.Reachable := by
    rcases srv_step h with heq | ⟨b, hs, -⟩
    · rw [heq]; exact hi.srv
    · obtain ⟨clock', hreach⟩ := hi.srv
      exact ⟨clock', hreach.snoc trivial hs⟩
  have hstep := h
  cases a with
  | server b =>
    obtain ⟨s, hs, rfl⟩ := Option.map_eq_some_iff.mp h
    exact hi.keep ha hstep hsrv fun n c hc => Or.inl hc
  | call id =>
    cases h
    refine hi.keep ha hstep hsrv fun n c hc => ?_
    rw [List.getElem?_append] at hc
    split at hc
    · exact Or.inl hc
    · rw [List.mem_singleton.mp (List.mem_of_getElem? hc)]
      exact Or.inr rfl
  | cancelRun m now =>
    obtain ⟨⟨id, pc⟩, hc, h⟩ := Option.bind_eq_some_iff.mp h
    obtain ⟨rfl, -⟩ := Option.ite_none_right_eq_some.mp h
    obtain ⟨pc, hcalls, ht, hnew⟩ := cancelRun_truth hi hc hstep
    exact hi.move ha hstep hsrv hcalls ht hnew
  | runState m =>
    obtain ⟨⟨id, pc⟩, hc, h⟩ := Option.bind_eq_some_iff.mp h
    obtain ⟨rfl, h⟩ := Option.ite_none_right_eq_some.mp h
    have hcalls : y'.calls = y.calls.set m ⟨id, .returned (y.runState ⟨id, .runState⟩)⟩ := by
      cases h; rfl
    have hsame : y'.srv = y.srv := by cases h; rfl
    have ht : ∀ r, y.srv.db.run id = some r → r.state.terminal = true := hi.truth m _ hc
    unfold runState at hcalls
    rcases hr : y.srv.db.run id with _ | r <;> simp only [hr] at hcalls <;>
      refine hi.move ha hstep hsrv hcalls ?_ (fun st hst => by cases hst)
    · exact ⟨y, hi.runs, ReachesBy.snoc .refl ha hstep, hc, hr⟩
    · exact ⟨ht r hr, r, by rw [hsame]; exact hr, rfl⟩
  | error m =>
    obtain ⟨⟨id, pc⟩, hc, h⟩ := Option.bind_eq_some_iff.mp h
    obtain ⟨-, h⟩ := Option.ite_none_right_eq_some.mp h
    cases h
    exact hi.move ha hstep hsrv rfl trivial fun st hst => by cases hst

lemma Runs.inv (h : Runs (init clock) y) : y.Inv clock := by
  have hinit : (init clock : Cancels J).Inv clock :=
    ⟨.refl, ⟨clock, .refl⟩, fun m c hc => by simp [init] at hc,
      fun m m' id st st' hc => by simp [init, Returned] at hc⟩
  exact h.invariant hinit fun y a y' hi ha h => hi.step ha h

lemma stays_cancelled (hy : y.srv.Reachable) (h : Reaches step y y') {r : Row J}
    (hr : y.srv.db.run id = some r) (hstate : r.state = .cancelled) :
    ∃ r', y'.srv.db.run id = some r' ∧ r'.state = .cancelled := by
  have hinv := h.invariant (P := fun z => z.srv.Reachable ∧
      ∃ r', z.srv.db.run id = some r' ∧ r'.state = .cancelled) ⟨hy, r, hr, hstate⟩ ?_
  · exact hinv.2
  · rintro z a z' ⟨⟨clock', hz⟩, r', hr', hstate'⟩ - h
    obtain ⟨r'', hr'', heq⟩ := state_step ⟨clock', hz⟩ h hr' (by rw [hstate']; rfl)
    refine ⟨?_, r'', hr'', heq.trans hstate'⟩
    rcases srv_step h with heq | ⟨b, hs, -⟩
    · rw [heq]; exact ⟨clock', hz⟩
    · exact ⟨clock', hz.snoc trivial hs⟩

/-- **`Cancel` reports the truth**, as long as no run is inserted under its id between its two
statements: a call that says it has cancelled the run has done so, alone, and the run stays
cancelled; a call that says it has not names a final state the run is in; and a call that says
there is no such run was under way when there was none. -/
theorem cancel_truth (h : Runs (init clock) y) :
    (∀ m id st, y.Returned m id (.outcome true st) →
      st = .cancelled ∧ y.CancelledBy clock m id ∧
      (∀ m' st', y.Returned m' id (.outcome true st') → m' = m) ∧
      ∀ y', Reaches step y y' → ∃ r, y'.srv.db.run id = some r ∧ r.state = .cancelled) ∧
    (∀ m id st, y.Returned m id (.outcome false st) →
      st.terminal = true ∧ ∃ r, y.srv.db.run id = some r ∧ r.state = st) ∧
    ∀ m id, y.Returned m id .runNotFound →
      ∃ z, Runs (init clock) z ∧ Runs z y ∧ z.calls[m]? = some ⟨id, .runState⟩ ∧
        z.srv.db.run id = none := by
  have hi := h.inv
  refine ⟨fun m id st hm => ?_, fun m id st hm => hi.truth m _ hm, fun m id hm => hi.truth m _ hm⟩
  obtain ⟨hst, ⟨r, hr, hstate⟩, hby⟩ := hi.truth m _ hm
  exact ⟨hst, hby, fun m' st' hm' => hi.once m' m id st' st hm' hm,
    fun y' hy' => stays_cancelled hi.srv hy' hr hstate⟩

/-- Two calls for a run that waits to be claimed: the first cancels it. -/
theorem cancel_truth_twoCalls : ∃ y : Cancels Doc,
    Runs (init 0) y ∧ y.Returned 0 "r" (.outcome true .cancelled) ∧ y.CancelledBy 0 0 "r" ∧
    y.Returned 1 "r" (.outcome false .cancelled) ∧ y.Returned 2 "s" .runNotFound ∧
    ∃ r, y.srv.db.run "r" = some r ∧ r.state = .cancelled := by
  let acts : List (CancelAct Doc) :=
    [.server (.insertRun ⟨"r", "w", 1, "q", 3, none, .null, none⟩ 0),
    .call "r", .call "r", .cancelRun 0 0, .call "s", .cancelRun 2 0, .cancelRun 1 0, .runState 1,
    .runState 2]
  have hrun : (acts.foldlM (fun (y : Cancels Doc) a => if y.exclusive a then y.step a else none)
      (init 0)).map (·.calls) = some [⟨"r", .returned (.outcome true .cancelled)⟩,
        ⟨"r", .returned (.outcome false .cancelled)⟩, ⟨"s", .returned .runNotFound⟩] := by
    decide +kernel
  obtain ⟨y, hy, hcalls⟩ := Option.map_eq_some_iff.mp hrun
  have hreach : Runs (init 0) y := ReachesBy.of_run _ hy
  have hret : y.Returned 0 "r" (.outcome true .cancelled) := by rw [Returned, hcalls]; rfl
  obtain ⟨-, hby, -, hstays⟩ := (cancel_truth hreach).1 0 "r" .cancelled hret
  exact ⟨y, hreach, hret, hby, by rw [Returned, hcalls]; rfl, by rw [Returned, hcalls]; rfl,
    hstays y .refl⟩

/-- A run inserted under the id between the two statements: the call returns that it has not
cancelled the run, and a state that is not final. -/
theorem inserted_between : ∃ y : Cancels Doc, Reaches step (init 0) y ∧
    y.Returned 0 "r" (.outcome false .ready) ∧
    (y.srv.db.run "r").map (·.state) = some .ready := by
  let acts : List (CancelAct Doc) := [.call "r", .cancelRun 0 0,
    .server (.insertRun ⟨"r", "w", 1, "q", 3, none, .null, none⟩ 0), .runState 0]
  have hrun : (acts.foldlM step (init 0)).map
      (fun (y : Cancels Doc) => (y.calls, (y.srv.db.run "r").map (·.state))) =
      some ([⟨"r", .returned (.outcome false .ready)⟩], some .ready) := by
    decide +kernel
  obtain ⟨y, hy, hyeq⟩ := Option.map_eq_some_iff.mp hrun
  obtain ⟨hcalls, hstate⟩ := Prod.mk.inj hyeq
  exact ⟨y, Reaches.of_run _ hy, by rw [Returned, hcalls]; rfl, hstate⟩

end Cancels

end DurablePg

import DurablePg.Doc
import DurablePg.Engine
import DurablePg.Inversion

/-!
Deduplication: calls of `Enqueue` from any number of engines, with any options, among any other
statements.
-/

namespace DurablePg

open DurablePg.Lib

variable {J Ω : Type}

/-! ### Enqueue -/

/-- The arguments of a call, and what `newUUID` returns in it. -/
structure EnqueueCall where
  engine : Engine
  name : String
  rawInput : Bytes
  opts : List EnqueueOption
  newUUID : RunId

def EnqueueCall.key (c : EnqueueCall) : String := (c.engine.options c.opts).idempotencyKey

inductive EnqueueOutcome
  | ok (id : RunId)
  /-- The statement has committed, but its answer is lost. -/
  | lost (id : RunId)
  /-- The call sends no statement. -/
  | invalid (msg : String)
  /-- The statement fails. -/
  | refused
  deriving DecidableEq

/-- The run that a call that took effect has inserted or found. -/
def EnqueueOutcome.effect : EnqueueOutcome → Option RunId
  | .ok id | .lost id => some id
  | .invalid _ | .refused => none

structure Enqueued where
  call : EnqueueCall
  outcome : EnqueueOutcome

/-- What the connection makes of a statement. -/
inductive Fate
  | answered
  | lost
  | failed
  deriving DecidableEq

section Statement

variable (s : Server J) (n : NewRun J) (now : Time)

/-- `RETURNING .. (xmax = 0) AS inserted`: the row in conflict, or the new one. -/
def Server.returning : Row J × Bool :=
  match s.db.runs.rows.find? n.conflicts with
  | some r => (r, false)
  | none => (n.row now, true)

/-- The queues that `insertRun` notifies. -/
def Server.notifies : List String :=
  match s.returning n now with
  | (r, inserted) => if inserted && r.nextRunAt ≤ now then [r.queue] else []

/-- A constraint refuses the statement. -/
def Server.refuses : Bool :=
  !n.storable || (!s.db.runs.rows.any n.conflicts && (s.db.run n.id).isSome)

end Statement

/-- The server, the queues that `Enqueue` has notified, and the calls so far, in the order in
which their statements ran. -/
structure Producers (J : Type) where
  srv : Server J
  notified : List String
  calls : List Enqueued

inductive ProducerAct (J : Type)
  /-- Any statement but `insertRun`. -/
  | server (a : Act J)
  | enqueue (c : EnqueueCall) (fate : Fate) (now : Time)

/-- At most one run per workflow name and deduplication key. -/
def Server.Deduped (s : Server J) : Prop :=
  ∀ run run' r r', s.db.run run = some r → s.db.run run' = some r' →
    r.workflowName = r'.workflowName → r.dedupKey = r'.dedupKey → r.dedupKey.isSome = true →
    run = run'

variable [Jsonb J]

namespace Server

variable {s s' : Server J} {a : Act J}

omit [Jsonb J] in
lemma not_conflicts {n : NewRun J} (h : s.db.runs.rows.any n.conflicts = false) {run : RunId}
    {r : Row J} (hr : s.db.run run = some r) (hname : r.workflowName = n.workflowName)
    (hkey : r.dedupKey = n.dedupKey) : n.dedupKey = none := by
  have hnot := List.any_eq_false.mp h r (Db.mem_of_run hr)
  simpa [NewRun.conflicts, hname, hkey] using hnot

/-- **Step**: the key of a new run is not in use. -/
lemma Deduped.step (hs : s.TxInv) (hd : s.Deduped) (h : s.step a = some s') : s'.Deduped := by
  intro run run' r r' hr hr' hname hkey hsome
  rcases hold : s.db.run run with _ | r₀ <;> rcases hold' : s.db.run run' with _ | r₀'
  · -- one statement inserts one run
    obtain ⟨n, now, rfl, hid, -⟩ := inserted_of_none hs h hold hr
    obtain ⟨n', now', heq, hid', -⟩ := inserted_of_none hs h hold' hr'
    cases heq
    exact hid.symm.trans hid'
  · obtain ⟨n, now, rfl, hid, rfl, hnew⟩ := inserted_of_none hs h hold hr
    obtain ⟨r₁, hr₁, hkeeps⟩ := step_keeps hs h hold'
    rw [hr'] at hr₁; cases hr₁
    have hnone := not_conflicts hnew hold' (hkeeps.workflowName.symm.trans hname.symm)
      (hkeeps.dedupKey.symm.trans hkey.symm)
    rw [show (n.row now).dedupKey = n.dedupKey from rfl, hnone] at hsome
    cases hsome
  · obtain ⟨n, now, rfl, hid, rfl, hnew⟩ := inserted_of_none hs h hold' hr'
    obtain ⟨r₁, hr₁, hkeeps⟩ := step_keeps hs h hold
    rw [hr] at hr₁; cases hr₁
    have hnone := not_conflicts hnew hold (hkeeps.workflowName.symm.trans hname)
      (hkeeps.dedupKey.symm.trans hkey)
    rw [hkey, show (n.row now).dedupKey = n.dedupKey from rfl, hnone] at hsome
    cases hsome
  · obtain ⟨r₁, hr₁, hkeeps⟩ := step_keeps hs h hold
    rw [hr] at hr₁; cases hr₁
    obtain ⟨r₁, hr₁, hkeeps'⟩ := step_keeps hs h hold'
    rw [hr'] at hr₁; cases hr₁
    refine hd run run' r₀ r₀' hold hold' ?_ ?_ ?_
    · rw [← hkeeps.workflowName, ← hkeeps'.workflowName, hname]
    · rw [← hkeeps.dedupKey, ← hkeeps'.dedupKey, hkey]
    · rw [← hkeeps.dedupKey]; exact hsome

lemma Reachable.deduped (h : s.Reachable) : s.Deduped := by
  obtain ⟨clock, hreach⟩ := h
  have hinit : (init clock : Server J).Inv ∧ (init clock : Server J).Deduped :=
    ⟨inv_init clock, fun run run' r r' hr => by cases hr⟩
  exact (hreach.invariant (P := fun s => s.Inv ∧ s.Deduped) hinit fun s a s' hs _ h =>
    ⟨inv_step hs.1 h, hs.2.step hs.1.tx h⟩).2

lemma insertRun_cases {n : NewRun J} {now : Time} (h : s.step (.insertRun n now) = some s') :
    (∃ r, s.returning n now = (r, false) ∧ s.db.run r.id = some r ∧ n.conflicts r = true ∧
      s' = s.exec (n.touch now) fun _ => .touched now) ∨
    (s.returning n now = (n.row now, true) ∧ s.db.runs.rows.any n.conflicts = false ∧
      s'.db.run n.id = some (n.row now)) := by
  replace h : s.insertRun n now = some s' := (Option.ite_none_right_eq_some.mp h).2
  unfold insertRun at h
  split at h
  · cases h
  unfold returning
  rcases hfind : s.db.runs.rows.find? n.conflicts with _ | r
  · have hnew : s.db.runs.rows.any n.conflicts = false :=
      List.any_eq_false.mpr fun r hr => List.find?_eq_none.mp hfind r hr
    rw [hnew, if_neg Bool.false_ne_true] at h
    split at h
    · cases h
    · rename_i hnone
      cases h
      refine Or.inr ⟨rfl, hnew, ?_⟩
      have hnone : s.db.runs.get n.id = none := by simpa [Db.run] using hnone
      change (s.db.runs.insert (n.row now)).get n.id = _
      rw [Table.get_insert, hnone]
      exact if_pos rfl
  · have hr := List.mem_of_find?_eq_some hfind
    have hconf := List.find?_some hfind
    rw [if_pos (List.any_eq_true.mpr ⟨r, hr, hconf⟩)] at h
    obtain ⟨-, h⟩ := Option.ite_none_right_eq_some.mp h
    exact Or.inl ⟨r, rfl, Db.run_of_mem hr, hconf, (Option.some.inj h).symm⟩

end Server

/-! ### Producers -/

section Producers

-- every definition there is, and how the server reads the text of a UUID
variable (reg : Registry Ω) (uuid : String → Option RunId)

/-- The parameters of `insertRun`, as the server reads them. -/
def EnqueueCall.newRun (c : EnqueueCall) : Except String (NewRun J) := do
  let n ← c.engine.enqueue reg c.name c.rawInput c.opts c.newUUID
  match uuid n.id with
  | none => .error "durablepg: enqueue: invalid input syntax for type uuid"
  | some id => .ok { n with id := id }

/-- The row has the columns that the call has sent. -/
def EnqueueCall.StoredAs (c : EnqueueCall) (r : Row J) : Prop :=
  ∃ n now, c.newRun reg uuid = .ok n ∧ (n.row now).Keeps r

namespace Producers

def init (clock : Time) : Producers J := ⟨.init clock, [], []⟩

def answer (p : Producers J) (c : EnqueueCall) (outcome : EnqueueOutcome) : Producers J :=
  { p with calls := p.calls ++ [⟨c, outcome⟩] }

def enqueue (p : Producers J) (c : EnqueueCall) (fate : Fate) (now : Time) :
    Option (Producers J) :=
  match c.newRun reg uuid with
  | .error msg => some (p.answer c (.invalid msg))
  | .ok n =>
    if fate = .failed || p.srv.refuses n then some (p.answer c .refused)
    else do
      let s ← p.srv.step (.insertRun n now)
      let id := (p.srv.returning n now).1.id
      some (answer ⟨s, p.notified ++ p.srv.notifies n now, p.calls⟩ c
        (if fate = .lost then .lost id else .ok id))

def step (p : Producers J) : ProducerAct J → Option (Producers J)
  | .server (.insertRun _ _) => none
  | .server a => (p.srv.step a).map fun s => { p with srv := s }
  | .enqueue c fate now => p.enqueue reg uuid c fate now

omit [Jsonb J] in
/-- The first call with a name and a key that took effect. -/
def first (p : Producers J) (name key : String) : Option Enqueued :=
  p.calls.find? fun e => e.call.name = name && e.call.key = key && e.outcome.effect.isSome

/-- The runs that have a deduplication key are those of the first calls with it. -/
structure Inv (p : Producers J) : Prop where
  srv : p.srv.Reachable
  first : ∀ name key e, key ≠ "" → p.first name key = some e →
    ∃ id r, p.srv.db.run id = some r ∧ e.outcome.effect = some id ∧ e.call.StoredAs reg uuid r
  rows : ∀ id r key, p.srv.db.run id = some r → r.dedupKey = some key →
    key ≠ "" ∧ (p.first r.workflowName key).isSome
  calls : ∀ e ∈ p.calls, ∀ id, e.outcome.effect = some id → e.call.key ≠ "" →
    ∃ e', p.first e.call.name e.call.key = some e' ∧ e'.outcome.effect = some id

variable {reg uuid} {p p' : Producers J} {c : EnqueueCall} {n : NewRun J} {e : Enqueued}

lemma newRun_key (h : c.newRun reg uuid = .ok n) : n.workflowName = c.name ∧
    n.dedupKey = if c.key = "" then none else some c.key := by
  unfold EnqueueCall.newRun at h
  rcases hn : c.engine.enqueue (J := J) reg c.name c.rawInput c.opts c.newUUID with msg | n₀
  · rw [hn] at h; cases h
  · rw [hn] at h
    obtain ⟨hname, -, hkey⟩ := Engine.enqueue_ok hn
    change (match uuid n₀.id with | none => _ | some id => _) = _ at h
    split at h
    · cases h
    · cases h; exact ⟨hname, hkey⟩

lemma storedAs_key {r : Row J} (h : c.StoredAs reg uuid r) (hkey : c.key ≠ "") :
    r.workflowName = c.name ∧ r.dedupKey = some c.key := by
  obtain ⟨n, now, hn, hkeeps⟩ := h
  obtain ⟨hname, hk⟩ := newRun_key hn
  rw [if_neg hkey] at hk
  exact ⟨hkeeps.workflowName.trans hname, hkeeps.dedupKey.trans hk⟩

lemma enqueue_cases {fate : Fate} {now : Time} (h : p.enqueue reg uuid c fate now = some p') :
    (∃ o, o.effect = none ∧ p' = p.answer c o) ∨
    ∃ n o, c.newRun reg uuid = .ok n ∧ p.srv.step (.insertRun n now) = some p'.srv ∧
      o.effect = some (p.srv.returning n now).1.id ∧ p'.calls = p.calls ++ [⟨c, o⟩] ∧
      p'.notified = p.notified ++ p.srv.notifies n now := by
  unfold enqueue at h
  split at h
  · cases h; exact Or.inl ⟨_, rfl, rfl⟩
  · rename_i n hn
    split at h
    · cases h; exact Or.inl ⟨_, rfl, rfl⟩
    · obtain ⟨s, hs, h⟩ := Option.bind_eq_some_iff.mp h
      cases h
      refine Or.inr ⟨n, _, hn, hs, ?_, rfl, rfl⟩
      split <;> rfl

omit [Jsonb J] in
lemma first_append (hcalls : p'.calls = p.calls ++ [e]) (name key : String) :
    p'.first name key = (p.first name key).or
      (if e.call.name = name ∧ e.call.key = key ∧ e.outcome.effect.isSome = true then some e
        else none) := by
  unfold first
  rw [hcalls, List.find?_append]
  congr 1
  by_cases hname : e.call.name = name <;> by_cases hkey : e.call.key = key <;>
    by_cases heff : e.outcome.effect.isSome = true <;> simp_all

lemma Inv.stored_step (hi : p.Inv reg uuid) {a : Act J} {s : Server J} (h : p.srv.step a = some s)
    {name key : String} {e : Enqueued} (hkey : key ≠ "") (hfirst : p.first name key = some e) :
    ∃ id r, s.db.run id = some r ∧ e.outcome.effect = some id ∧
      e.call.StoredAs reg uuid r := by
  obtain ⟨id, r, hr, heff, n, now, hn, hkeeps⟩ := hi.first name key e hkey hfirst
  obtain ⟨r', hr', hkeeps'⟩ := Server.step_keeps hi.srv.inv.tx h hr
  exact ⟨id, r', hr', heff, n, now, hn, hkeeps.trans hkeeps'⟩

lemma Inv.server (hi : p.Inv reg uuid) {a : Act J} (hno : ∀ n now, a ≠ .insertRun n now)
    {s : Server J} (h : p.srv.step a = some s) :
    ({ p with srv := s } : Producers J).Inv reg uuid := by
  obtain ⟨clock, hreach⟩ := hi.srv
  refine ⟨⟨clock, hreach.snoc trivial h⟩, fun name key e hkey hf =>
    hi.stored_step h hkey hf, fun id r key hr hkey => ?_, hi.calls⟩
  rcases hold : p.srv.db.run id with _ | r₀
  · obtain ⟨n, now, rfl, -⟩ := Server.inserted_of_none hi.srv.inv.tx h hold hr
    exact absurd rfl (hno n now)
  · obtain ⟨r', hr', hkeeps⟩ := Server.step_keeps hi.srv.inv.tx h hold
    cases hr.symm.trans hr'
    have hrow := hi.rows id r₀ key hold (hkeeps.dedupKey ▸ hkey)
    rw [← hkeeps.workflowName] at hrow
    exact hrow

lemma Inv.answer (hi : p.Inv reg uuid) {o : EnqueueOutcome} (ho : o.effect = none) :
    (p.answer c o).Inv reg uuid := by
  have hfirst : ∀ name key, (p.answer c o).first name key = p.first name key := fun name key => by
    rw [first_append (p := p) rfl, if_neg (by simp [ho]), Option.or_none]
  refine ⟨hi.srv, fun name key e => by rw [hfirst]; exact hi.first name key e,
    fun id r key => by rw [hfirst]; exact hi.rows id r key, fun e he id heff hkey => ?_⟩
  rw [hfirst]
  rcases List.mem_append.mp he with he | he
  · exact hi.calls e he id heff hkey
  · cases List.mem_singleton.mp he
    cases ho.symm.trans heff

omit [Jsonb J] in
lemma first_call {name key : String} (h : p.first name key = some e) :
    e.call.name = name ∧ e.call.key = key := by
  have hmatch := List.find?_some h
  simp only [Bool.and_eq_true, decide_eq_true_eq] at hmatch
  exact hmatch.1

/-- The run in conflict is that of the first call with the key. -/
lemma Inv.found (hi : p.Inv reg uuid) (hn : c.newRun reg uuid = .ok n) {r : Row J}
    (hr : p.srv.db.run r.id = some r) (hconf : n.conflicts r = true) :
    c.key ≠ "" ∧ ∃ e, p.first c.name c.key = some e ∧ e.outcome.effect = some r.id := by
  obtain ⟨hname, hdedup⟩ := newRun_key hn
  simp only [NewRun.conflicts, Bool.and_eq_true, decide_eq_true_eq] at hconf
  obtain ⟨⟨hsome, hrname⟩, hrkey⟩ := hconf
  have hkey : c.key ≠ "" := fun hempty => by simp [hdedup, hempty] at hsome
  rw [if_neg hkey] at hdedup
  have hrow := hi.rows r.id r c.key hr (hrkey.trans hdedup)
  rw [hrname, hname] at hrow
  obtain ⟨e, he⟩ := Option.isSome_iff_exists.mp hrow.2
  obtain ⟨id, r', hr', heff, hstored⟩ := hi.first _ _ e hkey he
  obtain ⟨hename, hekey⟩ := first_call he
  obtain ⟨hname', hkey'⟩ := storedAs_key hstored (by rw [hekey]; exact hkey)
  have hid : id = r.id := hi.srv.deduped id r.id r' r hr' hr
    (by rw [hname', hename, hrname, hname]) (by rw [hkey', hekey, hrkey, hdedup])
    (by rw [hkey']; rfl)
  exact ⟨hkey, e, he, hid ▸ heff⟩

lemma Inv.fresh (hi : p.Inv reg uuid) (hn : c.newRun reg uuid = .ok n)
    (hnew : p.srv.db.runs.rows.any n.conflicts = false) (hkey : c.key ≠ "") :
    p.first c.name c.key = none := by
  obtain ⟨hname, hdedup⟩ := newRun_key hn
  rw [if_neg hkey] at hdedup
  by_contra hfirst
  obtain ⟨e, he⟩ := Option.ne_none_iff_exists'.mp hfirst
  obtain ⟨id, r, hr, -, hstored⟩ := hi.first _ _ e hkey he
  obtain ⟨hename, hekey⟩ := first_call he
  obtain ⟨hname', hkey'⟩ := storedAs_key hstored (by rw [hekey]; exact hkey)
  have hnone := Server.not_conflicts hnew hr (by rw [hname', hename, hname])
    (by rw [hkey', hekey, hdedup])
  rw [hdedup] at hnone; cases hnone

lemma Inv.ran (hi : p.Inv reg uuid) {now : Time} {o : EnqueueOutcome}
    (hn : c.newRun reg uuid = .ok n) (h : p.srv.step (.insertRun n now) = some p'.srv)
    (ho : o.effect = some (p.srv.returning n now).1.id)
    (hcalls : p'.calls = p.calls ++ [⟨c, o⟩]) : p'.Inv reg uuid := by
  obtain ⟨hname, hdedup⟩ := newRun_key hn
  obtain ⟨clock, hreach⟩ := hi.srv
  have hfirst := first_append (p := p) hcalls
  have hold : ∀ name key e, p.first name key = some e → p'.first name key = some e := by
    intro name key e he
    rw [hfirst, he]; rfl
  -- the first call with the key of this one is known in either case
  have hthis : c.key ≠ "" → ∃ e, p'.first c.name c.key = some e ∧ e.outcome.effect = o.effect ∧
      ∃ id r, p'.srv.db.run id = some r ∧ e.outcome.effect = some id ∧
        e.call.StoredAs reg uuid r := by
    intro hkey
    rcases Server.insertRun_cases h with ⟨r, hret, hr, hconf, -⟩ | ⟨hret, hnew, hrow⟩ <;>
      rw [hret] at ho
    · obtain ⟨-, e, he, heff⟩ := hi.found hn hr hconf
      exact ⟨e, hold _ _ e he, heff.trans ho.symm, hi.stored_step h hkey he⟩
    · refine ⟨⟨c, o⟩, ?_, rfl, n.id, n.row now, hrow, ho, n, now, hn, .refl _⟩
      rw [hfirst, hi.fresh hn hnew hkey, Option.none_or]
      exact if_pos ⟨rfl, rfl, by rw [ho]; rfl⟩
  refine ⟨⟨clock, hreach.snoc trivial h⟩, ?_, ?_, ?_⟩
  · intro name key e hkey he
    rcases hprev : p.first name key with _ | e₀
    · rw [hfirst, hprev, Option.none_or, Option.ite_none_right_eq_some] at he
      obtain ⟨⟨rfl, rfl, -⟩, he⟩ := he
      obtain ⟨e', he', -, hstored⟩ := hthis hkey
      rw [hfirst, hprev, Option.none_or, Option.ite_none_right_eq_some] at he'
      cases he; cases he'.2
      exact hstored
    · cases (hold _ _ _ hprev).symm.trans he
      exact hi.stored_step h hkey hprev
  · intro id r key hr hkey
    rcases hrow : p.srv.db.run id with _ | r₀
    · -- the run is the one inserted
      obtain ⟨n', now', heq, -, rfl, -⟩ := Server.inserted_of_none hi.srv.inv.tx h hrow hr
      cases heq
      rw [show (n.row now).dedupKey = n.dedupKey from rfl, hdedup] at hkey
      have hne : c.key ≠ "" := fun hempty => by simp [hempty] at hkey
      rw [if_neg hne] at hkey
      cases hkey
      obtain ⟨e, he, -⟩ := hthis hne
      refine ⟨hne, ?_⟩
      rw [show (n.row now).workflowName = c.name from hname, he]; rfl
    · obtain ⟨r', hr', hkeeps⟩ := Server.step_keeps hi.srv.inv.tx h hrow
      cases hr.symm.trans hr'
      obtain ⟨hne, hsome⟩ := hi.rows id r₀ key hrow (hkeeps.dedupKey ▸ hkey)
      obtain ⟨e, he⟩ := Option.isSome_iff_exists.mp hsome
      refine ⟨hne, ?_⟩
      rw [hkeeps.workflowName, hold _ _ e he]; rfl
  · intro e he id heff hkey
    rw [hcalls] at he
    rcases List.mem_append.mp he with he | he
    · obtain ⟨e', he', heff'⟩ := hi.calls e he id heff hkey
      exact ⟨e', hold _ _ e' he', heff'⟩
    · cases List.mem_singleton.mp he
      obtain ⟨e', he', heff', -⟩ := hthis hkey
      exact ⟨e', he', heff'.trans heff⟩

lemma Inv.enqueue (hi : p.Inv reg uuid) {fate : Fate} {now : Time}
    (h : p.enqueue reg uuid c fate now = some p') : p'.Inv reg uuid := by
  rcases enqueue_cases h with ⟨o, ho, rfl⟩ | ⟨n, o, hn, hs, ho, hcalls, -⟩
  · exact hi.answer ho
  · exact hi.ran hn hs ho hcalls

lemma Inv.step (hi : p.Inv reg uuid) {a : ProducerAct J} (h : p.step reg uuid a = some p') :
    p'.Inv reg uuid := by
  cases a with
  | enqueue c fate now => exact hi.enqueue h
  | server a =>
    cases a with
    | insertRun n now => cases h
    | _ =>
      obtain ⟨s, hs, rfl⟩ := Option.map_eq_some_iff.mp h
      exact hi.server (fun _ _ heq => by cases heq) hs

lemma inv_of_reaches {clock : Time} (h : Reaches (step reg uuid) (init clock) p) :
    p.Inv reg uuid := by
  have hinit : (init clock : Producers J).Inv reg uuid :=
    ⟨⟨clock, .refl⟩, fun name key e _ he => by simp [init, first] at he,
      fun id r key hr => (by cases hr), fun e he => by simp [init] at he⟩
  exact h.invariant hinit fun p a p' hi _ h => hi.step h

lemma Inv.touches (hi : p.Inv reg uuid) {fate : Fate} {now : Time}
    (h : p.enqueue reg uuid c fate now = some p') (hkey : c.key ≠ "")
    (hfirst : (p.first c.name c.key).isSome = true) {o : EnqueueOutcome} {id : RunId}
    (hcalls : p'.calls = p.calls ++ [⟨c, o⟩]) (heff : o.effect = some id) :
    p'.notified = p.notified ∧ p'.srv.txs = p.srv.txs ∧
    p'.srv.db = { p.srv.db with runs := p'.srv.db.runs } ∧
    ∀ id', p'.srv.db.run id' = (p.srv.db.run id').map fun r =>
      if id' = id then { r with updatedAt := now } else r := by
  rcases enqueue_cases h with ⟨o', ho', rfl⟩ | ⟨n, o', hn, hs, ho', hcalls', hnotified⟩
  · have heq : (⟨c, o'⟩ : Enqueued) = ⟨c, o⟩ := by simpa [Producers.answer] using hcalls
    cases heq
    rw [ho'] at heff; cases heff
  have heq : (⟨c, o'⟩ : Enqueued) = ⟨c, o⟩ := by simpa [hcalls'] using hcalls
  cases heq
  obtain ⟨hname, hdedup⟩ := newRun_key hn
  rcases Server.insertRun_cases hs with ⟨r, hret, hr, hconf, hexec⟩ | ⟨-, hnew, -⟩
  · rw [hret, heff] at ho'
    cases ho'
    refine ⟨by rw [hnotified]; simp [Server.notifies, hret], by rw [hexec]; rfl, ?_,
      fun id' => ?_⟩
    · rw [hexec]
      simp [Server.exec, Db.update, Db.recorded, NewRun.touch, Table.insertAll]
    · rw [hexec, Server.exec_run]
      rcases hr' : p.srv.db.run id' with _ | r'
      · rfl
      · -- no other run has the key
        have hiff : n.conflicts r' = true ↔ id' = r.id := by
          refine ⟨fun hconf' => ?_, fun heq => ?_⟩
          · simp only [NewRun.conflicts, Bool.and_eq_true, decide_eq_true_eq] at hconf hconf'
            exact hi.srv.deduped id' r.id r' r hr' hr (by rw [hconf'.1.2, hconf.1.2])
              (by rw [hconf'.2, hconf.2]) (by rw [hconf'.2]; exact hconf'.1.1)
          · rw [heq, hr] at hr'; cases hr'; exact hconf
        by_cases hid : id' = r.id
        · simp [NewRun.touch, hid, hiff.mpr hid]
        · simp [NewRun.touch, hid, hiff]
  · rw [hi.fresh hn hnew hkey] at hfirst; cases hfirst

variable (reg uuid) in
/-- **Deduplication**: in every state there is at most one run per workflow name and key; every
call with the key that took effect has returned that run, whose columns are those of the first
of them; a later one changes nothing but `updated_at` of the run and notifies no one, and a call
without effect changes nothing. -/
theorem dedup {clock : Time} (h : Reaches (step reg uuid) (init clock) p) :
    p.srv.Deduped ∧
    (∀ e ∈ p.calls, ∀ id, e.outcome.effect = some id → e.call.key ≠ "" →
      ∃ r, p.srv.db.run id = some r ∧ r.workflowName = e.call.name ∧
        r.dedupKey = some e.call.key) ∧
    (∀ name key e, key ≠ "" → p.first name key = some e →
      ∃ id r, p.srv.db.run id = some r ∧ e.outcome.effect = some id ∧
        e.call.StoredAs reg uuid r) ∧
    ∀ c fate now p', p.step reg uuid (.enqueue c fate now) = some p' →
      ∃ o, p'.calls = p.calls ++ [⟨c, o⟩] ∧
      (o.effect = none → p'.srv = p.srv ∧ p'.notified = p.notified) ∧
      ∀ id, o.effect = some id → c.key ≠ "" → (p.first c.name c.key).isSome = true →
        p'.notified = p.notified ∧ p'.srv.txs = p.srv.txs ∧
        p'.srv.db = { p.srv.db with runs := p'.srv.db.runs } ∧
        ∀ id', p'.srv.db.run id' = (p.srv.db.run id').map fun r =>
          if id' = id then { r with updatedAt := now } else r := by
  have hi := inv_of_reaches h
  refine ⟨hi.srv.deduped, fun e he id heff hkey => ?_, hi.first, fun c fate now p' hstep => ?_⟩
  · obtain ⟨e', he', heff'⟩ := hi.calls e he id heff hkey
    obtain ⟨id', r, hr, heff'', hstored⟩ := hi.first _ _ e' hkey he'
    cases heff'.symm.trans heff''
    obtain ⟨hname, hkey'⟩ := first_call he'
    obtain ⟨hrname, hrkey⟩ := storedAs_key hstored (by rw [hkey']; exact hkey)
    exact ⟨r, hr, hrname.trans hname, by rw [hrkey, hkey']⟩
  · have hcalls : ∃ o, p'.calls = p.calls ++ [⟨c, o⟩] ∧
        (o.effect = none → p'.srv = p.srv ∧ p'.notified = p.notified) := by
      rcases enqueue_cases hstep with ⟨o, -, rfl⟩ | ⟨n, o, -, -, ho, hcalls, -⟩
      · exact ⟨o, rfl, fun _ => ⟨rfl, rfl⟩⟩
      · exact ⟨o, hcalls, fun hnone => by rw [ho] at hnone; cases hnone⟩
    obtain ⟨o, hcalls, hnone⟩ := hcalls
    exact ⟨o, hcalls, hnone, fun id heff hkey hfirst =>
      hi.touches hstep hkey hfirst hcalls heff⟩

/-- A call with a key whose answer is lost, the run it has enqueued up to its end, the same key
from another engine under another identifier, and the identifier once more without a key. -/
def sameKey : List (ProducerAct Doc) :=
  [.enqueue ⟨⟨"q", 30000000000, [("w", 1)]⟩, "w", utf8 "true", [.withIdempotencyKey "k"], "r"⟩
      .lost 0,
    .server (.claim ⟨"q", 1, 30000, .single "w" 1⟩ (fun _ => "c") 0),
    .server (.write "r" "c" (.completeRun 1 none) 0), .server (.tick 5),
    .enqueue ⟨⟨"p", 30000000000, [("w", 1)]⟩, "w", utf8 "null",
      [.withIdempotencyKey "k", .withRunID "s"], "u"⟩ .answered 5,
    .enqueue ⟨⟨"p", 30000000000, [("w", 1)]⟩, "w", utf8 "null", [.withRunID "r"], "u"⟩
      .answered 5]

theorem dedup_sameKey : ∃ p : Producers Doc, ∃ e r,
    sameKey.foldlM (step (.single "w" 1 [.sleep (1 : ℤ)] : Registry Unit) some) (init 0) = some p ∧
    p.calls.map (·.outcome) = [.lost "r", .ok "r", .refused] ∧ p.notified = ["q"] ∧
    p.first "w" "k" = some e ∧ p.srv.db.run "r" = some r ∧ r.queue = "q" ∧
    e.call.StoredAs (.single "w" 1 [.sleep (1 : ℤ)] : Registry Unit) some r := by
  have hrun : (sameKey.foldlM (step (.single "w" 1 [.sleep (1 : ℤ)] : Registry Unit) some)
      (init 0)).bind (fun p => (p.first "w" "k").bind fun e => (p.srv.db.run "r").map fun r =>
        decide (p.calls.map (·.outcome) = [.lost "r", .ok "r", .refused] ∧ p.notified = ["q"] ∧
          e.outcome.effect = some "r" ∧ r.queue = "q")) = some true := by decide +kernel
  obtain ⟨p, hp, h⟩ := Option.bind_eq_some_iff.mp hrun
  obtain ⟨e, he, h⟩ := Option.bind_eq_some_iff.mp h
  obtain ⟨r, hr, h⟩ := Option.map_eq_some_iff.mp h
  obtain ⟨houtcomes, hnotified, heff, hqueue⟩ := of_decide_eq_true h
  obtain ⟨-, -, hfirst, -⟩ := dedup _ _ (Reaches.of_run _ hp)
  obtain ⟨id, r', hr', heff', hstored⟩ := hfirst "w" "k" e (by decide) he
  cases heff.symm.trans heff'
  cases hr.symm.trans hr'
  exact ⟨p, e, r, hp, houtcomes, hnotified, he, hr, hqueue, hstored⟩

end Producers

end Producers

end DurablePg

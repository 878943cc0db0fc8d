import DurablePg.Lib.Trace
import Mathlib.Data.List.Range

/-!
`ApplySchema`: any number of callers migrate one schema at the same time.

Migrations are numbered from one; a caller knows the first few of them. A migration creates
tables and indexes without `IF NOT EXISTS`, so that it fails where it has been applied. The
existence checks of DDL and of the primary key see what is committed; what a query reads
depends on the isolation level of the server: at `READ COMMITTED` each statement sees what is
committed, at `REPEATABLE READ` every statement sees what was committed when the first
statement of the transaction started, and that statement waits for the advisory lock.
-/

namespace DurablePg

open DurablePg.Lib

inductive Isolation
  | readCommitted | repeatableRead
  deriving DecidableEq

/-- What of the schema is there: the schema itself, the migration history, the migrations whose
DDL has been executed and the versions recorded in the history. -/
structure Schema where
  created : Bool
  history : Bool
  applied : List ℕ
  versions : List ℕ

namespace Schema

def empty : Schema := ⟨false, false, [], []⟩

/-- The schema together with what a transaction has added to it. -/
def merge (d own : Schema) : Schema :=
  ⟨d.created || own.created, d.history || own.history, d.applied ++ own.applied,
    d.versions ++ own.versions⟩

end Schema

/-- The errors of `ApplySchema`; all but the last wrap the error of a statement. -/
inductive ApplyError
  | begin | lock | createSchema | createHistory | readHistory
  | apply (version : ℕ)
  | record (version : ℕ)
  | commit
  | unsupported (version supported : ℕ)
  deriving DecidableEq

def ApplyError.text (schema : String) : ApplyError → String
  | .begin => "durablepg: begin schema migration"
  | .lock => "durablepg: lock schema migration"
  | .createSchema => "durablepg: create schema"
  | .createHistory => "durablepg: create migration history"
  | .readHistory => "durablepg: read migration history"
  | .apply version => "durablepg: apply schema migration " ++ toString version
  | .record version => "durablepg: record schema migration " ++ toString version
  | .commit => "durablepg: commit schema migration"
  | .unsupported version supported =>
    "durablepg: unsupported schema version: schema " ++ schema.quote ++ " is at migration " ++
      toString version ++ "; this version supports up to " ++ toString supported

/-- Where a caller is: which statement it sends next. -/
inductive ApplyPc
  | idle
  | lock
  /-- The lock statement waits. -/
  | locking
  | createSchema | createHistory | readHistory
  /-- At the head of the loop. -/
  | migrate
  | record
  | returned (err : Option ApplyError)
  deriving DecidableEq

/-- The caller has been granted the lock and has not returned. -/
def ApplyPc.inTurn : ApplyPc → Bool
  | .createSchema | .createHistory | .readHistory | .migrate | .record => true
  | _ => false

structure Caller where
  pc : ApplyPc
  /-- The versions in the snapshot of the transaction, at `REPEATABLE READ`. -/
  snapshot : Option (List ℕ)
  version : ℕ
  /-- What the transaction has added and not committed. -/
  own : Schema
  /-- The connection of the caller failed. -/
  broken : Bool

def Caller.init : Caller := ⟨.idle, none, 0, .empty, false⟩

/-- What the next statement makes of a caller that holds the lock. -/
inductive Reply
  | go (c : Caller)
  | fail (err : ApplyError)
  | commit

namespace Caller

/-- The next statement of a caller whose list of migrations has this length. -/
def statement (c : Caller) (len : ℕ) (d : Schema) : Option Reply :=
  match c.pc with
  | .createSchema =>
    some (.go { c with pc := .createHistory, own := { c.own with created := true } })
  | .createHistory =>
    some (.go { c with pc := .readHistory, own := { c.own with history := true } })
  | .readHistory =>
    let version := (c.snapshot.getD d.versions ++ c.own.versions).foldr max 0
    if len < version then some (.fail (.unsupported version len))
    else some (.go { c with pc := .migrate, version := version })
  | .migrate =>
    if c.version < len then
      if c.version + 1 ∈ (d.merge c.own).applied then some (.fail (.apply (c.version + 1)))
      else some (.go { c with
        pc := .record, own := { c.own with applied := c.own.applied ++ [c.version + 1] } })
    else some .commit
  | .record =>
    if c.version + 1 ∈ (d.merge c.own).versions then some (.fail (.record (c.version + 1)))
    else some (.go { c with
      pc := .migrate
      version := c.version + 1
      own := { c.own with versions := c.own.versions ++ [c.version + 1] } })
  | _ => none

/-- The error when the connection fails. -/
def failure (c : Caller) (len : ℕ) : Option ApplyError :=
  match c.pc with
  | .idle => some .begin
  | .lock | .locking => some .lock
  | .createSchema => some .createSchema
  | .createHistory => some .createHistory
  | .readHistory => some .readHistory
  | .migrate => some (if c.version < len then .apply (c.version + 1) else .commit)
  | .record => some (.record (c.version + 1))
  | .returned _ => none

end Caller

structure Migrations where
  db : Schema
  /-- Who holds the advisory lock. -/
  lock : Option ℕ
  callers : ℕ → Caller

inductive MigrateAct
  | call (k : ℕ)
  /-- The lock statement starts, which fixes the snapshot of the transaction. -/
  | request (k : ℕ)
  | grant (k : ℕ)
  | statement (k : ℕ)
  /-- The connection of a caller fails, and the server rolls its transaction back. -/
  | disconnect (k : ℕ)
  /-- The server commits, and the connection fails before its answer arrives. -/
  | loseCommit (k : ℕ)

namespace Migrations

def init : Migrations := ⟨.empty, none, fun _ => .init⟩

def set (s : Migrations) (k : ℕ) (c : Caller) : Migrations :=
  { s with callers := Function.update s.callers k c }

/-- The transaction of a caller ends, without its work unless that is committed, and
`ApplySchema` returns. -/
def finish (s : Migrations) (k : ℕ) (err : Option ApplyError) (broken : Bool) : Migrations :=
  { s.set k { s.callers k with pc := .returned err, own := .empty, broken := broken } with
    lock := if s.lock = some k then none else s.lock }

/-- One step; `len` and `iso` are the length of each caller's list and its isolation level. -/
def step (len : ℕ → ℕ) (iso : ℕ → Isolation) (s : Migrations) : MigrateAct → Option Migrations
  | .call k =>
    if (s.callers k).pc = .idle then some (s.set k { s.callers k with pc := .lock }) else none
  | .request k =>
    if (s.callers k).pc = .lock then
      some (s.set k { s.callers k with
        pc := .locking
        snapshot := if iso k = .repeatableRead then some s.db.versions else none })
    else none
  | .grant k =>
    if (s.callers k).pc = .locking ∧ s.lock = none then
      some { s.set k { s.callers k with pc := .createSchema } with lock := some k }
    else none
  | .statement k => do
    match ← (s.callers k).statement (len k) s.db with
    | .go c => some (s.set k c)
    | .fail err => some (s.finish k (some err) false)
    | .commit =>
      some ({ s with db := s.db.merge (s.callers k).own }.finish k none false)
  | .disconnect k => do
    let err ← (s.callers k).failure (len k)
    some (s.finish k (some err) true)
  | .loseCommit k => do
    match ← (s.callers k).statement (len k) s.db with
    | .commit =>
      some ({ s with db := s.db.merge (s.callers k).own }.finish k (some .commit) true)
    | _ => none

/-- When a caller is granted the lock, its snapshot shows every version that is committed. -/
def current (s : Migrations) : MigrateAct → Bool
  | .grant k => (s.callers k).snapshot.getD s.db.versions = s.db.versions
  | _ => true

end Migrations

/-! ### One caller -/

lemma foldr_max_range' (n : ℕ) : (List.range' 1 n).foldr max 0 = n := by
  induction n with
  | zero => rfl
  | succ n ih =>
    have happ : ∀ (l : List ℕ) (a : ℕ), (l ++ [a]).foldr max 0 = max (l.foldr max 0) a := by
      intro l a
      induction l with
      | nil => simp
      | cons b l ih => simp [ih, max_assoc]
    rw [List.range'_concat, happ, ih]
    omega

/-- The migrations up to a version are applied, once each and in order, and recorded. -/
structure Schema.At (d : Schema) (v : ℕ) : Prop where
  applied : d.applied = List.range' 1 v
  versions : d.versions = List.range' 1 v

namespace Caller

variable {c : Caller} {len v : ℕ} {d : Schema}

/-- The caller has got as far as it should, on a schema at version `v`. -/
def Working (c : Caller) (len v : ℕ) : Prop :=
  match c.pc with
  | .createSchema | .createHistory | .readHistory => c.own.applied = [] ∧ c.own.versions = []
  | .migrate => ∃ n, c.version = v + n ∧ c.version ≤ len ∧
      c.own.applied = List.range' (v + 1) n ∧ c.own.versions = List.range' (v + 1) n
  | .record => ∃ n, c.version = v + n ∧ c.version < len ∧
      c.own.applied = List.range' (v + 1) (n + 1) ∧ c.own.versions = List.range' (v + 1) n
  | _ => False

lemma inTurn_of_statement {reply : Reply} (h : c.statement len d = some reply) :
    c.pc.inTurn = true := by
  unfold Caller.statement at h
  split at h <;> first | (rename_i hpc; rw [hpc]; rfl) | cases h

/-- A bound on the statements left. -/
def todo (c : Caller) (len : ℕ) : ℕ :=
  match c.pc with
  | .createSchema => 2 * len + 4
  | .createHistory => 2 * len + 3
  | .readHistory => 2 * len + 2
  | .migrate => 2 * (len - c.version) + 1
  | .record => 2 * (len - c.version)
  | _ => 0

lemma range'_append_succ (v n : ℕ) :
    List.range' (v + 1) n ++ [v + n + 1] = List.range' (v + 1) (n + 1) := by
  rw [List.range'_concat]
  simp; omega

lemma range'_append_range' (v n : ℕ) :
    List.range' 1 v ++ List.range' (v + 1) n = List.range' 1 (v + n) := by
  rw [show v + 1 = 1 + 1 * v by omega, List.range'_append]

/-- What the next statement does: the caller goes on, or its list is too short, or it commits
the schema at the end of its list. -/
lemma Working.statement (h : c.Working len v) (hd : d.At v)
    (hsnap : c.snapshot.getD d.versions = d.versions) :
    (∃ c', c.statement len d = some (.go c') ∧ c'.Working len v ∧ c'.snapshot = c.snapshot ∧
      c'.todo len < c.todo len) ∨
    (c.statement len d = some (.fail (.unsupported v len)) ∧ len < v) ∨
    (c.statement len d = some .commit ∧ v ≤ len ∧ (d.merge c.own).At len) := by
  unfold Working at h
  split at h
  · rename_i hpc
    exact Or.inl ⟨{ c with pc := .createHistory, own := { c.own with created := true } },
      by rw [Caller.statement, hpc], h, rfl, by simp [todo, hpc]⟩
  · rename_i hpc
    exact Or.inl ⟨{ c with pc := .readHistory, own := { c.own with history := true } },
      by rw [Caller.statement, hpc], h, rfl, by simp [todo, hpc]⟩
  · rename_i hpc
    have hversion : (c.snapshot.getD d.versions ++ c.own.versions).foldr max 0 = v := by
      rw [h.2, List.append_nil, hsnap, hd.versions, foldr_max_range']
    by_cases hlt : len < v
    · exact Or.inr (Or.inl ⟨by simp [Caller.statement, hpc, hversion, hlt], hlt⟩)
    · refine Or.inl ⟨{ c with pc := .migrate, version := v }, ?_, ⟨0, rfl, ?_, h.1, h.2⟩, rfl, ?_⟩
      · simp [Caller.statement, hpc, hversion, hlt]
      · exact not_lt.mp hlt
      · simp only [todo, hpc]; omega
  · rename_i hpc
    obtain ⟨n, hn, hle, happ, hrec⟩ := h
    by_cases hlt : c.version < len
    · have hnot : c.version + 1 ∉ (d.merge c.own).applied := by
        simp only [Schema.merge, hd.applied, happ, List.mem_append, List.mem_range'_1]
        omega
      refine Or.inl ⟨{ c with
          pc := .record, own := { c.own with applied := c.own.applied ++ [c.version + 1] } },
        by simp only [Caller.statement, hpc]; rw [if_pos hlt, if_neg hnot],
        ⟨n, hn, hlt, ?_, hrec⟩, rfl, by simp [todo, hpc]⟩
      simp only [happ, hn, range'_append_succ]
    · have hend : v + n = len := by omega
      refine Or.inr (Or.inr ⟨by simp [Caller.statement, hpc, hlt], by omega, ?_, ?_⟩)
      · simp only [Schema.merge, hd.applied, happ, range'_append_range', hend]
      · simp only [Schema.merge, hd.versions, hrec, range'_append_range', hend]
  · rename_i hpc
    obtain ⟨n, hn, hlt, happ, hrec⟩ := h
    have hnot : c.version + 1 ∉ (d.merge c.own).versions := by
      simp only [Schema.merge, hd.versions, hrec, List.mem_append, List.mem_range'_1]
      omega
    refine Or.inl ⟨{ c with
        pc := .migrate
        version := c.version + 1
        own := { c.own with versions := c.own.versions ++ [c.version + 1] } },
      by simp only [Caller.statement, hpc]; rw [if_neg hnot], ⟨n + 1, ?_, hlt, happ, ?_⟩, rfl, ?_⟩
    · simp only; omega
    · simp only [hrec, hn, range'_append_succ]
    · simp only [todo, hpc]; omega
  · exact h.elim

end Caller

/-! ### Any number of callers -/

namespace Migrations

variable {len : ℕ → ℕ} {iso : ℕ → Isolation} {s s' : Migrations} {a : MigrateAct} {v k : ℕ}

/-- How a caller whose connection did not fail returns, on a schema at version `v`: its
migrations are applied, or its list was too short. -/
def Answered (c : Caller) (len v : ℕ) : Prop :=
  ∀ err, c.pc = .returned err → c.broken = false →
    (err = none ∧ len ≤ v) ∨ ∃ w, err = some (.unsupported w len) ∧ len < w ∧ w ≤ v

variable (len) in
/-- The schema is at version `v`, and only the caller that holds the lock works on it. -/
structure Inv (s : Migrations) (v : ℕ) : Prop where
  db : s.db.At v
  idle : ∀ k, s.lock ≠ some k → (s.callers k).pc.inTurn = false ∧
    (s.callers k).own.applied = [] ∧ (s.callers k).own.versions = []
  working : ∀ k, s.lock = some k → (s.callers k).Working (len k) v ∧
    (s.callers k).snapshot.getD s.db.versions = s.db.versions
  answered : ∀ k, Answered (s.callers k) (len k) v

lemma Inv.inTurn (h : s.Inv len v) (hk : s.lock = some k) : (s.callers k).pc.inTurn = true := by
  have hw := (h.working k hk).1
  unfold Caller.Working at hw
  split at hw <;> first | exact hw.elim | (rename_i hpc; rw [hpc]; rfl)

lemma Inv.not_holder (h : s.Inv len v) (hpc : (s.callers k).pc.inTurn = false) :
    s.lock ≠ some k := by
  intro hk
  rw [h.inTurn hk] at hpc; cases hpc

lemma Inv.set_idle (h : s.Inv len v) (hk : s.lock ≠ some k) {c : Caller}
    (hpc : c.pc.inTurn = false) (hown : c.own = (s.callers k).own)
    (hret : Answered c (len k) v) : (s.set k c).Inv len v := by
  refine ⟨h.db, fun j hj => ?_, fun j hj => ?_, fun j => ?_⟩ <;> simp only [set]
  · by_cases hjk : j = k
    · subst hjk
      rw [Function.update_self, hown]
      exact ⟨hpc, (h.idle j hk).2⟩
    · rw [Function.update_of_ne hjk]; exact h.idle j hj
  · have hjk : j ≠ k := by rintro rfl; exact hk hj
    rw [Function.update_of_ne hjk]; exact h.working j hj
  · by_cases hjk : j = k
    · subst hjk; rw [Function.update_self]; exact hret
    · rw [Function.update_of_ne hjk]; exact h.answered j

lemma Inv.finish {v' : ℕ} {d : Schema} (h : s.Inv len v) (hd : d.At v') (hle : v ≤ v')
    (hlock : s.lock = some k ∨ (d = s.db ∧ v = v')) {err : Option ApplyError} {broken : Bool}
    (hret : broken = false → (err = none ∧ len k ≤ v') ∨
      ∃ w, err = some (.unsupported w (len k)) ∧ len k < w ∧ w ≤ v') :
    (({ s with db := d } : Migrations).finish k err broken).Inv len v' := by
  have hanswered : ∀ j, Answered (s.callers j) (len j) v' := by
    intro j err' hpc hbroken
    rcases h.answered j err' hpc hbroken with ⟨he, hj⟩ | ⟨w, he, hlt, hw⟩
    · exact Or.inl ⟨he, hj.trans hle⟩
    · exact Or.inr ⟨w, he, hlt, hw.trans hle⟩
  -- who holds the lock afterwards held it before, and is another caller
  have hholder : ∀ j, (if s.lock = some k then none else s.lock) = some j →
      s.lock = some j ∧ j ≠ k ∧ d = s.db ∧ v = v' := by
    intro j hj
    split at hj
    · cases hj
    · rename_i hne
      refine ⟨hj, ?_, hlock.resolve_left hne⟩
      rintro rfl; exact hne hj
  refine ⟨hd, fun j hj => ?_, fun j hj => ?_, fun j => ?_⟩ <;> simp only [Migrations.finish, set]
  · by_cases hjk : j = k
    · subst hjk; rw [Function.update_self]; exact ⟨rfl, rfl, rfl⟩
    · rw [Function.update_of_ne hjk]
      refine h.idle j fun hlj => hj ?_
      simp only [Migrations.finish]
      rw [if_neg, hlj]
      rw [hlj]; exact fun he => hjk (Option.some.inj he)
  · obtain ⟨hlj, hjk, rfl, rfl⟩ := hholder j hj
    rw [Function.update_of_ne hjk]
    exact h.working j hlj
  · by_cases hjk : j = k
    · subst hjk
      rw [Function.update_self]
      intro err' hpc hbroken
      cases hpc
      exact hret hbroken
    · rw [Function.update_of_ne hjk]; exact hanswered j

/-- The step commits the work of a caller, which has succeeded, or whose connection has failed on
the answer to its `COMMIT`. -/
inductive Commits (s' : Migrations) : MigrateAct → Prop
  | answered {k : ℕ} (h : (s'.callers k).pc = .returned none) : Commits s' (.statement k)
  | lost {k : ℕ} (h : (s'.callers k).pc = .returned (some .commit))
    (hbroken : (s'.callers k).broken = true) : Commits s' (.loseCommit k)

lemma loseCommit_eq (h : s.step len iso (.loseCommit k) = some s') :
    (s.callers k).statement (len k) s.db = some .commit ∧
      s' = ({ s with db := s.db.merge (s.callers k).own } : Migrations).finish k
        (some .commit) true := by
  obtain ⟨reply, hreply, h⟩ := Option.bind_eq_some_iff.mp h
  cases reply with
  | go | fail => cases h
  | commit => cases h; exact ⟨hreply, rfl⟩

lemma finish_caller (s : Migrations) (k : ℕ) (err : Option ApplyError) (broken : Bool) :
    ((s.finish k err broken).callers k).pc = .returned err ∧
      ((s.finish k err broken).callers k).broken = broken := by
  simp [Migrations.finish, set]

lemma db_step (hstep : s.step len iso a = some s') : s'.db = s.db ∨ s'.Commits a := by
  cases a with
  | call k | request k | grant k =>
    obtain ⟨-, hstep⟩ := Option.ite_none_right_eq_some.mp hstep
    cases hstep; exact Or.inl rfl
  | statement k =>
    obtain ⟨reply, -, hstep⟩ := Option.bind_eq_some_iff.mp hstep
    cases reply with
    | go | fail => cases hstep; exact Or.inl rfl
    | commit => cases hstep; exact Or.inr (.answered (finish_caller ..).1)
  | disconnect k =>
    obtain ⟨err, -, hstep⟩ := Option.bind_eq_some_iff.mp hstep
    cases hstep; exact Or.inl rfl
  | loseCommit k =>
    obtain ⟨-, rfl⟩ := loseCommit_eq hstep
    exact Or.inr (.lost (finish_caller ..).1 (finish_caller ..).2)

lemma Inv.commit (h : s.Inv len v) (hcommit : (s.callers k).statement (len k) s.db = some .commit) :
    s.lock = some k ∧ v ≤ len k ∧ (s.db.merge (s.callers k).own).At (len k) := by
  have hlock : s.lock = some k := by
    by_contra hk
    have hturn := Caller.inTurn_of_statement hcommit
    rw [(h.idle k hk).1] at hturn; cases hturn
  obtain ⟨hw, hsnap⟩ := h.working k hlock
  rcases hw.statement h.db hsnap with ⟨c, hgo, -⟩ | ⟨hfail, -⟩ | ⟨-, hle, hd⟩
  · rw [hgo] at hcommit; cases hcommit
  · rw [hfail] at hcommit; cases hcommit
  · exact ⟨hlock, hle, hd⟩

/-- **Step**: the callers keep the history. -/
lemma Inv.step (h : s.Inv len v) (ha : s.current a = true) (hstep : s.step len iso a = some s') :
    ∃ v', s'.Inv len v' ∧ (v' = v ∨ s'.Commits a) := by
  cases a with
  | call k =>
    obtain ⟨hpc, hstep⟩ := Option.ite_none_right_eq_some.mp hstep
    cases hstep
    have hk : s.lock ≠ some k := h.not_holder (by rw [hpc]; rfl)
    exact ⟨v, h.set_idle hk rfl rfl (fun err hret => by cases hret), Or.inl rfl⟩
  | request k =>
    obtain ⟨hpc, hstep⟩ := Option.ite_none_right_eq_some.mp hstep
    cases hstep
    have hk : s.lock ≠ some k := h.not_holder (by rw [hpc]; rfl)
    exact ⟨v, h.set_idle hk rfl rfl (fun err hret => by cases hret), Or.inl rfl⟩
  | grant k =>
    obtain ⟨⟨hpc, hlock⟩, hstep⟩ := Option.ite_none_right_eq_some.mp hstep
    cases hstep
    have hk : s.lock ≠ some k := by rw [hlock]; simp
    refine ⟨v, ⟨h.db, fun j hj => ?_, fun j hj => ?_, fun j => ?_⟩, Or.inl rfl⟩ <;>
      simp only [set]
    · have hjk : j ≠ k := fun he => hj (by rw [he])
      rw [Function.update_of_ne hjk]
      exact h.idle j (by rw [hlock]; simp)
    · obtain rfl : k = j := Option.some.inj hj
      rw [Function.update_self]
      exact ⟨(h.idle k hk).2, of_decide_eq_true ha⟩
    · by_cases hjk : j = k
      · subst hjk; rw [Function.update_self]; intro err hret; cases hret
      · rw [Function.update_of_ne hjk]; exact h.answered j
  | statement k =>
    obtain ⟨reply, hreply, hstep⟩ := Option.bind_eq_some_iff.mp hstep
    have hlock : s.lock = some k := by
      by_contra hk
      have hturn := Caller.inTurn_of_statement hreply
      rw [(h.idle k hk).1] at hturn; cases hturn
    obtain ⟨hw, hsnap⟩ := h.working k hlock
    rcases hw.statement h.db hsnap with ⟨c, hgo, hw', hsnap', -⟩ | ⟨hfail, hlt⟩ | ⟨hcommit, hle, hd⟩
    · rw [hgo] at hreply; cases hreply; cases hstep
      refine ⟨v, ⟨h.db, fun j hj => ?_, fun j hj => ?_, fun j => ?_⟩, Or.inl rfl⟩ <;>
        simp only [set]
      · have hjk : j ≠ k := by rintro rfl; exact hj hlock
        rw [Function.update_of_ne hjk]; exact h.idle j hj
      · obtain rfl : k = j := Option.some.inj (hlock.symm.trans hj)
        rw [Function.update_self, hsnap']
        exact ⟨hw', hsnap⟩
      · by_cases hjk : j = k
        · subst hjk
          rw [Function.update_self]
          intro err hret
          unfold Caller.Working at hw'
          rw [hret] at hw'; exact hw'.elim
        · rw [Function.update_of_ne hjk]; exact h.answered j
    · rw [hfail] at hreply; cases hreply; cases hstep
      exact ⟨v, h.finish h.db le_rfl (Or.inl hlock) (fun _ => Or.inr ⟨v, rfl, hlt, le_rfl⟩),
        Or.inl rfl⟩
    · rw [hcommit] at hreply; cases hreply; cases hstep
      exact ⟨len k, h.finish hd hle (Or.inl hlock) (fun _ => Or.inl ⟨rfl, le_rfl⟩),
        Or.inr (.answered (finish_caller ..).1)⟩
  | disconnect k =>
    obtain ⟨err, -, hstep⟩ := Option.bind_eq_some_iff.mp hstep
    cases hstep
    exact ⟨v, h.finish h.db le_rfl (Or.inr ⟨rfl, rfl⟩) (fun hb => by cases hb), Or.inl rfl⟩
  | loseCommit k =>
    obtain ⟨hcommit, rfl⟩ := loseCommit_eq hstep
    obtain ⟨hlock, hle, hd⟩ := h.commit hcommit
    exact ⟨len k, h.finish hd hle (Or.inl hlock) (fun hb => by cases hb),
      Or.inr (.lost (finish_caller ..).1 (finish_caller ..).2)⟩

/-- A caller that holds the lock, left to itself, returns: that its list is too short, or with
the schema at the end of its list. -/
lemma Inv.runs (h : s.Inv len v) (hlock : s.lock = some k) : ∃ n s',
    (List.replicate n (.statement k)).foldlM (Migrations.step len iso) s = some s' ∧
    s'.lock = none ∧ (s'.callers k).broken = false ∧
    (len k < v ∧ (s'.callers k).pc = .returned (some (.unsupported v (len k))) ∧ s'.db = s.db ∨
      v ≤ len k ∧ (s'.callers k).pc = .returned none ∧ s'.db.At (len k)) := by
  -- one statement at a time, by how many are left
  induction htodo : (s.callers k).todo (len k) using Nat.strong_induction_on generalizing s with
  | _ todo ih =>
    obtain ⟨hw, hsnap⟩ := h.working k hlock
    rcases hw.statement h.db hsnap with ⟨c, hgo, -, -, hlt⟩ | ⟨hfail, hlt⟩ | ⟨hcommit, hle, hd⟩
    · have hstep : s.step len iso (.statement k) = some (s.set k c) := by
        simp [Migrations.step, hgo]
      obtain ⟨v', h', hv'⟩ := h.step rfl hstep
      have hcaller : (s.set k c).callers k = c := by simp [set]
      obtain rfl : v' = v := by
        rcases hv' with hv' | hcommits
        · exact hv'
        · obtain ⟨hpc⟩ | _ := hcommits
          have hturn := h'.inTurn (k := k) hlock
          rw [hpc] at hturn; cases hturn
      obtain ⟨n, s', hrun, hrest⟩ := ih _ (by rw [← htodo, hcaller]; exact hlt) h' hlock rfl
      refine ⟨n + 1, s', ?_, hrest⟩
      rw [List.replicate_succ, List.foldlM_cons, hstep]
      exact hrun
    · refine ⟨1, s.finish k (some (.unsupported v (len k))) false, ?_, ?_, ?_,
        Or.inl ⟨hlt, ?_, rfl⟩⟩
      · simp [Migrations.step, hfail]
      all_goals simp [Migrations.finish, set, hlock]
    · refine ⟨1, ({ s with db := s.db.merge (s.callers k).own } : Migrations).finish k none false,
        ?_, ?_, ?_, Or.inr ⟨hle, ?_, hd⟩⟩
      · simp [Migrations.step, hcommit]
      all_goals simp [Migrations.finish, set, hlock]

/-- **Concurrent `ApplySchema`**: as long as no caller is granted the lock with a snapshot older
than what is committed, the history is the versions up to one, each migration applied once and
in order; a caller that fails changes nothing, unless it fails on the answer to a `COMMIT` that
the server has carried out; a caller whose connection does not fail succeeds, or its list is too
short; and one that holds the lock gets that far by its own statements alone. -/
theorem apply_schema_serial
    (h : ReachesBy (step len iso) (fun s a => s.current a = true) init s) :
    ∃ v, s.db.versions = List.range' 1 v ∧ s.db.applied = List.range' 1 v ∧
      (∀ a s', s.step len iso a = some s' → s'.db = s.db ∨ s'.Commits a) ∧
      (∀ k err, (s.callers k).pc = .returned err → (s.callers k).broken = false →
        (err = none ∧ len k ≤ v) ∨
          ∃ w, err = some (.unsupported w (len k)) ∧ len k < w ∧ w ≤ v) ∧
      ∀ k, s.lock = some k → ∃ n s',
        (List.replicate n (.statement k)).foldlM (step len iso) s = some s' ∧
        s'.lock = none ∧ (s'.callers k).broken = false ∧
        (len k < v ∧ (s'.callers k).pc = .returned (some (.unsupported v (len k))) ∧
            s'.db = s.db ∨
          v ≤ len k ∧ (s'.callers k).pc = .returned none ∧
            s'.db.versions = List.range' 1 (len k) ∧ s'.db.applied = List.range' 1 (len k)) := by
  have hinit : init.Inv len 0 := by
    refine ⟨⟨rfl, rfl⟩, fun _ _ => ⟨rfl, rfl, rfl⟩, fun k hk => ?_, fun k err hpc => ?_⟩
    · cases hk
    · cases hpc
  obtain ⟨v, hv⟩ := h.invariant (P := fun s => ∃ v, s.Inv len v) ⟨0, hinit⟩
    fun _ _ _ ⟨v, hs⟩ ha hstep => (hs.step ha hstep).imp fun _ => And.left
  refine ⟨v, hv.db.versions, hv.db.applied, fun a s' => db_step, hv.answered, fun k hk => ?_⟩
  · obtain ⟨n, s', hrun, hlock, hbroken, hend⟩ := hv.runs hk
    refine ⟨n, s', hrun, hlock, hbroken, hend.imp_right ?_⟩
    rintro ⟨hle, hpc, hd⟩
    exact ⟨hle, hpc, hd.versions, hd.applied⟩

/-- Two callers at `REPEATABLE READ`. The first one's connection fails on the answer to its
`COMMIT`; the second, with a longer list, calls when it has returned. -/
def upgrade : List MigrateAct :=
  [.call 0, .request 0, .grant 0] ++ List.replicate 5 (.statement 0) ++
    [.loseCommit 0, .call 1, .request 1, .grant 1]

theorem apply_schema_serial_upgrade : ∃ s,
    upgrade.foldlM (fun (s : Migrations) a =>
      if s.current a then s.step (· + 1) (fun _ => .repeatableRead) a else none) init = some s ∧
    (s.callers 0).pc = .returned (some .commit) ∧ s.db.versions = [1] ∧
    ∃ n s', (List.replicate n (.statement 1)).foldlM
        (step (· + 1) fun _ => .repeatableRead) s = some s' ∧
      (s'.callers 1).pc = .returned none ∧ s'.db.versions = [1, 2] := by
  have hrun : (upgrade.foldlM (fun (s : Migrations) a =>
      if s.current a then s.step (· + 1) (fun _ => .repeatableRead) a else none) init).map
      (fun s => (s.lock, (s.callers 0).pc, s.db.versions)) =
      some (some 1, .returned (some .commit), [1]) := by decide +kernel
  obtain ⟨s, hs, hstate⟩ := Option.map_eq_some_iff.mp hrun
  simp only [Prod.mk.injEq] at hstate
  obtain ⟨hlock, hlost, hversions⟩ := hstate
  obtain ⟨v, hv, -, -, -, hruns⟩ := apply_schema_serial (.of_run _ hs)
  obtain rfl : v = 1 := by simpa [hversions] using (congrArg List.length hv).symm
  obtain ⟨n, s', hn, -, -, ⟨hlt, -⟩ | ⟨-, hpc, hversions', -⟩⟩ := hruns 1 hlock
  · omega
  · exact ⟨s, hs, hlost, hversions, n, s', hn, hpc, hversions'⟩

/-- Two callers of one migration at `REPEATABLE READ`, which start at the same time. -/
def race : List MigrateAct :=
  [.call 0, .call 1, .request 0, .request 1, .grant 0] ++ List.replicate 6 (.statement 0) ++
    [.grant 1] ++ List.replicate 4 (.statement 1)

/-- The second caller reads an old version, and fails because the first has migrated. -/
theorem race_conflict : ∃ s,
    race.foldlM (step (fun _ => 1) fun _ => .repeatableRead) init = some s ∧
    s.db.versions = [1] ∧ (s.callers 1).broken = false ∧
    (s.callers 1).pc = .returned (some (.apply 1)) := by
  have hrun : (race.foldlM (step (fun _ => 1) fun _ => .repeatableRead) init).map (fun s =>
      (s.db.versions, (s.callers 1).broken, (s.callers 1).pc)) =
      some ([1], false, .returned (some (.apply 1))) := by decide +kernel
  obtain ⟨s, hs, hstate⟩ := Option.map_eq_some_iff.mp hrun
  simp only [Prod.mk.injEq] at hstate
  exact ⟨s, hs, hstate⟩

end Migrations

end DurablePg

import DurablePg.Doc
import DurablePg.Inversion

/-!
The event transactions never wait for each other in a circle.

An event transaction first waits for the lock of its key and then for the rows it writes. The
second never happens: an emission writes runs that wait on its key, a registration writes a run
leased under its token, and whoever has written such a run already would hold the same key, or
the same token. So a transaction that holds its key goes on, and everybody else waits for one
that does.
-/

namespace DurablePg

open DurablePg.Lib

variable {J : Type} [Jsonb J]

namespace Tx

/-- The statements to come, at most. -/
def rounds (tx : Tx J) : ℕ :=
  match tx.phase with
  | .begun => 4
  | .locked => 3
  | .looked _ => 2
  | .emitted .. | .wrote .. => 1

omit [Jsonb J] in
lemma rounds_pos (tx : Tx J) : 0 < tx.rounds := by
  unfold rounds
  split <;> omega

end Tx

namespace Server

variable {s s' : Server J} {tx : Tx J} {id : TxId}

/-- The next statement of an event transaction, as `EmitEvent` and `waitForEvent` send them. A
registration whose write has found no row rolls back. -/
def turn (s : Server J) (id : TxId) : Option (Server J) := do
  let tx ← s.txs.get id
  match tx.phase, tx.job with
  | .begun, _ => s.step (.lockEventKey id)
  | .locked, .emit .. => s.step (.statement id)
  | .locked, .wait token .. => s.step (.latestEvent token)
  | .looked found, .wait token run index timeoutMs complete =>
    let s' ← s.step (.statement id)
    if s.owns run token (waitWrite found tx.key index timeoutMs complete) tx.start then some s'
    else s'.step (.rollback id)
  | _, _ => s.step (.commit id)

/-- The statements to come of all open transactions, at most. -/
def rounds (s : Server J) : ℕ := (s.txs.rows.map Tx.rounds).sum

/-! ### No transaction waits for a row -/

/-- A locked run waits on the key of an emission that has run, or is leased under the token of a
registration that has. -/
lemma TxInv.holder (hs : s.TxInv) {run : RunId} (hl : s.locked run = true) {r : Row J}
    (hr : s.db.run run = some r) : ∃ tx ∈ s.txs.rows, tx.holdsRun run = true ∧
      ((∃ e woken, tx.phase = .emitted e woken ∧ r.state = .waitingEvent ∧
        r.waitingEventKey = some tx.key) ∨
      ∃ w clock token index timeoutMs complete, tx.phase = .wrote w clock ∧
        tx.job = .wait token run index timeoutMs complete ∧ r.state = .leased ∧
        r.leaseToken = some token) := by
  obtain ⟨tx, htx, hholds⟩ := locked_iff.mp hl
  refine ⟨tx, htx, hholds, ?_⟩
  have hready := hs.ready tx htx
  obtain ⟨job, key, start, phase⟩ := tx
  cases phase <;> cases job <;>
    simp only [Tx.holdsRun, Tx.Ready, decide_eq_true_eq, Bool.false_eq_true] at hholds hready
  · obtain ⟨r', hr', hg⟩ := hready.2.2 run hholds
    cases hr.symm.trans hr'
    simp only [wake, Bool.and_eq_true, decide_eq_true_eq] at hg
    exact Or.inl ⟨_, _, rfl, hg.1⟩
  · subst hholds
    obtain ⟨r', hr', hg⟩ := hready
    cases hr.symm.trans hr'
    obtain ⟨-, hleased, htoken, -⟩ := fence_iff.mp (Write.fence_of_guard hg)
    exact Or.inr ⟨_, _, _, _, _, _, rfl, rfl, hleased, htoken⟩

lemma TxInv.emit_free (hs : s.TxInv) (htx : tx ∈ s.txs.rows) (hphase : tx.phase = .locked)
    (payload : J) : s.free (wake tx.key payload tx.start) = true := by
  refine List.all_eq_true.mpr fun r hr => ?_
  rw [Bool.not_eq_true', Bool.and_eq_false_iff]
  by_contra hboth
  simp only [not_or, Bool.not_eq_false] at hboth
  obtain ⟨hg, hl⟩ := hboth
  simp only [wake, Bool.and_eq_true, decide_eq_true_eq] at hg
  obtain ⟨tx', htx', -, ⟨e, woken, hphase', -, hkey⟩ | ⟨_, _, _, _, _, _, -, -, hleased, -⟩⟩ :=
    hs.holder hl (Db.run_of_mem hr)
  · -- it would hold the same key
    have hid := hs.keys tx htx tx' htx' (by simp [Tx.holdsKey, hphase])
      (by simp [Tx.holdsKey, hphase']) (Option.some.inj (hg.1.2.symm.trans hkey))
    rw [eq_of_id htx htx' hid, hphase'] at hphase
    cases hphase
  · rw [hg.1.1] at hleased
    cases hleased

lemma TxInv.wait_free (hs : s.TxInv) (htx : tx ∈ s.txs.rows) {token : Token} {run : RunId}
    {index : ℕ} {timeoutMs : ℤ} {complete : Bool} {found : Option J}
    (hjob : tx.job = .wait token run index timeoutMs complete) (hphase : tx.phase = .looked found)
    (w : Write J) (clock : Time) : s.free (s.writeUpdate run token w tx.start clock) = true := by
  refine List.all_eq_true.mpr fun r hr => ?_
  rw [Bool.not_eq_true', Bool.and_eq_false_iff]
  by_contra hboth
  simp only [not_or, Bool.not_eq_false] at hboth
  obtain ⟨hg, hl⟩ := hboth
  obtain ⟨-, hleased, htoken, -⟩ := fence_iff.mp (Write.fence_of_guard hg)
  obtain ⟨tx', htx', -, ⟨_, _, -, hwaits, -⟩ |
    ⟨_, _, token', _, _, _, hphase', hjob', -, htoken'⟩⟩ := hs.holder hl (Db.run_of_mem hr)
  · rw [hleased] at hwaits
    cases hwaits
  · -- it would be the registration itself
    have hid : tx.id = tx'.id := by
      rw [Tx.id, Tx.id, hjob, hjob', Job.id, Job.id, Option.some.inj (htoken.symm.trans htoken')]
    rw [eq_of_id htx htx' hid, hphase'] at hphase
    cases hphase

/-! ### One statement -/

lemma step_lockEventKey (hget : s.txs.get id = some tx) (hphase : tx.phase = .begun) :
    s.step (.lockEventKey id) =
      if s.keyHeld tx.key then none else some (s.setPhase id .locked) := by
  simp [step, hget, hphase]

lemma step_latestEvent {token : Token} (hget : s.txs.get (.wait token) = some tx)
    (hphase : tx.phase = .locked) :
    s.step (.latestEvent token) =
      some { s.setPhase (.wait token) (.looked (s.db.latestEvent tx.key tx.start)) with
        hist := s.hist ++ [.looked token tx.key (s.db.latestEvent tx.key tx.start) s.clock] } := by
  simp [step, hget, hphase]

lemma step_statement (hget : s.txs.get id = some tx) : s.step (.statement id) = s.statement tx := by
  simp [step, hget]

lemma step_commit (hget : s.txs.get id = some tx) : s.step (.commit id) = s.commit tx := by
  simp [step, hget]

lemma step_rollback (hget : s.txs.get id = some tx) :
    s.step (.rollback id) = some (s.close id) := by
  simp [step, hget]

/-- What the next statement of a transaction makes of it. -/
inductive Turned (s : Server J) (tx : Tx J) (s' : Server J) : Prop
  | phase (phase : Phase J) (h : s'.txs = (s.setPhase tx.id phase).txs)
    (hlt : ({ tx with phase := phase } : Tx J).rounds < tx.rounds)
  | closed (h : s'.txs = (s.close tx.id).txs)

/-- A transaction that holds its key does not wait; one that waits, waits for the key. -/
lemma TxInv.turn_cases (hs : s.TxInv) (htx : tx ∈ s.txs.rows) :
    (∃ s', s.turn tx.id = some s' ∧ s.Turned tx s') ∨
      s.turn tx.id = none ∧ tx.phase = .begun ∧ s.keyHeld tx.key = true := by
  have hget := Table.get_of_mem htx
  have hready := hs.ready tx htx
  unfold turn
  rw [hget, Option.bind_eq_bind, Option.bind_some]
  cases hphase : tx.phase with
  | begun =>
    simp only [step_lockEventKey hget hphase]
    by_cases hkey : s.keyHeld tx.key = true
    · exact Or.inr ⟨if_pos hkey, trivial, hkey⟩
    · exact Or.inl ⟨_, if_neg hkey, .phase _ rfl (by simp [Tx.rounds, hphase])⟩
  | locked =>
    cases hjob : tx.job with
    | emit n payload =>
      simp only [step_statement hget, statement, hjob, hphase,
        if_pos (hs.emit_free htx hphase payload)]
      exact Or.inl ⟨_, rfl, .phase _ rfl (by simp [Tx.rounds, hphase])⟩
    | wait token run index timeoutMs complete =>
      have hid : tx.id = .wait token := by rw [Tx.id, hjob]; rfl
      exact Or.inl ⟨_, step_latestEvent (hid ▸ hget) hphase, .phase _ (by rw [hid])
        (by simp [Tx.rounds, hphase])⟩
  | looked found =>
    cases hjob : tx.job with
    | emit => simp [Tx.Ready, hphase, hjob] at hready
    | wait token run index timeoutMs complete =>
      left
      simp only [step_statement hget, statement, hjob, hphase]
      by_cases howns : s.owns run token (waitWrite found tx.key index timeoutMs complete) tx.start
      · rw [if_neg (by simp [howns]), if_pos (hs.wait_free htx hjob hphase _ _),
          Option.bind_eq_bind, Option.bind_some, if_pos howns]
        exact ⟨_, rfl, .phase _ rfl (by simp [Tx.rounds, hphase])⟩
      · rw [if_pos (by simp [howns]), Option.bind_eq_bind, Option.bind_some, if_neg howns]
        exact ⟨_, step_rollback (s := { s with hist := _ }) hget, .closed rfl⟩
  | emitted e woken =>
    cases hjob : tx.job with
    | wait => simp [Tx.Ready, hphase, hjob] at hready
    | emit n payload =>
      simp only [step_commit hget, commit, hjob, hphase]
      exact Or.inl ⟨_, rfl, .closed rfl⟩
  | wrote w clock =>
    cases hjob : tx.job with
    | emit => simp [Tx.Ready, hphase, hjob] at hready
    | wait token run index timeoutMs complete =>
      simp only [step_commit hget, commit, hjob, hphase]
      exact Or.inl ⟨_, rfl, .closed rfl⟩

/-! ### All transactions -/

omit [Jsonb J] in
lemma Turned.rounds_lt (h : s.Turned tx s') (htx : tx ∈ s.txs.rows) : s'.rounds < s.rounds := by
  unfold rounds
  cases h with
  | phase phase h hlt =>
    rw [h, show (s.setPhase tx.id phase).txs.rows = s.txs.rows.map fun tx' =>
      if tx'.id = tx.id then { tx' with phase := phase } else tx' by
        simp [setPhase, Table.updateWhere], List.map_map]
    refine List.sum_lt_sum _ _ (fun tx' htx' => ?_) ⟨tx, htx, by simpa using hlt⟩
    by_cases hid : tx'.id = tx.id
    · rw [eq_of_id htx' htx hid]
      simpa using hlt.le
    · simp [hid]
  | closed h =>
    obtain ⟨l₁, l₂, hrows⟩ := List.append_of_mem htx
    have hsub : (s.close tx.id).txs.rows.Sublist (l₁ ++ l₂) := by
      have hfilter : (s.close tx.id).txs.rows =
          s.txs.rows.filter fun tx' => !(tx'.id = tx.id) := rfl
      rw [hfilter, hrows, List.filter_append, List.filter_cons]
      simpa using List.Sublist.append List.filter_sublist List.filter_sublist
    have hle := (hsub.map Tx.rounds).sum_le_sum fun _ _ => Nat.zero_le _
    have hpos := tx.rounds_pos
    rw [h, hrows]
    simp only [List.map_append, List.sum_append, List.map_cons, List.sum_cons] at hle ⊢
    omega

lemma Reachable.turn (hs : s.Reachable) (h : s.turn id = some s') : s'.Reachable := by
  obtain ⟨clock, hs⟩ := hs
  refine ⟨clock, ?_⟩
  unfold Server.turn at h
  obtain ⟨tx, -, h⟩ := Option.bind_eq_some_iff.mp h
  split at h
  case h_4 =>
    obtain ⟨s₁, h₁, h⟩ := Option.bind_eq_some_iff.mp h
    have hs₁ := hs.snoc trivial h₁
    split at h
    · cases h; exact hs₁
    · exact hs₁.snoc trivial h
  all_goals exact hs.snoc trivial h

lemma TxInv.some_turn (hs : s.TxInv) (htx : tx ∈ s.txs.rows) :
    (s.turn tx.id).isSome ∨ tx.phase = .begun ∧
      ∃ tx' ∈ s.txs.rows, tx'.key = tx.key ∧ tx'.holdsKey = true ∧ (s.turn tx'.id).isSome := by
  rcases hs.turn_cases htx with ⟨s', h, -⟩ | ⟨-, hphase, hkey⟩
  · exact Or.inl (by rw [h]; rfl)
  · obtain ⟨tx', htx', hholds⟩ := List.any_eq_true.mp hkey
    simp only [Bool.and_eq_true, decide_eq_true_eq] at hholds
    refine Or.inr ⟨hphase, tx', htx', hholds.2, hholds.1, ?_⟩
    rcases hs.turn_cases htx' with ⟨s', h, -⟩ | ⟨-, hphase', -⟩
    · rw [h]; rfl
    · simp [Tx.holdsKey, hphase'] at hholds

/-- **No deadlock.** Whatever has been sent: an open event transaction can go on, or it waits for
the lock of its key, and the transaction that holds the lock can go on; so can every transaction
that has locked a run. In whatever order the transactions take their turns, they are all over
after as many turns as they have statements left, and nobody is locked out any more. -/
theorem deadlock_free (hs : s.Reachable) :
    (∀ tx ∈ s.txs.rows, (s.turn tx.id).isSome ∨ tx.phase = .begun ∧
      ∃ tx' ∈ s.txs.rows, tx'.key = tx.key ∧ tx'.holdsKey = true ∧ (s.turn tx'.id).isSome) ∧
    (∀ run, s.locked run = true → ∃ tx ∈ s.txs.rows, tx.holdsRun run = true ∧
      (s.turn tx.id).isSome) ∧
    ∀ (ids : List TxId) (s' : Server J), ids.foldlM turn s = some s' →
      ids.length + s'.rounds ≤ s.rounds ∧
      ((∃ id, (s'.turn id).isSome) ∨ s'.txs.rows = [] ∧ ∀ run, s'.locked run = false) := by
  refine ⟨fun tx htx => hs.inv.tx.some_turn htx, fun run hl => ?_, fun ids s' hrun => ?_⟩
  · obtain ⟨tx, htx, hholds⟩ := locked_iff.mp hl
    refine ⟨tx, htx, hholds, ?_⟩
    rcases hs.inv.tx.some_turn htx with h | ⟨hphase, -⟩
    · exact h
    · simp [Tx.holdsRun, hphase] at hholds
  · have hruns : s'.Reachable ∧ ids.length + s'.rounds ≤ s.rounds := by
      refine run_induction (P := fun l z => z.Reachable ∧ l.length + z.rounds ≤ s.rounds)
        ⟨hs, by simp⟩ (fun l z id z' _ ih h => ⟨ih.1.turn h, ?_⟩) hrun
      obtain ⟨tx, hget, -⟩ := Option.bind_eq_some_iff.mp h
      obtain ⟨htx, rfl⟩ := Table.get_eq_some_iff.mp hget
      rcases ih.1.inv.tx.turn_cases htx with ⟨z₁, hz₁, hturned⟩ | ⟨hnone, -⟩
      · cases hz₁.symm.trans h
        have hlt := hturned.rounds_lt htx
        rw [List.length_append, List.length_singleton]
        omega
      · rw [hnone] at h; cases h
    refine ⟨hruns.2, ?_⟩
    rcases hrows : s'.txs.rows with _ | ⟨tx, txs⟩
    · exact Or.inr ⟨rfl, fun run => by simp [locked, hrows]⟩
    · have htx : tx ∈ s'.txs.rows := by rw [hrows]; exact List.mem_cons_self
      rcases hruns.1.inv.tx.some_turn htx with h | ⟨-, tx', -, -, -, h⟩
      · exact Or.inl ⟨_, h⟩
      · exact Or.inl ⟨_, h⟩

/-- An emission holds the key on which a registration and another emission wait: the three are
over after eleven turns at most. -/
theorem deadlock_free_contended : ∃ s : Server Doc, s.txs.rows.length = 3 ∧
    s.turn (.wait "t") = none ∧ s.rounds = 11 ∧
    ∀ (ids : List TxId) (s' : Server Doc), ids.foldlM turn s = some s' →
      ids.length + s'.rounds ≤ 11 ∧
      ((∃ id, (s'.turn id).isSome) ∨ s'.txs.rows = [] ∧ ∀ run, s'.locked run = false) := by
  let acts : List (Act Doc) :=
    [.insertRun ⟨"r", "w", 1, "q", 3, none, .null, none⟩ 0,
      .claim ⟨"q", 1, 60000, .single "w" 1⟩ (fun _ => "t") 0, .begin (.wait "t" "r" 0 1 false) "k",
      .begin (.emit 0 .null) "k", .begin (.emit 1 .null) "k", .lockEventKey (.emit 0)]
  have hrun : (acts.foldlM step (init 0)).map (fun s =>
      (s.txs.rows.length, (s.turn (.wait "t")).isNone, s.rounds)) = some (3, true, 11) := by
    decide +kernel
  obtain ⟨s, hs, heq⟩ := Option.map_eq_some_iff.mp hrun
  simp only [Prod.mk.injEq, Option.isNone_iff_eq_none] at heq
  obtain ⟨hlen, hnone, hrounds⟩ := heq
  refine ⟨s, hlen, hnone, hrounds, ?_⟩
  rw [← hrounds]
  exact (deadlock_free ⟨0, .of_run acts hs⟩).2.2

end Server

end DurablePg

import DurablePg.Lib.Trace
import DurablePg.Steps

/-!
What holds of the server in every state it can reach, whatever its clients send: its open
transactions exclude one another, the row and the checkpoints of each run are those of a
life, and no lease token is ever in use twice.
-/

namespace DurablePg

open DurablePg.Lib

variable {J : Type} [Jsonb J]

namespace Server

/-! ### Locked rows -/

omit [Jsonb J] in
lemma locked_iff {s : Server J} {run : RunId} :
    s.locked run = true ↔ ∃ tx ∈ s.txs.rows, tx.holdsRun run = true := by
  simp [locked]

omit [Jsonb J] in
lemma exec_view_of_locked {s : Server J} {u : Update J} {f : Row J → Change J}
    (hfree : s.free u = true) {run : RunId} (hl : s.locked run = true) :
    (s.exec u f).view run = s.view run := by
  refine exec_view_of_not fun r hr => ?_
  have := List.all_eq_true.mp hfree r (Db.mem_of_run hr)
  rw [Db.run_id hr, hl] at this
  simpa using this

omit [Jsonb J] in
lemma free_of_picked {s : Server J} {u : Update J} {p : Row J → Bool} {f : Row J → Time}
    {limit : ℕ} (hu : ∀ r, u.guard r = true → r.id ∈ s.db.picked p f s.locked limit) :
    s.free u = true := by
  refine List.all_eq_true.mpr fun r _ => ?_
  by_cases hg : u.guard r = true
  · obtain ⟨-, -, -, hl⟩ := Db.mem_picked (hu r hg)
    simp [hl]
  · simp [hg]

namespace TxInv

variable {s s' : Server J}

lemma of_runs (hs : s.TxInv) (htxs : s'.txs = s.txs) (hclock : s.clock ≤ s'.clock)
    (hrun : ∀ run, s.locked run = true → s'.db.run run = s.db.run run) : s'.TxInv := by
  refine ⟨by rw [htxs]; exact hs.keys, ?_, ?_⟩ <;> rw [htxs] <;> intro tx htx
  · exact (hs.ready tx htx).congr fun run hr => hrun run (locked_iff.mpr ⟨tx, htx, hr⟩)
  · exact (hs.start tx htx).trans hclock

lemma exec (hs : s.TxInv) {u : Update J} {ch : Row J → Change J} (hfree : s.free u = true) :
    (s.exec u ch).TxInv :=
  hs.of_runs rfl le_rfl fun _ hl => congrArg View.row (exec_view_of_locked (f := ch) hfree hl)

omit [Jsonb J] in
lemma mem_setPhase {id : TxId} {phase : Phase J} {tx : Tx J} :
    tx ∈ (s.setPhase id phase).txs.rows ↔
      ∃ tx₀ ∈ s.txs.rows, tx = if tx₀.id = id then { tx₀ with phase := phase } else tx₀ := by
  simp [setPhase, Table.updateWhere, eq_comm]

lemma setPhase (hs : s.TxInv) {tx : Tx J} (htx : tx ∈ s.txs.rows) (phase : Phase J)
    (hkey : tx.holdsKey = true ∨ s.keyHeld tx.key = false)
    (hready : ({ tx with phase := phase } : Tx J).Ready s.db) : (s.setPhase tx.id phase).TxInv := by
  -- every transaction afterwards is an old one, or the one whose phase changed
  have hcases : ∀ tx' ∈ (s.setPhase tx.id phase).txs.rows,
      tx' = { tx with phase := phase } ∨ (tx' ∈ s.txs.rows ∧ tx'.id ≠ tx.id) := by
    intro tx' h'
    obtain ⟨tx₀, h₀, rfl⟩ := mem_setPhase.mp h'
    by_cases hid : tx₀.id = tx.id
    · rw [if_pos hid, eq_of_id h₀ htx hid]; exact Or.inl rfl
    · rw [if_neg hid]; exact Or.inr ⟨h₀, hid⟩
  -- who else holds its key now held it before
  have hother : ∀ tx' ∈ s.txs.rows, tx'.holdsKey = true → tx'.key = tx.key → tx'.id = tx.id := by
    intro tx' h' hk heq
    rcases hkey with hk₀ | hnot
    · exact hs.keys tx' h' tx htx hk hk₀ heq
    · have := List.any_eq_false.mp hnot tx' h'
      simp [hk, heq] at this
  refine ⟨?_, ?_, ?_⟩
  · intro tx₁ h₁ tx₂ h₂ hk₁ hk₂ heq
    rcases hcases tx₁ h₁ with rfl | ⟨m₁, n₁⟩ <;> rcases hcases tx₂ h₂ with rfl | ⟨m₂, n₂⟩
    · rfl
    · exact absurd (hother tx₂ m₂ hk₂ heq.symm) n₂
    · exact absurd (hother tx₁ m₁ hk₁ heq) n₁
    · exact hs.keys tx₁ m₁ tx₂ m₂ hk₁ hk₂ heq
  · intro tx' h'
    rcases hcases tx' h' with rfl | ⟨m, -⟩
    · exact hready
    · exact hs.ready tx' m
  · intro tx' h'
    rcases hcases tx' h' with rfl | ⟨m, -⟩
    · exact hs.start tx htx
    · exact hs.start tx' m

omit [Jsonb J] in
lemma mem_close {id : TxId} {tx : Tx J} :
    tx ∈ (s.close id).txs.rows ↔ tx ∈ s.txs.rows ∧ tx.id ≠ id := by
  simp [close, Table.deleteWhere]

lemma close (hs : s.TxInv) (id : TxId) : (s.close id).TxInv where
  keys tx h tx' h' := hs.keys tx (mem_close.mp h).1 tx' (mem_close.mp h').1
  ready tx h := hs.ready tx (mem_close.mp h).1
  start tx h := hs.start tx (mem_close.mp h).1

lemma begin (hs : s.TxInv) (job : Job J) (key : String) :
    ({ s with txs := s.txs.insert ⟨job, key, s.clock, .begun⟩ } : Server J).TxInv := by
  have hcases : ∀ tx ∈ (s.txs.insert ⟨job, key, s.clock, .begun⟩).rows,
      tx = ⟨job, key, s.clock, .begun⟩ ∨ tx ∈ s.txs.rows := by
    intro tx h
    unfold Table.insert at h
    split at h
    · exact Or.inr h
    · simpa [or_comm] using h
  refine ⟨?_, ?_, ?_⟩
  · intro tx h tx' h' hk hk' heq
    rcases hcases tx h with rfl | m
    · cases hk
    · rcases hcases tx' h' with rfl | m'
      · cases hk'
      · exact hs.keys tx m tx' m' hk hk' heq
  · intro tx h
    rcases hcases tx h with rfl | m
    · trivial
    · exact hs.ready tx m
  · intro tx h
    rcases hcases tx h with rfl | m
    · exact le_rfl
    · exact hs.start tx m

lemma free_of_held (hs : s.TxInv) {tx : Tx J} (htx : tx ∈ s.txs.rows) {u : Update J}
    (hu : ∀ r, u.guard r = true → tx.holdsRun r.id = true) : (s.close tx.id).free u = true := by
  refine List.all_eq_true.mpr fun r _ => ?_
  by_cases hg : u.guard r = true
  · have hl : (s.close tx.id).locked r.id = false := by
      rw [Bool.eq_false_iff]
      intro hl
      obtain ⟨tx', h', hr'⟩ := locked_iff.mp hl
      obtain ⟨m, hne⟩ := mem_close.mp h'
      exact hne (congrArg Tx.id (hs.holds_unique m htx hr' (hu r hg)))
    simp [hl]
  · simp [hg]

lemma run_of_locked (hs : s.TxInv) {run : RunId} (hl : s.locked run = true) :
    (s.db.run run).isSome := by
  obtain ⟨tx, htx, hr⟩ := locked_iff.mp hl
  have hready := hs.ready tx htx
  obtain ⟨job, key, start, phase⟩ := tx
  cases phase <;> cases job <;>
    simp only [Tx.holdsRun, Tx.Ready, decide_eq_true_eq, Bool.false_eq_true] at hr hready
  · obtain ⟨r, hr, -⟩ := hready.2.2 run hr; simp [hr]
  · subst hr; obtain ⟨r, hr, -⟩ := hready; simp [hr]

theorem step (hs : s.TxInv) {a : Act J} (h : s.step a = some s') : s'.TxInv := by
  cases does h with
  | tick hclock => exact hs.of_runs rfl hclock fun _ _ => rfl
  | prune | refuse | refuseWait => exact hs.of_runs rfl le_rfl fun _ _ => rfl
  | touch _ hfree | renew _ hfree | write _ _ hfree | cancel _ hfree => exact hs.exec hfree
  | claim _ hids | recover _ hids | promote _ hids =>
    exact hs.exec (free_of_picked fun r hg => hids ▸ of_decide_eq_true hg)
  | @insert n now _ _ _ hnone =>
    refine hs.of_runs rfl le_rfl fun run hl => ?_
    have hne : n.id ≠ run := by
      rintro rfl
      simpa [hnone] using hs.run_of_locked hl
    have hget : ∀ id, (s.db.runs.insert (n.row now)).get id =
        (s.db.runs.get id).or (if n.id = id then some (n.row now) else none) :=
      s.db.runs.get_insert (n.row now)
    simp [Db.run, hget, hne]
  | begin => exact hs.begin _ _
  | lock htx _ hkey => exact hs.setPhase htx .locked (Or.inr hkey) trivial
  | @look token tx htx hid hphase found hfound =>
    refine of_runs (hs.setPhase htx (.looked found) (Or.inl (by simp [Tx.holdsKey, hphase])) ?_)
      rfl le_rfl fun _ _ => rfl
    unfold Tx.id at hid
    rcases hjob : tx.job with _ | _
    · rw [hjob] at hid; cases hid
    · simp [Tx.Ready]
  | emit htx hjob hphase =>
    refine of_runs (hs.setPhase htx (.emitted _ _) (Or.inl (by simp [Tx.holdsKey, hphase])) ?_)
      rfl le_rfl fun _ _ => rfl
    simp only [Tx.Ready, hjob, true_and]
    exact fun run hrun => Db.mem_selected.mp hrun
  | hold htx hjob hphase hw howns =>
    refine of_runs (hs.setPhase htx (.wrote _ _) (Or.inl (by simp [Tx.holdsKey, hphase])) ?_)
      rfl le_rfl fun _ _ => rfl
    simp only [Tx.Ready, hjob]
    simpa [owns, Option.any_eq_true, writeUpdate] using howns
  | @emitted tx n payload e woken htx hjob hphase =>
    have hfree : (s.close tx.id).free ((wake tx.key payload tx.start).pinned woken) = true :=
      hs.free_of_held htx fun r hg => by simpa [Tx.holdsRun, hphase, Update.pinned] using hg
    apply TxInv.exec
    · exact of_runs (hs.close tx.id) rfl le_rfl fun _ _ => rfl
    · exact hfree
  | waited htx hjob hphase =>
    refine TxInv.exec (hs.close _) (hs.free_of_held htx fun r hg => ?_)
    simpa [Tx.holdsRun, hphase, hjob, Update.pinned, eq_comm] using hg
  | rollback => exact hs.close _

end TxInv

/-! ### Reachable states -/

/-- The invariant of the server. -/
structure Inv (s : Server J) : Prop where
  tx : s.TxInv
  life : ∀ run, Life (s.log run) (s.view run)
  /-- A token is generated once, for one run. -/
  once : ∀ run, ((s.log run).filterMap Change.claimToken?).Nodup
  owner : ∀ run run' token, token ∈ (s.log run).filterMap Change.claimToken? →
    token ∈ (s.log run').filterMap Change.claimToken? → run = run'

omit [Jsonb J] in
lemma mem_tokens {s : Server J} {run : RunId} {token : Token}
    (h : token ∈ (s.log run).filterMap Change.claimToken?) : token ∈ s.tokens := by
  obtain ⟨ch, hch, ht⟩ := List.mem_filterMap.mp h
  obtain ⟨ev, hev, hch⟩ := List.mem_filterMap.mp hch
  refine List.mem_filterMap.mpr ⟨ev, hev, ?_⟩
  cases ev with
  | change run' ch' =>
    simp only [Ev.changeOf, Option.ite_none_right_eq_some, Option.some.injEq] at hch
    rw [← ht, ← hch.2]; rfl
  | _ => cases hch

lemma inv_init (clock : Time) : (init clock : Server J).Inv where
  tx := ⟨by simp [init, Table.empty], by simp [init, Table.empty], by simp [init, Table.empty]⟩
  life _ := Life.nil
  once _ := List.nodup_nil
  owner _ _ _ h := by cases h

omit [Jsonb J] in
lemma fresh_token {s : Server J} {a : Act J} {run run' : RunId} {ch ch' : Change J} {token : Token}
    (h : s.Makes a run ch) (ht : ch.claimToken? = some token) (h' : s.Makes a run' ch')
    (ht' : ch'.claimToken? = some token) : token ∉ s.tokens ∧ run = run' := by
  cases h with
  | claimed q gen now run hrun hnodup hfresh =>
    cases ht
    cases h' with
    | claimed _ _ _ _ hrun' =>
      exact ⟨hfresh, List.inj_on_of_nodup_map hnodup hrun hrun' (Option.some.inj ht').symm⟩
  | _ => cases ht

theorem inv_step {s s' : Server J} (hs : s.Inv) {a : Act J} (h : s.step a = some s') : s'.Inv := by
  have hmoved := step_moved hs.tx h
  have hlog : ∀ run token, token ∈ (s'.log run).filterMap Change.claimToken? →
      token ∈ (s.log run).filterMap Change.claimToken? ∨
      ∃ ch, s.Makes a run ch ∧ ch.claimToken? = some token := by
    intro run token ht
    obtain ⟨o, ⟨hl, -⟩, hmakes⟩ := hmoved run
    rw [hl, List.filterMap_append, List.mem_append] at ht
    rcases ht with ht | ht
    · exact Or.inl ht
    · obtain ⟨ch, hch, ht⟩ := List.mem_filterMap.mp ht
      exact Or.inr ⟨ch, hmakes ch (by simpa using hch), ht⟩
  refine ⟨hs.tx.step h, fun run => ?_, fun run => ?_, fun run run' token ht ht' => ?_⟩
  · obtain ⟨o, ⟨hl, hm⟩, -⟩ := hmoved run
    rcases o with _ | ch
    · rw [hl, hm]; simpa using hs.life run
    · rw [hl]; exact .snoc (hs.life run) hm
  · obtain ⟨o, ⟨hl, -⟩, hmakes⟩ := hmoved run
    rw [hl, List.filterMap_append]
    refine List.Nodup.append (hs.once run) ?_ ?_
    · rcases o with _ | ch
      · simp
      · rcases hc : ch.claimToken? with _ | token <;> simp [hc]
    · intro token ht ht'
      obtain ⟨ch, hch, htok⟩ := List.mem_filterMap.mp ht'
      have hm := hmakes ch (by simpa using hch)
      exact (fresh_token hm htok hm htok).1 (mem_tokens ht)
  · rcases hlog run token ht with h₁ | ⟨ch, hm, hc⟩ <;>
      rcases hlog run' token ht' with h₂ | ⟨ch', hm', hc'⟩
    · exact hs.owner run run' token h₁ h₂
    · exact absurd (mem_tokens h₁) (fresh_token hm' hc' hm' hc').1
    · exact absurd (mem_tokens h₂) (fresh_token hm hc hm hc).1
    · exact (fresh_token hm hc hm' hc').2

/-- The states the server reaches from empty tables. -/
def Reachable (s : Server J) : Prop := ∃ clock, Reaches step (init clock) s

lemma Reachable.of_run {s : Server J} (clock : Time) (acts : List (Act J))
    (h : acts.foldlM step (init clock) = some s) : s.Reachable :=
  ⟨clock, Reaches.of_run acts h⟩

theorem Reachable.inv {s : Server J} (h : s.Reachable) : s.Inv := by
  obtain ⟨clock, h⟩ := h
  exact h.invariant (inv_init clock) fun _ _ _ hs _ => inv_step hs

end Server

end DurablePg

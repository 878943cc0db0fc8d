import DurablePg.ServerInv

/-!
The small facts read off what a step does: the history grows, the clock does not go back,
transactions that are not concerned stay as they are, and the event log holds what was emitted.
-/

namespace DurablePg

open DurablePg.Lib

variable {J : Type}

/-- The transaction an action is about. -/
def Act.tx? : Act J → Option TxId
  | .begin job _ => some job.id
  | .lockEventKey id | .statement id | .commit id | .rollback id => some id
  | .latestEvent token => some (.wait token)
  | _ => none

def Ev.emitted? : Ev J → Option (Event J)
  | .emitted e _ => some e
  | _ => none

variable [Jsonb J]

namespace Server

/-! ### Which rows there are -/

lemma step_keeps {s s' : Server J} (hs : s.TxInv) {a : Act J} (h : s.step a = some s')
    {run : RunId} {r : Row J} (hr : s.db.run run = some r) :
    ∃ r', s'.db.run run = some r' ∧ r.Keeps r' := by
  obtain ⟨o, ⟨-, hm⟩, -⟩ := step_moved hs h run
  rcases o with _ | ch
  · exact ⟨r, (congrArg View.row (show s'.view run = s.view run from hm)).trans hr, .refl r⟩
  · have hm : (s.view run).Moves ch (s'.view run) := hm
    obtain ⟨r', hr'⟩ := hm.row_some
    exact ⟨r', hr', hm.keeps hr hr'⟩

lemma inserted_of_none {s s' : Server J} (hs : s.TxInv) {a : Act J} (h : s.step a = some s')
    {run : RunId} {r : Row J} (hnone : s.db.run run = none) (hr : s'.db.run run = some r) :
    ∃ n now, a = .insertRun n now ∧ n.id = run ∧ r = n.row now ∧
      s.db.runs.rows.any n.conflicts = false := by
  obtain ⟨o, ⟨-, hm⟩, hmakes⟩ := step_moved hs h run
  rcases o with _ | ch
  · have hv : s'.db.run run = s.db.run run := congrArg View.row hm
    rw [hv, hnone] at hr; cases hr
  · have hm : (s.view run).Moves ch (s'.view run) := hm
    have hrow : (s'.view run).row = some r := hr
    generalize s'.view run = v' at hm hrow
    cases hm with
    | inserted n now =>
      cases hmakes _ rfl
      refine ⟨n, now, rfl, rfl, (Option.some.inj hrow).symm, ?_⟩
      cases does h with
      | touch =>
        rw [exec_run, hnone] at hr; cases hr
      | insert _ _ hnew => exact hnew
    | updated _ r₀ _ hold => rw [show (s.view run).row = none from hnone] at hold; cases hold

/-! ### History and clock -/

lemma hist_grows {s s' : Server J} {a : Act J} (h : s.step a = some s') :
    ∃ evs, s'.hist = s.hist ++ evs := by
  cases does h with
  | tick | prune | begin | lock | emit | rollback => exact ⟨[], (List.append_nil _).symm⟩
  | emitted => exact ⟨_, List.append_assoc _ _ _⟩
  | _ => exact ⟨_, rfl⟩

lemma tokens_grow {s s' : Server J} {a : Act J} (h : s.step a = some s') {token : Token}
    (ht : token ∈ s.tokens) : token ∈ s'.tokens := by
  obtain ⟨evs, hevs⟩ := hist_grows h
  rw [tokens, hevs, List.filterMap_append]
  exact List.mem_append_left _ ht

lemma clock_cases {s s' : Server J} {a : Act J} (h : s.step a = some s') :
    s'.clock = s.clock ∨ ∃ t, a = .tick t ∧ s.clock ≤ t ∧ s'.clock = t := by
  cases does h with
  | tick hclock => exact Or.inr ⟨_, rfl, hclock, rfl⟩
  | _ => exact Or.inl rfl

lemma clock_le {s s' : Server J} {a : Act J} (h : s.step a = some s') : s.clock ≤ s'.clock := by
  rcases clock_cases h with heq | ⟨t, -, hle, heq⟩
  · exact heq.ge
  · exact heq ▸ hle

/-! ### Transactions -/

omit [Jsonb J] in
lemma get_setPhase {s : Server J} {tx : Tx J} (htx : tx ∈ s.txs.rows) (phase : Phase J)
    (id : TxId) :
    (s.setPhase tx.id phase).txs.get id =
      if id = tx.id then some { tx with phase := phase } else s.txs.get id := by
  have hget := s.txs.get_updateWhere (fun tx' => tx'.id = tx.id)
    (fun tx' => { tx' with phase := phase }) (fun _ => rfl) id
  refine hget.trans ?_
  split
  · rename_i hid
    rw [hid, show s.txs.get tx.id = some tx from Table.get_of_mem htx]; simp
  · rename_i hid
    rcases hget : s.txs.get id with _ | tx'
    · rfl
    · have hid' : tx'.id = id := Table.get_key hget
      simp [hid', hid]

omit [Jsonb J] in
lemma get_close (s : Server J) (id id' : TxId) :
    (s.close id).txs.get id' = if id' = id then none else s.txs.get id' := by
  unfold close
  rw [Table.get_deleteWhere]
  rcases hget : s.txs.get id' with _ | tx
  · simp
  · have hid : tx.id = id' := Table.get_key hget
    by_cases h : id' = id <;> simp [Option.filter, hid, h]

lemma tx_frame {s s' : Server J} {a : Act J} (h : s.step a = some s') {id : TxId}
    (hid : a.tx? ≠ some id) : s'.txs.get id = s.txs.get id := by
  cases does h with
  | @begin job key hnone =>
    have hne : job.id ≠ id := fun he => hid (congrArg some he)
    have hget : (s.txs.insert ⟨job, key, s.clock, .begun⟩).get id = (s.txs.get id).or
        (if job.id = id then some ⟨job, key, s.clock, .begun⟩ else none) := s.txs.get_insert _ _
    simp [hget, hne]
  | lock htx | emit htx | hold htx =>
    exact (get_setPhase htx _ id).trans (if_neg fun he => hid (congrArg some he.symm))
  | look htx hwait =>
    exact (get_setPhase htx _ id).trans (if_neg fun he =>
      hid (congrArg some (he.trans hwait).symm))
  | emitted htx | waited htx | rollback =>
    exact (get_close s _ id).trans (if_neg fun he => hid (congrArg some he.symm))
  | _ => rfl

lemma view_frame {s s' : Server J} {a : Act J} (hs : s.TxInv) (h : s.step a = some s') {run : RunId}
    (hno : ∀ ch, ¬ s.Makes a run ch) : s'.view run = s.view run := by
  obtain ⟨o, ⟨-, hm⟩, hmakes⟩ := step_moved hs h run
  rcases o with _ | ch
  · exact hm
  · exact absurd (hmakes ch rfl) (hno ch)

lemma begin_tx {s s' : Server J} {job : Job J} {key : String}
    (h : s.step (.begin job key) = some s') :
    s'.txs.get job.id = some ⟨job, key, s.clock, .begun⟩ := by
  cases does h with
  | begin hnone =>
    have hget : (s.txs.insert ⟨job, key, s.clock, .begun⟩).get job.id = (s.txs.get job.id).or
        (if job.id = job.id then some ⟨job, key, s.clock, .begun⟩ else none) := s.txs.get_insert _ _
    simp [hget, hnone]

omit [Jsonb J] in
lemma tx_of_id {s : Server J} {id : TxId} {tx tx' : Tx J} (htx : s.txs.get id = some tx)
    (hmem : tx' ∈ s.txs.rows) (hid : tx'.id = id) : tx' = tx := by
  obtain ⟨hmem', hid'⟩ := Table.get_eq_some_iff.mp htx
  exact eq_of_id hmem hmem' (hid.trans hid'.symm)

lemma lock_tx {s s' : Server J} {id : TxId} (h : s.step (.lockEventKey id) = some s') :
    ∃ tx, s.txs.get id = some tx ∧ tx.phase = .begun ∧
      s'.txs.get id = some { tx with phase := .locked } := by
  cases does h with
  | lock htx hphase hkey =>
    exact ⟨_, Table.get_of_mem htx, hphase, (get_setPhase htx _ _).trans (if_pos rfl)⟩

lemma look_tx {s s' : Server J} {token : Token} {tx : Tx J}
    (htx : s.txs.get (.wait token) = some tx) (h : s.step (.latestEvent token) = some s') :
    s'.txs.get (.wait token) =
      some { tx with phase := .looked (s.db.latestEvent tx.key tx.start) } := by
  cases does h with
  | look hmem hid hphase hfound =>
    obtain rfl := tx_of_id htx hmem hid
    refine (get_setPhase hmem _ _).trans ?_
    rw [if_pos hid.symm, hfound]

lemma statement_tx {s s' : Server J} {token : Token}
    (h : s.step (.statement (.wait token)) = some s') :
    ∃ tx found run index timeoutMs complete, s.txs.get (.wait token) = some tx ∧
      tx.job = .wait token run index timeoutMs complete ∧ tx.phase = .looked found ∧
      (s'.txs.get (.wait token) = some tx ∨ s'.txs.get (.wait token) = some { tx with
        phase := .wrote (waitWrite found tx.key index timeoutMs complete) s.clock }) := by
  generalize ha : Act.statement (.wait token) = a at h
  cases does h with
  | emit htx hjob =>
    have hid := Act.statement.inj ha
    rw [Tx.id, hjob] at hid; cases hid
  | refuseWait htx hjob hphase hw hnot =>
    have hid := Act.statement.inj ha
    have hget := Table.get_of_mem htx
    rw [← hid] at hget
    rw [Tx.id, hjob] at hid; cases hid
    exact ⟨_, _, _, _, _, _, hget, hjob, hphase, Or.inl hget⟩
  | @hold tx token' run index timeoutMs complete found htx hjob hphase w hw howns hfree =>
    subst hw
    have hid := Act.statement.inj ha
    have hget := Table.get_of_mem htx
    rw [← hid] at hget
    have hset := (get_setPhase htx
      (.wrote (waitWrite found tx.key index timeoutMs complete) s.clock) (.wait token)).trans
        (if_pos hid)
    rw [Tx.id, hjob] at hid; cases hid
    exact ⟨_, _, _, _, _, _, hget, hjob, hphase, Or.inr hset⟩
  | _ => cases ha

lemma commit_tx {s s' : Server J} {id : TxId} (h : s.step (.commit id) = some s') :
    s'.txs.get id = none := by
  cases does h with
  | emitted => exact (get_close s _ _).trans (if_pos rfl)
  | waited => exact (get_close s _ _).trans (if_pos rfl)

/-- How a step from `s` to `s'` moves a transaction to its next phase. -/
inductive Turns (s : Server J) (a : Act J) (s' : Server J) (tx : Tx J) : Phase J → Prop
  | locked : Turns s a s' tx .locked
  | looked {token : Token} (ha : a = .latestEvent token) (hphase : tx.phase = .locked)
    (hhist : s'.hist = s.hist ++
      [.looked token tx.key (s.db.latestEvent tx.key tx.start) s.clock]) :
    Turns s a s' tx (.looked (s.db.latestEvent tx.key tx.start))
  | emitted {n : ℕ} {payload : J} (hjob : tx.job = .emit n payload)
    (hdb : s'.db = { s.db with nextEventId := s.db.nextEventId + 1 }) (hhist : s'.hist = s.hist) :
    Turns s a s' tx (.emitted
      ⟨s.db.nextEventId, tx.key, payload, tx.start, tx.start + millis eventTTLMs⟩
      (s.db.selected (wake tx.key payload tx.start)))
  | wrote {token : Token} {run : RunId} {index : ℕ} {timeoutMs : ℤ} {complete : Bool}
    {found : Option J} (ha : a = .statement (.wait token))
    (hjob : tx.job = .wait token run index timeoutMs complete) (hphase : tx.phase = .looked found)
    (howns : s.owns run token (waitWrite found tx.key index timeoutMs complete) tx.start = true)
    (hhist : s'.hist = s.hist ++
      [.held run token (waitWrite found tx.key index timeoutMs complete) s.clock]) :
    Turns s a s' tx (.wrote (waitWrite found tx.key index timeoutMs complete) s.clock)

lemma tx_cases {s s' : Server J} {a : Act J} (h : s.step a = some s') {id : TxId} {tx : Tx J}
    (htx : s'.txs.get id = some tx) :
    s.txs.get id = some tx ∨ (∃ job key, tx = ⟨job, key, s.clock, .begun⟩) ∨
      ∃ tx₀ phase, s.txs.get id = some tx₀ ∧ a.tx? = some id ∧
        tx = { tx₀ with phase := phase } ∧ s.Turns a s' tx₀ phase := by
  by_cases hid : a.tx? = some id
  · have hset : ∀ {tx₀ : Tx J} {phase : Phase J}, tx₀ ∈ s.txs.rows → tx₀.id = id →
        (s.setPhase tx₀.id phase).txs.get id = some tx → s.Turns a s' tx₀ phase →
        ∃ tx₀ phase, s.txs.get id = some tx₀ ∧ a.tx? = some id ∧
          tx = { tx₀ with phase := phase } ∧ s.Turns a s' tx₀ phase := by
      intro tx₀ phase hmem heq hget hturns
      rw [get_setPhase hmem, if_pos heq.symm] at hget
      cases hget
      exact ⟨tx₀, phase, heq ▸ Table.get_of_mem hmem, hid, rfl, hturns⟩
    cases does h with
    | begin hnone =>
      cases hid
      rw [begin_tx h] at htx; cases htx
      exact Or.inr (Or.inl ⟨_, _, rfl⟩)
    | lock hmem => exact Or.inr (Or.inr (hset hmem (Option.some.inj hid) htx .locked))
    | @look token tx₀ hmem hwait hphase found hfound =>
      subst hfound
      exact Or.inr (Or.inr (hset hmem (hwait.trans (Option.some.inj hid)) htx
        (.looked rfl hphase rfl)))
    | emit hmem hjob =>
      exact Or.inr (Or.inr (hset hmem (Option.some.inj hid) htx (.emitted hjob rfl rfl)))
    | refuseWait => exact Or.inl htx
    | @hold tx₀ token run index timeoutMs complete found hmem hjob hphase w hw howns =>
      subst hw
      have ha : Act.statement tx₀.id = (.statement (.wait token) : Act J) := by
        rw [Tx.id, hjob]; rfl
      exact Or.inr (Or.inr (hset hmem (Option.some.inj hid) htx (.wrote ha hjob hphase howns rfl)))
    | emitted | waited =>
      cases hid
      rw [commit_tx h] at htx; cases htx
    | rollback =>
      cases hid
      rw [show _ = _ from (get_close s _ _).trans (if_pos rfl)] at htx
      cases htx
    | _ => cases hid
  · exact Or.inl ((tx_frame h hid).symm.trans htx)

/-! ### Writes -/

lemma exec_moves {s : Server J} {u : Update J} {f : Row J → Change J} {run : RunId} {r : Row J}
    (hr : s.db.run run = some r) (hg : u.guard r = true) {ch : Change J} {u' : Update J}
    (hu : ch.update (s.db.checkpoint run) r.id = some u') (hg' : u'.guard r = true)
    (hset : u'.set r = u.set r) (hrec : u'.record r = u.record r) :
    (s.view run).Moves ch ((s.exec u f).view run) := by
  have hm := View.Moves.updated (v := s.view run) ch r u' hr hu hg'
  have hat : ∀ i, u'.recordAt r i = u.recordAt r i := by
    intro i; simp [Update.recordAt, hg, hg', hrec]
  simp only [hat, hset] at hm
  rw [exec_view hr hg]
  exact hm

lemma claim_picked {s s' : Server J} {q : ClaimQuery} {gen : RunId → Token} {now : Time}
    (h : s.step (.claim q gen now) = some s') {id : RunId} {r : Row J}
    (hid : id ∈ s.db.picked (q.claimable now) Row.nextRunAt s.locked q.limit)
    (hr : s.db.run id = some r) :
    (∃ r', s'.db.run id = some r' ∧ r.Keeps r' ∧ r'.stepIndex = r.stepIndex ∧
      r'.attempt = r.attempt) ∧ (s'.view id).cps = (s.view id).cps ∧
      gen id ∈ (s'.log id).filterMap Change.claimToken? ∧ gen id ∉ s.tokens := by
  cases does h with
  | @claim q gen now hnow ids hids hnodup hfresh =>
    rw [← hids] at hid
    have hrid := Db.run_id hr
    set u : Update J := DurablePg.claim ids gen q.leaseMs now s.clock with hu
    have hg : u.guard r = true := by simp [hu, DurablePg.claim, hrid, hid]
    refine ⟨⟨u.set r, ?_, ⟨rfl, rfl, rfl, rfl, rfl, rfl, rfl⟩, rfl, rfl⟩, ?_, ?_,
      hfresh _ (List.mem_map_of_mem hid)⟩
    · rw [exec_run, hr, Option.map_some, if_pos hg]
    · rw [exec_view hr hg]
      funext i
      simp [Update.recordAt, hu, DurablePg.claim, view]
    · rw [exec_log, List.filterMap_append, List.mem_append]
      right
      simp [hr, Option.filter, hg, Change.claimToken?, hrid]

lemma write_outcome {s s' : Server J} {run : RunId} {token : Token} {w : Write J} {now : Time}
    (h : s.step (.write run token w now) = some s') :
    if s.owns run token w now then
      (s.view run).Moves (.wrote token w now s.clock) (s'.view run)
    else s'.db = s.db := by
  cases does h with
  | refuse hnow hnot => rw [hnot]; exact rfl
  | write hnow howns hfree =>
    rw [howns]
    obtain ⟨r, hr, hg⟩ := Option.any_eq_true _ _ |>.mp howns
    have hid := Db.run_id hr
    exact exec_moves hr hg (by rw [hid]; rfl) hg rfl rfl

lemma waited_moves {s s' : Server J} (hs : s.TxInv) {tx : Tx J} {token : Token} {run : RunId}
    {index : ℕ} {timeoutMs : ℤ} {complete : Bool} (htx : s.txs.get (.wait token) = some tx)
    (hjob : tx.job = .wait token run index timeoutMs complete)
    (h : s.step (.commit (.wait token)) = some s') : ∃ w clock, tx.phase = .wrote w clock ∧
      (s.view run).Moves (.wrote token w tx.start clock) (s'.view run) := by
  obtain ⟨hmem, hid⟩ := Table.get_eq_some_iff.mp htx
  have hd := does h
  rw [← hid] at hd
  generalize ha : Act.commit tx.id = a at hd
  cases hd with
  | @emitted tx' n payload e woken htx' hjob' =>
    have hid' := Act.commit.inj ha
    rw [eq_of_id hmem htx' hid', hjob'] at hjob; cases hjob
  | @waited tx' token' run' index' timeoutMs' complete' w clock htx' hjob' hphase =>
    have hid' := Act.commit.inj ha
    obtain rfl := eq_of_id hmem htx' hid'
    rw [hjob] at hjob'; cases hjob'
    refine ⟨w, clock, hphase, ?_⟩
    have hready := hs.ready tx hmem
    simp only [Tx.Ready, hphase, hjob] at hready
    obtain ⟨r, hr, hg⟩ := hready
    have hrun := Db.run_id hr
    have hr' : (s.close tx.id).db.run run = some r := hr
    exact exec_moves hr' (by simp [Update.pinned, hrun]) (by rw [hrun]; rfl) hg rfl rfl
  | _ => cases ha

/-! ### The event log -/

/-- Every event whose `EmitEvent` has committed. -/
def emittedEvents (s : Server J) : List (Event J) := s.hist.filterMap Ev.emitted?

lemma emitted_grows {s s' : Server J} {a : Act J} (h : s.step a = some s') :
    s.emittedEvents ⊆ s'.emittedEvents := by
  obtain ⟨evs, hevs⟩ := hist_grows h
  intro e he
  rw [emittedEvents, hevs, List.filterMap_append]
  exact List.mem_append_left _ he

lemma commit_emitted {s s' : Server J} {tx : Tx J} {e : Event J} {woken : List RunId}
    (htx : s.txs.get tx.id = some tx) (hphase : tx.phase = .emitted e woken)
    (h : s.step (.commit tx.id) = some s') : e ∈ s'.emittedEvents := by
  generalize ha : Act.commit tx.id = a at h
  cases does h with
  | @emitted tx' n payload e' woken' hmem hjob hphase' =>
    have hid := Act.commit.inj ha
    rw [tx_of_id htx hmem hid.symm, hphase] at hphase'
    cases hphase'
    simp [emittedEvents, exec, Ev.emitted?]
  | @waited tx' token run index timeoutMs complete w clock hmem hjob hphase' =>
    have hid := Act.commit.inj ha
    rw [tx_of_id htx hmem hid.symm, hphase] at hphase'
    cases hphase'
  | _ => cases ha

/-- What the event log holds was emitted. -/
theorem Reachable.events {s : Server J} (hs : s.Reachable) {e : Event J}
    (he : e ∈ s.db.events.rows) : e ∈ s.emittedEvents := by
  obtain ⟨clock, hs⟩ := hs
  refine hs.invariant (P := fun s => ∀ e ∈ s.db.events.rows, e ∈ s.emittedEvents)
    (fun e he => by cases he) (fun s a s' ih _ h e he => ?_) e he
  have hgrow : e ∈ s.db.events.rows → e ∈ s'.emittedEvents := fun he => emitted_grows h (ih e he)
  cases does h with
  | prune => exact hgrow (List.mem_of_mem_filter he)
  | @emitted tx n payload e₀ woken =>
    have he' : e ∈ (s.db.events.insert e₀).rows := he
    unfold Table.insert at he'
    split at he'
    · exact hgrow he'
    · rcases List.mem_append.mp he' with he' | he'
      · exact hgrow he'
      · rw [List.mem_singleton.mp he']
        simp [emittedEvents, exec, Ev.emitted?]
  | _ => exact hgrow he

end Server

end DurablePg

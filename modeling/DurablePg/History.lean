import DurablePg.Inversion

/-!
The history of the server: what each of its events found in the state before it.
-/

namespace DurablePg

open DurablePg.Lib

variable {J : Type} [Jsonb J]

namespace Server

variable {s s' : Server J} {a : Act J} {run : RunId} {token : Token}

/-- What an event of the history finds in the state before it. -/
def Finds (s : Server J) (a : Act J) : Ev J → Prop
  | .held run token w _ => ∃ now, s.owns run token w now = true
  | .change run (.wrote token w _ clock) =>
      (∃ now, s.owns run token w now = true) ∨ .held run token w clock ∈ s.hist
  | .refused run token w _ => ∃ now, s.owns run token w now = false ∧
      (a = .write run token w now ∨ ∃ tx index timeoutMs complete found,
        s.txs.get (.wait token) = some tx ∧ a = .statement (.wait token) ∧
        tx.job = .wait token run index timeoutMs complete ∧ tx.phase = .looked found ∧
        w = waitWrite found tx.key index timeoutMs complete)
  | .looked token key found clock => clock = s.clock ∧ a = .latestEvent token ∧
      ∃ tx, s.txs.get (.wait token) = some tx ∧ tx.phase = .locked ∧ key = tx.key ∧
        found = s.db.latestEvent tx.key tx.start
  | .emitted e clock => clock = s.clock ∧ ∃ tx n payload woken, s.txs.get tx.id = some tx ∧
      a = .commit tx.id ∧ tx.job = .emit n payload ∧ tx.phase = .emitted e woken
  | _ => True

/-- A write of an open transaction is in the history. -/
def Holding (s : Server J) : Prop :=
  ∀ id tx, s.txs.get id = some tx → ∀ token run index timeoutMs complete w clock,
    tx.job = .wait token run index timeoutMs complete → tx.phase = .wrote w clock →
    Ev.held run token w clock ∈ s.hist

lemma Holding.step (hs : s.Holding) (h : s.step a = some s') : s'.Holding := by
  intro id tx' htx' token run index timeoutMs complete w clock hjob hphase
  obtain ⟨evs, hevs⟩ := hist_grows h
  have hold : s.txs.get id = some tx' → Ev.held run token w clock ∈ s'.hist := by
    intro hget
    rw [hevs]
    exact List.mem_append_left _
      (hs id tx' hget token run index timeoutMs complete w clock hjob hphase)
  rcases tx_cases h htx' with hget | ⟨job, key, rfl⟩ | ⟨tx₀, phase, -, -, rfl, hturns⟩
  · exact hold hget
  · cases hphase
  · cases hturns with
    | wrote ha hjob' hphase' howns hhist =>
      cases hphase
      rw [hjob'] at hjob; cases hjob
      rw [hhist]
      exact List.mem_append_right _ (List.mem_singleton_self _)
    | _ => cases hphase

lemma finds_exec {u : Update J} {ch : Row J → Change J}
    (h : ∀ r ∈ s.db.runs.rows, u.guard r = true → s.Finds a (.change r.id (ch r))) :
    ∀ ev ∈ (s.db.runs.rows.filter u.guard).map fun r => Ev.change r.id (ch r), s.Finds a ev := by
  intro ev hev
  obtain ⟨r, hr, rfl⟩ := List.mem_map.mp hev
  obtain ⟨hr, hg⟩ := List.mem_filter.mp hr
  exact h r hr hg

lemma finds (hs : s.Holding) (h : s.step a = some s') :
    ∃ evs, s'.hist = s.hist ++ evs ∧ (∀ ev ∈ evs, s.Finds a ev) ∧
      ∀ run token w clock, Ev.refused run token w clock ∈ evs →
        evs = [Ev.refused run token w clock] ∧ s'.db = s.db := by
  have hchange : ∀ {run : RunId} {token : Token} {w : Write J} {clock : Time}
      {rs : List (Row J)} {f : Row J → Change J},
      Ev.refused run token w clock ∉ rs.map fun r => Ev.change r.id (f r) := by
    intro run token w clock rs f hmem
    obtain ⟨r, -, he⟩ := List.mem_map.mp hmem
    cases he
  cases does h with
  | tick | prune | begin | lock | emit | rollback =>
    exact ⟨[], (List.append_nil _).symm, by simp, by simp⟩
  | touch | claim | renew | recover | promote | cancel =>
    exact ⟨_, rfl, finds_exec fun _ _ _ => trivial, fun _ _ _ _ hmem => absurd hmem hchange⟩
  | insert => exact ⟨_, rfl, by simp [Finds], by simp⟩
  | @look token tx htx hid hphase found hfound =>
    refine ⟨_, rfl, fun ev hev => ?_, by simp⟩
    rw [List.mem_singleton.mp hev]
    exact ⟨rfl, rfl, tx, hid ▸ Table.get_of_mem htx, hphase, rfl, hfound⟩
  | @refuse run token w now hnow hnot =>
    refine ⟨_, rfl, fun ev hev => ?_, fun _ _ _ _ hmem => ?_⟩
    · rw [List.mem_singleton.mp hev]; exact ⟨now, hnot, Or.inl rfl⟩
    · rw [List.mem_singleton.mp hmem]; exact ⟨rfl, rfl⟩
  | @write run token w now hnow howns hfree =>
    refine ⟨_, rfl, finds_exec fun r hr hg => ?_, fun _ _ _ _ hmem => absurd hmem hchange⟩
    have hid : r.id = run := (fence_iff.mp (Write.fence_of_guard hg)).1
    rw [hid]
    exact Or.inl ⟨now, howns⟩
  | @refuseWait tx token run index timeoutMs complete found htx hjob hphase w hw hnot =>
    have hid : tx.id = .wait token := by rw [Tx.id, hjob]; rfl
    refine ⟨_, rfl, fun ev hev => ?_, fun _ _ _ _ hmem => ?_⟩
    · rw [List.mem_singleton.mp hev, hid]
      exact ⟨tx.start, hnot, Or.inr ⟨tx, index, timeoutMs, complete, found,
        hid ▸ Table.get_of_mem htx, rfl, hjob, hphase, hw⟩⟩
    · rw [List.mem_singleton.mp hmem]; exact ⟨rfl, rfl⟩
  | @hold tx token run index timeoutMs complete found htx hjob hphase w hw howns hfree =>
    refine ⟨_, rfl, fun ev hev => ?_, by simp⟩
    rw [List.mem_singleton.mp hev]; exact ⟨_, howns⟩
  | @emitted tx n payload e woken htx hjob hphase =>
    refine ⟨_, List.append_assoc _ _ _, fun ev hev => ?_, fun _ _ _ _ hmem => ?_⟩
    · rcases List.mem_append.mp hev with hev | hev
      · rw [List.mem_singleton.mp hev]
        exact ⟨rfl, tx, n, payload, woken, Table.get_of_mem htx, rfl, hjob, hphase⟩
      · obtain ⟨r, -, rfl⟩ := List.mem_map.mp hev; trivial
    · rcases List.mem_append.mp hmem with hmem | hmem
      · cases List.mem_singleton.mp hmem
      · exact absurd hmem hchange
  | @waited tx token run index timeoutMs complete w clock htx hjob hphase =>
    refine ⟨_, rfl, fun ev hev => ?_, fun _ _ _ _ hmem => absurd hmem hchange⟩
    obtain ⟨r, hr, rfl⟩ := List.mem_map.mp hev
    have hid : r.id = run := by
      have hg : r.id ∈ [run] := of_decide_eq_true (List.mem_filter.mp hr).2
      exact List.mem_singleton.mp hg
    rw [hid]
    exact Or.inr (hs tx.id tx (Table.get_of_mem htx) token run index timeoutMs complete w clock
      hjob hphase)

lemma write_logged {w : Write J} {now : Time} (h : s.step (.write run token w now) = some s') :
    s'.db = s.db ∨ s'.log run = s.log run ++ [.wrote token w now s.clock] := by
  cases does h with
  | refuse => exact Or.inl rfl
  | write _ howns =>
    obtain ⟨r, hr, hg⟩ := Option.any_eq_true _ _ |>.mp howns
    right
    rw [exec_log, hr, Option.filter, if_pos hg]
    rfl

lemma statement_logged (h : s.step (.statement (.wait token)) = some s') :
    s'.db = s.db ∧ ∃ run w, s'.hist = s.hist ++ [.held run token w s.clock] ∨
      s'.hist = s.hist ++ [.refused run token w s.clock] := by
  generalize ha : Act.statement (.wait token) = a at h
  cases does h with
  | emit htx hjob =>
    have hid := Act.statement.inj ha
    rw [Tx.id, hjob] at hid; cases hid
  | @refuseWait tx token' run index timeoutMs complete found htx hjob hphase w hw hnot =>
    have hid := Act.statement.inj ha
    rw [Tx.id, hjob] at hid; cases hid
    exact ⟨rfl, run, w, Or.inr rfl⟩
  | @hold tx token' run index timeoutMs complete found htx hjob hphase w hw howns hfree =>
    have hid := Act.statement.inj ha
    rw [Tx.id, hjob] at hid; cases hid
    exact ⟨rfl, run, w, Or.inl rfl⟩
  | _ => cases ha

lemma commit_logged (hs : s.TxInv) (hheld : s.Holding)
    (h : s.step (.commit (.wait token)) = some s') : ∃ run w now clock,
      Ev.held run token w clock ∈ s.hist ∧
      s'.hist = s.hist ++ [.change run (.wrote token w now clock)] := by
  generalize ha : Act.commit (.wait token) = a at h
  cases does h with
  | emitted htx hjob =>
    have hid := Act.commit.inj ha
    rw [Tx.id, hjob] at hid; cases hid
  | @waited tx token' run index timeoutMs complete w clock htx hjob hphase =>
    have hid := Act.commit.inj ha
    rw [Tx.id, hjob] at hid; cases hid
    refine ⟨run, w, tx.start, clock, hheld tx.id tx (Table.get_of_mem htx) token run index
      timeoutMs complete w clock hjob hphase, ?_⟩
    have hready := hs.ready tx htx
    simp only [Tx.Ready, hphase, hjob] at hready
    obtain ⟨r, hr, -⟩ := hready
    have hsel : s.db.runs.rows.filter
        ((s.writeUpdate run token w tx.start clock).pinned [run]).guard = [r] := by
      have hkey := s.db.runs.filter_key run
      rw [show s.db.runs.get run = some r from hr] at hkey
      rw [← show (some r).toList = [r] from rfl, ← hkey]
      refine List.filter_congr fun r' _ => ?_
      simp [Update.pinned]
    change s.hist ++ (s.db.runs.rows.filter _).map _ = _
    rw [hsel, List.map_singleton, Db.run_id hr]
  | _ => cases ha

theorem Reachable.holding (h : s.Reachable) : s.Holding := by
  obtain ⟨clock, h⟩ := h
  exact h.invariant (P := Holding) (fun id tx htx => by cases htx) fun _ _ _ hs _ => hs.step

end Server

end DurablePg

import DurablePg.ClaimScan
import DurablePg.Doc
import DurablePg.Picking

/-!
A run that is due is not overtaken for ever.

Claims take the runs of a queue by the time they are due. A claim that could take a run and does
not has taken as many others as it may, all of them ahead of it, and they do not come back ahead:
what becomes ready again is due later. So every such claim shortens the line in front of the run.
-/

namespace DurablePg

open DurablePg.Lib

variable {J : Type}

/-- The action is a claim that could take the run, of so many runs. -/
def Act.covers (r : Row J) : Act J → ℕ
  | .claim q _ now => if q.claimable now r then q.limit else 0
  | _ => 0

/-- The change takes a run out of the line. -/
def Change.leaves : Change J → Bool
  | .claimed .. | .cancelled _ => true
  | _ => false

namespace Server

/-- The runs ahead of a run: ready, on its queue, and due before it or, if due at the same time,
with a smaller identifier. -/
def ahead (s : Server J) (r : Row J) : List RunId :=
  (s.db.runs.rows.filter fun x => x.state = .ready && x.queue = r.queue && x.id ≠ r.id &&
    decide (x.By Row.nextRunAt r)).map Row.id

/-- What the action enqueues or makes ready again is due after `t`. -/
structure Later (s : Server J) (t : Time) (a : Act J) : Prop where
  due : ∀ run d, s.due run a = some d → t < d
  enqueued : ∀ n now, a = .insertRun n now → t < (n.row now).nextRunAt

variable {s s' : Server J} {a : Act J} {run : RunId} {r r' : Row J}

lemma mem_ahead : run ∈ s.ahead r ↔ ∃ x, s.db.run run = some x ∧ x.state = .ready ∧
    x.queue = r.queue ∧ run ≠ r.id ∧ x.By Row.nextRunAt r := by
  unfold ahead
  simp only [List.mem_map, List.mem_filter, Bool.and_eq_true, decide_eq_true_eq]
  constructor
  · rintro ⟨x, ⟨hx, ⟨⟨hready, hqueue⟩, hne⟩, hby⟩, rfl⟩
    exact ⟨x, Db.run_of_mem hx, hready, hqueue, hne, hby⟩
  · rintro ⟨x, hx, hready, hqueue, hne, hby⟩
    exact ⟨x, ⟨Db.mem_of_run hx, ⟨⟨hready, hqueue⟩, by rw [Db.run_id hx]; exact hne⟩, hby⟩,
      Db.run_id hx⟩

lemma nodup_ahead : (s.ahead r).Nodup :=
  (List.filter_sublist.map Row.id).nodup s.db.runs.nodup

variable [Jsonb J]

lemma ahead_step (hs : s.TxInv) (h : s.step a = some s') (hdue : r.nextRunAt ≤ s.clock)
    (hlater : s.Later r.nextRunAt a) : s'.ahead r ⊆ s.ahead r := by
  intro id hid
  obtain ⟨x', hx', hready', hqueue, hne, hby⟩ := mem_ahead.mp hid
  have hle : x'.nextRunAt ≤ r.nextRunAt := by
    rcases hby with hlt | ⟨heq, -⟩
    · exact hlt.le
    · exact heq.le
  rcases hx : s.db.run id with _ | x
  · obtain ⟨n, now, rfl, -, rfl, -⟩ := inserted_of_none hs h hx hx'
    exact absurd (hlater.enqueued n now rfl) hle.not_gt
  · obtain ⟨x₁, hx₁, hcases⟩ := step_ready hs h hx
    cases hx'.symm.trans hx₁
    rcases hcases hready' with ⟨hready, hsame, -⟩ | hagain | hfuture
    · obtain ⟨x₂, hx₂, hkeeps⟩ := step_keeps hs h hx
      cases hx'.symm.trans hx₂
      refine mem_ahead.mpr ⟨x, hx, hready, hkeeps.queue.symm.trans hqueue, hne, ?_⟩
      rw [Row.By, ← hsame, Db.run_id hx]
      rwa [Row.By, Db.run_id hx'] at hby
    · exact absurd (hlater.due id _ hagain) hle.not_gt
    · exact absurd (hfuture.trans_le (hle.trans hdue)) (lt_irrefl _)

/-- **Step**: a claim that passes over the run shortens the line by as many runs as it may take. -/
lemma covers_step (hs : s.TxInv) (h : s.step a = some s') {updatedAt : Time}
    (hr : s.db.run run = some { r with updatedAt := updatedAt }) (hr' : s'.db.run run = some r')
    (hready : r.state = .ready) (hready' : r'.state = .ready)
    (hdue : r.nextRunAt ≤ s.clock) (hlater : s.Later r.nextRunAt a) :
    a.covers r + (s'.ahead r).length ≤ (s.ahead r).length := by
  have hsub := ahead_step hs h hdue hlater
  by_cases hcov : a.covers r = 0
  · rw [hcov, Nat.zero_add]
    exact (List.subperm_of_subset nodup_ahead hsub).length_le
  obtain ⟨q, gen, now, rfl, hclaimable⟩ : ∃ q gen now, a = .claim q gen now ∧
      q.claimable now r = true := by
    unfold Act.covers at hcov
    split at hcov
    · rename_i q gen now
      exact ⟨q, gen, now, rfl, by_contra fun hno => hcov (if_neg hno)⟩
    · exact absurd rfl hcov
  have hleased : ∀ id ∈ s.db.picked (q.claimable now) Row.nextRunAt s.locked q.limit,
      ∃ x', s'.db.run id = some x' ∧ x'.state = .leased := fun id hid => claim_leases h hid
  have hnot : run ∉ s.db.picked (q.claimable now) Row.nextRunAt s.locked q.limit := by
    intro hmem
    obtain ⟨x', hx', hstate⟩ := hleased run hmem
    cases hr'.symm.trans hx'
    rw [hready'] at hstate
    cases hstate
  have hclaimable' : q.claimable now { r with updatedAt := updatedAt } = true := by
    obtain ⟨queue, limit, ms, sel⟩ := q
    cases sel <;> exact hclaimable
  obtain ⟨hlen, hbefore⟩ := Db.picked_full hr hclaimable' (hs.not_locked hr hready) hnot
  -- those it has taken were ahead, and are not any more
  have hpicked : s.db.picked (q.claimable now) Row.nextRunAt s.locked q.limit ⊆ s.ahead r := by
    intro id hid
    obtain ⟨x, hx, hclaim, hby⟩ := hbefore id hid
    simp only [ClaimQuery.claimable, Bool.and_eq_true, decide_eq_true_eq] at hclaim hclaimable
    refine mem_ahead.mpr ⟨x, hx, hclaim.1.1.2, hclaim.1.1.1.trans hclaimable.1.1.1.symm, ?_, hby⟩
    rintro rfl
    exact hnot (Db.run_id hr ▸ hid)
  have hdisjoint : (s.db.picked (q.claimable now) Row.nextRunAt s.locked q.limit).Disjoint
      (s'.ahead r) := by
    intro id hid hahead
    obtain ⟨x', hx', hstate⟩ := hleased id hid
    obtain ⟨x, hx, hready, -⟩ := mem_ahead.mp hahead
    cases hx'.symm.trans hx
    rw [hready] at hstate
    cases hstate
  have hall := (List.subperm_of_subset (Db.nodup_picked.append nodup_ahead hdisjoint)
    (List.append_subset.mpr ⟨hpicked, hsub⟩)).length_le
  rw [List.length_append, hlen] at hall
  rw [Act.covers, if_pos hclaimable]
  exact hall

/-- **Run**: the run leaves the line, or the claims that could have taken it have shortened it. -/
lemma covers_run (hs : s.Reachable) (hr : s.db.run run = some r) (hready : r.state = .ready)
    (hdue : r.nextRunAt ≤ s.clock) {acts : List (Act J)}
    (hlater : ∀ a z, Takes step s acts a z → z.Later r.nextRunAt a)
    (hrun : acts.foldlM step s = some s') : s'.Reachable ∧ s.clock ≤ s'.clock ∧
      ((∃ l, s'.log run = s.log run ++ l ∧ ∃ ch ∈ l, ch.leaves = true) ∨
        (∃ updatedAt, s'.db.run run = some { r with updatedAt := updatedAt }) ∧
          (∃ l, s'.log run = s.log run ++ l) ∧
          (acts.map (Act.covers r)).sum + (s'.ahead r).length ≤ (s.ahead r).length) := by
  refine run_induction (P := fun l z => (∀ a z, Takes step s l a z → z.Later r.nextRunAt a) →
    z.Reachable ∧ s.clock ≤ z.clock ∧
      ((∃ evs, z.log run = s.log run ++ evs ∧ ∃ ch ∈ evs, ch.leaves = true) ∨
        (∃ updatedAt, z.db.run run = some { r with updatedAt := updatedAt }) ∧
          (∃ evs, z.log run = s.log run ++ evs) ∧
          (l.map (Act.covers r)).sum + (z.ahead r).length ≤ (s.ahead r).length))
    (fun _ => ⟨hs, le_rfl, Or.inr ⟨⟨r.updatedAt, hr⟩, ⟨[], by simp⟩, by simp⟩⟩) ?_ hrun hlater
  intro l z a z' hz ih h hlater
  obtain ⟨hz_reach, hclock, hcases⟩ := ih fun b w hb => hlater b w (hb.snoc a)
  have hreach' : z'.Reachable := by
    obtain ⟨clock, hz_reach⟩ := hz_reach
    exact ⟨clock, hz_reach.snoc trivial h⟩
  refine ⟨hreach', hclock.trans (clock_le h), ?_⟩
  obtain ⟨o, ⟨hlog, hm⟩, -⟩ := step_moved hz_reach.inv.tx h run
  rcases hcases with ⟨evs, hevs, ch, hch, hleaves⟩ | ⟨⟨u, hrow⟩, ⟨evs, hevs⟩, hsum⟩
  · exact Or.inl ⟨evs ++ o.toList, by rw [hlog, hevs, List.append_assoc], ch,
      List.mem_append_left _ hch, hleaves⟩
  have hstep : ∀ r', z'.db.run run = some r' → r'.state = .ready →
      ((l ++ [a]).map (Act.covers r)).sum + (z'.ahead r).length ≤ (s.ahead r).length := by
    intro r' hr' hready'
    have hone := covers_step hz_reach.inv.tx h hrow hr' hready hready' (hdue.trans hclock)
      (hlater a z (.last hz a))
    rw [List.map_append, List.sum_append, List.map_singleton, List.sum_singleton]
    omega
  have hlogs : z'.log run = s.log run ++ (evs ++ o.toList) := by
    rw [hlog, hevs, List.append_assoc]
  rcases o with _ | ch
  · have hrow' : z'.db.run run = some { r with updatedAt := u } := (congrArg View.row hm).trans hrow
    exact Or.inr ⟨⟨u, hrow'⟩, ⟨_, hlogs⟩, hstep _ hrow' hready⟩
  have hm : (z.view run).Moves ch (z'.view run) := hm
  have hmem : ch ∈ evs ++ (some ch).toList := by simp
  rcases hm.of_ready hrow hready with ⟨now, rfl⟩ | ⟨token, ms, now, clock, rfl⟩ | ⟨now, rfl⟩
  · -- touched: only `updated_at` has changed
    have hrow' : z'.db.run run = some { r with updatedAt := now } := by
      change (z'.view run).row = _
      generalize z'.view run = v' at hm
      cases hm with
      | updated _ r₀ w hr₀ hw hg =>
        cases hw
        cases hrow.symm.trans hr₀
        rfl
    exact Or.inr ⟨⟨now, hrow'⟩, ⟨_, hlogs⟩, hstep _ hrow' hready⟩
  · exact Or.inl ⟨_, hlogs, _, hmem, rfl⟩
  · exact Or.inl ⟨_, hlogs, _, hmem, rfl⟩

/-- **A due run is not starved.** Count the runs ahead of a run that is due, and let any number of
workers and clients go on, what they enqueue or make ready again being due later than the run: as
soon as the claims that could have taken it were for more runs than that, it has been claimed, or
cancelled. In particular it is among the first `k + 1` such claims when `k` runs are ahead. -/
theorem not_starved (hs : s.Reachable) (hr : s.db.run run = some r) (hready : r.state = .ready)
    (hdue : r.nextRunAt ≤ s.clock) {acts : List (Act J)}
    (hlater : ∀ a z, Takes step s acts a z → z.Later r.nextRunAt a)
    (hrun : acts.foldlM step s = some s')
    (hmany : (s.ahead r).length < (acts.map (Act.covers r)).sum) :
    ∃ l, s'.log run = s.log run ++ l ∧ ∃ ch ∈ l, ch.leaves = true := by
  obtain ⟨-, -, hleft | ⟨-, -, hsum⟩⟩ := covers_run hs hr hready hdue hlater hrun
  · exact hleft
  · omega

/-- Two runs are due at the same time: the second of two claims takes the one behind. -/
theorem not_starved_second : ∃ (s s' : Server Doc) (r : Row Doc), s.db.run "b" = some r ∧
    s.ahead r = ["a"] ∧ ∃ l, s'.log "b" = s.log "b" ++ l ∧ ∃ ch ∈ l, ch.leaves = true := by
  let enqueue (id : RunId) : Act Doc := .insertRun ⟨id, "w", 1, "q", 3, none, .null, none⟩ 0
  let claim (gen : RunId → Token) : Act Doc := .claim ⟨"q", 1, 60000, .single "w" 1⟩ gen 0
  let before := [enqueue "b", enqueue "a"]
  let acts := [claim id, claim id]
  have hsteps : ((before.foldlM step (init 0)).bind fun s => (acts.foldlM step s).bind fun _ =>
      (s.db.run "b").map fun r => (decide (r.state = .ready), decide (r.nextRunAt ≤ s.clock),
        s.ahead r, (acts.map (Act.covers r)).sum)) = some (true, true, ["a"], 2) := by
    decide +kernel
  obtain ⟨s, hs, hsteps⟩ := Option.bind_eq_some_iff.mp hsteps
  obtain ⟨s', hs', hsteps⟩ := Option.bind_eq_some_iff.mp hsteps
  obtain ⟨r, hr, heq⟩ := Option.map_eq_some_iff.mp hsteps
  simp only [Prod.mk.injEq, decide_eq_true_eq] at heq
  obtain ⟨hready, hdue, hahead, hsum⟩ := heq
  refine ⟨s, s', r, hr, hahead, not_starved ⟨0, .of_run before hs⟩ hr hready hdue ?_ hs'
    (by rw [hahead, hsum]; decide)⟩
  -- claims make nothing ready
  rintro a z ⟨l₁, l₂, hl, -⟩
  have ha : a = claim id := by
    have hmem : a ∈ acts := by rw [hl]; simp
    simpa [acts] using hmem
  subst ha
  exact ⟨fun _ _ h => (by cases h), fun _ _ h => by cases h⟩

end Server

end DurablePg

import DurablePg.Doc
import DurablePg.EventOrder
import DurablePg.Lib.Batches
import DurablePg.Picking

/-!
The passes of `maintenanceLoop` and `retentionLoop`: `recoverExpiredLeases`,
`promoteTimedOutWaiters` and `pruneExpiredEvents`, each a loop over batches, while everybody else
goes on.
-/

namespace DurablePg

open DurablePg.Lib

variable {J : Type}

inductive Chore
  | recoverExpiredLeases | promoteTimedOutWaiters | pruneExpiredEvents
  deriving DecidableEq

namespace Chore

def maxBatches : Chore → ℕ
  | .recoverExpiredLeases | .promoteTimedOutWaiters => 8
  | .pruneExpiredEvents => 64

def size : Chore → ℕ
  | .recoverExpiredLeases | .promoteTimedOutWaiters => maintenanceBatch
  | .pruneExpiredEvents => pruneBatch

def act (now : Time) : Chore → Act J
  | .recoverExpiredLeases => .recoverLeases now
  | .promoteTimedOutWaiters => .promoteTimedOut now
  | .pruneExpiredEvents => .pruneEvents now

/-- The number of rows that the statement reports. -/
def affected (s : Server J) (now : Time) : Chore → ℕ
  | .recoverExpiredLeases =>
    (s.db.picked (expiredLease now) (fun r => r.leaseUntil.getD 0) s.locked maintenanceBatch).length
  | .promoteTimedOutWaiters =>
    (s.db.picked (timedOutWait now) (fun r => r.waitingDeadline.getD 0) s.locked
      maintenanceBatch).length
  | .pruneExpiredEvents =>
    s.db.events.rows.length - (s.db.pruneEvents now pruneBatch).events.rows.length

/-- The row is one that the chore changes. -/
def takes (now : Time) (r : Row J) : Chore → Bool
  | .recoverExpiredLeases => expiredLease now r
  | .promoteTimedOutWaiters => timedOutWait now r
  | .pruneExpiredEvents => false

variable [Jsonb J]

/-- One batch of a pass that has begun at `since`. -/
def batch (c : Chore) (since : Time) (s : Server J) (now : Time) : Option (Server J × ℕ) :=
  if since ≤ now then (s.step (c.act now)).map fun s' => (s', c.affected s now) else none

variable {c : Chore} {since now : Time} {s s' : Server J} {n : ℕ}

lemma batch_some (h : c.batch since s now = some (s', n)) :
    since ≤ now ∧ s.step (c.act now) = some s' ∧ c.affected s now = n := by
  obtain ⟨hsince, h⟩ := Option.ite_none_right_eq_some.mp h
  obtain ⟨s₁, hs₁, heq⟩ := Option.map_eq_some_iff.mp h
  cases heq
  exact ⟨hsince, hs₁, rfl⟩

end Chore

/-- The order in which events are pruned. -/
def Event.Sooner (a b : Event J) : Prop := a.expiresAt ≤ b.expiresAt

instance : DecidableRel (Event.Sooner (J := J)) := fun a b =>
  inferInstanceAs (Decidable (a.expiresAt ≤ b.expiresAt))

instance : Std.Total (Event.Sooner (J := J)) := ⟨fun a b => le_total a.expiresAt b.expiresAt⟩

instance : IsTrans (Event J) Event.Sooner := ⟨fun _ _ _ => le_trans⟩

/-- The change is one that moves its run on: it does not only touch it or renew its lease. -/
def Change.moves : Change J → Bool
  | .touched _ | .renewed .. => false
  | _ => true

namespace Server

variable [Jsonb J] {s s' z z' : Server J} {a : Act J} {run : RunId} {r : Row J} {c : Chore}

/-! ### Runs -/

/-- Since `s`, the run has moved on. -/
def MovedOn (s : Server J) (run : RunId) (z : Server J) : Prop :=
  ∃ l, z.log run = s.log run ++ l ∧ ∃ ch ∈ l, ch.moves = true

/-- The run is as it was, but that enqueueing may have touched it. -/
def Unmoved (run : RunId) (r : Row J) (z : Server J) : Prop :=
  ∃ updatedAt, z.db.run run = some { r with updatedAt := updatedAt }

/-- What is known, since `s`, of a run that is overdue. -/
structure Overdue (s : Server J) (run : RunId) (r : Row J) (z : Server J) : Prop where
  reachable : z.Reachable
  clock : s.clock ≤ z.clock
  log : ∃ l, z.log run = s.log run ++ l
  row : s.MovedOn run z ∨ z.Unmoved run r

omit [Jsonb J] in
lemma MovedOn.append {l : List (Change J)} (h : s.MovedOn run z)
    (hlog : z'.log run = z.log run ++ l) : s.MovedOn run z' := by
  obtain ⟨l₀, hl₀, ch, hch, hmoves⟩ := h
  exact ⟨l₀ ++ l, by rw [hlog, hl₀, List.append_assoc], ch, List.mem_append_left _ hch, hmoves⟩

omit [Jsonb J] in
lemma takes_mono {since now : Time} (h : c.takes since r = true) (hle : since ≤ now) :
    c.takes now r = true := by
  cases c with
  | recoverExpiredLeases =>
    obtain ⟨hstate, huntil⟩ := Bool.and_eq_true_iff.mp h
    obtain ⟨t, ht, hlt⟩ := Option.any_eq_true _ _ |>.mp huntil
    refine Bool.and_eq_true_iff.mpr ⟨hstate, ?_⟩
    rw [ht]
    exact decide_eq_true ((of_decide_eq_true hlt).trans_le hle)
  | promoteTimedOutWaiters =>
    obtain ⟨hstate, huntil⟩ := Bool.and_eq_true_iff.mp h
    obtain ⟨t, ht, hle'⟩ := Option.any_eq_true _ _ |>.mp huntil
    refine Bool.and_eq_true_iff.mpr ⟨hstate, ?_⟩
    rw [ht]
    exact decide_eq_true ((of_decide_eq_true hle').trans hle)
  | pruneExpiredEvents => cases h

/-- An overdue run is only touched, or moves on: its lease, if it has one, is not renewed. -/
lemma takes_moves (htakes : c.takes z.clock r = true) {updatedAt : Time}
    (hr : z.db.run run = some { r with updatedAt := updatedAt }) {ch : Change J}
    (hm : (z.view run).Moves ch (z'.view run)) (hmakes : z.Makes a run ch) :
    (∃ t, ch = .touched t) ∨ ch.moves = true := by
  cases hmakes with
  | touched n now => exact Or.inl ⟨now, rfl⟩
  | renewed claims ms now =>
    exfalso
    generalize z'.view run = v' at hm
    cases hm with
    | updated _ r₀ u hr₀ hu hg =>
      cases hr.symm.trans hr₀
      cases hu
      obtain ⟨hleased, huntil⟩ := Bool.and_eq_true_iff.mp hg
      obtain ⟨t, ht, hlt⟩ := Option.any_eq_true _ _ |>.mp huntil
      simp only [decide_eq_true_eq] at hlt ht
      cases c with
      | recoverExpiredLeases =>
        obtain ⟨t', ht', hpast⟩ := Option.any_eq_true _ _ |>.mp (Bool.and_eq_true_iff.mp htakes).2
        rw [ht] at ht'
        cases ht'
        exact absurd hlt (of_decide_eq_true hpast).not_gt
      | promoteTimedOutWaiters =>
        have hwait : r.state = .waitingEvent := of_decide_eq_true (Bool.and_eq_true_iff.mp htakes).1
        simp [hwait] at hleased
      | pruneExpiredEvents => cases htakes
  | _ => exact Or.inr rfl

/-- **Step**: an overdue run goes on to be overdue, or moves on. -/
lemma Overdue.step (hz : s.Overdue run r z) (htakes : c.takes s.clock r = true)
    (h : z.step a = some z') : s.Overdue run r z' ∧ (s.MovedOn run z → s.MovedOn run z') := by
  obtain ⟨o, ⟨hlog, hm⟩, hmakes⟩ := step_moved hz.reachable.inv.tx h run
  have hgone : s.MovedOn run z → s.MovedOn run z' := fun hmoved => hmoved.append hlog
  refine ⟨⟨?_, hz.clock.trans (clock_le h), ?_, ?_⟩, hgone⟩
  · obtain ⟨clock, hreach⟩ := hz.reachable
    exact ⟨clock, hreach.snoc trivial h⟩
  · obtain ⟨l, hl⟩ := hz.log
    exact ⟨l ++ o.toList, by rw [hlog, hl, List.append_assoc]⟩
  rcases hz.row with hmoved | ⟨u, hr⟩
  · exact Or.inl (hgone hmoved)
  rcases o with _ | ch
  · exact Or.inr ⟨u, (congrArg View.row hm).trans hr⟩
  have hm : (z.view run).Moves ch (z'.view run) := hm
  rcases takes_moves (takes_mono htakes hz.clock) hr hm (hmakes ch rfl) with ⟨t, rfl⟩ | hmoves
  · refine Or.inr ⟨t, ?_⟩
    change (z'.view run).row = _
    generalize z'.view run = v' at hm
    cases hm with
    | updated _ r₀ w hr₀ hw hg =>
      cases hw
      cases hr.symm.trans hr₀
      rfl
  · obtain ⟨l, hl⟩ := hz.log
    exact Or.inl ⟨l ++ [ch], by rw [hlog, hl, List.append_assoc]; rfl, ch, by simp, hmoves⟩

omit [Jsonb J] in
lemma exec_log_of_guard {u : Update J} {f : Row J → Change J} (hr : s.db.run run = some r)
    (hg : u.guard r = true) : (s.exec u f).log run = s.log run ++ [f r] := by
  rw [exec_log, hr, Option.filter_some, if_pos hg]
  rfl

lemma chore_moves {now : Time} (h : z.step (c.act now) = some z') {updatedAt : Time}
    (hr : z.db.run run = some { r with updatedAt := updatedAt }) (htakes : c.takes now r = true)
    (hfree : z.locked run = false) (hless : c.affected z now < c.size) :
    ∃ ch, z'.log run = z.log run ++ [ch] ∧ ch.moves = true := by
  have hid : ({ r with updatedAt := updatedAt } : Row J).id = run := Db.run_id hr
  cases c with
  | recoverExpiredLeases =>
    have hpicked := Db.mem_picked_of_lt hr htakes hfree hless
    cases does h with
    | recover hnow hids =>
      subst hids
      exact ⟨.recovered now z.clock, exec_log_of_guard hr (decide_eq_true (hid ▸ hpicked)), rfl⟩
  | promoteTimedOutWaiters =>
    have hpicked := Db.mem_picked_of_lt hr htakes hfree hless
    cases does h with
    | promote hnow hids =>
      subst hids
      exact ⟨.timedOut now, exec_log_of_guard hr (decide_eq_true (hid ▸ hpicked)), rfl⟩
  | pruneExpiredEvents => cases htakes

lemma removes_overdue (htakes : c.takes s.clock r = true) :
    Pass.Removes step (c.batch s.clock) c.size (s.Overdue run r) (s.MovedOn run)
      (fun z => z.locked run = true ∧ z.Unmoved run r) where
  other _ _ _ hz h := hz.step htakes h
  batch z now z' n hz hbatch := by
    obtain ⟨hsince, h, rfl⟩ := Chore.batch_some hbatch
    obtain ⟨hz', hgone⟩ := hz.step htakes h
    refine ⟨hz', fun hless => ?_⟩
    rcases hz.row with hmoved | ⟨u, hr⟩
    · exact Or.inl (hgone hmoved)
    by_cases hl : z.locked run = true
    · exact Or.inr ⟨hl, u, hr⟩
    · obtain ⟨ch, hlog, hmoves⟩ := chore_moves h hr (takes_mono htakes hsince) (by simpa using hl)
        hless
      obtain ⟨l, hl⟩ := hz.log
      exact Or.inl ⟨l ++ [ch], by rw [hlog, hl, List.append_assoc], ch, by simp, hmoves⟩

/-! ### Events -/

lemma Reachable.not_emitted_again (hs : s.Reachable) (h : s.step a = some s') {e : Event J}
    (he : e ∈ s.emittedEvents) (hnot : e ∉ s.db.events.rows) : e ∉ s'.db.events.rows := by
  intro hmem
  rcases (events_step h).2 e hmem with hin | ⟨tx, woken, hget, hphase, -⟩
  · exact hnot hin
  · obtain ⟨ev, hev, heq⟩ := List.mem_filterMap.mp he
    cases ev with
    | emitted e' te =>
      cases heq
      obtain ⟨-, -, -, hlast⟩ := hs.choiceInv.order.pending tx.id tx e woken hget hphase
      exact absurd (hlast e te hev rfl) (lt_irrefl _)
    | _ => cases heq

omit [Jsonb J] in
lemma pruneEvents_rows (db : Db J) (now : Time) (limit : ℕ) :
    (db.pruneEvents now limit).events.rows = db.events.rows.filter fun e => !(e.id ∈
      (pick (fun e => e.expiresAt ≤ now) Event.Sooner limit db.events.rows).map Event.id) :=
  rfl

omit [Jsonb J] in
lemma prune_removes {db : Db J} {now : Time} {limit : ℕ} {e : Event J}
    (hexp : e.expiresAt ≤ now)
    (hless : db.events.rows.length - (db.pruneEvents now limit).events.rows.length < limit) :
    e ∉ (db.pruneEvents now limit).events.rows := by
  rw [pruneEvents_rows] at hless ⊢
  set picked := pick (fun e : Event J => e.expiresAt ≤ now) Event.Sooner limit db.events.rows
    with hpicked
  -- what is deleted includes what is picked
  have hsub : picked ⊆ db.events.rows.filter fun e => e.id ∈ picked.map Event.id := by
    intro e' he'
    exact List.mem_filter.mpr ⟨(mem_of_mem_pick he').1, decide_eq_true (List.mem_map_of_mem he')⟩
  have hcount := (List.subperm_of_subset (nodup_pick (List.Nodup.of_map _ db.events.nodup))
    hsub).length_le
  have hsplit : db.events.rows.length =
      (db.events.rows.filter fun e => e.id ∈ picked.map Event.id).length +
        (db.events.rows.filter fun e => !(e.id ∈ picked.map Event.id)).length :=
    List.length_eq_length_filter_add _
  intro he
  obtain ⟨hin, hnot⟩ := List.mem_filter.mp he
  have hmem : e ∈ picked := mem_pick_of_lt hin (decide_eq_true hexp) (by omega)
  simp only [Bool.not_eq_true', decide_eq_false_iff_not] at hnot
  exact hnot (List.mem_map_of_mem hmem)

lemma removes_event {e : Event J} (hexp : e.expiresAt ≤ s.clock) :
    Pass.Removes step (Chore.pruneExpiredEvents.batch s.clock) pruneBatch
      (fun z => z.Reachable ∧ e ∈ z.emittedEvents) (fun z => e ∉ z.db.events.rows)
      (fun _ => False) := by
  have hstep : ∀ (z : Server J) a z', z.Reachable ∧ e ∈ z.emittedEvents → z.step a = some z' →
      z'.Reachable ∧ e ∈ z'.emittedEvents := by
    rintro z a z' ⟨⟨clock, hz⟩, he⟩ h
    exact ⟨⟨clock, hz.snoc trivial h⟩, emitted_grows h he⟩
  refine ⟨fun z a z' hz h => ⟨hstep z a z' hz h, hz.1.not_emitted_again h hz.2⟩,
    fun z now z' n hz hbatch => ?_⟩
  obtain ⟨hsince, h, rfl⟩ := Chore.batch_some hbatch
  refine ⟨hstep z _ z' hz h, fun hless => Or.inl ?_⟩
  cases does h with
  | prune => exact prune_removes (hexp.trans hsince) hless

/-- **A pass leaves nothing over.** Let a pass of `recoverExpiredLeases`, `promoteTimedOutWaiters`
or `pruneExpiredEvents` begin, and others go on in between in any order. If it ends without an
error, within its time and without all its batches being full, every run whose lease or wait had
run out when it began has moved on, unless it was still the same at the last batch and an event
transaction had locked it then, and every event that had expired is gone. -/
theorem pass_leaves_nothing (hs : s.Reachable) (c : Chore) {p : Pass (Server J)} {e : Ending}
    {acts : List (PassAct (Act J) Time)}
    (hrun : acts.foldlM (Pass.next step (c.batch s.clock) c.size) (.start c.maxBatches s) = some p)
    (he : p.ended = some e) (hok : e ≠ .failed) :
    (∀ run r, s.db.run run = some r → c.takes s.clock r = true →
      s.MovedOn run p.state ∨
        (e = .drained ∧
          ∃ q, Pass.Drains step (c.batch s.clock) c.size (.start c.maxBatches s) acts q ∧
            q.state.locked run = true ∧ q.state.Unmoved run r) ∨
        e = .late ∨ (e = .spent ∧ c.maxBatches * c.size ≤ p.taken)) ∧
    (c = .pruneExpiredEvents → ∀ ev ∈ s.db.events.rows, ev.expiresAt ≤ s.clock →
      ev ∉ p.state.db.events.rows ∨ e = .late ∨
        (e = .spent ∧ c.maxBatches * c.size ≤ p.taken)) := by
  refine ⟨fun run r hr htakes => ?_, ?_⟩
  · have hinit : s.Overdue run r s :=
      ⟨hs, le_rfl, ⟨[], by simp⟩, Or.inr ⟨r.updatedAt, hr⟩⟩
    exact Pass.complete (removes_overdue htakes) hinit hrun he hok
  · rintro rfl ev hev hexp
    rcases Pass.complete (removes_event hexp) ⟨hs, hs.events hev⟩ hrun he hok with
      hgone | ⟨-, q, -, hfalse⟩ | hlate | ⟨hspent, htaken⟩
    · exact Or.inl hgone
    · exact hfalse.elim
    · exact Or.inr (Or.inl hlate)
    · exact Or.inr (Or.inr ⟨hspent, htaken⟩)

/-- A lease has run out; while the pass goes on, another run is enqueued, and it moves on. -/
theorem pass_leaves_nothing_recovered : ∃ (s : Server Doc) (p : Pass (Server Doc)) (r : Row Doc),
    s.db.run "r" = some r ∧ Chore.takes s.clock r .recoverExpiredLeases = true ∧
    p.ended = some .drained ∧ s.MovedOn "r" p.state := by
  let c : Chore := .recoverExpiredLeases
  let enqueue (id : RunId) : Act Doc := .insertRun ⟨id, "w", 1, "q", 3, none, .null, none⟩ 0
  let before := [enqueue "r", .claim ⟨"q", 1, 1, .single "w" 1⟩ id 0, .tick 2000000]
  let acts : List (PassAct (Act Doc) Time) :=
    [.other (.tick 3000000), .other (enqueue "s"), .batch 3000000 false]
  have hrun : ((before.foldlM step (init 0)).bind fun s =>
      (acts.foldlM (Pass.next step (c.batch s.clock) c.size) (.start c.maxBatches s)).bind fun p =>
      ((acts.take 2).foldlM (Pass.next step (c.batch s.clock) c.size) (.start c.maxBatches s)).bind
        fun q => (s.db.run "r").map fun r => (c.takes s.clock r, p.ended, q.state.locked "r")) =
      some (true, some .drained, false) := by
    decide +kernel
  obtain ⟨s, hs, hrun⟩ := Option.bind_eq_some_iff.mp hrun
  obtain ⟨p, hp, hrun⟩ := Option.bind_eq_some_iff.mp hrun
  obtain ⟨q, hq, hrun⟩ := Option.bind_eq_some_iff.mp hrun
  obtain ⟨r, hr, heq⟩ := Option.map_eq_some_iff.mp hrun
  simp only [Prod.mk.injEq] at heq
  obtain ⟨htakes, hended, hfree⟩ := heq
  refine ⟨s, p, r, hr, htakes, hended, ?_⟩
  rcases (pass_leaves_nothing ⟨0, .of_run before hs⟩ c hp hended (by decide)).1 "r" r hr htakes with
    hmoved | ⟨-, q', ⟨b, late, p', ⟨l₁, l₂, hacts, hq'⟩, -⟩, hlocked, -⟩ | hlate | ⟨hspent, -⟩
  · exact hmoved
  · -- the only batch comes third
    rcases l₁ with _ | ⟨a₁, _ | ⟨a₂, _ | ⟨a₃, l₁⟩⟩⟩ <;>
      simp only [acts, List.nil_append, List.cons_append, List.cons.injEq, reduceCtorEq, false_and,
        and_false, List.nil_eq, List.append_eq_nil_iff] at hacts
    obtain ⟨rfl, rfl, -⟩ := hacts
    cases hq.symm.trans hq'
    rw [hfree] at hlocked
    cases hlocked
  · cases hlate
  · cases hspent

end Server

end DurablePg

import DurablePg.EventLog

/-!
The order of the events on one key, and which of them a registration finds.

Events are looked up by the start of the transaction that emitted them and then by
identifier, and both can disagree with the order in which emissions commit. On one key they
cannot disagree by much: emissions on it exclude each other by its lock, so that they take
their identifiers in the order they commit, and an emission called after another has returned
starts no sooner than the other committed.
-/

namespace DurablePg

open DurablePg.Lib

variable {J : Type} [Jsonb J]

namespace Server

variable {s s' : Server J} {a : Act J}

lemma emitted_once (h : s.step a = some s') {evs l h₂ : List (Ev J)} {e : Event J} {te : Time}
    (hevs : s'.hist = s.hist ++ evs) (hl : evs = l ++ .emitted e te :: h₂) (e' : Event J)
    (te' : Time) : Ev.emitted e' te' ∉ h₂ := by
  have hcount : (evs.filterMap Ev.emitted?).length ≤ 1 := by
    have hchanges : ∀ (rs : List (Row J)) (f : Row J → Change J),
        (rs.map fun r => Ev.change r.id (f r)).filterMap Ev.emitted? = [] := by
      intro rs f
      rw [List.filterMap_map]
      exact List.filterMap_eq_nil_iff.mpr fun _ _ => rfl
    have hsingle : ∀ ev : Ev J, ([ev].filterMap Ev.emitted?).length ≤ 1 :=
      fun ev => List.length_filterMap_le _ _
    cases does h with
    | tick | prune | begin | lock | emit | rollback =>
      rw [List.append_cancel_left ((List.append_nil _).trans hevs).symm]
      simp
    | touch | claim | renew | recover | promote | cancel | write | waited =>
      rw [← List.append_cancel_left hevs, hchanges]
      simp
    | insert | look | refuse | refuseWait | hold =>
      rw [← List.append_cancel_left hevs]
      exact hsingle _
    | emitted =>
      rw [← List.append_cancel_left ((List.append_assoc _ _ _).symm.trans hevs),
        List.filterMap_append, hchanges, List.append_nil]
      exact hsingle _
  intro hmem
  have hpos : 0 < (h₂.filterMap Ev.emitted?).length :=
    List.length_pos_of_mem (List.mem_filterMap.mpr ⟨_, hmem, rfl⟩)
  have hself : Ev.emitted? (.emitted e te) = some e := rfl
  rw [hl, List.filterMap_append, List.length_append, List.filterMap_cons_some hself,
    List.length_cons] at hcount
  omega

lemma delivered_hist (hs : s.TxInv) {tx : Tx J} {n : ℕ} {payload : J} {e : Event J}
    {woken : List RunId} {run : RunId} (htx : s.txs.get tx.id = some tx)
    (hjob : tx.job = .emit n payload) (hphase : tx.phase = .emitted e woken) (hrun : run ∈ woken)
    (h : s.step (.commit tx.id) = some s') : ∃ mid post,
      s'.hist = s.hist ++ .emitted e s.clock ::
        (mid ++ .change run (.delivered tx.key payload tx.start) :: post) ∧
      ∀ e' te, Ev.emitted e' te ∉ mid := by
  have hready := hs.ready tx (Table.get_eq_some_iff.mp htx).1
  simp only [Tx.Ready, hphase, hjob] at hready
  obtain ⟨r, hr, -⟩ := hready.2.2 run hrun
  generalize ha : Act.commit tx.id = a at h
  cases does h with
  | @emitted tx' n' payload' e' woken' hmem hjob' hphase' =>
    have hid := Act.commit.inj ha
    obtain rfl := tx_of_id htx hmem hid.symm
    rw [hjob] at hjob'; cases hjob'
    rw [hphase] at hphase'; cases hphase'
    have hsel : r ∈ s.db.runs.rows.filter
        ((wake tx'.key payload tx'.start).pinned woken).guard :=
      List.mem_filter.mpr ⟨Db.mem_of_run hr, by simpa [Update.pinned, Db.run_id hr] using hrun⟩
    obtain ⟨mid, post, hsplit⟩ := List.append_of_mem (List.mem_map_of_mem
      (f := fun r => Ev.change r.id (.delivered tx'.key payload tx'.start)) hsel)
    rw [Db.run_id hr] at hsplit
    refine ⟨mid, post, ?_, fun e' te hmem' => ?_⟩
    · change (s.hist ++ [Ev.emitted e s.clock]) ++ _ = _
      rw [List.append_assoc, List.singleton_append]
      exact congrArg (fun l => s.hist ++ Ev.emitted e s.clock :: l) hsplit
    · have hin := List.mem_append_left
        (Ev.change run (.delivered tx'.key payload tx'.start) :: post) hmem'
      rw [← hsplit] at hin
      obtain ⟨r', -, he⟩ := List.mem_map.mp hin
      cases he
  | @waited tx' token run' index timeoutMs complete w clock hmem hjob' =>
    have hid := Act.commit.inj ha
    rw [tx_of_id htx hmem hid.symm, hjob] at hjob'; cases hjob'
  | _ => cases ha

/-- How the emissions so far are ordered. -/
structure EventOrder (s : Server J) : Prop where
  emitted : ∀ e te, Ev.emitted e te ∈ s.hist →
    e.id < s.db.nextEventId ∧ e.createdAt ≤ te ∧ te ≤ s.clock
  pending : ∀ id tx e woken, s.txs.get id = some tx → tx.phase = .emitted e woken →
    e.eventKey = tx.key ∧ e.createdAt = tx.start ∧ tx.start < e.expiresAt ∧
    ∀ e' te, Ev.emitted e' te ∈ s.hist → e'.eventKey = e.eventKey → e'.id < e.id
  order : ∀ h₁ e te h₂, s.hist = h₁ ++ .emitted e te :: h₂ → ∀ e' te',
    Ev.emitted e' te' ∈ h₂ → e'.eventKey = e.eventKey → e.id < e'.id

lemma EventOrder.step (hs : s.EventOrder) (hids : s.EventIds) (htx : s.TxInv) (hheld : s.Holding)
    (h : s.step a = some s') : s'.EventOrder := by
  obtain ⟨evs, hevs, hfinds, -⟩ := finds hheld h
  have hnext := (events_step h).1
  have hclock := clock_le h
  refine ⟨fun e te hmem => ?_, fun id tx e woken hget hphase => ?_,
    fun h₁ e te h₂ he e' te' hmem hkey => ?_⟩
  · rw [hevs] at hmem
    rcases List.mem_append.mp hmem with hmem | hmem
    · obtain ⟨hid, hcreated, hte⟩ := hs.emitted e te hmem
      exact ⟨hid.trans_le hnext, hcreated, hte.trans hclock⟩
    · obtain ⟨rfl, tx, n, payload, woken, hget, -, -, hphase⟩ := hfinds _ hmem
      obtain ⟨-, hcreated, -⟩ := hs.pending _ tx e woken hget hphase
      exact ⟨(hids.pending _ tx e woken hget hphase).1.trans_le hnext,
        hcreated.trans_le (htx.start tx (Table.get_eq_some_iff.mp hget).1), hclock⟩
  · rcases emitted_phase h hget hphase with hget₀ | ⟨-, hid, -, hhist, hkey, hcreated, hexp, -⟩
    · obtain ⟨hkey, hcreated, hexp, hlt⟩ := hs.pending id tx e woken hget₀ hphase
      refine ⟨hkey, hcreated, hexp, fun e' te hmem hsame => ?_⟩
      rw [hevs] at hmem
      rcases List.mem_append.mp hmem with hmem | hmem
      · exact hlt e' te hmem hsame
      · -- the emission that commits would hold the same key
        obtain ⟨-, tx', n, payload, woken', hget', rfl, -, hphase'⟩ := hfinds _ hmem
        obtain ⟨hkey', -⟩ := hs.pending _ tx' e' woken' hget' hphase'
        obtain ⟨hin, hid⟩ := Table.get_eq_some_iff.mp hget₀
        have hsameid := htx.keys tx hin tx' (Table.get_eq_some_iff.mp hget').1
          (by simp [Tx.holdsKey, hphase]) (by simp [Tx.holdsKey, hphase'])
          (hkey.symm.trans (hsame.symm.trans hkey'))
        rw [← hid, hsameid, commit_tx h] at hget; cases hget
    · refine ⟨hkey, hcreated, hexp, fun e' te hmem _ => ?_⟩
      rw [hhist] at hmem
      rw [hid]
      exact (hs.emitted e' te hmem).1
  · rw [hevs] at he
    rcases append_eq_append_cons he with ⟨l, rfl, hl⟩ | ⟨l, hl, rfl⟩
    · exact absurd hmem (emitted_once h hevs hl e' te')
    · rcases List.mem_append.mp hmem with hmem | hmem
      · exact hs.order h₁ e te l hl e' te' hmem hkey
      · obtain ⟨-, tx, n, payload, woken, hget, -, -, hphase⟩ := hfinds _ hmem
        refine (hs.pending _ tx e' woken hget hphase).2.2.2 e te ?_ hkey.symm
        rw [hl]; simp

/-! ### What a search finds -/

/-- An event on the same key was called after the emission of `e` had returned, it has been
emitted, and it has not expired at `t`. -/
def Superseded (hist : List (Ev J)) (t : Time) (e : Event J) : Prop :=
  ∃ h₁ te h₂ e' te', hist = h₁ ++ .emitted e te :: h₂ ∧ Ev.emitted e' te' ∈ h₂ ∧
    e'.eventKey = e.eventKey ∧ te ≤ e'.createdAt ∧ t < e'.expiresAt

/-- What the last search of a registration found was emitted on its key, had not expired when
the registration began, and was not superseded when it was found. -/
def Chosen (hist : List (Ev J)) (token : Token) (key : String) (start : Time)
    (found : Option J) : Prop :=
  ∀ payload, found = some payload → ∃ h₁ t h₂ e,
    hist = h₁ ++ .looked token key (some payload) t :: h₂ ∧
    (∀ k f t', Ev.looked token k f t' ∉ h₂) ∧ e.eventKey = key ∧ e.payload = payload ∧
    (∃ te, Ev.emitted e te ∈ h₁) ∧ start < e.expiresAt ∧ ¬ Superseded h₁ t e

omit [Jsonb J] in
lemma EventOrder.not_superseded (hs : s.EventOrder) (hlog : s.Logged) {start : Time}
    (hstart : start ≤ s.clock) {e : Event J}
    (hmax : ∀ e' ∈ s.db.events.rows, e'.eventKey = e.eventKey → start < e'.expiresAt →
      e'.createdAt < e.createdAt ∨ (e'.createdAt = e.createdAt ∧ e'.id ≤ e.id)) :
    ¬ Superseded s.hist s.clock e := by
  rintro ⟨h₁, te, h₂, e', te', hhist, hmem, hkey, hle, hexp⟩
  have hmem₁ : Ev.emitted e te ∈ s.hist := by rw [hhist]; simp
  have hmem' : Ev.emitted e' te' ∈ s.hist := by rw [hhist]; simp [hmem]
  have hcreated := (hs.emitted e te hmem₁).2.1
  have hid := hs.order h₁ e te h₂ hhist e' te' hmem hkey
  rcases hlog e' te' hmem' with hin | hexp'
  · rcases hmax e' hin hkey (hstart.trans_lt hexp) with hlt | ⟨-, hle'⟩
    · exact absurd hlt (hcreated.trans hle).not_gt
    · omega
  · exact absurd hexp hexp'.not_gt

/-- What is true of the choice of events in every reachable state. -/
structure ChoiceInv (s : Server J) : Prop where
  order : s.EventOrder
  chosen : s.RegisteringWith Chosen

lemma ChoiceInv.step (hs : s.ChoiceInv) (hr : s.Reachable) (h : s.step a = some s') :
    s'.ChoiceInv := by
  have htx := hr.inv.tx
  have hev := hr.eventInv
  refine ⟨hs.order.step hev.ids htx hr.holding h,
    hs.chosen.step (fun token tx hget _ => ?_) ?_ htx hr.holding h⟩
  · intro payload hfound
    obtain ⟨e, he, hkey, hexp, hpayload, hmax⟩ := Db.latestEvent_some hfound
    obtain ⟨te, hte⟩ : ∃ te, Ev.emitted e te ∈ s.hist := by
      obtain ⟨ev, hev, heq⟩ := List.mem_filterMap.mp (hr.events he)
      cases ev with
      | emitted e' te => cases heq; exact ⟨te, hev⟩
      | _ => cases heq
    refine ⟨s.hist, s.clock, [], e, by rw [hfound], by simp, hkey, hpayload, ⟨te, hte⟩, hexp, ?_⟩
    exact hs.order.not_superseded hev.logged
      (htx.start tx (Table.get_eq_some_iff.mp hget).1) (hkey ▸ hmax)
  · intro hist evs token key start found hc hl _ payload hfound
    obtain ⟨h₁, t, h₂, e, rfl, hl₂, hrest⟩ := hc payload hfound
    refine ⟨h₁, t, h₂ ++ evs, e, by simp, fun k f t' hmem => ?_, hrest⟩
    rcases List.mem_append.mp hmem with hmem | hmem
    · exact hl₂ k f t' hmem
    · exact hl k f t' hmem

theorem Reachable.choiceInv (h : s.Reachable) : s.ChoiceInv := by
  obtain ⟨clock, h⟩ := h
  have hinit : (init clock : Server J).ChoiceInv := by
    refine ⟨⟨?_, ?_, ?_⟩, ?_⟩
    · intro e te hmem; cases hmem
    · intro id tx e woken hget; cases hget
    · intro h₁ e te h₂ he; simp [init] at he
    · intro token tx run index timeoutMs complete hget; cases hget
  refine (h.invariant (P := fun s => s.Reachable ∧ s.ChoiceInv) ⟨⟨clock, .refl⟩, hinit⟩ ?_).2
  rintro s a s' ⟨⟨clock, hs⟩, hi⟩ - hstep
  exact ⟨⟨clock, hs.snoc trivial hstep⟩, hi.step ⟨clock, hs⟩ hstep⟩

end Server

end DurablePg

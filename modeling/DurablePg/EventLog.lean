import DurablePg.History

/-!
The event log: it holds every event that was emitted and has not expired, and what a
registration has looked for, nobody emits until the registration is over.
-/

namespace DurablePg

open DurablePg.Lib

variable {J : Type} [Jsonb J]

namespace Server

variable {s s' : Server J} {a : Act J}

/-! ### Identifiers -/

lemma emitted_phase (h : s.step a = some s') {id : TxId} {tx : Tx J} {e : Event J}
    {woken : List RunId} (htx : s'.txs.get id = some tx) (hphase : tx.phase = .emitted e woken) :
    s.txs.get id = some tx ∨ (a.tx? = some id ∧ e.id = s.db.nextEventId ∧
      s'.db = { s.db with nextEventId := s.db.nextEventId + 1 } ∧ s'.hist = s.hist ∧
      e.eventKey = tx.key ∧ e.createdAt = tx.start ∧ tx.start < e.expiresAt ∧ ∀ n payload,
      tx.job = .emit n payload → woken = s.db.selected (wake tx.key payload tx.start)) := by
  rcases tx_cases h htx with hget | ⟨job, key, rfl⟩ | ⟨tx₀, phase, -, ha, rfl, hturns⟩
  · exact Or.inl hget
  · cases hphase
  · cases hturns with
    | emitted hjob hdb hhist =>
      cases hphase
      refine Or.inr ⟨ha, rfl, hdb, hhist, rfl, rfl, ?_, fun n payload hjob' => ?_⟩
      · have hpos : (0 : Time) < millis eventTTLMs := by decide
        exact Int.lt_add_of_pos_right _ hpos
      · rw [hjob] at hjob'; cases hjob'; rfl
    | _ => cases hphase

lemma events_step (h : s.step a = some s') :
    s.db.nextEventId ≤ s'.db.nextEventId ∧ ∀ e ∈ s'.db.events.rows, e ∈ s.db.events.rows ∨
      ∃ tx woken, s.txs.get tx.id = some tx ∧ tx.phase = .emitted e woken ∧
        s'.txs.get tx.id = none := by
  cases does h with
  | prune => exact ⟨le_rfl, fun e he => Or.inl (List.mem_of_mem_filter he)⟩
  | emit => exact ⟨Nat.le_succ _, fun e he => Or.inl he⟩
  | @emitted tx n payload e₀ woken htx hjob hphase =>
    refine ⟨le_rfl, fun e he => ?_⟩
    have he : e ∈ (s.db.events.insert e₀).rows := he
    unfold Table.insert at he
    split at he
    · exact Or.inl he
    · rcases List.mem_append.mp he with he | he
      · exact Or.inl he
      · rw [List.mem_singleton.mp he]
        exact Or.inr ⟨tx, woken, Table.get_of_mem htx, hphase, commit_tx h⟩
  | _ => exact ⟨le_rfl, fun e he => Or.inl he⟩

/-- Identifiers come from a sequence, so that no insert into the log finds its own taken. -/
structure EventIds (s : Server J) : Prop where
  rows : ∀ e ∈ s.db.events.rows, e.id < s.db.nextEventId
  pending : ∀ id tx e woken, s.txs.get id = some tx → tx.phase = .emitted e woken →
    e.id < s.db.nextEventId ∧ ∀ e' ∈ s.db.events.rows, e'.id ≠ e.id
  distinct : ∀ id tx e woken id' tx' e' woken', s.txs.get id = some tx →
    tx.phase = .emitted e woken → s.txs.get id' = some tx' → tx'.phase = .emitted e' woken' →
    e.id = e'.id → id = id'

lemma EventIds.step (hs : s.EventIds) (h : s.step a = some s') : s'.EventIds := by
  obtain ⟨hle, hrows⟩ := events_step h
  refine ⟨fun e he => ?_, fun id tx e woken htx hphase => ?_,
    fun id tx e woken id' tx' e' woken' htx hphase htx' hphase' heq => ?_⟩
  · rcases hrows e he with he | ⟨tx, woken, htx, hphase, -⟩
    · exact (hs.rows e he).trans_le hle
    · exact (hs.pending _ tx e woken htx hphase).1.trans_le hle
  · rcases emitted_phase h htx hphase with htx₀ | ⟨-, hid, hdb, -⟩
    · obtain ⟨hlt, hne⟩ := hs.pending id tx e woken htx₀ hphase
      refine ⟨hlt.trans_le hle, fun e' he' => ?_⟩
      rcases hrows e' he' with he' | ⟨tx', woken', htx', hphase', hnone⟩
      · exact hne e' he'
      · -- the transaction that has committed is another one
        intro heq
        have hid := hs.distinct _ tx' e' woken' id tx e woken htx' hphase' htx₀ hphase heq
        rw [← hid, hnone] at htx; cases htx
    · rw [hid, hdb]
      exact ⟨Nat.lt_succ_self _, fun e' he' => (hs.rows e' he').ne⟩
  · rcases emitted_phase h htx hphase with htx₀ | ⟨ha, hid, -⟩ <;>
      rcases emitted_phase h htx' hphase' with htx₀' | ⟨ha', hid', -⟩
    · exact hs.distinct id tx e woken id' tx' e' woken' htx₀ hphase htx₀' hphase' heq
    · have := (hs.pending id tx e woken htx₀ hphase).1
      omega
    · have := (hs.pending id' tx' e' woken' htx₀' hphase').1
      omega
    · rw [ha] at ha'; exact Option.some.inj ha'

/-! ### What the log holds -/

omit [Jsonb J] in
lemma mem_pruneEvents {db : Db J} {now : Time} {limit : ℕ} {e : Event J}
    (he : e ∈ db.events.rows) : e ∈ (db.pruneEvents now limit).events.rows ∨ e.expiresAt ≤ now := by
  by_cases hmem : e ∈ (db.pruneEvents now limit).events.rows
  · exact Or.inl hmem
  · right
    simp only [Db.pruneEvents, Table.deleteWhere, List.mem_filter, he, true_and,
      Bool.not_eq_true', decide_eq_false_iff_not, not_not, List.mem_map] at hmem
    obtain ⟨e', he', hid⟩ := hmem
    have he' := (List.mem_insertionSort _).mp (List.mem_of_mem_take he')
    obtain ⟨he', hexp⟩ := List.mem_filter.mp he'
    rw [← List.inj_on_of_nodup_map db.events.nodup he' he hid]
    simpa using hexp

lemma event_kept (h : s.step a = some s') {e : Event J} (he : e ∈ s.db.events.rows) :
    e ∈ s'.db.events.rows ∨ e.expiresAt ≤ s'.clock := by
  cases does h with
  | prune hnow => exact (mem_pruneEvents he).imp_right fun hexp => hexp.trans hnow
  | @emitted tx n payload e₀ woken =>
    left
    change e ∈ (s.db.events.insert e₀).rows
    unfold Table.insert
    split
    · exact he
    · exact List.mem_append_left _ he
  | _ => exact Or.inl he

lemma event_added (hs : s.EventIds) {tx : Tx J} {e : Event J} {woken : List RunId}
    (htx : s.txs.get tx.id = some tx) (hphase : tx.phase = .emitted e woken)
    (h : s.step (.commit tx.id) = some s') : e ∈ s'.db.events.rows := by
  generalize ha : Act.commit tx.id = a at h
  cases does h with
  | @emitted tx' n payload e' woken' hmem hjob hphase' =>
    have hid := Act.commit.inj ha
    rw [tx_of_id htx hmem hid.symm, hphase] at hphase'
    cases hphase'
    change e ∈ (s.db.events.insert e).rows
    unfold Table.insert
    split
    · rename_i hmem
      obtain ⟨e', he', hid'⟩ := List.mem_map.mp hmem
      exact absurd hid' ((hs.pending _ tx e woken htx hphase).2 e' he')
    · exact List.mem_append_right _ (List.mem_singleton_self e)
  | @waited tx' token run index timeoutMs complete w clock hmem hjob hphase' =>
    have hid := Act.commit.inj ha
    rw [tx_of_id htx hmem hid.symm, hphase] at hphase'
    cases hphase'
  | _ => cases ha

/-- Every event that was emitted is in the log, or has expired. -/
def Logged (s : Server J) : Prop :=
  ∀ e clock, Ev.emitted e clock ∈ s.hist → e ∈ s.db.events.rows ∨ e.expiresAt ≤ s.clock

lemma Logged.step (hs : s.Logged) (hids : s.EventIds) (hheld : s.Holding)
    (h : s.step a = some s') : s'.Logged := by
  intro e clock hmem
  obtain ⟨evs, hevs, hfinds, -⟩ := finds hheld h
  rw [hevs] at hmem
  rcases List.mem_append.mp hmem with hmem | hmem
  · rcases hs e clock hmem with he | hexp
    · exact event_kept h he
    · exact Or.inr (hexp.trans (clock_le h))
  · obtain ⟨-, tx, n, payload, woken, htx, rfl, -, hphase⟩ := hfinds _ hmem
    exact Or.inl (event_added hids htx hphase h)

/-! ### Looking for an event -/

/-- Where a registration found nothing, every event emitted before has expired. -/
def Searched (s : Server J) : Prop :=
  ∀ h₁ token key t h₂, s.hist = h₁ ++ .looked token key none t :: h₂ →
    ∀ e clock, Ev.emitted e clock ∈ h₁ → e.eventKey = key → e.expiresAt ≤ t

lemma Searched.step (hs : s.Searched) (hlog : s.Logged) (htx : s.TxInv) (hheld : s.Holding)
    (h : s.step a = some s') : s'.Searched := by
  intro h₁ token key t h₂ he e clock hmem hkey
  obtain ⟨evs, hevs, hfinds, -⟩ := finds hheld h
  rw [hevs] at he
  rcases append_eq_append_cons he with ⟨l, rfl, hl⟩ | ⟨l, hl, rfl⟩
  · obtain ⟨rfl, rfl, tx, htx', hphase, rfl, hnone⟩ :=
      hfinds (.looked token key none t) (by simp [hl])
    -- the search adds one event to the history, itself
    have hlen : l = [] := by
      have hone := hevs
      cases does h with
      | look =>
        rw [List.append_cancel_left_eq] at hone
        rw [← hone] at hl
        rcases l with _ | ⟨x, l⟩
        · rfl
        · simp at hl
    subst hlen
    rw [List.append_nil] at hmem
    rcases hlog e clock hmem with hin | hexp
    · exact (Db.latestEvent_none hnone.symm hin hkey).trans
        (htx.start tx (Table.get_eq_some_iff.mp htx').1)
    · exact hexp
  · exact hs h₁ token key t l hl e clock hmem hkey

/-- The last search of a registration is in the history, and since then nobody has emitted on
its key. -/
def Searching (hist : List (Ev J)) (token : Token) (key : String) (found : Option J) : Prop :=
  ∃ h₁ t h₂, hist = h₁ ++ .looked token key found t :: h₂ ∧
    (∀ k f t', Ev.looked token k f t' ∉ h₂) ∧
    ∀ e clock, Ev.emitted e clock ∈ h₂ → e.eventKey ≠ key

omit [Jsonb J] in
lemma Searching.append {hist evs : List (Ev J)} {token : Token} {key : String} {found : Option J}
    (h : Searching hist token key found) (hl : ∀ k f t, Ev.looked token k f t ∉ evs)
    (he : ∀ e clock, Ev.emitted e clock ∈ evs → e.eventKey ≠ key) :
    Searching (hist ++ evs) token key found := by
  obtain ⟨h₁, t, h₂, rfl, hl₂, he₂⟩ := h
  refine ⟨h₁, t, h₂ ++ evs, by simp, fun k f t' hmem => ?_, fun e clock hmem => ?_⟩
  · rcases List.mem_append.mp hmem with hmem | hmem
    · exact hl₂ k f t' hmem
    · exact hl k f t' hmem
  · rcases List.mem_append.mp hmem with hmem | hmem
    · exact he₂ e clock hmem
    · exact he e clock hmem

/-- What an open registration has found, and what it writes. -/
def Registering (s : Server J) : Prop :=
  ∀ token tx run index timeoutMs complete, s.txs.get (.wait token) = some tx →
    tx.job = .wait token run index timeoutMs complete →
    (∀ found, tx.phase = .looked found → Searching s.hist token tx.key found) ∧
    ∀ w clock, tx.phase = .wrote w clock → ∃ found,
      w = waitWrite found tx.key index timeoutMs complete ∧ Searching s.hist token tx.key found

/-- The same, of any fact about the history that the search establishes. -/
def RegisteringWith (P : List (Ev J) → Token → String → Time → Option J → Prop)
    (s : Server J) : Prop :=
  ∀ token tx run index timeoutMs complete, s.txs.get (.wait token) = some tx →
    tx.job = .wait token run index timeoutMs complete →
    (∀ found, tx.phase = .looked found → P s.hist token tx.key tx.start found) ∧
    ∀ w clock, tx.phase = .wrote w clock → ∃ found,
      w = waitWrite found tx.key index timeoutMs complete ∧ P s.hist token tx.key tx.start found

lemma emitted_other (htx : s.TxInv) {tx : Tx J} {token : Token}
    (hget : s.txs.get (.wait token) = some tx) (hholds : tx.holdsKey = true) {e : Event J}
    {clock : Time} (hfinds : s.Finds a (.emitted e clock)) : e.eventKey ≠ tx.key := by
  obtain ⟨-, tx', n, payload, woken, htx', -, hjob, hphase⟩ := hfinds
  obtain ⟨hmem, hid⟩ := Table.get_eq_some_iff.mp hget
  have hmem' := (Table.get_eq_some_iff.mp htx').1
  have hready := htx.ready tx' hmem'
  simp only [Tx.Ready, hphase, hjob] at hready
  intro heq
  have hids := htx.keys tx hmem tx' hmem' hholds (by simp [Tx.holdsKey, hphase])
    (heq.symm.trans hready.1)
  rw [hid, Tx.id, hjob] at hids; cases hids

/-- A fact that holds of a search when it is made, and that neither another search nor an
emission on another key undoes, holds until the registration is over. -/
lemma RegisteringWith.step {P : List (Ev J) → Token → String → Time → Option J → Prop}
    (hsearch : ∀ token tx, s.txs.get (.wait token) = some tx → tx.phase = .locked →
      P (s.hist ++ [.looked token tx.key (s.db.latestEvent tx.key tx.start) s.clock]) token tx.key
        tx.start (s.db.latestEvent tx.key tx.start))
    (hadd : ∀ hist evs token key start found, P hist token key start found →
      (∀ k f t, Ev.looked token k f t ∉ evs) →
      (∀ e clock, Ev.emitted e clock ∈ evs → e.eventKey ≠ key) →
      P (hist ++ evs) token key start found)
    (hs : s.RegisteringWith P) (htx : s.TxInv) (hheld : s.Holding) (h : s.step a = some s') :
    s'.RegisteringWith P := by
  intro token tx run index timeoutMs complete hget hjob
  obtain ⟨evs, hevs, hfinds, -⟩ := finds hheld h
  rcases tx_cases h hget with hget | ⟨job, key, rfl⟩ | ⟨tx₀, phase, hget₀, ha, rfl, hturns⟩
  · -- a registration that has searched does not search again
    have happend : ∀ found, tx.holdsKey = true → tx.phase ≠ .locked →
        P s.hist token tx.key tx.start found → P s'.hist token tx.key tx.start found := by
      intro found hholds hne hfound
      rw [hevs]
      refine hadd _ _ _ _ _ _ hfound (fun k f t hmem => ?_) fun e clock hmem =>
        emitted_other htx hget hholds (hfinds _ hmem)
      obtain ⟨-, -, tx', htx', hphase, -⟩ := hfinds _ hmem
      cases hget.symm.trans htx'
      exact hne hphase
    obtain ⟨hlook, hwrote⟩ := hs token tx run index timeoutMs complete hget hjob
    refine ⟨fun found hphase => ?_, fun w clock hphase => ?_⟩
    · exact happend found (by simp [Tx.holdsKey, hphase]) (by simp [hphase]) (hlook found hphase)
    · obtain ⟨found, hw, hfound⟩ := hwrote w clock hphase
      exact ⟨found, hw, happend found (by simp [Tx.holdsKey, hphase]) (by simp [hphase]) hfound⟩
  · exact ⟨by simp, by simp⟩
  · cases hturns with
    | locked | emitted => exact ⟨by simp, by simp⟩
    | looked ha' hphase hhist =>
      -- the search itself
      subst ha'
      cases ha
      refine ⟨fun found hfound => ?_, by simp⟩
      cases hfound
      rw [hhist]
      exact hsearch token tx₀ hget₀ hphase
    | wrote _ hjob' hphase _ hhist =>
      have hjob : tx₀.job = .wait token run index timeoutMs complete := hjob
      cases hjob.symm.trans hjob'
      refine ⟨by simp, fun w clock hw => ?_⟩
      cases hw
      obtain ⟨hlook, -⟩ := hs token tx₀ run index timeoutMs complete hget₀ hjob
      rw [hhist]
      exact ⟨_, rfl, hadd _ _ _ _ _ _ (hlook _ hphase) (by simp) (by simp)⟩

lemma Registering.step (hs : s.Registering) (htx : s.TxInv) (hheld : s.Holding)
    (h : s.step a = some s') : s'.Registering :=
  RegisteringWith.step (P := fun hist token key _ found => Searching hist token key found)
    (fun _ _ _ _ => ⟨s.hist, s.clock, [], rfl, by simp, by simp⟩)
    (fun _ _ _ _ _ _ hfound hl he => hfound.append hl he) hs htx hheld h

/-- What is true of the event log in every reachable state. -/
structure EventInv (s : Server J) : Prop where
  ids : s.EventIds
  logged : s.Logged
  searched : s.Searched
  registering : s.Registering

theorem Reachable.eventInv (h : s.Reachable) : s.EventInv := by
  obtain ⟨clock, h⟩ := h
  refine (h.invariant (P := fun s => s.Reachable ∧ s.EventInv) ⟨⟨clock, .refl⟩, ?_⟩ ?_).2
  · refine ⟨⟨by simp [init, Db.empty, Table.empty], by simp [init], by simp [init]⟩, ?_, ?_, ?_⟩
    · intro e t hmem; cases hmem
    · intro h₁ token key t h₂ he; simp [init] at he
    · intro token tx run index timeoutMs complete hget; cases hget
  · rintro s a s' ⟨⟨clock, hs⟩, hi⟩ - hstep
    have hs' : s.Reachable := ⟨clock, hs⟩
    have htx := hs'.inv.tx
    have hheld := hs'.holding
    exact ⟨⟨clock, hs.snoc trivial hstep⟩, hi.ids.step hstep, hi.logged.step hi.ids hheld hstep,
      hi.searched.step hi.logged htx hheld hstep, hi.registering.step htx hheld hstep⟩

end Server

end DurablePg

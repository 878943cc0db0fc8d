import DurablePg.Heartbeat

/-!
When expired claims are canceled.

Let timers and contexts end on time and local code take no time. A loop that blocks knows the
deadlines of the claims it has seen, and resumes no later than the earliest of them. It does not
know those of claims that are entered while it is blocked: their deadlines count from the start
of a claim statement that may have been slow.
-/

namespace DurablePg

open DurablePg.Lib

variable {J : Type}

/-- When a blocked loop is bound to resume. -/
def HeartPc.resumes : HeartPc → Option Time
  | .sleeping t => some t
  | .renewing _ bound => some bound
  | _ => none

namespace Hearts

section Timing

variable (cfg : ℕ → Settings) (n : ℕ) (y : Hearts J)

/-- When the loop is bound to look at the deadlines again: when it resumes if it is blocked or
about to block, and now if it is about to look. -/
def resume : Time :=
  match (y.hearts n).pc with
  | .sleeping t => t
  | .expired now earliest => earliest.getD (now + (cfg n).leaseTTL)
  | .renewing _ bound => bound
  | _ => y.net.srv.clock

/-- Timers and contexts end on time, and local code takes no time: the clock stands still unless
the loop is blocked, and does not pass the time at which it is bound to resume. -/
def punctual : HeartAct J → Bool
  | .net (.server (.tick t)) =>
    match (y.hearts n).pc with
    | .idle | .stopped => true
    | pc => t ≤ pc.resumes.getD y.net.srv.clock
  | .startWorker m now | .sleep m now | .wake m now => m ≠ n || now = y.net.srv.clock
  | _ => true

/-- A claim is entered with a deadline no earlier than the time at which the loop is bound to
look at the deadlines again. -/
def timely : HeartAct J → Bool
  | .net (.insert token _) =>
    (y.net.arrivals.get token).all fun b => b.worker ≠ n || y.resume cfg n ≤ b.deadline
  | _ => true

structure OnTime : Prop where
  live : ∀ e ∈ (y.net.leases n).rows, e.canceled = false → y.resume cfg n ≤ e.deadline
  clock : y.net.srv.clock ≤ y.resume cfg n
  due : ∀ now, (y.hearts n).pc = .due now → now = y.net.srv.clock
  expired : ∀ now earliest, (y.hearts n).pc = .expired now earliest → now = y.net.srv.clock ∧
    earliest.getD (now + (cfg n).leaseTTL) ≤ now + (cfg n).leaseTTL
  /-- The deadline that a renewal confirms is not earlier than the end of its context. -/
  renewing : ∀ id, (y.hearts n).pc.renewal? = some id → ∃ b, y.net.renewals.get id = some b ∧
    y.resume cfg n ≤ b.now + (cfg n).leaseTTL
  calls : ∀ c ∈ y.calls, c.worker = n → c.clock ≤ c.deadline

end Timing

variable [Jsonb J] {cfg : ℕ → Settings} {workflows : ℕ → List (String × ℤ)} {n : ℕ}
  {y y' : Hearts J} {a : HeartAct J}

omit [Jsonb J] in
lemma resume_of_pc (hpc : (y'.hearts n).pc = (y.hearts n).pc)
    (hclock : y'.net.srv.clock = y.net.srv.clock) : y'.resume cfg n = y.resume cfg n := by
  unfold resume
  rw [hpc, hclock]

lemma leaseTTL_pos (c : Settings) : 0 < c.leaseTTL := c.heartbeat_pos.trans c.heartbeat_lt

namespace OnTime

omit [Jsonb J] in
lemma init (clock : Time) : (Hearts.init clock : Hearts J).OnTime cfg n where
  live _ h := by cases h
  clock := le_rfl
  due _ h := by cases h
  expired _ _ h := by cases h
  renewing _ h := by cases h
  calls _ h := by cases h

omit [Jsonb J] in
lemma clock_le_deadline (ho : y.OnTime cfg n) {e : LeaseEntry} (he : e ∈ (y.net.leases n).rows)
    (hlive : e.canceled = false) : y.net.srv.clock ≤ e.deadline :=
  ho.clock.trans (ho.live e he hlive)

omit [Jsonb J] in
lemma keep (ho : y.OnTime cfg n) (hpc : (y'.hearts n).pc = (y.hearts n).pc)
    (hclock : y'.net.srv.clock = y.net.srv.clock)
    (hlive : ∀ e ∈ (y'.net.leases n).rows, e.canceled = false →
      e ∈ (y.net.leases n).rows ∨ y.resume cfg n ≤ e.deadline)
    (hrenewals : ∀ id b, (y.hearts n).pc.renewal? = some id → y.net.renewals.get id = some b →
      ∃ b', y'.net.renewals.get id = some b' ∧ b'.now = b.now)
    (hcalls : ∀ c ∈ y'.calls, c.worker = n → c.clock ≤ c.deadline) : y'.OnTime cfg n where
  live e he hc := by
    rw [resume_of_pc hpc hclock]
    rcases hlive e he hc with he | hle
    · exact ho.live e he hc
    · exact hle
  clock := by rw [resume_of_pc hpc hclock, hclock]; exact ho.clock
  due now h := by rw [hclock]; exact ho.due now (hpc.symm.trans h)
  expired now earliest h := by rw [hclock]; exact ho.expired now earliest (hpc.symm.trans h)
  renewing id h := by
    rw [hpc] at h
    obtain ⟨b, hb, hle⟩ := ho.renewing id h
    obtain ⟨b', hb', hnow⟩ := hrenewals id b h hb
    exact ⟨b', hb', by rw [resume_of_pc hpc hclock, hnow]; exact hle⟩
  calls := hcalls

omit [Jsonb J] in
lemma ready (hresume : y'.resume cfg n = y'.net.srv.clock)
    (hlive : ∀ e ∈ (y'.net.leases n).rows, e.canceled = false → y'.net.srv.clock ≤ e.deadline)
    (hdue : ∀ now, (y'.hearts n).pc = .due now → now = y'.net.srv.clock)
    (hpc : ∀ now earliest, (y'.hearts n).pc ≠ .expired now earliest)
    (hrenewing : ∀ id, (y'.hearts n).pc.renewal? = some id →
      ∃ b, y'.net.renewals.get id = some b ∧ y'.net.srv.clock ≤ b.now + (cfg n).leaseTTL)
    (hcalls : ∀ c ∈ y'.calls, c.worker = n → c.clock ≤ c.deadline) : y'.OnTime cfg n where
  live e he hc := by rw [hresume]; exact hlive e he hc
  clock := hresume.ge
  due := hdue
  expired now earliest h := absurd h (hpc now earliest)
  renewing id h := by
    obtain ⟨b, hb, hle⟩ := hrenewing id h
    exact ⟨b, hb, by rw [hresume]; exact hle⟩
  calls := hcalls

lemma tick (ho : y.OnTime cfg n) (hy : y.Inv cfg workflows) {t : Time} (hle : y.net.srv.clock ≤ t)
    (hp : y.punctual n (.net (.server (.tick t))) = true) :
    ({ y with net := { y.net with srv := { y.net.srv with clock := t } } } : Hearts J).OnTime
      cfg n := by
  set y₁ : Hearts J := { y with net := { y.net with srv := { y.net.srv with clock := t } } }
    with hy₁
  have hpc₁ : y₁.hearts n = y.hearts n := rfl
  -- a loop that does not run has no live claim
  have hnone : (∀ e ∈ (y.net.leases n).rows, e.canceled = true) → y₁.resume cfg n = t →
      (∀ now, (y.hearts n).pc ≠ .due now) →
      (∀ now earliest, (y.hearts n).pc ≠ .expired now earliest) →
      (y.hearts n).pc.renewal? = none → y₁.OnTime cfg n := fun hall hresume hdue hexp hren =>
    .ready hresume (fun e he hc => by rw [hall e he] at hc; cases hc)
      (fun now h => absurd h (hdue now)) hexp (fun id h => by rw [hpc₁, hren] at h; cases h)
      ho.calls
  -- a blocked loop resumes when it was bound to
  have hblocked : ∀ {r}, (y.hearts n).pc.resumes = some r → y.resume cfg n = r →
      y₁.resume cfg n = r → t ≤ r → y₁.OnTime cfg n := by
    intro r hres hr hr₁ htr
    refine ⟨fun e he hc => ?_, ?_, fun now h => ?_, fun now earliest h => ?_, fun id h => ?_,
      ho.calls⟩
    · rw [hr₁, ← hr]; exact ho.live e he hc
    · rw [hr₁]; exact htr
    · rw [hpc₁] at h; rw [h] at hres; cases hres
    · rw [hpc₁] at h; rw [h] at hres; cases hres
    · rw [hr₁, ← hr]; exact ho.renewing id h
  have hstill : t ≤ y.net.srv.clock → y₁.OnTime cfg n := fun hge =>
    ho.keep rfl (le_antisymm hge hle) (fun e he _ => Or.inl he)
      (fun id b _ hb => ⟨b, hb, rfl⟩) ho.calls
  rcases hpc : (y.hearts n).pc with _ | _ | r | now | ⟨now, earliest⟩ | ⟨id, r⟩ | id | _
  case idle =>
    refine hnone (fun e he => ?_) (by simp [resume, hpc, hy₁]) (by simp [hpc])
      (by simp [hpc]) (by rw [hpc]; rfl)
    rw [(hy.idle n hpc).1] at he; cases he
  case stopped =>
    exact hnone (hy.done n (hy.stopped n hpc)) (by simp [resume, hpc, hy₁]) (by simp [hpc])
      (by simp [hpc]) (by rw [hpc]; rfl)
  all_goals
    simp only [punctual, hpc, HeartPc.resumes, Option.getD_some, Option.getD_none] at hp
    have hp := of_decide_eq_true hp
  case sleeping | renewing =>
    exact hblocked (by rw [hpc]; rfl) (by simp [resume, hpc]) (by simp [resume, hpc₁, hpc]) hp
  all_goals exact hstill hp

lemma net (ho : y.OnTime cfg n) (hy : y.Inv cfg workflows) {b : WorkerAct J} {w : Workers J}
    (hd : y.dispatches b = true) (hw : y.net.step (engines cfg workflows) b = some w)
    (hp : y.punctual n (.net b) = true) (ht : y.timely cfg n (.net b) = true) :
    ({ y with net := w } : Hearts J).OnTime cfg n := by
  rcases Workers.clock_step hw with hclock | ⟨t, rfl, hle, -⟩
  · refine ho.keep rfl hclock (fun e he _ => ?_) (fun id b' _ hb' => ?_) ho.calls
    · have hturn := Workers.leases_step hw n
      generalize w.leases n = t at hturn he
      cases hturn with
      | same => exact Or.inl he
      | @insert c _ hc hn =>
        rcases Table.mem_insert he with he | rfl
        · exact Or.inl (List.mem_filter.mp he).1
        · simp only [timely, Table.get_of_mem hc, Option.all_some, hn, ne_eq, not_true_eq_false,
            decide_false, Bool.false_or, decide_eq_true_eq] at ht
          exact Or.inr ht
      | release => exact Or.inl (List.mem_filter.mp he).1
      | expire | cancelAll | applyRenewal => cases hd
    · rcases Workers.renewals_kept hw hb' with rfl | ⟨b₁, hb₁, -, hnow, -⟩
      · cases hd
      · exact ⟨b₁, hb₁, hnow⟩
  · cases Workers.does hw with
    | server _ _ hs =>
      cases Server.does hs with
      | tick => exact ho.tick hy hle hp

lemma other (ho : y.OnTime cfg n) (hy : y.Inv cfg workflows)
    (h : y.step cfg workflows a = some y') {m : ℕ} (hm : a.worker? = some m) (hne : m ≠ n) :
    y'.OnTime cfg n := by
  have hframe : a.worker? ≠ some n := by rw [hm]; simpa using hne
  have hsame := heart_frame h hframe
  have ha : a ≠ .applyRenewal n := fun ha => hframe (by rw [ha]; rfl)
  refine ho.keep (by rw [hsame]) ?_ (fun e he _ => Or.inl ?_) (fun id b hid hb => ?_) ?_
  · rw [srv_eq h hm]
  · rwa [hy.leases_frame h hm hne] at he
  · obtain ⟨b', hb', -, hnow, -⟩ := hy.own_kept h hid ha hb
    exact ⟨b', hb', hnow⟩
  · cases does h with
    | call =>
      cases hm
      intro c hc hworker
      rcases List.mem_append.mp hc with hc | hc
      · exact ho.calls c hc hworker
      · rw [List.mem_singleton.mp hc] at hworker
        exact absurd hworker hne
    | _ => exact ho.calls

omit [Jsonb J] in
lemma unblock (ho : y.OnTime cfg n) {pc : HeartPc} (hpc : pc = .top ∨ pc = .stopped) :
    (y.setPc n pc).OnTime cfg n := by
  refine .ready ?_ (fun e he hc => ho.clock_le_deadline he hc) ?_ ?_ ?_ ho.calls <;>
    rcases hpc with rfl | rfl <;> simp [resume, HeartPc.renewal?]

omit [Jsonb J] in
lemma wakeAt_le {next m : Time} {earliest : Option Time} (hm : earliest = some m) :
    wakeAt next earliest ≤ m := by
  subst hm
  unfold wakeAt
  simp only
  split <;> order

lemma sleep (ho : y.OnTime cfg n) {w : Workers J}
    (hw : y.net.step (engines cfg workflows) (.expire n y.net.srv.clock) = some w) :
    (({ y with net := w } : Hearts J).setPc n (.sleeping (max (wakeAt (y.hearts n).nextRenewal
      ((y.net.leases n).expire y.net.srv.clock).2) y.net.srv.clock))).OnTime cfg n := by
  cases Workers.does hw with
  | expire =>
    refine ⟨fun e he hc => ?_, ?_, fun now h => ?_, fun now earliest h => ?_, fun id h => ?_,
      ho.calls⟩
    · have he : e ∈ ((y.net.setLeases n _).leases n).rows := he
      rw [Workers.leases_setLeases, if_pos rfl] at he
      obtain ⟨m, hm, hle⟩ := LeaseTable.earliest_le he hc
      simp only [resume, hearts_setPc_same]
      exact max_le ((wakeAt_le hm).trans hle) (LeaseTable.live_expire he hc).2.le
    · simp only [resume, hearts_setPc_same]
      exact le_max_right _ _
    all_goals simp [HeartPc.renewal?] at h

/-- The context of a renewal ends at the earliest deadline, which is not later than what the
renewal will confirm. -/
lemma expire (ho : y.OnTime cfg n) (hy : y.Inv cfg workflows) {w : Workers J}
    (hw : y.net.step (engines cfg workflows) (.expire n y.net.srv.clock) = some w) :
    (({ y with net := w } : Hearts J).setPc n (.expired y.net.srv.clock
      ((y.net.leases n).expire y.net.srv.clock).2)).OnTime cfg n := by
  have hpos := leaseTTL_pos (cfg n)
  cases Workers.does hw with
  | expire =>
    refine ⟨fun e he hc => ?_, ?_, fun now h => ?_, fun now earliest h => ?_, fun id h => ?_,
      ho.calls⟩
    · have he : e ∈ ((y.net.setLeases n _).leases n).rows := he
      rw [Workers.leases_setLeases, if_pos rfl] at he
      obtain ⟨m, hm, hle⟩ := LeaseTable.earliest_le he hc
      simpa only [resume, hearts_setPc_same, hm, Option.getD_some] using hle
    · simp only [resume, hearts_setPc_same]
      rcases hm : ((y.net.leases n).expire y.net.srv.clock).2 with _ | m
      · exact (Int.lt_add_of_pos_right _ hpos).le
      · exact (LeaseTable.earliest_mem hm).1.le
    · simp at h
    · simp only [hearts_setPc_same, HeartPc.expired.injEq] at h
      obtain ⟨rfl, rfl⟩ := h
      refine ⟨rfl, ?_⟩
      rcases hm : ((y.net.leases n).expire y.net.srv.clock).2 with _ | m
      · exact le_rfl
      · obtain ⟨-, e, he, rfl⟩ := LeaseTable.earliest_mem hm
        exact (hy.net.entries n e he).bound
    · simp [HeartPc.renewal?] at h

lemma snapshot (ho : y.OnTime cfg n) (hy : y.Inv cfg workflows) {now : Time}
    {earliest : Option Time} (hpc : (y.hearts n).pc = .expired now earliest)
    (hne : (y.net.leases n).snapshot ≠ []) {w : Workers J}
    (hw : y.net.step (engines cfg workflows) (.heartbeat y.nextId n now) = some w) :
    (({ y with net := w, nextId := y.nextId + 1 } : Hearts J).setPc n
      (.renewing y.nextId (earliest.getD (now + (cfg n).leaseTTL)))).OnTime cfg n := by
  have hresume : y.resume cfg n = earliest.getD (now + (cfg n).leaseTTL) := by simp [resume, hpc]
  have hnew := hy.sent_new hne hw
  cases Workers.does hw with
  | nothing _ hempty => exact absurd hempty hne
  | heartbeat =>
    refine ⟨fun e he hc => ?_, ?_, fun now h => ?_, fun now earliest h => ?_, fun id' h => ?_,
      ho.calls⟩
    · simp only [resume, hearts_setPc_same]
      exact hresume ▸ ho.live e he hc
    · simp only [resume, hearts_setPc_same]
      exact hresume ▸ ho.clock
    · simp at h
    · simp at h
    · simp only [hearts_setPc_same, HeartPc.renewal?, Option.some.injEq] at h
      subst h
      exact ⟨_, hnew, by simpa [resume] using (ho.expired now earliest hpc).2⟩

omit [Jsonb J] in
lemma answer (ho : y.OnTime cfg n) {id : ℕ} {bound : Time}
    (hpc : (y.hearts n).pc = .renewing id bound) : (y.setPc n (.renewed id)).OnTime cfg n := by
  refine .ready (by simp [resume]) (fun e he hc => ho.clock_le_deadline he hc) (by simp)
    (by simp) (fun id' h => ?_) ho.calls
  simp only [hearts_setPc_same, HeartPc.renewal?, Option.some.injEq] at h
  subst h
  obtain ⟨b, hb, hle⟩ := ho.renewing id (by rw [hpc]; rfl)
  exact ⟨b, hb, ho.clock.trans hle⟩

lemma applyRenewal (ho : y.OnTime cfg n) (hy : y.Inv cfg workflows) {id : ℕ}
    (hpc : (y.hearts n).pc = .renewed id) {w : Workers J}
    (hw : y.net.step (engines cfg workflows) (.applyRenewal id) = some w) :
    (({ y with net := w } : Hearts J).setPc n .top).OnTime cfg n := by
  obtain ⟨b₁, hb₁, hle⟩ := ho.renewing id (by rw [hpc]; rfl)
  obtain ⟨b₂, hb₂, hworker⟩ := hy.own n id (by rw [hpc]; rfl)
  cases hb₁.symm.trans hb₂
  have hresume : y.resume cfg n = y.net.srv.clock := by simp [resume, hpc]
  cases Workers.does hw with
  | @applyRenewal b l hb hl =>
    cases hb₁.symm.trans (Table.get_of_mem hb)
    refine .ready (by simp [resume]) (fun e he hc => ?_) (by simp) (by simp)
      (by simp [HeartPc.renewal?]) ho.calls
    have he : e ∈ ((y.net.setLeases b₁.worker _).leases n).rows := he
    rw [Workers.leases_setLeases, if_pos hworker.symm] at he
    obtain ⟨e₀, he₀, ⟨-, rfl⟩ | ⟨-, -, rfl⟩ | ⟨-, -, rfl⟩⟩ := LeaseTable.mem_applyRenewal he
    · rw [hworker] at he₀
      exact ho.clock_le_deadline he₀ hc
    · rw [hworker]
      exact hresume ▸ hle
    · cases hc

theorem step (ho : y.OnTime cfg n) (hy : y.Inv cfg workflows)
    (h : y.step cfg workflows a = some y') (hp : y.punctual n a = true)
    (ht : y.timely cfg n a = true) : y'.OnTime cfg n := by
  rcases hm : a.worker? with _ | m
  · cases does h with
    | net hd hw => exact ho.net hy hd hw hp ht
    | _ => cases hm
  by_cases hne : m = n
  swap
  · exact ho.other hy h hm hne
  subst hne
  have hnow : ∀ {now}, (m ≠ m || now = y.net.srv.clock : Bool) = true → now = y.net.srv.clock := by
    simp
  cases does h with
  | net => cases hm
  | startWorker hpc =>
    cases hm
    refine .ready (by simp [resume]) (fun e he _ => ?_) (by simp) (by simp)
      (by simp [HeartPc.renewal?]) ho.calls
    have he : e ∈ (y.net.leases m).rows := he
    rw [(hy.idle m hpc).1] at he; cases he
  | cancelWork _ hw =>
    cases hm
    refine ho.keep (by simp) (by rw [srv_eq h rfl]) (fun e he hc => ?_)
      (fun id b hid hb => ?_) ho.calls
    · rw [hy.done_step h (by simp) he] at hc; cases hc
    · obtain ⟨b', hb', -, hnow, -⟩ := hy.own_kept h hid (by simp) hb
      exact ⟨b', hb', hnow⟩
  | call he hlive =>
    cases hm
    refine ho.keep rfl rfl (fun e he _ => Or.inl he) (fun id b _ hb => ⟨b, hb, rfl⟩)
      fun c hc hworker => ?_
    rcases List.mem_append.mp hc with hc | hc
    · exact ho.calls c hc hworker
    · rw [List.mem_singleton.mp hc]
      exact ho.clock_le_deadline he hlive
  | sleep _ hw =>
    cases hm
    obtain rfl := hnow hp
    exact ho.sleep hw
  | early | nothing | stop => cases hm; exact ho.unblock (by simp)
  | due =>
    cases hm
    obtain rfl := hnow hp
    exact .ready (by simp [resume]) (fun e he hc => ho.clock_le_deadline he hc) (by simp; rfl)
      (by simp) (by simp [HeartPc.renewal?]) ho.calls
  | expire hpc hw =>
    cases hm
    obtain rfl := ho.due _ hpc
    exact ho.expire hy hw
  | snapshot hpc hne hw => cases hm; exact ho.snapshot hy hpc hne hw
  | fail => cases hm; exact ho.unblock (by split <;> simp)
  | answer hpc => cases hm; exact ho.answer hpc
  | applyRenewal hpc hw => cases hm; exact ho.applyRenewal hy hpc hw

end OnTime

/-- **Expired claims are canceled at their deadline**: in every run in which timers and contexts
end on time, local code takes no time, and each claim is entered with a deadline no earlier than
the time at which the loop is bound to look at the deadlines again, a blocked loop is bound to
resume no later than the deadline of any claim that is not canceled. No claim stays uncanceled
past its deadline, and no step function is called after the deadline of its claim. -/
theorem expired_canceled {clock : Time} (hy : ReachesBy (step cfg workflows)
    (fun y a => (y.punctual n a && y.timely cfg n a) = true) (init clock) y) :
    (∀ t, (y.hearts n).pc.resumes = some t →
      ∀ e ∈ (y.net.leases n).rows, e.canceled = false → t ≤ e.deadline) ∧
    (∀ e ∈ (y.net.leases n).rows, e.canceled = false → y.net.srv.clock ≤ e.deadline) ∧
    ∀ c ∈ y.calls, c.worker = n → c.clock ≤ c.deadline := by
  have hinv : y.Inv cfg workflows ∧ y.OnTime cfg n :=
    hy.invariant (P := fun z => z.Inv cfg workflows ∧ z.OnTime cfg n) ⟨.init clock, .init clock⟩
      fun z a z' ih ha h => by
        obtain ⟨hp, ht⟩ := Bool.and_eq_true_iff.mp ha
        exact ⟨ih.1.step h, ih.2.step ih.1 h hp ht⟩
  obtain ⟨-, ho⟩ := hinv
  refine ⟨fun t ht e he hc => ?_, fun e he hc => ho.clock_le_deadline he hc, ho.calls⟩
  have hresume : y.resume cfg n = t := by
    unfold HeartPc.resumes at ht
    split at ht <;> cases ht <;> simp [resume, *]
  exact hresume ▸ ho.live e he hc

def second : Time := 1000000000

/-- A worker is started and a claim statement runs 5 s later. -/
def claiming : List (HeartAct Doc) :=
  [.net (.server (.insertRun ⟨"r", "w", 1, "q", 3, none, .null, none⟩ 0)), .startWorker 0 0,
    .sleep 0 0, .net (.server (.tick (5 * second))),
    .net (.claimReadyRuns 0 1 (fun _ => "c") (5 * second) (5 * second))]

/-- The claim is entered at once, a step function is called, and the next heartbeat renews. -/
def promptly : List (HeartAct Doc) :=
  claiming ++ [.net (.insert "c" false), .call 0 "c", .net (.server (.tick (10 * second))),
    .wake 0 (10 * second), .expire 0, .snapshot 0, .net (.server (.tick (12 * second)))]

theorem expired_canceled_renewing : ∃ (y : Hearts Doc) (t : Time) (e : LeaseEntry) (c : StepCall),
    ReachesBy (step (fun _ => defaults) fun _ => [("w", 1)])
      (fun y a => (y.punctual 0 a && y.timely (fun _ => defaults) 0 a) = true) (init 0) y ∧
    (y.hearts 0).pc.resumes = some t ∧ e ∈ (y.net.leases 0).rows ∧ e.canceled = false ∧
    c ∈ y.calls ∧ c.worker = 0 ∧
    t ≤ e.deadline ∧ y.net.srv.clock ≤ e.deadline ∧ c.clock ≤ c.deadline := by
  have hrun : (promptly.foldlM (fun (y : Hearts Doc) a =>
        if y.punctual 0 a && y.timely (fun _ => defaults) 0 a then
          y.step (fun _ => defaults) (fun _ => [("w", 1)]) a
        else none) (init 0)).bind (fun y => (y.hearts 0).pc.resumes.bind fun _ =>
      (y.net.leases 0).rows.head?.bind fun e => y.calls.head?.map fun c =>
        decide (e.canceled = false ∧ c.worker = 0)) = some true := by decide +kernel
  obtain ⟨y, hy, hrun⟩ := Option.bind_eq_some_iff.mp hrun
  obtain ⟨t, ht, hrun⟩ := Option.bind_eq_some_iff.mp hrun
  obtain ⟨e, he, hrun⟩ := Option.bind_eq_some_iff.mp hrun
  obtain ⟨c, hc, hrun⟩ := Option.map_eq_some_iff.mp hrun
  obtain ⟨hlive, hworker⟩ := of_decide_eq_true hrun
  have hreach := ReachesBy.of_run _ hy
  have hmem := List.mem_of_head? he
  have hcall := List.mem_of_head? hc
  obtain ⟨hresume, hclock, hcalls⟩ := expired_canceled hreach
  exact ⟨y, t, e, c, hreach, ht, hmem, hlive, hcall, hworker, hresume t ht e hmem hlive,
    hclock e hmem hlive, hcalls c hcall hworker⟩

/-- A heartbeat at time `t` that finds no claim. -/
def idleBeat (t : Time) : List (HeartAct Doc) :=
  [.net (.server (.tick t)), .wake 0 t, .expire 0, .snapshot 0, .sleep 0 t]

/-- The claim is entered after 25 s, and a step function is called 6 s later. -/
def late : List (HeartAct Doc) :=
  claiming ++ idleBeat (10 * second) ++ idleBeat (20 * second) ++ idleBeat (30 * second) ++
    [.net (.insert "c" false), .net (.server (.tick (36 * second))), .call 0 "c"]

/-- With the default configuration, a claim statement is answered after 25 s: the claim is entered
with 5 s left, while the loop sleeps for 10 s. A step function is called 1 s past the deadline. -/
theorem entered_late : ∃ (y : Hearts Doc) (t : Time) (e : LeaseEntry) (c : StepCall),
    ReachesBy (step (fun _ => defaults) fun _ => [("w", 1)])
      (fun y a => y.punctual 0 a = true) (init 0) y ∧
    (y.hearts 0).pc.resumes = some t ∧ e ∈ (y.net.leases 0).rows ∧ e.canceled = false ∧
    e.deadline < t ∧ e.deadline < y.net.srv.clock ∧
    c ∈ y.calls ∧ c.worker = 0 ∧ c.token = e.token ∧ c.deadline < c.clock := by
  have hrun : (late.foldlM (fun (y : Hearts Doc) a =>
        if y.punctual 0 a then y.step (fun _ => defaults) (fun _ => [("w", 1)]) a
        else none) (init 0)).bind (fun y => (y.hearts 0).pc.resumes.bind fun t =>
      (y.net.leases 0).rows.head?.bind fun e => y.calls.head?.map fun c =>
        decide (e.canceled = false ∧ e.deadline < t ∧ e.deadline < y.net.srv.clock ∧
          c.worker = 0 ∧ c.token = e.token ∧ c.deadline < c.clock)) = some true := by
    decide +kernel
  obtain ⟨y, hy, hrun⟩ := Option.bind_eq_some_iff.mp hrun
  obtain ⟨t, ht, hrun⟩ := Option.bind_eq_some_iff.mp hrun
  obtain ⟨e, he, hrun⟩ := Option.bind_eq_some_iff.mp hrun
  obtain ⟨c, hc, hrun⟩ := Option.map_eq_some_iff.mp hrun
  obtain ⟨hlive, hlate, hpast, hrest⟩ := of_decide_eq_true hrun
  exact ⟨y, t, e, c, .of_run _ hy, ht, List.mem_of_head? he, hlive, hlate, hpast,
    List.mem_of_head? hc, hrest⟩

end Hearts

end DurablePg

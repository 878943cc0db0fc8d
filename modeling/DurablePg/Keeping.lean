import DurablePg.Expiry
import DurablePg.Healthy

/-!
A worker whose database answers in time keeps its leases.

Let timers and contexts end on time, local code take no time, and the database answer within `d`:
a claim is entered no later than `d` after its statement was sent, and a renewal does not fail and
takes no longer than `d`. Then every claim is covered by a renewal that is over before its deadline,
if twice `d` fits between two renewals and the end of a lease. The worst case is a claim that is
entered `d` late, just after the snapshot of a renewal: the next one begins at `nextRenewal`, or
once the one in progress is over.
-/

namespace DurablePg

open DurablePg.Lib

variable {J : Type}

/-- The claim has ended itself, or its run was canceled. -/
def Server.GivenUp (s : Server J) (run : RunId) (token : Token) : Prop :=
  s.Ended run token ∨ ∃ r, s.db.run run = some r ∧ r.state = .cancelled

lemma Server.GivenUp.step [Jsonb J] {s s' : Server J} {a : Act J} {run : RunId} {token : Token}
    (h : s.GivenUp run token) (hs : s.Inv) (hstep : s.step a = some s') :
    s'.GivenUp run token := by
  rcases h with he | ⟨r, hr, hstate⟩
  · exact Or.inl (he.step hstep)
  · obtain ⟨r', hr', -, hfrozen⟩ := step_lifecycle hs hstep hr
    have hfrozen := (hfrozen (by simp [hstate, RunState.terminal])).1
    exact Or.inr ⟨r', hr', hfrozen.state.trans hstate⟩

namespace Hearts

section Timing

variable (cfg : ℕ → Settings) (d : Time) (n : ℕ) (y : Hearts J)

/-- The database answers the worker within `d`. -/
def prompt : HeartAct J → Bool
  | .net (.server (.tick t)) =>
    ((y.hearts n).pc.renewal?.bind y.net.renewals.get).all fun b => t ≤ b.now + d
  | .net (.insert token _) =>
    (y.net.arrivals.get token).all fun b =>
      b.worker ≠ n || y.net.srv.clock + (cfg n).leaseTTL ≤ b.deadline + d
  | .fail m => m ≠ n
  | _ => true

/-- The latest time at which the loop reads the clock for the renewal that covers a claim, or for
the one that is in progress and covers it. -/
def nextBeat (token : Token) : Time :=
  match (y.hearts n).pc with
  | .sleeping t => max (y.hearts n).nextRenewal t
  | .due now | .expired now _ => now
  | .renewing id _ | .renewed id =>
    match y.net.renewals.get id with
    | some b =>
      if token ∈ b.sent.map Prod.snd then b.now else max (y.hearts n).nextRenewal (b.now + d)
    | none => y.net.srv.clock
  | _ => max (y.hearts n).nextRenewal y.net.srv.clock

/-- What the loop has read or waits for is not far from the clock. -/
def Near : HeartPc → Prop
  | .sleeping t =>
    y.net.srv.clock ≤ t ∧ t ≤ max (y.hearts n).nextRenewal y.net.srv.clock
  | .due now | .expired now _ => now = y.net.srv.clock
  | .renewing id _ | .renewed id => ∃ b, y.net.renewals.get id = some b ∧
    b.now ≤ y.net.srv.clock ∧ y.net.srv.clock ≤ b.now + d ∧
    (y.hearts n).nextRenewal ≤ b.now + (cfg n).heartbeatEvery
  | _ => True

structure Keeping : Prop where
  /-- The renewal that covers a claim is over before the deadline. -/
  covered : ∀ e ∈ (y.net.leases n).rows, e.canceled = false →
    y.nextBeat d n e.token + d < e.deadline
  next : (y.hearts n).pc ≠ .idle →
    (y.hearts n).nextRenewal ≤ y.net.srv.clock + (cfg n).heartbeatEvery
  near : y.Near cfg d n (y.hearts n).pc

end Timing

variable {cfg : ℕ → Settings} {d : Time} {n : ℕ} {y y' : Hearts J}

@[simp] lemma net_setHeart (y : Hearts J) (n : ℕ) (h : Heart) : (y.setHeart n h).net = y.net := rfl

@[simp] lemma net_setPc (y : Hearts J) (n : ℕ) (pc : HeartPc) : (y.setPc n pc).net = y.net := rfl

lemma nextBeat_renewing {id : ℕ} (hid : (y.hearts n).pc.renewal? = some id) {b : Renewal}
    (hb : y.net.renewals.get id = some b) (token : Token) : y.nextBeat d n token =
      if token ∈ b.sent.map Prod.snd then b.now
      else max (y.hearts n).nextRenewal (b.now + d) := by
  unfold nextBeat
  cases hpc : (y.hearts n).pc with
  | renewing id' | renewed id' =>
    rw [hpc] at hid
    obtain rfl : id' = id := Option.some.inj hid
    simp only [hb]
  | _ => rw [hpc] at hid; cases hid

namespace Keeping

lemma init (clock : Time) : (Hearts.init clock : Hearts J).Keeping cfg d n where
  covered _ h := by cases h
  next h := absurd rfl h
  near := trivial

lemma renewing (hk : y.Keeping cfg d n) {id : ℕ} (hid : (y.hearts n).pc.renewal? = some id) :
    ∃ b, y.net.renewals.get id = some b ∧ b.now ≤ y.net.srv.clock ∧
      y.net.srv.clock ≤ b.now + d ∧
      (y.hearts n).nextRenewal ≤ b.now + (cfg n).heartbeatEvery := by
  have hnear := hk.near
  cases hpc : (y.hearts n).pc with
  | renewing id' | renewed id' =>
    rw [hpc] at hid hnear
    obtain rfl : id' = id := Option.some.inj hid
    exact hnear
  | _ => rw [hpc] at hid; cases hid

lemma nextBeat_bounds (hk : y.Keeping cfg d n) (hd : 0 ≤ d) (token : Token) :
    y.net.srv.clock ≤ y.nextBeat d n token + d ∧ ((y.hearts n).pc ≠ .idle →
      y.nextBeat d n token ≤ y.net.srv.clock + max (cfg n).heartbeatEvery d) := by
  have hnext := hk.next
  have hnear := hk.near
  rcases hid : (y.hearts n).pc.renewal? with _ | id
  · unfold nextBeat
    cases hpc : (y.hearts n).pc with
    | renewing | renewed => rw [hpc] at hid; cases hid
    | _ => simp only [hpc, Near] at hnear hnext ⊢; grind
  · obtain ⟨b, hb, hnow, hle, hnext⟩ := hk.renewing hid
    rw [nextBeat_renewing hid hb]
    grind

lemma lt_deadline (hk : y.Keeping cfg d n) (hd : 0 ≤ d) {e : LeaseEntry}
    (he : e ∈ (y.net.leases n).rows) (hlive : e.canceled = false) :
    y.net.srv.clock < e.deadline :=
  (hk.nextBeat_bounds hd e.token).1.trans_lt (hk.covered e he hlive)

lemma keep (hk : y.Keeping cfg d n) (hpc : (y'.hearts n).pc = (y.hearts n).pc)
    (hnext : (y'.hearts n).nextRenewal = (y.hearts n).nextRenewal)
    (hclock : y'.net.srv.clock = y.net.srv.clock)
    (hrenewals : ∀ id b, (y.hearts n).pc.renewal? = some id → y.net.renewals.get id = some b →
      ∃ b', y'.net.renewals.get id = some b' ∧ b'.now = b.now ∧ b'.sent = b.sent)
    (hlive : ∀ e ∈ (y'.net.leases n).rows, e.canceled = false →
      e ∈ (y.net.leases n).rows ∨ y.nextBeat d n e.token + d < e.deadline) :
    y'.Keeping cfg d n := by
  have hbeat : ∀ token, y'.nextBeat d n token = y.nextBeat d n token := by
    intro token
    rcases hid : (y.hearts n).pc.renewal? with _ | id
    · unfold nextBeat
      rw [hpc, hnext, hclock]
      cases hpc : (y.hearts n).pc with
      | renewing | renewed => rw [hpc] at hid; cases hid
      | _ => rfl
    · obtain ⟨b, hb, -⟩ := hk.renewing hid
      obtain ⟨b', hb', hnow, hsent⟩ := hrenewals id b hid hb
      rw [nextBeat_renewing hid hb, nextBeat_renewing (hpc ▸ hid) hb', hnow, hsent, hnext]
  refine ⟨fun e he hc => ?_, ?_, ?_⟩
  · rw [hbeat]
    exact (hlive e he hc).elim (hk.covered e · hc) id
  · rw [hpc, hnext, hclock]; exact hk.next
  · have hnear := hk.near
    rw [hpc]
    cases hpc : (y.hearts n).pc with
    | renewing id | renewed id =>
      obtain ⟨b, hb, hrest⟩ := hk.renewing (show _ = some id by rw [hpc]; rfl)
      obtain ⟨b', hb', hnow, -⟩ := hrenewals id b (by rw [hpc]; rfl) hb
      exact ⟨b', hb', by rw [hnow, hclock, hnext]; exact hrest⟩
    | sleeping | due | expired => simpa only [hpc, Near, hnext, hclock] using hnear
    | idle | top | stopped => trivial

lemma ready (hpc : (y.hearts n).pc = .top ∨ (y.hearts n).pc = .stopped)
    (hnext : (y.hearts n).nextRenewal ≤ y.net.srv.clock + (cfg n).heartbeatEvery)
    (hlive : ∀ e ∈ (y.net.leases n).rows, e.canceled = false →
      max (y.hearts n).nextRenewal y.net.srv.clock + d < e.deadline) : y.Keeping cfg d n where
  covered e he hc := by
    have := hlive e he hc
    unfold nextBeat
    rcases hpc with hpc | hpc <;> simpa only [hpc] using this
  next _ := hnext
  near := by rcases hpc with hpc | hpc <;> rw [hpc] <;> trivial

variable [Jsonb J] {workflows : ℕ → List (String × ℤ)} {a : HeartAct J}

lemma tick (hk : y.Keeping cfg d n) (hy : y.Inv cfg workflows) {t : Time}
    (hle : y.net.srv.clock ≤ t) (hp : y.punctual n (.net (.server (.tick t))) = true)
    (hq : y.prompt cfg d n (.net (.server (.tick t))) = true) :
    ({ y with net := { y.net with srv := { y.net.srv with clock := t } } } : Hearts J).Keeping
      cfg d n := by
  set y₁ : Hearts J := { y with net := { y.net with srv := { y.net.srv with clock := t } } }
    with hy₁
  have hhearts : y₁.hearts = y.hearts := rfl
  have hnext : (y.hearts n).pc ≠ .idle →
      (y.hearts n).nextRenewal ≤ t + (cfg n).heartbeatEvery := fun hne =>
    (hk.next hne).trans (Int.add_le_add_right hle _)
  have hnear := hk.near
  cases hpc : (y.hearts n).pc with
  | idle =>
    refine ⟨fun e he => ?_, hnext, by rw [hhearts, hpc]; trivial⟩
    have he : e ∈ (y.net.leases n).rows := he
    rw [(hy.idle n hpc).1] at he; cases he
  | stopped =>
    refine .ready (Or.inr hpc) (hnext (by simp [hpc])) fun e he hc => ?_
    rw [hy.done n (hy.stopped n hpc) e he] at hc; cases hc
  | sleeping r =>
    simp only [punctual, hpc, HeartPc.resumes, Option.getD_some] at hp
    rw [hpc] at hnear
    refine ⟨fun e he hc => ?_, hnext, ?_⟩
    · have := hk.covered e he hc
      simpa only [nextBeat, hhearts, hpc] using this
    · rw [hhearts, hpc]
      exact ⟨of_decide_eq_true hp, hnear.2.trans (max_le_max_left _ hle)⟩
  | renewing id bound =>
    have hid : (y.hearts n).pc.renewal? = some id := by rw [hpc]; rfl
    obtain ⟨b, hb, hnow, -, hn⟩ := hk.renewing hid
    have ht : t ≤ b.now + d := by simpa [prompt, hid, hb] using hq
    refine ⟨fun e he hc => ?_, hnext, ?_⟩
    · have := hk.covered e he hc
      rw [nextBeat_renewing hid hb] at this
      rw [nextBeat_renewing (y := y₁) hid hb]
      exact this
    · rw [hhearts, hpc]
      exact ⟨b, hb, hnow.trans hle, ht, hn⟩
  | top | due | expired | renewed =>
    simp only [punctual, hpc, HeartPc.resumes, Option.getD_none] at hp
    exact hk.keep rfl rfl (le_antisymm (of_decide_eq_true hp) hle)
      (fun id b _ hb => ⟨b, hb, rfl, rfl⟩) (fun e he _ => Or.inl he)

lemma net (hk : y.Keeping cfg d n) (hd : 0 ≤ d)
    (hfit : max (cfg n).heartbeatEvery d + 2 * d < (cfg n).leaseTTL) (hy : y.Inv cfg workflows)
    {b : WorkerAct J} {w : Workers J} (hdis : y.dispatches b = true)
    (hw : y.net.step (engines cfg workflows) b = some w) (hp : y.punctual n (.net b) = true)
    (hq : y.prompt cfg d n (.net b) = true) : ({ y with net := w } : Hearts J).Keeping cfg d n := by
  rcases Workers.clock_step hw with hclock | ⟨t, rfl, hle, -⟩
  · refine hk.keep rfl rfl hclock (fun id b' _ hb' => ?_) fun e he _ => ?_
    · rcases Workers.renewals_kept hw hb' with rfl | ⟨b₁, hb₁, -, hkept⟩
      · cases hdis
      · exact ⟨b₁, hb₁, hkept⟩
    · have hturn := Workers.leases_step hw n
      generalize w.leases n = t at hturn he
      cases hturn with
      | same => exact Or.inl he
      | @insert c _ hc hn =>
        rcases Table.mem_insert he with he | rfl
        · exact Or.inl (List.mem_filter.mp he).1
        · simp only [prompt, Table.get_of_mem hc, Option.all_some, hn, ne_eq, not_true_eq_false,
            decide_false, Bool.false_or, decide_eq_true_eq] at hq
          have hpc : (y.hearts n).pc ≠ .idle := fun hpc => (hy.idle n hpc).2 c hc hn
          have hbeat := (hk.nextBeat_bounds hd c.token).2 hpc
          right
          linarith
      | release => exact Or.inl (List.mem_filter.mp he).1
      | expire | cancelAll | applyRenewal => cases hdis
  · cases Workers.does hw with
    | server _ _ hs =>
      cases Server.does hs with
      | tick => exact hk.tick hy hle hp hq

lemma other (hk : y.Keeping cfg d n) (hy : y.Inv cfg workflows)
    (h : y.step cfg workflows a = some y') {m : ℕ} (hm : a.worker? = some m) (hne : m ≠ n) :
    y'.Keeping cfg d n := by
  have hframe : a.worker? ≠ some n := by rw [hm]; simpa using hne
  have hsame := heart_frame h hframe
  have ha : a ≠ .applyRenewal n := fun ha => hframe (by rw [ha]; rfl)
  refine hk.keep (by rw [hsame]) (by rw [hsame]) (by rw [srv_eq h hm]) (fun id b hid hb => ?_)
    fun e he _ => Or.inl ?_
  · obtain ⟨b', hb', -, hkept⟩ := hy.own_kept h hid ha hb
    exact ⟨b', hb', hkept⟩
  · rwa [hy.leases_frame h hm hne] at he

lemma sleep (hk : y.Keeping cfg d n) (hpc : (y.hearts n).pc = .top) {w : Workers J}
    (hw : y.net.step (engines cfg workflows) (.expire n y.net.srv.clock) = some w) :
    (({ y with net := w } : Hearts J).setPc n (.sleeping (max (wakeAt (y.hearts n).nextRenewal
      ((y.net.leases n).expire y.net.srv.clock).2) y.net.srv.clock))).Keeping cfg d n := by
  have hwake : wakeAt (y.hearts n).nextRenewal ((y.net.leases n).expire y.net.srv.clock).2 ≤
      (y.hearts n).nextRenewal := by
    unfold wakeAt
    grind
  cases Workers.does hw with
  | expire =>
    refine ⟨fun e he hc => ?_, fun _ => ?_, ?_⟩
    · have he : e ∈ ((y.net.setLeases n _).leases n).rows := he
      rw [Workers.leases_setLeases, if_pos rfl] at he
      have hcovered := hk.covered e (LeaseTable.live_expire he hc).1 hc
      simp only [nextBeat, hpc] at hcovered
      simp only [nextBeat, hearts_setPc_same]
      grind
    · simp only [hearts_setPc_same]
      exact hk.next (by simp [hpc])
    · simp only [hearts_setPc_same, Near]
      exact ⟨le_max_right _ _, max_le_max_right _ hwake⟩

lemma snapshot (hk : y.Keeping cfg d n) (hd : 0 ≤ d) (hy : y.Inv cfg workflows) {now bound : Time}
    {earliest : Option Time} (hpc : (y.hearts n).pc = .expired now earliest)
    (hne : (y.net.leases n).snapshot ≠ []) {w : Workers J}
    (hw : y.net.step (engines cfg workflows) (.heartbeat y.nextId n now) = some w) :
    (({ y with net := w, nextId := y.nextId + 1 } : Hearts J).setPc n
      (.renewing y.nextId bound)).Keeping cfg d n := by
  have hnew := hy.sent_new hne hw
  have hnow : now = y.net.srv.clock := by have hnear := hk.near; rwa [hpc] at hnear
  have hnext := hk.next (by simp [hpc])
  cases Workers.does hw with
  | nothing _ hempty => exact absurd hempty hne
  | heartbeat =>
    refine ⟨fun e he hc => ?_, fun _ => ?_, ?_⟩
    · have hsent : e.token ∈ ((y.net.leases n).snapshot).map Prod.snd :=
        List.mem_map_of_mem (List.mem_map_of_mem (List.mem_filter.mpr ⟨he, by simp [hc]⟩))
      have hcovered := hk.covered e he hc
      simp only [nextBeat, hpc] at hcovered
      rw [nextBeat_renewing (by simp [HeartPc.renewal?]) hnew, if_pos hsent]
      exact hcovered
    · simpa using hnext
    · simp only [hearts_setPc_same]
      exact ⟨_, hnew, hnow.le, by simpa [hnow] using hd, by simpa [hnow] using hnext⟩

/-- What a renewal confirms lasts until the next one is over. -/
lemma applyRenewal (hk : y.Keeping cfg d n)
    (hfit : max (cfg n).heartbeatEvery d + 2 * d < (cfg n).leaseTTL) (hd : 0 ≤ d)
    (hy : y.Inv cfg workflows) (h : y.step cfg workflows (.applyRenewal n) = some y') :
    y'.Keeping cfg d n := by
  obtain ⟨b, hb, l, hpc, -, -, hleases⟩ := hy.applied h
  have hid : (y.hearts n).pc.renewal? = some b.id := by rw [hpc]; rfl
  have hget := Table.get_of_mem hb
  obtain ⟨b', hb', hnow, hclock, hnext⟩ := hk.renewing hid
  cases hget.symm.trans hb'
  have hsrv := srv_eq h (show _ = some n from rfl)
  have hheart : y'.hearts n = { y.hearts n with pc := .top } := by
    cases does h with
    | applyRenewal => simp
  refine .ready (Or.inl (by rw [hheart])) ?_ fun e he hc => ?_
  · rw [hheart, hsrv]
    exact hk.next (by simp [hpc])
  · rw [hheart, hsrv]
    rw [hleases] at he
    obtain ⟨e₀, he₀, ⟨hsent, rfl⟩ | ⟨-, -, rfl⟩ | ⟨-, -, rfl⟩⟩ := LeaseTable.mem_applyRenewal he
    · have hcovered := hk.covered e he₀ hc
      rw [nextBeat_renewing hid hget, if_neg hsent] at hcovered
      grind
    · grind
    · cases hc

theorem step (hk : y.Keeping cfg d n) (hd : 0 ≤ d)
    (hfit : max (cfg n).heartbeatEvery d + 2 * d < (cfg n).leaseTTL) (hy : y.Inv cfg workflows)
    (h : y.step cfg workflows a = some y') (hp : y.punctual n a = true)
    (hq : y.prompt cfg d n a = true) : y'.Keeping cfg d n := by
  rcases hm : a.worker? with _ | m
  · cases does h with
    | net hdis hw => exact hk.net hd hfit hy hdis hw hp hq
    | _ => cases hm
  by_cases hne : m = n
  swap
  · exact hk.other hy h hm hne
  subst hne
  have hnow : ∀ {now}, (m ≠ m || now = y.net.srv.clock : Bool) = true → now = y.net.srv.clock := by
    simp
  have hnear := hk.near
  cases does h with
  | net => cases hm
  | startWorker hpc hle =>
    cases hm
    obtain rfl := hnow hp
    refine .ready (Or.inl (by simp)) (by simp) fun e he => ?_
    have he : e ∈ (y.net.leases m).rows := he
    rw [(hy.idle m hpc).1] at he; cases he
  | cancelWork _ hw =>
    cases hm
    refine hk.keep (by simp) (by simp) (by rw [srv_eq h rfl]) (fun id b hid hb => ?_)
      fun e he hc => ?_
    · obtain ⟨b', hb', -, hkept⟩ := hy.own_kept h hid (by simp) hb
      exact ⟨b', hb', hkept⟩
    · rw [hy.done_step h (by simp) he] at hc; cases hc
  | call =>
    exact hk.keep rfl rfl rfl (fun id b _ hb => ⟨b, hb, rfl, rfl⟩) fun e he _ => Or.inl he
  | sleep hpc hw =>
    cases hm
    obtain rfl := hnow hp
    exact hk.sleep hpc hw
  | early hpc ht hle hlt =>
    cases hm
    rw [hpc] at hnear
    refine .ready (Or.inl (by simp)) (by simpa using hk.next (by simp [hpc])) fun e he hc => ?_
    have hcovered := hk.covered e he hc
    simp only [nextBeat, hpc] at hcovered
    simp only [Near] at hnear
    simp only [hearts_setPc_same, net_setPc]
    grind
  | due hpc ht hle hnext =>
    cases hm
    obtain rfl := hnow hp
    rw [hpc] at hnear
    refine ⟨fun e he hc => ?_, fun _ => ?_, ?_⟩
    · have hcovered := hk.covered e he hc
      simp only [nextBeat, hpc] at hcovered
      simp only [Near] at hnear
      simp only [nextBeat, hearts_setHeart_same]
      grind
    · simp
    · simp only [hearts_setHeart_same, Near, net_setHeart]
  | expire hpc hw =>
    cases hm
    rw [hpc] at hnear
    cases Workers.does hw with
    | expire =>
      refine ⟨fun e he hc => ?_, fun _ => ?_, ?_⟩
      · have he : e ∈ ((y.net.setLeases m _).leases m).rows := he
        rw [Workers.leases_setLeases, if_pos rfl] at he
        have hcovered := hk.covered e (LeaseTable.live_expire he hc).1 hc
        simp only [nextBeat, hpc] at hcovered
        simpa only [nextBeat, hearts_setPc_same] using hcovered
      · simp only [hearts_setPc_same]
        exact hk.next (by simp [hpc])
      · simp only [hearts_setPc_same]
        exact hnear
  | nothing hpc hempty =>
    cases hm
    refine .ready (Or.inl (by simp)) (by simpa using hk.next (by simp [hpc])) fun e he hc => ?_
    have hmem : (e.runID, e.token) ∈ (y.net.leases m).snapshot :=
      List.mem_map_of_mem (List.mem_filter.mpr ⟨he, by simp [hc]⟩)
    rw [hempty] at hmem; cases hmem
  | snapshot hpc hne hw => cases hm; exact hk.snapshot hd hy hpc hne hw
  | fail => cases hm; simp [prompt] at hq
  | @answer _ id _ _ _ hpc =>
    cases hm
    have hid : (y.hearts m).pc.renewal? = some id := by rw [hpc]; rfl
    have hid' : ((y.setPc m (.renewed id)).hearts m).pc.renewal? = some id := by
      simp [HeartPc.renewal?]
    obtain ⟨b, hb, hrest⟩ := hk.renewing hid
    refine ⟨fun e he hc => ?_, fun _ => by simpa using hk.next (by simp [hpc]), ?_⟩
    · have hcovered := hk.covered e he hc
      rw [nextBeat_renewing hid hb] at hcovered
      rw [nextBeat_renewing hid' hb]
      simpa using hcovered
    · simp only [hearts_setPc_same]
      exact ⟨b, hb, by simpa using hrest⟩
  | applyRenewal => cases hm; exact hk.applyRenewal hfit hd hy h
  | stop hpc hdone =>
    cases hm
    refine .ready (Or.inr (by simp)) (by simpa using hk.next (by simp [hpc])) fun e he hc => ?_
    rw [hy.done m hdone e he] at hc; cases hc

end Keeping

/-! ### Whom the heartbeat cancels -/

/-- The context of the worker is canceled, or the claim is given up. -/
def Spent (y : Hearts J) (n : ℕ) (run : RunId) (token : Token) : Prop :=
  (y.hearts n).done = true ∨ y.net.srv.GivenUp run token

/-- Only claims that are spent are canceled, or missing from the answer to a renewal. -/
structure Fair (n : ℕ) (y : Hearts J) : Prop where
  canceled : ∀ e ∈ (y.net.leases n).rows, e.canceled = true → y.Spent n e.runID e.token
  /-- What was sent had been entered. -/
  entered : ∀ b ∈ y.net.renewals.rows, ∀ run token, (run, token) ∈ b.sent →
    token ∈ y.net.srv.tokens ∧ ∀ c ∈ y.net.arrivals.rows, c.token ≠ token
  answered : ∀ b ∈ y.net.renewals.rows, b.worker = n → ∀ l, b.renewed = some l →
    ∀ run token, (run, token) ∈ b.sent → token ∉ l →
    ∀ e ∈ (y.net.leases n).rows, e.token = token → y.Spent n e.runID token

variable [Jsonb J] {workflows : ℕ → List (String × ℤ)} {a : HeartAct J} {run : RunId}
  {token : Token}

lemma Spent.step (hs : y.Spent n run token) (hy : y.Inv cfg workflows)
    (h : y.step cfg workflows a = some y') {e : LeaseEntry} (he : e ∈ (y.net.leases n).rows) :
    y'.Spent n run token := by
  rcases hs with hdone | hgiven
  · left
    by_cases hn : a.worker? = some n
    · cases does h with
      | net => cases hn
      | call => exact hdone
      | startWorker hpc =>
        cases hn
        rw [(hy.idle n hpc).1] at he; cases he
      | cancelWork => cases hn; simp
      | _ => cases hn; simpa using hdone
    · rwa [heart_frame h hn]
  · right
    rcases net_step h with heq | ⟨b, -, hb⟩
    · rwa [heq]
    · rcases Workers.srv_step hb with ⟨heq, -⟩ | ⟨c, hc, -⟩
      · rwa [heq]
      · exact hgiven.step hy.net.srv hc

lemma Inv.givenUp (hy : y.Inv cfg workflows) (hwhole : 1000000 ∣ (cfg n).leaseTTL)
    {e : LeaseEntry} (he : e ∈ (y.net.leases n).rows) (hlt : y.net.srv.clock < e.deadline)
    (hnot : ¬ y.net.srv.Live e.runID e.token) : y.net.srv.GivenUp e.runID e.token := by
  cases (hy.net.entries n e he).covers hwhole with
  | ended hended => exact Or.inl hended
  | past hle => exact absurd hlt (not_lt.mpr hle)
  | leased r u hr hlease hle => exact absurd ⟨r, u, hr, hlease, hlt.trans_le hle⟩ hnot
  | cancelled r hr hstate => exact Or.inr ⟨r, hr, hstate⟩

namespace Fair

omit [Jsonb J] in
lemma init (clock : Time) : (Hearts.init clock : Hearts J).Fair n where
  canceled _ h := by cases h
  entered _ h := by cases h
  answered _ h := by cases h

lemma canceled_step (hf : y.Fair n) (hk : y.Keeping cfg d n) (hd : 0 ≤ d)
    (hy : y.Inv cfg workflows) (h : y.step cfg workflows a = some y') {e' : LeaseEntry}
    (he' : e' ∈ (y'.net.leases n).rows) (hcanceled : e'.canceled = true) :
    y'.Spent n e'.runID e'.token := by
  rcases net_step h with heq | ⟨c, hruns, hc⟩
  · rw [heq] at he'
    exact (hf.canceled e' he' hcanceled).step hy h he'
  have hturn := Workers.leases_step hc n
  rcases hturn.entry he' with ⟨e, he, htoken, hrun, -⟩ | ⟨b, hb, parentDone, rfl, rfl, rfl⟩
  · rw [← htoken, ← hrun]
    cases hlive : e.canceled with
    | true => exact (hf.canceled e he hlive).step hy h he
    | false =>
      rcases hturn.canceled he hlive he' htoken.symm hcanceled (hy.fresh n e he) with
        rfl | ⟨now, rfl, hnow, hle⟩ | ⟨b, hb, l, rfl, hworker, hl, hsent, hnot⟩
      · cases hruns with
        | net hdis => cases hdis
        | cancelWork =>
          cases does h with
          | cancelWork => exact Or.inl (by simp)
      · exact absurd (hk.lt_deadline hd he hlive) (not_lt.mpr (hle.trans hnow))
      · obtain ⟨⟨run, token⟩, hpair, rfl⟩ := List.mem_map.mp hsent
        exact (hf.answered b hb hworker l hl run _ hpair hnot e he rfl).step hy h he
  · cases hruns with
    | net hdis =>
      simp only [dispatches, Table.get_of_mem hb, Option.any_some, decide_eq_true_eq] at hdis
      have hsame := heart_frame (n := b.worker) h (by simp [HeartAct.worker?])
      exact Or.inl (by rw [hsame]; exact hdis.symm.trans hcanceled)

lemma answered_step (hf : y.Fair n) (hk : y.Keeping cfg d n) (hd : 0 ≤ d)
    (hwhole : 1000000 ∣ (cfg n).leaseTTL) (hy : y.Inv cfg workflows)
    (h : y.step cfg workflows a = some y') {b : Renewal} (hb : b ∈ y'.net.renewals.rows)
    (hworker : b.worker = n) {l : List Token} (hl : b.renewed = some l)
    (hpair : (run, token) ∈ b.sent) (hnot : token ∉ l) {e' : LeaseEntry}
    (he' : e' ∈ (y'.net.leases n).rows) (htoken' : e'.token = token) :
    y'.Spent n e'.runID token := by
  rcases net_step h with heq | ⟨c, hruns, hc⟩
  · rw [heq] at hb he'
    exact (hf.answered b hb hworker l hl run token hpair hnot e' he' htoken').step hy h he'
  -- the claim was sent, so its entry is not new
  have hold : ∀ b₀ ∈ y.net.renewals.rows, (run, token) ∈ b₀.sent → ∃ e ∈ (y.net.leases n).rows,
      e.token = token ∧ e.runID = e'.runID := by
    intro b₀ hb₀ hpair₀
    rcases (Workers.leases_step hc n).entry he' with ⟨e, he, htoken, hrun, -⟩ |
      ⟨b₁, hb₁, _, -, -, heq⟩
    · exact ⟨e, he, htoken.trans htoken', hrun⟩
    · rw [heq] at htoken'
      exact absurd htoken' ((hf.entered b₀ hb₀ run token hpair₀).2 b₁ hb₁)
  rcases Workers.renewals_step hy.net.srv hc hb with hb | ⟨-, -, hnone⟩ |
    ⟨b₀, hb₀, now, l', -, -, rfl, hlive⟩
  · obtain ⟨e, he, htoken, hrun⟩ := hold b hb hpair
    rw [← hrun]
    exact (hf.answered b hb hworker l hl run token hpair hnot e he htoken).step hy h he
  · rw [hnone] at hl; cases hl
  · cases hl
    obtain ⟨e, he, rfl, hrun⟩ := hold b₀ hb₀ hpair
    have hspent : y.Spent n e.runID e.token := by
      cases hcanceled : e.canceled with
      | true => exact hf.canceled e he hcanceled
      | false =>
        -- the statement has found no lease
        obtain rfl := hy.net.same_run (hy.net.sent b₀ hb₀ _ _ hpair) (hy.net.entries n e he).claimed
        exact Or.inr (hy.givenUp hwhole he (hk.lt_deadline hd he hcanceled)
          fun hl => hnot (hlive _ _ hpair hl))
    rw [← hrun]
    exact hspent.step hy h he

lemma entered_step (hf : y.Fair n) (hy : y.Inv cfg workflows)
    (h : y.step cfg workflows a = some y') {b : Renewal} (hb : b ∈ y'.net.renewals.rows)
    (hpair : (run, token) ∈ b.sent) : token ∈ y'.net.srv.tokens ∧
      ∀ c ∈ y'.net.arrivals.rows, c.token ≠ token := by
  rcases net_step h with heq | ⟨c, hruns, hc⟩
  · rw [heq] at hb ⊢; exact hf.entered b hb run token hpair
  have hbefore : token ∈ y.net.srv.tokens ∧ ∀ c ∈ y.net.arrivals.rows, c.token ≠ token := by
    rcases Workers.renewals_step hy.net.srv hc hb with hb | ⟨-, hsent, -⟩ |
      ⟨b₀, hb₀, _, _, -, -, rfl, -⟩
    · exact hf.entered b hb run token hpair
    · rw [hsent] at hpair
      obtain ⟨e, he, heq⟩ := List.mem_map.mp hpair
      cases heq
      have he := (List.mem_filter.mp he).1
      exact ⟨Server.mem_tokens (hy.net.entries _ e he).claimed.mem, hy.fresh _ e he⟩
    · exact hf.entered b₀ hb₀ run token hpair
  refine ⟨Workers.tokens_step hc hbefore.1, fun b' hb' => ?_⟩
  rcases Workers.arrivals_step hc hb' with ⟨hb', -⟩ | ⟨hnew, -⟩
  · exact hbefore.2 b' hb'
  · exact fun heq => hnew (heq ▸ hbefore.1)

theorem step (hf : y.Fair n) (hk : y.Keeping cfg d n) (hd : 0 ≤ d)
    (hwhole : 1000000 ∣ (cfg n).leaseTTL) (hy : y.Inv cfg workflows)
    (h : y.step cfg workflows a = some y') : y'.Fair n where
  canceled _ he' := hf.canceled_step hk hd hy h he'
  entered _ hb _ _ := hf.entered_step hy h hb
  answered _ hb hworker _ hl _ _ hpair hnot _ he' :=
    hf.answered_step hk hd hwhole hy h hb hworker hl hpair hnot he'

end Fair

/-- **A worker keeps its leases** if the database answers within `d`, where twice `d` and the longer
of `d` and the heartbeat interval are less than a lease, which is a whole number of milliseconds.
In every run in which timers and contexts end on time and local code takes no time: a claim in its
table is canceled only if the worker is stopping, the claim has ended itself or its run was
canceled, and any other is leased with an unexpired lease, whose recorded deadline lies in the
future. -/
theorem keeps_leases {clock : Time} (hd : 0 ≤ d)
    (hfit : max (cfg n).heartbeatEvery d + 2 * d < (cfg n).leaseTTL)
    (hwhole : 1000000 ∣ (cfg n).leaseTTL) (hy : ReachesBy (Hearts.step cfg workflows)
      (fun y a => (y.punctual n a && y.prompt cfg d n a) = true) (init clock) y)
    {e : LeaseEntry} (he : e ∈ (y.net.leases n).rows) :
    (e.canceled = true → y.Spent n e.runID e.token) ∧
    (e.canceled = false → y.net.srv.clock < e.deadline ∧
      (y.net.srv.GivenUp e.runID e.token ∨ ∃ r, y.net.srv.db.run e.runID = some r ∧
        fence e.runID e.token y.net.srv.clock r = true)) := by
  obtain ⟨hinv, hk, hf⟩ : y.Inv cfg workflows ∧ y.Keeping cfg d n ∧ y.Fair n :=
    hy.invariant (P := fun z => z.Inv cfg workflows ∧ z.Keeping cfg d n ∧ z.Fair n)
      ⟨.init clock, .init clock, .init clock⟩ fun z a z' ih ha h => by
        obtain ⟨hp, hq⟩ := Bool.and_eq_true_iff.mp ha
        exact ⟨ih.1.step h, ih.2.1.step hd hfit ih.1 h hp hq, ih.2.2.step ih.2.1 hd hwhole ih.1 h⟩
  refine ⟨hf.canceled e he, fun hlive => ?_⟩
  have hlt := hk.lt_deadline hd he hlive
  refine ⟨hlt, or_iff_not_imp_right.mpr fun hnot => hinv.givenUp hwhole he hlt ?_⟩
  rintro ⟨r, u, hr, hlease, hu⟩
  obtain ⟨htoken, huntil⟩ := Row.lease_eq_some.mp hlease
  have hleased := (Server.row_ok hinv.net.srv hr).token.mp (by simp [htoken])
  exact hnot ⟨r, hr, fence_iff.mpr ⟨Db.run_id hr, hleased, htoken, u, huntil, hu⟩⟩

/-- A second run is claimed while the first is renewed, which takes 9 s, and the answer to the claim
takes 9 s as well; both claims are renewed 1 s after that. -/
def slowly : List (HeartAct Doc) :=
  claiming ++ [.net (.insert "c" false), .net (.server (.tick (10 * second))),
    .wake 0 (10 * second), .expire 0, .snapshot 0,
    .net (.server (.insertRun ⟨"s", "w", 1, "q", 3, none, .null, none⟩ (10 * second))),
    .net (.claimReadyRuns 0 1 (fun _ => "d") (10 * second) (10 * second)),
    .net (.server (.tick (19 * second))), .net (.insert "d" false),
    .net (.renewLeases 0 (19 * second)), .answer 0, .applyRenewal 0, .sleep 0 (19 * second),
    .net (.server (.tick (20 * second))), .wake 0 (20 * second), .expire 0, .snapshot 0,
    .net (.server (.tick (29 * second))), .net (.renewLeases 1 (29 * second)), .answer 0,
    .applyRenewal 0]

/-- With the default configuration a worker can wait 9 s for every answer. -/
theorem keeps_leases_slowly : ∃ (y : Hearts Doc) (e : LeaseEntry),
    ReachesBy (step (fun _ => defaults) fun _ => [("w", 1)])
      (fun y a => (y.punctual 0 a && y.prompt (fun _ => defaults) (9 * second) 0 a) = true)
      (init 0) y ∧
    e ∈ (y.net.leases 0).rows ∧ e.token = "d" ∧ e.canceled = false ∧
    y.net.srv.clock = 29 * second ∧
    ∃ r, y.net.srv.db.run e.runID = some r ∧
      fence e.runID e.token y.net.srv.clock r = true := by
  have hrun : (slowly.foldlM (fun (y : Hearts Doc) a =>
        if y.punctual 0 a && y.prompt (fun _ => defaults) (9 * second) 0 a then
          y.step (fun _ => defaults) (fun _ => [("w", 1)]) a
        else none) (init 0)).bind (fun y => ((y.net.leases 0).get "d").bind fun e =>
      (y.net.srv.db.run e.runID).map fun r => decide (e.canceled = false ∧
        y.net.srv.clock = 29 * second ∧ r.state ≠ .cancelled ∧
        ¬ y.net.srv.Ended e.runID e.token)) = some true := by decide +kernel
  obtain ⟨y, hy, hrun⟩ := Option.bind_eq_some_iff.mp hrun
  obtain ⟨e, he, hrun⟩ := Option.bind_eq_some_iff.mp hrun
  obtain ⟨r, hr, hrun⟩ := Option.map_eq_some_iff.mp hrun
  obtain ⟨hlive, hclock, hstate, hended⟩ := of_decide_eq_true hrun
  obtain ⟨he, htoken⟩ := Table.get_eq_some_iff.mp he
  have hreach := ReachesBy.of_run _ hy
  refine ⟨y, e, hreach, he, htoken, hlive, hclock, ?_⟩
  rcases ((keeps_leases (by decide) (by decide) (by decide) hreach he).2 hlive).2 with
    (hgiven | ⟨r', hr', hcancelled⟩) | hleased
  · exact absurd hgiven hended
  · cases hr.symm.trans hr'
    exact absurd hcancelled hstate
  · exact hleased

end Hearts

end DurablePg

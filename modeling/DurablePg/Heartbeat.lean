import DurablePg.Deadlines

/-!
`heartbeatLoop`, one access to the lease table at a time.

Each worker runs one loop. Between any two of its steps the server runs statements, claims
arrive and are entered and released, time passes, and other workers take steps. A renewal that
the loop has given up may still run at the server.
-/

namespace DurablePg

open DurablePg.Lib

variable {J : Type}

/-- Where a `heartbeatLoop` stands. -/
inductive HeartPc
  /-- `StartWorker` has not been called. -/
  | idle
  /-- At the top of the loop. -/
  | top
  /-- Waiting for the timer, which fires at `t`. -/
  | sleeping (t : Time)
  /-- A renewal is due; the loop has read `now`. -/
  | due (now : Time)
  /-- Claims have been expired, and `earliest` is what `expire` has returned. -/
  | expired (now : Time) (earliest : Option Time)
  /-- Inside `renewLeases`, whose context ends at `bound`. -/
  | renewing (id : ℕ) (bound : Time)
  /-- `renewLeases` has returned without an error. -/
  | renewed (id : ℕ)
  | stopped
  deriving DecidableEq

/-- The renewal that the loop waits for, or is about to apply. -/
def HeartPc.renewal? : HeartPc → Option ℕ
  | .renewing id _ | .renewed id => some id
  | _ => none

structure Heart where
  pc : HeartPc
  nextRenewal : Time
  /-- The context of the worker is canceled. -/
  done : Bool

/-- A step function that `drive` has called: when, and the deadline of its claim. -/
structure StepCall where
  worker : ℕ
  token : Token
  clock : Time
  deadline : Time

/-- Workers and their heartbeats. -/
structure Hearts (J : Type) where
  net : Workers J
  hearts : ℕ → Heart
  /-- The number of the next renewal. -/
  nextId : ℕ
  calls : List StepCall

inductive HeartAct (J : Type)
  /-- A step of the server or of dispatch. -/
  | net (a : WorkerAct J)
  | startWorker (worker : ℕ) (now : Time)
  | cancelWork (worker : ℕ)
  /-- `drive` finds the context of a claim alive and calls a step function. -/
  | call (worker : ℕ) (token : Token)
  /-- The first `expire`, and `timer.Reset`. -/
  | sleep (worker : ℕ) (now : Time)
  /-- The timer has fired. -/
  | wake (worker : ℕ) (now : Time)
  | expire (worker : ℕ)
  | snapshot (worker : ℕ)
  /-- `renewLeases` returns an error, whether or not its statement has run. -/
  | fail (worker : ℕ)
  /-- `renewLeases` returns what the server has answered. -/
  | answer (worker : ℕ)
  | applyRenewal (worker : ℕ)
  /-- The loop finds its context canceled. -/
  | stop (worker : ℕ)

/-- The worker that acts, other than by dispatch. -/
def HeartAct.worker? : HeartAct J → Option ℕ
  | .net _ => none
  | .startWorker n _ | .cancelWork n | .call n _ | .sleep n _ | .wake n _ | .expire n
  | .snapshot n | .fail n | .answer n | .applyRenewal n | .stop n => some n

namespace Hearts

def init (clock : Time) : Hearts J := ⟨.init clock, fun _ => ⟨.idle, 0, false⟩, 0, []⟩

def setHeart (y : Hearts J) (worker : ℕ) (h : Heart) : Hearts J :=
  { y with hearts := Function.update y.hearts worker h }

def setPc (y : Hearts J) (worker : ℕ) (pc : HeartPc) : Hearts J :=
  y.setHeart worker { y.hearts worker with pc := pc }

/-- The steps of the workers that are not of `heartbeatLoop`. Dispatch runs once the worker has
been started, and enters claims under the context of the worker. -/
def dispatches (y : Hearts J) : WorkerAct J → Bool
  | .server _ | .issue _ | .release .. | .renewLeases .. => true
  | .claimReadyRuns worker .. => (y.hearts worker).pc ≠ .idle
  | .insert token parentDone =>
    (y.net.arrivals.get token).any fun b => parentDone = (y.hearts b.worker).done
  | .expire .. | .cancelAll _ | .heartbeat .. | .applyRenewal _ => false

variable [Jsonb J] (cfg : ℕ → Settings) (workflows : ℕ → List (String × ℤ))

/-- The engines of the workers. -/
def engines (n : ℕ) : Engine := (cfg n).engine (workflows n)

/-- When the timer is set to fire, given what `expire` has returned. -/
def wakeAt (nextRenewal : Time) (earliest : Option Time) : Time :=
  match earliest with
  | some t => if t < nextRenewal then t else nextRenewal
  | none => nextRenewal

def sleep (y : Hearts J) (n : ℕ) (now : Time) : Option (Hearts J) :=
  match (y.hearts n).pc with
  | .top => do
    let w ← y.net.step (engines cfg workflows) (.expire n now)
    let t := wakeAt (y.hearts n).nextRenewal ((y.net.leases n).expire now).2
    -- a timer for a time that has passed fires at once
    some (({ y with net := w } : Hearts J).setPc n (.sleeping (max t y.net.srv.clock)))
  | _ => none

def wake (y : Hearts J) (n : ℕ) (now : Time) : Option (Hearts J) :=
  match (y.hearts n).pc with
  | .sleeping t =>
    if t ≤ now ∧ now ≤ y.net.srv.clock then
      if now < (y.hearts n).nextRenewal then some (y.setPc n .top)
      else some (y.setHeart n { y.hearts n with
        pc := .due now, nextRenewal := now + (cfg n).heartbeatEvery })
    else none
  | _ => none

def expire (y : Hearts J) (n : ℕ) : Option (Hearts J) :=
  match (y.hearts n).pc with
  | .due now => do
    let w ← y.net.step (engines cfg workflows) (.expire n now)
    some (({ y with net := w } : Hearts J).setPc n
      (.expired now ((y.net.leases n).expire now).2))
  | _ => none

def snapshot (y : Hearts J) (n : ℕ) : Option (Hearts J) :=
  match (y.hearts n).pc with
  | .expired now earliest =>
    if (y.net.leases n).snapshot = [] then some (y.setPc n .top)
    else do
      let w ← y.net.step (engines cfg workflows) (.heartbeat y.nextId n now)
      some (({ y with net := w, nextId := y.nextId + 1 } : Hearts J).setPc n
        (.renewing y.nextId (earliest.getD (now + (cfg n).leaseTTL))))
  | _ => none

def fail (y : Hearts J) (n : ℕ) : Option (Hearts J) :=
  match (y.hearts n).pc with
  | .renewing _ _ => some (y.setPc n (if (y.hearts n).done then .stopped else .top))
  | _ => none

def answer (y : Hearts J) (n : ℕ) : Option (Hearts J) :=
  match (y.hearts n).pc with
  | .renewing id _ => do
    let b ← y.net.renewals.get id
    let _ ← b.renewed
    some (y.setPc n (.renewed id))
  | _ => none

def applyRenewal (y : Hearts J) (n : ℕ) : Option (Hearts J) :=
  match (y.hearts n).pc with
  | .renewed id => do
    let w ← y.net.step (engines cfg workflows) (.applyRenewal id)
    some (({ y with net := w } : Hearts J).setPc n .top)
  | _ => none

def step (y : Hearts J) : HeartAct J → Option (Hearts J)
  | .net a =>
    if y.dispatches a then
      (y.net.step (engines cfg workflows) a).map fun w => { y with net := w }
    else none
  | .startWorker n now =>
    if (y.hearts n).pc = .idle ∧ now ≤ y.net.srv.clock then
      some (y.setHeart n ⟨.top, now + (cfg n).heartbeatEvery, false⟩)
    else none
  | .cancelWork n =>
    if (y.hearts n).pc = .idle then none
    else (y.net.step (engines cfg workflows) (.cancelAll n)).map fun w =>
      ({ y with net := w } : Hearts J).setHeart n { y.hearts n with done := true }
  | .call n token =>
    ((y.net.leases n).get token).bind fun e =>
      if e.canceled then none
      else some { y with calls := y.calls ++ [⟨n, token, y.net.srv.clock, e.deadline⟩] }
  | .sleep n now => y.sleep cfg workflows n now
  | .wake n now => y.wake cfg n now
  | .expire n => y.expire cfg workflows n
  | .snapshot n => y.snapshot cfg workflows n
  | .fail n => y.fail n
  | .answer n => y.answer n
  | .applyRenewal n => y.applyRenewal cfg workflows n
  | .stop n =>
    match (y.hearts n).pc with
    | .sleeping _ => if (y.hearts n).done then some (y.setPc n .stopped) else none
    | _ => none

/-! ### What a step does -/

inductive Does (y : Hearts J) : HeartAct J → Hearts J → Prop
  | net {a : WorkerAct J} {w : Workers J} (hd : y.dispatches a = true)
    (hw : y.net.step (engines cfg workflows) a = some w) : Does y (.net a) { y with net := w }
  | startWorker {n : ℕ} {now : Time} (hpc : (y.hearts n).pc = .idle)
    (hnow : now ≤ y.net.srv.clock) :
    Does y (.startWorker n now) (y.setHeart n ⟨.top, now + (cfg n).heartbeatEvery, false⟩)
  | cancelWork {n : ℕ} {w : Workers J} (hpc : (y.hearts n).pc ≠ .idle)
    (hw : y.net.step (engines cfg workflows) (.cancelAll n) = some w) :
    Does y (.cancelWork n)
      (({ y with net := w } : Hearts J).setHeart n { y.hearts n with done := true })
  | call {n : ℕ} {token : Token} {e : LeaseEntry} (he : e ∈ (y.net.leases n).rows)
    (hlive : e.canceled = false) :
    Does y (.call n token)
      { y with calls := y.calls ++ [⟨n, token, y.net.srv.clock, e.deadline⟩] }
  | sleep {n : ℕ} {now : Time} {w : Workers J} (hpc : (y.hearts n).pc = .top)
    (hw : y.net.step (engines cfg workflows) (.expire n now) = some w) :
    Does y (.sleep n now) (({ y with net := w } : Hearts J).setPc n (.sleeping
      (max (wakeAt (y.hearts n).nextRenewal ((y.net.leases n).expire now).2) y.net.srv.clock)))
  | early {n : ℕ} {now t : Time} (hpc : (y.hearts n).pc = .sleeping t) (ht : t ≤ now)
    (hnow : now ≤ y.net.srv.clock) (hlt : now < (y.hearts n).nextRenewal) :
    Does y (.wake n now) (y.setPc n .top)
  | due {n : ℕ} {now t : Time} (hpc : (y.hearts n).pc = .sleeping t) (ht : t ≤ now)
    (hnow : now ≤ y.net.srv.clock) (hle : (y.hearts n).nextRenewal ≤ now) :
    Does y (.wake n now) (y.setHeart n { y.hearts n with
      pc := .due now, nextRenewal := now + (cfg n).heartbeatEvery })
  | expire {n : ℕ} {now : Time} {w : Workers J} (hpc : (y.hearts n).pc = .due now)
    (hw : y.net.step (engines cfg workflows) (.expire n now) = some w) :
    Does y (.expire n) (({ y with net := w } : Hearts J).setPc n
      (.expired now ((y.net.leases n).expire now).2))
  | nothing {n : ℕ} {now : Time} {earliest : Option Time}
    (hpc : (y.hearts n).pc = .expired now earliest) (hempty : (y.net.leases n).snapshot = []) :
    Does y (.snapshot n) (y.setPc n .top)
  | snapshot {n : ℕ} {now : Time} {earliest : Option Time} {w : Workers J}
    (hpc : (y.hearts n).pc = .expired now earliest) (hne : (y.net.leases n).snapshot ≠ [])
    (hw : y.net.step (engines cfg workflows) (.heartbeat y.nextId n now) = some w) :
    Does y (.snapshot n) (({ y with net := w, nextId := y.nextId + 1 } : Hearts J).setPc n
      (.renewing y.nextId (earliest.getD (now + (cfg n).leaseTTL))))
  | fail {n id : ℕ} {bound : Time} (hpc : (y.hearts n).pc = .renewing id bound) :
    Does y (.fail n) (y.setPc n (if (y.hearts n).done then .stopped else .top))
  | answer {n id : ℕ} {bound : Time} {b : Renewal} {l : List Token}
    (hpc : (y.hearts n).pc = .renewing id bound) (hb : y.net.renewals.get id = some b)
    (hl : b.renewed = some l) : Does y (.answer n) (y.setPc n (.renewed id))
  | applyRenewal {n id : ℕ} {w : Workers J} (hpc : (y.hearts n).pc = .renewed id)
    (hw : y.net.step (engines cfg workflows) (.applyRenewal id) = some w) :
    Does y (.applyRenewal n) (({ y with net := w } : Hearts J).setPc n .top)
  | stop {n : ℕ} {t : Time} (hpc : (y.hearts n).pc = .sleeping t)
    (hdone : (y.hearts n).done = true) : Does y (.stop n) (y.setPc n .stopped)

variable {cfg workflows} {y y' : Hearts J} {a : HeartAct J}

lemma does (h : y.step cfg workflows a = some y') : y.Does cfg workflows a y' := by
  cases a with
  | net a =>
    obtain ⟨hd, h⟩ := Option.ite_none_right_eq_some.mp h
    obtain ⟨w, hw, rfl⟩ := Option.map_eq_some_iff.mp h
    exact .net hd hw
  | startWorker n now =>
    obtain ⟨⟨hpc, hnow⟩, h⟩ := Option.ite_none_right_eq_some.mp h
    cases h
    exact .startWorker hpc hnow
  | cancelWork n =>
    obtain ⟨hpc, h⟩ := Option.ite_none_left_eq_some.mp h
    obtain ⟨w, hw, rfl⟩ := Option.map_eq_some_iff.mp h
    exact .cancelWork hpc hw
  | call n token =>
    obtain ⟨e, he, h⟩ := Option.bind_eq_some_iff.mp h
    obtain ⟨hlive, h⟩ := Option.ite_none_left_eq_some.mp h
    cases h
    exact .call (Table.get_eq_some_iff.mp he).1 (by simpa using hlive)
  | sleep n now =>
    simp only [step, sleep] at h
    split at h <;> [skip; cases h]
    rename_i hpc
    obtain ⟨w, hw, h⟩ := Option.bind_eq_some_iff.mp h
    cases h
    exact .sleep hpc hw
  | wake n now =>
    simp only [step, wake] at h
    split at h <;> [skip; cases h]
    rename_i t hpc
    obtain ⟨⟨ht, hnow⟩, h⟩ := Option.ite_none_right_eq_some.mp h
    split at h <;> cases h
    · rename_i hlt; exact .early hpc ht hnow hlt
    · rename_i hnot; exact .due hpc ht hnow (not_lt.mp hnot)
  | expire n =>
    simp only [step, expire] at h
    split at h <;> [skip; cases h]
    rename_i now hpc
    obtain ⟨w, hw, h⟩ := Option.bind_eq_some_iff.mp h
    cases h
    exact .expire hpc hw
  | snapshot n =>
    simp only [step, snapshot] at h
    split at h <;> [skip; cases h]
    rename_i now earliest hpc
    split at h
    · rename_i hempty; cases h; exact .nothing hpc hempty
    · rename_i hne
      obtain ⟨w, hw, h⟩ := Option.bind_eq_some_iff.mp h
      cases h
      exact .snapshot hpc hne hw
  | fail n =>
    simp only [step, fail] at h
    split at h <;> [skip; cases h]
    rename_i id bound hpc
    cases h
    exact .fail hpc
  | answer n =>
    simp only [step, answer] at h
    split at h <;> [skip; cases h]
    rename_i id bound hpc
    obtain ⟨b, hb, h⟩ := Option.bind_eq_some_iff.mp h
    obtain ⟨l, hl, h⟩ := Option.bind_eq_some_iff.mp h
    cases h
    exact .answer hpc hb hl
  | applyRenewal n =>
    simp only [step, applyRenewal] at h
    split at h <;> [skip; cases h]
    rename_i id hpc
    obtain ⟨w, hw, h⟩ := Option.bind_eq_some_iff.mp h
    cases h
    exact .applyRenewal hpc hw
  | stop n =>
    simp only [step] at h
    split at h <;> [skip; cases h]
    rename_i t hpc
    obtain ⟨hdone, h⟩ := Option.ite_none_right_eq_some.mp h
    cases h
    exact .stop hpc hdone

omit [Jsonb J] in
@[simp] lemma hearts_setHeart_same (y : Hearts J) (n : ℕ) (h : Heart) :
    (y.setHeart n h).hearts n = h := by simp [setHeart]

omit [Jsonb J] in
@[simp] lemma hearts_setPc_same (y : Hearts J) (n : ℕ) (pc : HeartPc) :
    (y.setPc n pc).hearts n = { y.hearts n with pc := pc } := by simp [setPc]

lemma heart_frame (h : y.step cfg workflows a = some y') {n : ℕ} (hn : a.worker? ≠ some n) :
    y'.hearts n = y.hearts n := by
  have hset : ∀ {m : ℕ} {heart : Heart}, m ≠ n →
      Function.update y.hearts m heart n = y.hearts n := fun hne =>
    Function.update_of_ne (Ne.symm hne) _ _
  cases does h with
  | net | call => rfl
  | _ => exact hset fun heq => hn (congrArg some heq)

/-! ### The workers under it -/

/-- The step of the workers that an action takes. -/
inductive Runs (y : Hearts J) : HeartAct J → WorkerAct J → Prop
  | net {a : WorkerAct J} (hd : y.dispatches a = true) : Runs y (.net a) a
  | cancelWork {n : ℕ} : Runs y (.cancelWork n) (.cancelAll n)
  | sleep {n : ℕ} {now : Time} (hpc : (y.hearts n).pc = .top) :
    Runs y (.sleep n now) (.expire n now)
  | expire {n : ℕ} {now : Time} (hpc : (y.hearts n).pc = .due now) :
    Runs y (.expire n) (.expire n now)
  | snapshot {n : ℕ} {now : Time} {earliest : Option Time}
    (hpc : (y.hearts n).pc = .expired now earliest) (hne : (y.net.leases n).snapshot ≠ []) :
    Runs y (.snapshot n) (.heartbeat y.nextId n now)
  | applyRenewal {n id : ℕ} (hpc : (y.hearts n).pc = .renewed id) :
    Runs y (.applyRenewal n) (.applyRenewal id)

lemma net_step (h : y.step cfg workflows a = some y') : y'.net = y.net ∨
    ∃ b, y.Runs a b ∧ y.net.step (engines cfg workflows) b = some y'.net := by
  cases does h with
  | net hd hw => exact Or.inr ⟨_, .net hd, hw⟩
  | cancelWork _ hw => exact Or.inr ⟨_, .cancelWork, hw⟩
  | sleep hpc hw => exact Or.inr ⟨_, .sleep hpc, hw⟩
  | expire hpc hw => exact Or.inr ⟨_, .expire hpc, hw⟩
  | snapshot hpc hne hw => exact Or.inr ⟨_, .snapshot hpc hne, hw⟩
  | applyRenewal hpc hw => exact Or.inr ⟨_, .applyRenewal hpc, hw⟩
  | _ => exact Or.inl rfl

lemma srv_eq (h : y.step cfg workflows a = some y') {m : ℕ} (hm : a.worker? = some m) :
    y'.net.srv = y.net.srv := by
  rcases net_step h with heq | ⟨b, hruns, hb⟩
  · rw [heq]
  · generalize y'.net = w at hb ⊢
    cases hruns with
    | net => cases hm
    | _ => cases Workers.does hb <;> rfl

/-- **Refinement**: the heartbeats are workers. -/
theorem refines {clock : Time} (hy : Reaches (step cfg workflows) (init clock) y) :
    Reaches (Workers.step (engines cfg workflows)) (Workers.init clock) y.net := by
  refine hy.invariant (P := fun z : Hearts J => Reaches (Workers.step (engines cfg workflows))
    (Workers.init clock) z.net) .refl fun z a z' ih _ h => ?_
  rcases net_step h with heq | ⟨b, -, hb⟩
  · rw [heq]; exact ih
  · exact ih.snoc trivial hb

/-! ### The invariant of the hearts -/

variable (cfg workflows) in
structure Inv (y : Hearts J) : Prop where
  net : y.net.Inv (engines cfg workflows)
  ids : ∀ b ∈ y.net.renewals.rows, b.id < y.nextId
  /-- A loop waits for a renewal of its own. -/
  own : ∀ n id, (y.hearts n).pc.renewal? = some id →
    ∃ b, y.net.renewals.get id = some b ∧ b.worker = n
  done : ∀ n, (y.hearts n).done = true → ∀ e ∈ (y.net.leases n).rows, e.canceled = true
  stopped : ∀ n, (y.hearts n).pc = .stopped → (y.hearts n).done = true
  idle : ∀ n, (y.hearts n).pc = .idle →
    (y.net.leases n).rows = [] ∧ ∀ b ∈ y.net.arrivals.rows, b.worker ≠ n
  /-- A claim is entered once. -/
  fresh : ∀ n, ∀ e ∈ (y.net.leases n).rows, ∀ b ∈ y.net.arrivals.rows, b.token ≠ e.token

namespace Inv

variable {n : ℕ}

lemma init (clock : Time) : (Hearts.init clock : Hearts J).Inv cfg workflows where
  net := .init clock
  ids _ h := by cases h
  own _ _ h := by cases h
  done _ h := by cases h
  stopped _ h := by cases h
  idle _ _ := ⟨rfl, fun _ h => by cases h⟩
  fresh _ _ h := by cases h

lemma renewal_back (h : y.step cfg workflows a = some y') {id : ℕ}
    (hid : (y'.hearts n).pc.renewal? = some id) :
    ((y.hearts n).pc.renewal? = some id ∧ a ≠ .applyRenewal n) ∨
      ∃ now, a = .snapshot n ∧ id = y.nextId ∧ (y.net.leases n).snapshot ≠ [] ∧
        y.net.step (engines cfg workflows) (.heartbeat id n now) = some y'.net := by
  by_cases hn : a.worker? = some n
  · cases does h with
    | net => cases hn
    | call => exact Or.inl ⟨hid, by simp⟩
    | cancelWork => cases hn; exact Or.inl ⟨by simpa using hid, by simp⟩
    | @snapshot _ now _ _ _ hne hw =>
      cases hn
      simp only [hearts_setPc_same, HeartPc.renewal?, Option.some.injEq] at hid
      subst hid
      exact Or.inr ⟨now, rfl, rfl, hne, hw⟩
    | answer hpc =>
      cases hn
      exact Or.inl ⟨by simpa [hpc, HeartPc.renewal?] using hid, by simp⟩
    | fail => cases hn; simp only [hearts_setPc_same] at hid; split at hid <;> cases hid
    | startWorker | sleep | early | due | expire | nothing | applyRenewal | stop =>
      cases hn; simp [HeartPc.renewal?] at hid
  · rw [heart_frame h hn] at hid
    exact Or.inl ⟨hid, fun ha => hn (by rw [ha]; rfl)⟩

lemma own_kept (hy : y.Inv cfg workflows) (h : y.step cfg workflows a = some y') {id : ℕ}
    (hid : (y.hearts n).pc.renewal? = some id) (ha : a ≠ .applyRenewal n) {b : Renewal}
    (hb : y.net.renewals.get id = some b) : ∃ b', y'.net.renewals.get id = some b' ∧
      b'.worker = b.worker ∧ b'.now = b.now ∧ b'.sent = b.sent := by
  rcases net_step h with heq | ⟨c, hruns, hc⟩
  · rw [heq]; exact ⟨b, hb, rfl, rfl, rfl⟩
  · rcases Workers.renewals_kept hc hb with rfl | hkept
    · cases hruns with
      | net hd => cases hd
      | @applyRenewal m _ hpc =>
        -- no other loop applies it
        obtain ⟨b₁, hb₁, hworker₁⟩ := hy.own m id (by rw [hpc]; rfl)
        obtain ⟨b₂, hb₂, hworker₂⟩ := hy.own n id hid
        cases hb₁.symm.trans hb₂
        exact absurd (by rw [← hworker₂, hworker₁]) ha
    · exact hkept

lemma sent_new (hy : y.Inv cfg workflows) (hne : (y.net.leases n).snapshot ≠ []) {now : Time}
    {w : Workers J}
    (hw : y.net.step (engines cfg workflows) (.heartbeat y.nextId n now) = some w) :
    w.renewals.get y.nextId = some ⟨y.nextId, n, now, (y.net.leases n).snapshot, none⟩ := by
  have hnew : y.net.renewals.get y.nextId = none :=
    Table.get_eq_none_iff.mpr fun b hb => (hy.ids b hb).ne
  cases Workers.does hw with
  | nothing _ hempty => exact absurd hempty hne
  | heartbeat => rw [Table.get_insert, hnew]; simp

lemma ids_step (hy : y.Inv cfg workflows) (h : y.step cfg workflows a = some y') {b : Renewal}
    (hb : b ∈ y'.net.renewals.rows) : b.id < y'.nextId := by
  have hle : y.nextId ≤ y'.nextId := by
    cases does h with
    | snapshot => exact Nat.le_succ _
    | _ => exact le_rfl
  rcases net_step h with heq | ⟨c, hruns, hc⟩
  · rw [heq] at hb; exact (hy.ids b hb).trans_le hle
  · rcases Workers.renewals_step hy.net.srv hc hb with hb | ⟨heq, -⟩ | ⟨b₀, hb₀, -, -, -, -, rfl, -⟩
    · exact (hy.ids b hb).trans_le hle
    · cases hruns with
      | snapshot _ hne =>
        injection heq with hid
        cases does h with
        | nothing _ hempty => exact absurd hempty hne
        | snapshot => exact hid ▸ Nat.lt_succ_self _
      | net hd => rw [heq] at hd; cases hd
      | _ => cases heq
    · exact (hy.ids b₀ hb₀).trans_le hle

lemma own_step (hy : y.Inv cfg workflows) (h : y.step cfg workflows a = some y') {id : ℕ}
    (hid : (y'.hearts n).pc.renewal? = some id) :
    ∃ b, y'.net.renewals.get id = some b ∧ b.worker = n := by
  rcases renewal_back h hid with ⟨hold, ha⟩ | ⟨now, -, rfl, hne, hw⟩
  · obtain ⟨b, hb, hworker⟩ := hy.own n id hold
    obtain ⟨b', hb', hworker', -⟩ := hy.own_kept h hold ha hb
    exact ⟨b', hb', hworker'.trans hworker⟩
  · exact ⟨_, hy.sent_new hne hw, rfl⟩

lemma leases_frame (hy : y.Inv cfg workflows) (h : y.step cfg workflows a = some y') {m : ℕ}
    (hm : a.worker? = some m) (hne : m ≠ n) : y'.net.leases n = y.net.leases n := by
  rcases net_step h with heq | ⟨b, hruns, hb⟩
  · rw [heq]
  · have hturn := Workers.leases_step hb n
    generalize y'.net.leases n = t at hturn ⊢
    cases hturn with
    | same => rfl
    | insert | release => cases hruns; cases hm
    | expire =>
      cases hruns with
      | net => cases hm
      | sleep | expire => exact absurd (Option.some.inj hm).symm hne
    | cancelAll =>
      cases hruns with
      | net => cases hm
      | cancelWork => exact absurd (Option.some.inj hm).symm hne
    | @applyRenewal b l hb' hn =>
      cases hruns with
      | net => cases hm
      | applyRenewal hpc =>
        cases hm
        obtain ⟨b₁, hb₁, rfl⟩ := hy.own m b.id (by rw [hpc]; rfl)
        cases hb₁.symm.trans (Table.get_of_mem hb')
        exact absurd hn hne

lemma done_step (hy : y.Inv cfg workflows) (h : y.step cfg workflows a = some y')
    (hdone : (y'.hearts n).done = true) {e : LeaseEntry} (he : e ∈ (y'.net.leases n).rows) :
    e.canceled = true := by
  -- entries are those of a context that was canceled before
  have hold : (y.hearts n).done = true → e.canceled = true := by
    intro hdone
    rcases net_step h with heq | ⟨b, hruns, hb⟩
    · rw [heq] at he; exact hy.done n hdone e he
    · rcases (Workers.leases_step hb n).entry he with ⟨e₀, he₀, -, -, hc⟩ |
        ⟨b, hmem, parentDone, rfl, rfl, rfl⟩
      · exact hc (hy.done n hdone e₀ he₀)
      · cases hruns with
        | net hd =>
          simp only [dispatches, Table.get_of_mem hmem, Option.any_some, decide_eq_true_eq] at hd
          exact hd.trans hdone
  by_cases hn : a.worker? = some n
  · cases does h with
    | net => cases hn
    | cancelWork _ hw =>
      cases hn
      cases Workers.does hw with
      | cancelAll =>
        have he : e ∈ ((y.net.setLeases n (y.net.leases n).cancelAll).leases n).rows := he
        rw [Workers.leases_setLeases, if_pos rfl] at he
        obtain ⟨e₀, -, rfl⟩ := LeaseTable.mem_cancelAll he
        rfl
    | startWorker => cases hn; simp at hdone
    | _ => cases hn; exact hold (by simpa using hdone)
  · rw [heart_frame h hn] at hdone
    exact hold hdone

lemma stopped_step (hy : y.Inv cfg workflows) (h : y.step cfg workflows a = some y')
    (hpc : (y'.hearts n).pc = .stopped) : (y'.hearts n).done = true := by
  by_cases hn : a.worker? = some n
  · cases does h with
    | net => cases hn
    | call => exact hy.stopped n hpc
    | cancelWork => cases hn; simp
    | stop _ hdone => cases hn; simpa using hdone
    | fail =>
      cases hn
      by_cases hdone : (y.hearts n).done = true
      · simpa using hdone
      · simp [hdone] at hpc
    | _ => cases hn; simp at hpc
  · rw [heart_frame h hn] at hpc ⊢
    exact hy.stopped n hpc

lemma idle_back (h : y.step cfg workflows a = some y') (hpc : (y'.hearts n).pc = .idle) :
    (y.hearts n).pc = .idle := by
  by_cases hn : a.worker? = some n
  · cases does h with
    | net => cases hn
    | call => exact hpc
    | cancelWork => cases hn; simpa using hpc
    | fail => cases hn; simp only [hearts_setPc_same] at hpc; split at hpc <;> cases hpc
    | _ => cases hn; simp at hpc
  · rwa [heart_frame h hn] at hpc

lemma idle_step (hy : y.Inv cfg workflows) (h : y.step cfg workflows a = some y')
    (hpc : (y'.hearts n).pc = .idle) :
    (y'.net.leases n).rows = [] ∧ ∀ b ∈ y'.net.arrivals.rows, b.worker ≠ n := by
  have hpc₀ := idle_back h hpc
  obtain ⟨hnil, hno⟩ := hy.idle n hpc₀
  rcases net_step h with heq | ⟨c, hruns, hc⟩
  · rw [heq]; exact ⟨hnil, hno⟩
  · refine ⟨List.eq_nil_iff_forall_not_mem.mpr fun e he => ?_, fun b hb => ?_⟩
    · rcases (Workers.leases_step hc n).entry he with ⟨e₀, he₀, -⟩ | ⟨b, hb, -, hn, -⟩
      · rw [hnil] at he₀; cases he₀
      · exact hno b hb hn
    · rcases Workers.arrivals_step hc hb with ⟨hb, -⟩ | ⟨-, limit, gen, started, now, rfl⟩
      · exact hno b hb
      · rintro rfl
        cases hruns with
        | net hd => exact of_decide_eq_true hd hpc₀

lemma fresh_step (hy : y.Inv cfg workflows) (h : y.step cfg workflows a = some y')
    {e : LeaseEntry} (he : e ∈ (y'.net.leases n).rows) {b : Arrival}
    (hb : b ∈ y'.net.arrivals.rows) : b.token ≠ e.token := by
  rcases net_step h with heq | ⟨c, -, hc⟩
  · rw [heq] at he hb; exact hy.fresh n e he b hb
  · rcases (Workers.leases_step hc n).entry he with ⟨e₀, he₀, htoken, -⟩ |
      ⟨b₁, hb₁, parentDone, -, rfl, rfl⟩
    · rw [← htoken]
      rcases Workers.arrivals_step hc hb with ⟨hb, -⟩ | ⟨hnew, -⟩
      · exact hy.fresh n e₀ he₀ b hb
      · intro heq
        exact hnew (heq ▸ Server.mem_tokens (hy.net.entries n e₀ he₀).claimed.mem)
    · rcases Workers.arrivals_step hc hb with ⟨-, hne⟩ | ⟨-, limit, gen, started, now, heq⟩
      · intro heq
        exact hne parentDone (by rw [heq])
      · cases heq

theorem step (hy : y.Inv cfg workflows) (h : y.step cfg workflows a = some y') :
    y'.Inv cfg workflows where
  net := by
    rcases net_step h with heq | ⟨b, -, hb⟩
    · rw [heq]; exact hy.net
    · exact hy.net.step hb
  ids _ := hy.ids_step h
  own _ _ := hy.own_step h
  done _ hdone _ := hy.done_step h hdone
  stopped _ := hy.stopped_step h
  idle _ := hy.idle_step h
  fresh _ _ he _ := hy.fresh_step h he

end Inv

end Hearts

end DurablePg

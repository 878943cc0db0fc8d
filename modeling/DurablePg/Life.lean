import DurablePg.Queries

/-!
The life of one run, abstracted from tables, transactions and workers.

Whatever happens to a run is one of a few changes, each with the condition under which a
statement makes it. A run's life is the list of its changes from the empty state; its row
and its checkpoints are what replaying the list yields. The invariants that hold of a run
whoever writes to it are proved here, by induction on its life.
-/

namespace DurablePg

variable {J : Type}

/-- A run as the database holds it: its row, and its checkpoints by index. -/
structure View (J : Type) where
  row : Option (Row J)
  cps : ℕ → Option J

/-- What a statement can do to a run. -/
inductive Change (J : Type)
  /-- `insertRun`. -/
  | inserted (n : NewRun J) (now : Time)
  /-- `insertRun` on a deduplication key the run holds. -/
  | touched (now : Time)
  | claimed (token : Token) (leaseMs : ℤ) (now clock : Time)
  | renewed (leaseMs : ℤ) (now clock : Time)
  | wrote (token : Token) (w : Write J) (now clock : Time)
  | recovered (now clock : Time)
  | cancelled (now : Time)
  /-- `emitEvent` on the key the run waits on. -/
  | delivered (key : String) (payload : J) (now : Time)
  | timedOut (now : Time)

/-- The token a claim generates. -/
def Change.claimToken? : Change J → Option Token
  | .claimed token _ _ _ => some token
  | _ => none

/-- The change is neither the claim of this token nor written under it. -/
def Change.Foreign (ch : Change J) (token : Token) : Prop :=
  ch.claimToken? ≠ some token ∧ ∀ w now clock, ch ≠ .wrote token w now clock

variable [Jsonb J]

omit [Jsonb J] in
lemma Row.id_touched (now : Time) (r : Row J) : ({ r with updatedAt := now } : Row J).id = r.id :=
  rfl

namespace Change

/-- The change as an update of the run's row, given the run's checkpoints. -/
def update (cps : ℕ → Option J) (id : RunId) : Change J → Option (Update J)
  | .inserted _ _ => none
  | .touched now =>
    some {
      guard _ := true
      set r := { r with updatedAt := now }
      record _ := none
      keep := Row.id_touched now }
  | .claimed token leaseMs now clock =>
    some { claim [] (fun _ => token) leaseMs now clock with
      guard r := r.state = .ready && r.nextRunAt ≤ now }
  | .renewed leaseMs now clock =>
    some { renewLeases [] leaseMs now clock with
      guard r := r.state = .leased && r.leaseUntil.any (clock < ·) }
  | .wrote token w now clock => some (w.update cps id token now clock)
  | .recovered now clock => some { recoverLeases [] now clock with guard := expiredLease now }
  | .cancelled now => some (cancelRun id now)
  | .delivered key payload now => some (wake key payload now)
  | .timedOut now => some { promoteTimedOut [] now with guard := timedOutWait now }

end Change

namespace View

def empty : View J := ⟨none, fun _ => none⟩

/-- One change of a run. -/
inductive Moves (v : View J) : Change J → View J → Prop
  | inserted (n : NewRun J) (now : Time) (hrow : v.row = none) (hn : n.storable = true) :
    Moves v (.inserted n now) { v with row := some (n.row now) }
  | updated (ch : Change J) (r : Row J) (u : Update J) (hrow : v.row = some r)
    (hu : ch.update v.cps r.id = some u) (hg : u.guard r = true) :
    Moves v ch ⟨some (u.set r), fun i => (v.cps i).or (u.recordAt r i)⟩

end View

/-- The changes of a run so far, and what they have made of it. -/
inductive Life : List (Change J) → View J → Prop
  | nil : Life [] View.empty
  | snoc {l : List (Change J)} {v v' : View J} {ch : Change J} (hl : Life l v)
    (hm : v.Moves ch v') : Life (l ++ [ch]) v'

/-! ### Rows -/

/-- Which columns are null in which state. -/
structure Row.Ok (r : Row J) : Prop where
  token : r.leaseToken.isSome ↔ r.state = .leased
  lease : r.leaseUntil.isSome ↔ r.state = .leased
  key : r.waitingEventKey.isSome ↔ r.state = .waitingEvent
  deadline : r.waitingDeadline.isSome ↔ r.state = .waitingEvent
  output : r.outputJson.isSome → r.state = .completed
  waiting : r.state = .waitingEvent → r.leaseFailures = 0 ∧ r.lastError = none
  completed : r.state = .completed → r.lastError = none
  failed : r.state = .failed → r.lastError.isSome

omit [Jsonb J] in
lemma NewRun.row_ok (n : NewRun J) (now : Time) : (n.row now).Ok := by
  constructor <;> simp [NewRun.row]

namespace Row.Ok

variable {r : Row J}

omit [Jsonb J]

lemma not_leased (h : r.Ok) (hs : r.state ≠ .leased) :
    r.leaseToken = none ∧ r.leaseUntil = none :=
  ⟨by simpa using mt h.token.mp hs, by simpa using mt h.lease.mp hs⟩

lemma not_waiting (h : r.Ok) (hs : r.state ≠ .waitingEvent) :
    r.waitingEventKey = none ∧ r.waitingDeadline = none :=
  ⟨by simpa using mt h.key.mp hs, by simpa using mt h.deadline.mp hs⟩

lemma not_completed (h : r.Ok) (hs : r.state ≠ .completed) : r.outputJson = none := by
  simpa using mt h.output hs

lemma write (h : r.Ok) {w : Write J} {cps : ℕ → Option J} {id : RunId} {token : Token}
    {now clock : Time} (hg : (w.update cps id token now clock).guard r = true) :
    ((w.update cps id token now clock).set r).Ok := by
  obtain ⟨-, hs, htok, t, hlease, -⟩ := fence_iff.mp (Write.fence_of_guard hg)
  obtain ⟨hkey, hdead⟩ := h.not_waiting (by simp [hs])
  have hout := h.not_completed (by simp [hs])
  cases w with
  | commitStep index value complete =>
    cases complete <;> constructor <;>
      simp [Write.update, commitStep, hs, htok, hlease, hkey, hdead]
  | completeRun steps output => constructor <;> simp [Write.update, completeRun, hkey, hdead]
  | parkSleep next ms => constructor <;> simp [Write.update, parkSleep, hkey, hdead, hout]
  | parkWait index key ms => constructor <;> simp [Write.update, parkWait, hout]
  | failOrRetry attempt ms msg =>
    simp only [Write.update, failOrRetry]
    split <;> constructor <;> simp [hkey, hdead, hout]

end Row.Ok

/-- The states in which a change finds a run. -/
def Change.finds : Change J → RunState → Bool
  | .inserted _ _, _ => false
  | .touched _, _ => true
  | .claimed .., s => s = .ready
  | .renewed .., s | .wrote .., s | .recovered .., s => s = .leased
  | .cancelled _, s => !s.terminal
  | .delivered .., s | .timedOut _, s => s = .waitingEvent

lemma Change.finds_of_guard {ch : Change J} {cps : ℕ → Option J} {id : RunId} {u : Update J}
    {r : Row J} (hu : ch.update cps id = some u) (hg : u.guard r = true) :
    ch.finds r.state = true := by
  cases ch with
  | inserted => cases hu
  | touched => rfl
  | claimed | renewed | recovered | timedOut => cases hu; exact (Bool.and_eq_true_iff.mp hg).1
  | wrote => cases hu; exact decide_eq_true (fence_iff.mp (Write.fence_of_guard hg)).2.1
  | cancelled =>
    cases hu
    have hs : r.state = .ready ∨ r.state = .leased ∨ r.state = .waitingEvent := by
      simpa [or_assoc] using (Bool.and_eq_true_iff.mp hg).2
    rcases hs with hs | hs | hs <;> rw [hs] <;> rfl
  | delivered =>
    cases hu
    exact (Bool.and_eq_true_iff.mp (Bool.and_eq_true_iff.mp hg).1).1

/-- Each update relies on what the earlier ones left in the columns it does not set. -/
lemma Row.Ok.update {r : Row J} (h : r.Ok) {ch : Change J} {cps : ℕ → Option J} {u : Update J}
    (hu : ch.update cps r.id = some u) (hg : u.guard r = true) : (u.set r).Ok := by
  have hfound := Change.finds_of_guard hu hg
  cases ch with
  | inserted n now => cases hu
  | touched now =>
    cases hu
    exact ⟨h.token, h.lease, h.key, h.deadline, h.output, h.waiting, h.completed, h.failed⟩
  | claimed token leaseMs now clock =>
    cases hu
    have hs : r.state = .ready := of_decide_eq_true hfound
    obtain ⟨hkey, hdead⟩ := h.not_waiting (by simp [hs])
    have hout := h.not_completed (by simp [hs])
    constructor <;> simp [claim, hkey, hdead, hout]
  | renewed leaseMs now clock =>
    cases hu
    have hs : r.state = .leased := of_decide_eq_true hfound
    obtain ⟨hkey, hdead⟩ := h.not_waiting (by simp [hs])
    have hout := h.not_completed (by simp [hs])
    have htok := h.token.mpr hs
    constructor <;> simp [renewLeases, hs, hkey, hdead, hout, htok]
  | wrote token w now clock => cases hu; exact h.write hg
  | recovered now clock =>
    cases hu
    have hs : r.state = .leased := of_decide_eq_true hfound
    obtain ⟨hkey, hdead⟩ := h.not_waiting (by simp [hs])
    have hout := h.not_completed (by simp [hs])
    simp only [recoverLeases]
    split <;> constructor <;> simp [hkey, hdead, hout]
  | cancelled now =>
    cases hu
    have hs : r.state ≠ .completed := by rintro hs; rw [hs] at hfound; cases hfound
    have hout := h.not_completed hs
    constructor <;> simp [cancelRun, hout]
  | delivered key payload now =>
    cases hu
    have hs : r.state = .waitingEvent := of_decide_eq_true hfound
    obtain ⟨htok, hlease⟩ := h.not_leased (by simp [hs])
    have hout := h.not_completed (by simp [hs])
    constructor <;> simp [wake, htok, hlease, hout]
  | timedOut now =>
    cases hu
    have hs : r.state = .waitingEvent := of_decide_eq_true hfound
    obtain ⟨htok, hlease⟩ := h.not_leased (by simp [hs])
    have hout := h.not_completed (by simp [hs])
    constructor <;> simp [promoteTimedOut, htok, hlease, hout]

lemma Life.row_ok {l : List (Change J)} {v : View J} (h : Life l v) {r : Row J}
    (hr : v.row = some r) : r.Ok := by
  induction h generalizing r with
  | nil => cases hr
  | snoc hl hm ih =>
    cases hm with
    | inserted n now hrow hn => cases hr; exact n.row_ok now
    | updated ch r₀ u hrow hu hg => cases hr; exact (ih hrow).update hu hg

/-! ### What a change does -/

/-- The columns no statement changes. -/
structure Row.Keeps (r r' : Row J) : Prop where
  id : r'.id = r.id
  workflowName : r'.workflowName = r.workflowName
  workflowVersion : r'.workflowVersion = r.workflowVersion
  queue : r'.queue = r.queue
  maxAttempts : r'.maxAttempts = r.maxAttempts
  inputJson : r'.inputJson = r.inputJson
  dedupKey : r'.dedupKey = r.dedupKey

omit [Jsonb J] in
lemma Row.Keeps.refl (r : Row J) : r.Keeps r := ⟨rfl, rfl, rfl, rfl, rfl, rfl, rfl⟩

omit [Jsonb J] in
lemma Row.Keeps.trans {r₁ r₂ r₃ : Row J} (h : r₁.Keeps r₂) (h' : r₂.Keeps r₃) : r₁.Keeps r₃ :=
  ⟨h'.id.trans h.id, h'.workflowName.trans h.workflowName,
    h'.workflowVersion.trans h.workflowVersion, h'.queue.trans h.queue,
    h'.maxAttempts.trans h.maxAttempts, h'.inputJson.trans h.inputJson,
    h'.dedupKey.trans h.dedupKey⟩

/-- The cursor stays, and the run neither starts to wait nor completes. -/
structure Row.Quiet (r r' : Row J) : Prop where
  stepIndex : r'.stepIndex = r.stepIndex
  outputJson : r'.outputJson = r.outputJson
  waiting : r'.state = .waitingEvent → r.state = .waitingEvent ∧
    r'.waitingEventKey = r.waitingEventKey
  completed : r'.state = .completed → r.state = .completed

/-- A write that moves the cursor, or sets it again. -/
def Write.progress : Write J → Bool
  | .failOrRetry .. => false
  | _ => true

/-- The effect of a change on a row and the run's checkpoints. -/
inductive View.Effect (v : View J) (r : Row J) : Change J → View J → Prop
  /-- Bookkeeping of claims, failures and cancellation. -/
  | quiet {ch : Change J} {r' : Row J} (hq : r.Quiet r')
    (hch : ∀ token w now clock, ch = .wrote token w now clock → w.progress = false) :
    Effect v r ch ⟨some r', v.cps⟩
  /-- The outcome of a wait. -/
  | outcome {ch : Change J} {r' : Row J} {x : J} (hwait : r.state = .waitingEvent)
    (hstate : r'.state = .ready) (hindex : r'.stepIndex = r.stepIndex)
    (hx : (∃ now, ch = .timedOut now ∧ x = timedOut) ∨ ∃ key payload now,
      ch = .delivered key payload now ∧ r.waitingEventKey = some key ∧ x = received payload) :
    Effect v r ch ⟨some r', fun i => (v.cps i).or (if r.stepIndex = i then some x else none)⟩
  /-- Progress of a claim. -/
  | progress {token : Token} {w : Write J} {now clock : Time} (hw : w.progress = true)
    (hg : (w.update v.cps r.id token now clock).guard r = true) :
    Effect v r (.wrote token w now clock) ⟨some ((w.update v.cps r.id token now clock).set r),
      fun i => (v.cps i).or ((w.update v.cps r.id token now clock).recordAt r i)⟩

namespace View.Moves

variable {v v' : View J} {ch : Change J}

lemma row_some (h : v.Moves ch v') : ∃ r, v'.row = some r := by
  cases h <;> exact ⟨_, rfl⟩

lemma row_none {n : NewRun J} {now : Time} (h : v.Moves (.inserted n now) v') : v.row = none := by
  cases h with
  | inserted _ _ hrow => exact hrow
  | updated _ _ _ _ hu => cases hu

lemma found (h : v.Moves ch v') {r : Row J} (hr : v.row = some r) : ch.finds r.state = true := by
  cases h with
  | inserted _ _ hrow => rw [hrow] at hr; cases hr
  | updated _ r₀ u hrow hu hg =>
    rw [hrow] at hr; cases hr
    exact Change.finds_of_guard hu hg

lemma cps_some (h : v.Moves ch v') {i : ℕ} {x : J} (hx : v.cps i = some x) : v'.cps i = some x := by
  cases h with
  | inserted => exact hx
  | updated => simp [hx]

lemma keeps (h : v.Moves ch v') {r r' : Row J} (hr : v.row = some r) (hr' : v'.row = some r') :
    r.Keeps r' := by
  cases h with
  | inserted n now hrow => rw [hrow] at hr; cases hr
  | updated ch r₀ u hrow hu hg =>
    rw [hrow] at hr; cases hr; cases hr'
    cases ch with
    | inserted => cases hu
    | wrote token w now clock => cases hu; cases w <;> exact ⟨rfl, rfl, rfl, rfl, rfl, rfl, rfl⟩
    | _ => cases hu; exact ⟨rfl, rfl, rfl, rfl, rfl, rfl, rfl⟩

/-- **Effects**: what a change does to a run that exists. -/
lemma effect (h : v.Moves ch v') {r : Row J} (hr : v.row = some r) : v.Effect r ch v' := by
  cases h with
  | inserted n now hrow => rw [hrow] at hr; cases hr
  | updated ch r₀ u hrow hu hg =>
    rw [hrow] at hr; cases hr
    -- a change that records nothing leaves the checkpoints as they are
    have hquiet : u.record r = none → r.Quiet (u.set r) →
        (∀ token w now clock, ch = .wrote token w now clock → w.progress = false) →
        v.Effect r ch ⟨some (u.set r), fun i => (v.cps i).or (u.recordAt r i)⟩ := by
      intro hrec hq hch
      have hcps : (fun i => (v.cps i).or (u.recordAt r i)) = v.cps := by
        funext i; simp [Update.recordAt, hrec]
      rw [hcps]; exact .quiet hq hch
    cases ch with
    | inserted => cases hu
    | touched now =>
      cases hu
      exact hquiet rfl ⟨rfl, rfl, fun h => ⟨h, rfl⟩, id⟩ (by simp)
    | claimed token leaseMs now clock =>
      cases hu
      exact hquiet rfl ⟨rfl, rfl, by simp [claim], by simp [claim]⟩ (by simp)
    | renewed leaseMs now clock =>
      cases hu
      exact hquiet rfl ⟨rfl, rfl, fun h => ⟨h, rfl⟩, id⟩ (by simp)
    | recovered now clock =>
      cases hu
      refine hquiet rfl ⟨rfl, rfl, ?_, ?_⟩ (by simp) <;> simp only [recoverLeases] <;>
        split <;> simp
    | cancelled now =>
      cases hu
      exact hquiet rfl ⟨rfl, rfl, by simp [cancelRun], by simp [cancelRun]⟩ (by simp)
    | wrote token w now clock =>
      cases hu
      by_cases hw : w.progress = true
      · exact .progress hw hg
      · cases w with
        | failOrRetry attempt ms msg =>
          refine hquiet rfl ⟨rfl, rfl, ?_, ?_⟩ ?_
          · simp only [Write.update, failOrRetry]; split <;> simp
          · simp only [Write.update, failOrRetry]; split <;> simp
          · rintro _ _ _ _ ⟨⟩; rfl
        | commitStep | completeRun | parkSleep | parkWait => exact absurd rfl hw
    | delivered key payload now =>
      cases hu
      have hg' := hg
      simp only [wake, Bool.and_eq_true, decide_eq_true_eq] at hg'
      have hrec : ∀ i, (wake key payload now).recordAt r i =
          if r.stepIndex = i then some (received payload) else none := by
        intro i; simp only [Update.recordAt, hg, if_true]; rfl
      simp only [hrec]
      exact .outcome hg'.1.1 rfl rfl (Or.inr ⟨key, payload, now, rfl, hg'.1.2, rfl⟩)
    | timedOut now =>
      have hs : r.state = .waitingEvent := of_decide_eq_true (Change.finds_of_guard hu hg)
      cases hu
      have hrec : ∀ i, ({ promoteTimedOut [] now with guard := timedOutWait now } :
          Update J).recordAt r i = if r.stepIndex = i then some timedOut else none := by
        have hg' : timedOutWait now r = true := hg
        intro i; simp only [Update.recordAt, hg', if_true]; rfl
      simp only [hrec]
      exact .outcome hs rfl rfl (Or.inl ⟨now, rfl, rfl⟩)

lemma token (h : v.Moves ch v') {r' : Row J} (hr' : v'.row = some r') {token : Token}
    (ht : r'.leaseToken = some token) :
    ch.claimToken? = some token ∨ ∃ r, v.row = some r ∧ r.leaseToken = some token := by
  cases h with
  | inserted n now => cases hr'; cases ht
  | updated ch r u hrow hu hg =>
    cases hr'
    cases ch with
    | claimed => cases hu; exact Or.inl ht
    | wrote token' w now clock =>
      cases hu
      cases w with
      | commitStep index value complete =>
        cases complete
        · exact Or.inr ⟨r, hrow, ht⟩
        · cases ht
      | completeRun | parkSleep | parkWait | failOrRetry => cases ht
    | inserted => cases hu
    | touched | renewed | delivered | timedOut => cases hu; exact Or.inr ⟨r, hrow, ht⟩
    | recovered | cancelled => cases hu; cases ht

lemma live (h : v.Moves ch v') (hok : ∀ r, v.row = some r → r.Ok) {r' : Row J}
    (hr' : v'.row = some r') {token : Token} (ht : r'.leaseToken = some token)
    (hf : ch.Foreign token) :
    ∃ r, v.row = some r ∧ r.leaseToken = some token ∧ r'.attempt = r.attempt ∧
      r'.stepIndex = r.stepIndex ∧ v'.cps = v.cps := by
  cases h with
  | inserted n now => cases hr'; cases ht
  | updated ch r u hrow hu hg =>
    cases hr'
    have hcps : u.record r = none → (fun i => (v.cps i).or (u.recordAt r i)) = v.cps := by
      intro hrec; funext i; simp [Update.recordAt, hrec]
    -- a leased row is not waiting
    have hleased : r.leaseToken = some token → r.state = .waitingEvent → False := by
      intro htok hs
      have hs' := (hok r hrow).token.mp (by simp [htok])
      rw [hs] at hs'; cases hs'
    have hfound := Change.finds_of_guard hu hg
    cases ch with
    | inserted => cases hu
    | touched | renewed => cases hu; exact ⟨r, hrow, ht, rfl, rfl, hcps rfl⟩
    | claimed => cases hu; exact absurd ht hf.1
    | wrote token' w now clock =>
      cases hu
      obtain ⟨-, -, htok, -⟩ := fence_iff.mp (Write.fence_of_guard hg)
      cases w with
      | commitStep index value complete =>
        cases complete
        · have heq : some token' = some token := htok.symm.trans ht
          cases heq
          exact absurd rfl (hf.2 _ _ _)
        · cases ht
      | completeRun | parkSleep | parkWait | failOrRetry => cases ht
    | recovered | cancelled => cases hu; cases ht
    | delivered | timedOut => cases hu; exact (hleased ht (of_decide_eq_true hfound)).elim

end View.Moves

lemma View.Moves.unique {v v₁ v₂ : View J} {ch : Change J} (h₁ : v.Moves ch v₁)
    (h₂ : v.Moves ch v₂) : v₁ = v₂ := by
  cases h₁ with
  | inserted n now hrow =>
    cases h₂ with
    | inserted => rfl
    | updated _ _ _ _ hu => cases hu
  | updated ch r u hrow hu =>
    cases h₂ with
    | inserted => cases hu
    | updated _ r' u' hrow' hu' =>
      rw [hrow] at hrow'; cases hrow'
      rw [hu] at hu'; cases hu'; rfl

lemma Life.snoc_inv {l : List (Change J)} {ch : Change J} {v' : View J} (h : Life (l ++ [ch]) v') :
    ∃ v, Life l v ∧ v.Moves ch v' := by
  generalize hl : l ++ [ch] = l' at h
  cases h with
  | nil => simp at hl
  | snoc hl' hm =>
    obtain ⟨rfl, rfl⟩ := List.append_singleton_inj.mp hl
    exact ⟨_, hl', hm⟩

lemma Life.unique {l : List (Change J)} {v v' : View J} (h : Life l v) (h' : Life l v') :
    v = v' := by
  induction h generalizing v' with
  | nil =>
    generalize hl : ([] : List (Change J)) = l' at h'
    cases h' with
    | nil => rfl
    | snoc => simp at hl
  | snoc hl hm ih =>
    obtain ⟨v₀, hl₀, hm₀⟩ := h'.snoc_inv
    obtain rfl := ih hl₀
    exact hm.unique hm₀

lemma Life.row_some_of_prefix {l l' : List (Change J)} {v v' : View J} (h : Life (l ++ l') v')
    (hl : Life l v) {r : Row J} (hr : v.row = some r) : ∃ r', v'.row = some r' := by
  rcases List.eq_nil_or_concat l' with rfl | ⟨l', ch, rfl⟩
  · rw [List.append_nil] at h
    exact ⟨r, hl.unique h ▸ hr⟩
  · rw [List.concat_eq_append, ← List.append_assoc] at h
    obtain ⟨v₁, -, hm⟩ := h.snoc_inv
    exact hm.row_some

lemma Life.token {l : List (Change J)} {v : View J} (h : Life l v) {r : Row J}
    (hr : v.row = some r) {token : Token} (ht : r.leaseToken = some token) :
    token ∈ l.filterMap Change.claimToken? := by
  induction h generalizing r with
  | nil => cases hr
  | snoc hl hm ih =>
    rw [List.filterMap_append, List.mem_append]
    rcases hm.token hr ht with hc | ⟨r₀, hr₀, ht₀⟩
    · exact Or.inr (by simp [hc])
    · exact Or.inl (ih hr₀ ht₀)

end DurablePg

import DurablePg.Fencing
import DurablePg.LeaseTable

/-!
What one step of the workers does: to the server, to a lease table, to the claims on their way
to it, and to the renewals in progress.
-/

namespace DurablePg

open DurablePg.Lib

variable {J : Type}

/-! ### Lease tables -/

namespace LeaseTable

variable {t : LeaseTable} {e : LeaseEntry} {now : Time}

lemma mem_expire (he : e ∈ (t.expire now).1.rows) : ∃ e₀ ∈ t.rows,
    (e = e₀ ∧ (e₀.canceled = true ∨ now < e₀.deadline)) ∨
      (e₀.deadline ≤ now ∧ e = { e₀ with canceled := true }) := by
  obtain ⟨e₀, he₀, rfl⟩ := List.mem_map.mp he
  refine ⟨e₀, he₀, ?_⟩
  by_cases hp : (!e₀.canceled && e₀.deadline ≤ now) = true
  · exact Or.inr ⟨of_decide_eq_true (Bool.and_eq_true_iff.mp hp).2, if_pos hp⟩
  · refine Or.inl ⟨if_neg hp, ?_⟩
    rcases hc : e₀.canceled with _ | _
    · exact Or.inr (by simpa [hc] using hp)
    · exact Or.inl rfl

lemma mem_applyRenewal {sent renewed : List Token} {deadline : Time}
    (he : e ∈ (t.applyRenewal sent renewed deadline).rows) : ∃ e₀ ∈ t.rows,
    (e₀.token ∉ sent ∧ e = e₀) ∨
      (e₀.token ∈ sent ∧ e₀.token ∈ renewed ∧ e = { e₀ with deadline := deadline }) ∨
      (e₀.token ∈ sent ∧ e₀.token ∉ renewed ∧ e = { e₀ with canceled := true }) := by
  obtain ⟨e₀, he₀, rfl⟩ := List.mem_map.mp he
  refine ⟨e₀, he₀, ?_⟩
  by_cases hsent : e₀.token ∈ sent
  · by_cases hrenewed : e₀.token ∈ renewed <;> simp [hsent, hrenewed]
  · simp [hsent]

lemma mem_applyRenewal_of_unsent {sent renewed : List Token} (deadline : Time) (he : e ∈ t.rows)
    (hsent : e.token ∉ sent) : e ∈ (t.applyRenewal sent renewed deadline).rows :=
  List.mem_map.mpr ⟨e, he, if_neg (by simpa using hsent)⟩

lemma mem_cancelAll (he : e ∈ t.cancelAll.rows) :
    ∃ e₀ ∈ t.rows, e = { e₀ with canceled := true } := by
  obtain ⟨e₀, he₀, rfl⟩ := List.mem_map.mp he
  exact ⟨e₀, he₀, rfl⟩

lemma live_expire (he : e ∈ (t.expire now).1.rows) (hlive : e.canceled = false) :
    e ∈ t.rows ∧ now < e.deadline := by
  obtain ⟨e₀, he₀, ⟨rfl, hc | hlt⟩ | ⟨-, rfl⟩⟩ := mem_expire he
  · rw [hlive] at hc; cases hc
  · exact ⟨he₀, hlt⟩
  · cases hlive

lemma earliest_le (he : e ∈ (t.expire now).1.rows) (hlive : e.canceled = false) :
    ∃ m, (t.expire now).2 = some m ∧ m ≤ e.deadline := by
  obtain ⟨hmem, hlt⟩ := live_expire he hlive
  have hin : e.deadline ∈
      (t.rows.filter fun e => !e.canceled && now < e.deadline).map LeaseEntry.deadline :=
    List.mem_map_of_mem (List.mem_filter.mpr ⟨hmem, by simp [hlive, hlt]⟩)
  rcases hm : (t.expire now).2 with _ | m
  · rw [List.min?_eq_none_iff.mp hm] at hin; cases hin
  · exact ⟨m, rfl, (List.min?_eq_some_iff.mp hm).2 _ hin⟩

lemma earliest_mem {m : Time} (hm : (t.expire now).2 = some m) :
    now < m ∧ ∃ e ∈ t.rows, e.deadline = m := by
  obtain ⟨e, he, rfl⟩ := List.mem_map.mp (List.min?_eq_some_iff.mp hm).1
  obtain ⟨hmem, hp⟩ := List.mem_filter.mp he
  exact ⟨of_decide_eq_true (Bool.and_eq_true_iff.mp hp).2, e, hmem, rfl⟩

lemma not_mem_snapshot {token : Token} (h : ∀ e ∈ t.rows, e.token = token → e.canceled = true)
    (run : RunId) : (run, token) ∉ t.snapshot := by
  intro hmem
  obtain ⟨e, he, heq⟩ := List.mem_map.mp hmem
  obtain ⟨he, hlive⟩ := List.mem_filter.mp he
  cases heq
  rw [h e he rfl] at hlive; cases hlive

end LeaseTable

namespace Workers

variable [Jsonb J] {engines : ℕ → Engine} {y y' : Workers J} {a : WorkerAct J} {n : ℕ}

/-! ### Steps -/

variable (engines) in
inductive Does (y : Workers J) : WorkerAct J → Workers J → Prop
  | server {a : Act J} {s : Server J} (hleases : a.leases = false)
    (hissued : ∀ c ∈ y.srv.endsClaim a, c ∈ y.issued) (hs : y.srv.step a = some s) :
    Does y (.server a) { y with srv := s }
  | issue {token : Token} : Does y (.issue token) { y with issued := token :: y.issued }
  | claim {worker limit : ℕ} {gen : RunId → Token} {started now : Time} {q : ClaimQuery}
    {s : Server J} (hq : (engines worker).claimQuery limit = some q)
    (hs : y.srv.step (.claim q gen now) = some s) (hstarted : started ≤ y.srv.clock) :
    Does y (.claimReadyRuns worker limit gen started now) { y with
      srv := s
      arrivals := y.arrivals.insertAll
        ((y.srv.db.picked (q.claimable now) Row.nextRunAt y.srv.locked q.limit).map fun id =>
          ⟨gen id, id, worker, started + (engines worker).leaseTTL⟩) }
  | insert {b : Arrival} {parentDone : Bool} (hb : b ∈ y.arrivals.rows) :
    Does y (.insert b.token parentDone) { y.setLeases b.worker
        ((y.leases b.worker).insert parentDone b.run b.token b.deadline) with
      arrivals := y.arrivals.deleteWhere fun a => a.token = b.token }
  | release {worker : ℕ} {token : Token} :
    Does y (.release worker token) (y.setLeases worker ((y.leases worker).release token))
  | expire {worker : ℕ} {now : Time} (hnow : now ≤ y.srv.clock) :
    Does y (.expire worker now) (y.setLeases worker ((y.leases worker).expire now).1)
  | cancelAll {worker : ℕ} :
    Does y (.cancelAll worker) (y.setLeases worker (y.leases worker).cancelAll)
  | nothing {id worker : ℕ} {now : Time} (hnow : now ≤ y.srv.clock)
    (hempty : (y.leases worker).snapshot = []) : Does y (.heartbeat id worker now) y
  | heartbeat {id worker : ℕ} {now : Time} (hnow : now ≤ y.srv.clock)
    (hne : (y.leases worker).snapshot ≠ []) :
    Does y (.heartbeat id worker now) { y with
      renewals := y.renewals.insert ⟨id, worker, now, (y.leases worker).snapshot, none⟩ }
  | renewLeases {b : Renewal} {now : Time} {ms : ℤ} {s : Server J} (hb : b ∈ y.renewals.rows)
    (hnew : b.renewed = none) (hms : ms = milliseconds (engines b.worker).leaseTTL)
    (hs : y.srv.step (.renewLeases b.sent ms now) = some s) :
    Does y (.renewLeases b.id now) { y with
      srv := s
      renewals := y.renewals.updateWhere (fun b' => b'.id = b.id)
        (fun b' => { b' with renewed := some ((y.srv.db.runs.rows.filter
          (DurablePg.renewLeases b.sent ms now y.srv.clock).guard).filterMap Row.leaseToken) })
        (fun _ => rfl) }
  | applyRenewal {b : Renewal} {l : List Token} (hb : b ∈ y.renewals.rows)
    (hl : b.renewed = some l) :
    Does y (.applyRenewal b.id) { y.setLeases b.worker ((y.leases b.worker).applyRenewal
        (b.sent.map Prod.snd) l (b.now + (engines b.worker).leaseTTL)) with
      renewals := y.renewals.deleteWhere fun b' => b'.id = b.id }

lemma does (h : y.step engines a = some y') : y.Does engines a y' := by
  cases a with
  | server a =>
    obtain ⟨hallowed, h⟩ := Option.ite_none_left_eq_some.mp h
    obtain ⟨s, hs, rfl⟩ := Option.map_eq_some_iff.mp h
    simp only [Bool.or_eq_true, Bool.not_eq_true', not_or, Bool.not_eq_true,
      Bool.not_eq_false] at hallowed
    refine .server hallowed.1 (fun c hc => ?_) hs
    rw [Option.mem_def.mp hc] at hallowed
    simpa using hallowed.2
  | issue token => cases h; exact .issue
  | claimReadyRuns worker limit gen started now =>
    obtain ⟨q, hq, h⟩ := Option.bind_eq_some_iff.mp h
    obtain ⟨s, hs, h⟩ := Option.bind_eq_some_iff.mp h
    obtain ⟨hstarted, h⟩ := Option.ite_none_right_eq_some.mp h
    cases h
    exact .claim hq hs hstarted
  | insert token parentDone =>
    obtain ⟨b, hb, h⟩ := Option.bind_eq_some_iff.mp h
    obtain ⟨hmem, rfl⟩ := Table.get_eq_some_iff.mp hb
    cases h
    exact .insert hmem
  | release worker token => cases h; exact .release
  | expire worker now =>
    obtain ⟨hnow, h⟩ := Option.ite_none_right_eq_some.mp h
    cases h
    exact .expire hnow
  | cancelAll worker => cases h; exact .cancelAll
  | heartbeat id worker now =>
    obtain ⟨hnow, h⟩ := Option.ite_none_right_eq_some.mp h
    cases h
    unfold heartbeat
    simp only
    split
    · rename_i hempty; exact .nothing hnow (List.isEmpty_iff.mp hempty)
    · rename_i hne; exact .heartbeat hnow fun hempty => hne (List.isEmpty_iff.mpr hempty)
  | renewLeases id now =>
    obtain ⟨b, hb, h⟩ := Option.bind_eq_some_iff.mp h
    obtain ⟨s, hs, h⟩ := Option.bind_eq_some_iff.mp h
    obtain ⟨hnew, h⟩ := Option.ite_none_left_eq_some.mp h
    obtain ⟨hmem, rfl⟩ := Table.get_eq_some_iff.mp hb
    cases h
    exact .renewLeases hmem (by simpa using hnew) rfl hs
  | applyRenewal id =>
    obtain ⟨b, hb, h⟩ := Option.bind_eq_some_iff.mp h
    obtain ⟨l, hl, h⟩ := Option.bind_eq_some_iff.mp h
    obtain ⟨hmem, rfl⟩ := Table.get_eq_some_iff.mp hb
    cases h
    exact .applyRenewal hmem hl

lemma srv_step (h : y.step engines a = some y') :
    (y'.srv = y.srv ∧ ∀ c ∈ y.issued, c ∈ y'.issued) ∨ ∃ b, y.srv.step b = some y'.srv ∧
      (a = .server b ∨ b.leases = true) ∧ (∀ c ∈ y.srv.endsClaim b, c ∈ y.issued) ∧
      y'.issued = y.issued := by
  cases does h with
  | server _ hissued hs => exact Or.inr ⟨_, hs, Or.inl rfl, hissued, rfl⟩
  | claim _ hs | renewLeases _ _ _ hs =>
    exact Or.inr ⟨_, hs, Or.inr rfl, by simp [Server.endsClaim], rfl⟩
  | issue => exact Or.inl ⟨rfl, fun c hc => .tail _ hc⟩
  | _ => exact Or.inl ⟨rfl, fun _ hc => hc⟩

lemma clock_step (h : y.step engines a = some y') : y'.srv.clock = y.srv.clock ∨
    ∃ t, a = .server (.tick t) ∧ y.srv.clock ≤ t ∧ y'.srv.clock = t := by
  rcases srv_step h with ⟨hsrv, -⟩ | ⟨b, hb, ha, -⟩
  · exact Or.inl (by rw [hsrv])
  · rcases Server.clock_cases hb with heq | ⟨t, rfl, hle, heq⟩
    · exact Or.inl heq
    · rcases ha with rfl | hleases
      · exact Or.inr ⟨t, rfl, hle, heq⟩
      · cases hleases

lemma tokens_step (h : y.step engines a = some y') {token : Token} (ht : token ∈ y.srv.tokens) :
    token ∈ y'.srv.tokens := by
  rcases srv_step h with ⟨hsrv, -⟩ | ⟨b, hb, -⟩
  · rwa [hsrv]
  · exact Server.tokens_grow hb ht

/-! ### One lease table -/

variable (engines) in
/-- What an action makes of the lease table of worker `n`. -/
inductive LeaseTurn (y : Workers J) (n : ℕ) : WorkerAct J → LeaseTable → Prop
  | same {a : WorkerAct J} : LeaseTurn y n a (y.leases n)
  | insert {b : Arrival} {parentDone : Bool} (hb : b ∈ y.arrivals.rows) (hn : b.worker = n) :
    LeaseTurn y n (.insert b.token parentDone)
      ((y.leases n).insert parentDone b.run b.token b.deadline)
  | release {token : Token} : LeaseTurn y n (.release n token) ((y.leases n).release token)
  | expire {now : Time} (hnow : now ≤ y.srv.clock) :
    LeaseTurn y n (.expire n now) ((y.leases n).expire now).1
  | cancelAll : LeaseTurn y n (.cancelAll n) (y.leases n).cancelAll
  | applyRenewal {b : Renewal} {l : List Token} (hb : b ∈ y.renewals.rows) (hn : b.worker = n)
    (hl : b.renewed = some l) :
    LeaseTurn y n (.applyRenewal b.id) ((y.leases n).applyRenewal (b.sent.map Prod.snd) l
      (b.now + (engines n).leaseTTL))

omit [Jsonb J] in
lemma leases_setLeases (y : Workers J) (m n : ℕ) (t : LeaseTable) :
    (y.setLeases m t).leases n = if n = m then t else y.leases n := by
  rcases eq_or_ne n m with rfl | hne
  · simp [setLeases]
  · simp [setLeases, hne]

theorem leases_step (h : y.step engines a = some y') (n : ℕ) :
    y.LeaseTurn engines n a (y'.leases n) := by
  -- a table that is set is that of worker `n`, or another
  have hset : ∀ {m : ℕ} {t : LeaseTable}, (m = n → y.LeaseTurn engines n a t) →
      y.LeaseTurn engines n a ((y.setLeases m t).leases n) := by
    intro m t ht
    rw [leases_setLeases]
    split
    · rename_i heq; exact ht heq.symm
    · exact .same
  cases does h with
  | insert hb => exact hset fun hn => hn ▸ .insert hb rfl
  | release => exact hset fun hn => hn ▸ .release
  | expire hnow => exact hset fun hn => hn ▸ .expire hnow
  | cancelAll => exact hset fun hn => hn ▸ .cancelAll
  | applyRenewal hb hl => exact hset fun hn => hn ▸ .applyRenewal hb rfl hl
  | _ => exact .same

namespace LeaseTurn

variable {t : LeaseTable} {e e' : LeaseEntry}

omit [Jsonb J] in
lemma entry (h : y.LeaseTurn engines n a t) (he : e ∈ t.rows) :
    (∃ e₀ ∈ (y.leases n).rows, e₀.token = e.token ∧ e₀.runID = e.runID ∧
      (e₀.canceled = true → e.canceled = true)) ∨
    ∃ b ∈ y.arrivals.rows, ∃ parentDone, b.worker = n ∧ a = .insert b.token parentDone ∧
      e = ⟨b.token, b.run, b.deadline, parentDone⟩ := by
  cases h with
  | same => exact Or.inl ⟨e, he, rfl, rfl, id⟩
  | insert hb hn =>
    rcases Table.mem_insert he with he | rfl
    · exact Or.inl ⟨e, (List.mem_filter.mp he).1, rfl, rfl, id⟩
    · exact Or.inr ⟨_, hb, _, hn, rfl, rfl⟩
  | release => exact Or.inl ⟨e, (List.mem_filter.mp he).1, rfl, rfl, id⟩
  | expire =>
    obtain ⟨e₀, he₀, ⟨rfl, -⟩ | ⟨-, rfl⟩⟩ := LeaseTable.mem_expire he
    · exact Or.inl ⟨e, he₀, rfl, rfl, id⟩
    · exact Or.inl ⟨e₀, he₀, rfl, rfl, fun _ => rfl⟩
  | cancelAll =>
    obtain ⟨e₀, he₀, rfl⟩ := LeaseTable.mem_cancelAll he
    exact Or.inl ⟨e₀, he₀, rfl, rfl, fun _ => rfl⟩
  | applyRenewal =>
    obtain ⟨e₀, he₀, ⟨-, rfl⟩ | ⟨-, -, rfl⟩ | ⟨-, -, rfl⟩⟩ := LeaseTable.mem_applyRenewal he
    · exact Or.inl ⟨e, he₀, rfl, rfl, id⟩
    · exact Or.inl ⟨e₀, he₀, rfl, rfl, id⟩
    · exact Or.inl ⟨e₀, he₀, rfl, rfl, fun _ => rfl⟩

omit [Jsonb J] in
/-- **Why a context is canceled**: the context of the worker is, or the deadline had passed at an
`expire`, or the claim was sent for a renewal and not renewed. -/
lemma canceled (h : y.LeaseTurn engines n a t) (he : e ∈ (y.leases n).rows)
    (hlive : e.canceled = false) (he' : e' ∈ t.rows) (htoken : e'.token = e.token)
    (hcanceled : e'.canceled = true) (hnew : ∀ b ∈ y.arrivals.rows, b.token ≠ e.token) :
    a = .cancelAll n ∨ (∃ now, a = .expire n now ∧ now ≤ y.srv.clock ∧ e.deadline ≤ now) ∨
      ∃ b ∈ y.renewals.rows, ∃ l, a = .applyRenewal b.id ∧ b.worker = n ∧ b.renewed = some l ∧
        e.token ∈ b.sent.map Prod.snd ∧ e.token ∉ l := by
  -- the one entry of the token
  have hone : ∀ {e₀}, e₀ ∈ (y.leases n).rows → e₀.token = e.token → e₀ = e := fun he₀ heq =>
    List.inj_on_of_nodup_map (y.leases n).nodup he₀ he heq
  have hold : e' ∈ (y.leases n).rows → False := fun hmem => by
    rw [hone hmem htoken, hlive] at hcanceled; cases hcanceled
  cases h with
  | same => exact (hold he').elim
  | insert hb =>
    rcases Table.mem_insert he' with he' | rfl
    · exact (hold (List.mem_filter.mp he').1).elim
    · exact absurd htoken (hnew _ hb)
  | release => exact (hold (List.mem_filter.mp he').1).elim
  | expire hnow =>
    obtain ⟨e₀, he₀, ⟨rfl, -⟩ | ⟨hle, rfl⟩⟩ := LeaseTable.mem_expire he'
    · exact (hold he₀).elim
    · obtain rfl := hone he₀ htoken
      exact Or.inr (Or.inl ⟨_, rfl, hnow, hle⟩)
  | cancelAll => exact Or.inl rfl
  | applyRenewal hb hn hl =>
    obtain ⟨e₀, he₀, ⟨-, rfl⟩ | ⟨-, -, rfl⟩ | ⟨hsent, hnot, rfl⟩⟩ :=
      LeaseTable.mem_applyRenewal he'
    · exact (hold he₀).elim
    · obtain rfl := hone he₀ htoken
      rw [hlive] at hcanceled; cases hcanceled
    · obtain rfl := hone he₀ htoken
      exact Or.inr (Or.inr ⟨_, hb, _, rfl, hn, hl, hsent, hnot⟩)

end LeaseTurn

/-! ### Claims on their way, and renewals -/

lemma arrivals_step (h : y.step engines a = some y') {b : Arrival} (hb : b ∈ y'.arrivals.rows) :
    (b ∈ y.arrivals.rows ∧ ∀ parentDone, a ≠ .insert b.token parentDone) ∨
      (b.token ∉ y.srv.tokens ∧ ∃ limit gen started now,
        a = .claimReadyRuns b.worker limit gen started now) := by
  cases does h with
  | claim hq hs =>
    rcases Table.mem_insertAll hb with hb | hb
    · exact Or.inl ⟨hb, by simp⟩
    · obtain ⟨id, hid, rfl⟩ := List.mem_map.mp hb
      refine Or.inr ⟨?_, _, _, _, _, rfl⟩
      cases Server.does hs with
      | claim _ hids _ hfresh => exact hfresh _ (hids ▸ List.mem_map_of_mem hid)
  | insert =>
    obtain ⟨hb, hne⟩ := List.mem_filter.mp hb
    refine Or.inl ⟨hb, fun parentDone heq => ?_⟩
    injection heq with htoken
    simp [htoken] at hne
  | _ => exact Or.inl ⟨hb, by simp⟩

omit [Jsonb J] in
lemma mem_renewed {s : Server J} {sent : List (RunId × Token)} {ms : ℤ} {now : Time} {run : RunId}
    {token : Token} (hmem : (run, token) ∈ sent) (hlive : s.Live run token)
    (hleased : ∀ r, s.db.run run = some r → r.leaseToken.isSome → r.state = .leased) :
    token ∈ (s.db.runs.rows.filter (DurablePg.renewLeases sent ms now s.clock).guard).filterMap
      Row.leaseToken := by
  obtain ⟨r, t, hr, hlease, hlt⟩ := hlive
  obtain ⟨htoken, huntil⟩ := Row.lease_eq_some.mp hlease
  refine List.mem_filterMap.mpr
    ⟨r, List.mem_filter.mpr ⟨(Table.get_eq_some_iff.mp hr).1, ?_⟩, htoken⟩
  simp [DurablePg.renewLeases, htoken, huntil, hlt, Db.run_id hr, hmem,
    hleased r hr (by simp [htoken])]

lemma renewals_step (hy : y.srv.Inv) (h : y.step engines a = some y') {b : Renewal}
    (hb : b ∈ y'.renewals.rows) :
    b ∈ y.renewals.rows ∨
    (a = .heartbeat b.id b.worker b.now ∧ b.sent = (y.leases b.worker).snapshot ∧
      b.renewed = none) ∨
    ∃ b₀ ∈ y.renewals.rows, ∃ now l, a = .renewLeases b.id now ∧ b₀.renewed = none ∧
      b = { b₀ with renewed := some l } ∧ ∀ run token, (run, token) ∈ b.sent →
        y.srv.Live run token → token ∈ l := by
  cases does h with
  | heartbeat =>
    rcases Table.mem_insert hb with hb | rfl
    · exact Or.inl hb
    · exact Or.inr (Or.inl ⟨rfl, rfl, rfl⟩)
  | @renewLeases b₁ now ms s hb₁ hnew =>
    obtain ⟨b₀, hb₀, rfl⟩ := List.mem_map.mp hb
    split
    · rename_i hid
      obtain rfl : b₀ = b₁ :=
        List.inj_on_of_nodup_map y.renewals.nodup hb₀ hb₁ (of_decide_eq_true hid)
      exact Or.inr (Or.inr ⟨b₀, hb₀, now, _, rfl, hnew, rfl, fun run token hmem hlive =>
        mem_renewed hmem hlive fun r hr => ((hy.life run).row_ok hr).token.mp⟩)
    · exact Or.inl hb₀
  | applyRenewal => exact Or.inl (List.mem_filter.mp hb).1
  | _ => exact Or.inl hb

lemma renewals_kept (h : y.step engines a = some y') {id : ℕ} {b : Renewal}
    (hb : y.renewals.get id = some b) : a = .applyRenewal id ∨ ∃ b', y'.renewals.get id = some b' ∧
      b'.worker = b.worker ∧ b'.now = b.now ∧ b'.sent = b.sent := by
  cases does h with
  | heartbeat => exact Or.inr ⟨b, by rw [Table.get_insert, hb]; rfl, rfl, rfl, rfl⟩
  | renewLeases =>
    rw [Table.get_updateWhere, hb]
    refine Or.inr ⟨_, rfl, ?_⟩
    beta_reduce
    split <;> exact ⟨rfl, rfl, rfl⟩
  | @applyRenewal b₁ l hb₁ =>
    by_cases hid : id = b₁.id
    · exact Or.inl (by rw [hid])
    · refine Or.inr ⟨b, ?_, rfl, rfl, rfl⟩
      rw [Table.get_deleteWhere, hb]
      simp [Table.get_key hb, hid]
  | _ => exact Or.inr ⟨b, hb, rfl, rfl, rfl⟩

end Workers

end DurablePg

import DurablePg.Config
import DurablePg.LeaseSteps
import DurablePg.Lifecycle

/-!
The deadlines in the lease tables against those that the server stores.

While the row carries a claim's token, the deadline its worker relies on is at most the stored
one, whatever is still on its way. A claim that lost its row without ending it was recovered
after the stored deadline, or the run was canceled and is never claimed again.
-/

namespace DurablePg

open DurablePg.Lib

variable {J : Type} [Jsonb J]

omit [Jsonb J] in
/-- The change is the last write of a claim. -/
def Change.ends (token : Token) : Change J → Bool
  | .wrote token' w _ _ => token' = token && w.ends
  | _ => false

lemma Life.row_of_mem {l : List (Change J)} {v : View J} (h : Life l v) {ch : Change J}
    (hmem : ch ∈ l) : ∃ r, v.row = some r := by
  cases h with
  | nil => cases hmem
  | snoc _ hm => exact hm.row_some

namespace Server

omit [Jsonb J] in
/-- The token of the last claim of a run. -/
def lastClaim (s : Server J) (run : RunId) : Option Token :=
  ((s.log run).filterMap Change.claimToken?).getLast?

omit [Jsonb J] in
lemma lastClaim_of_log {s s' : Server J} {run : RunId} {l : List (Change J)}
    (hlog : s'.log run = s.log run ++ l) (hl : l.filterMap Change.claimToken? = []) :
    s'.lastClaim run = s.lastClaim run := by
  rw [lastClaim, hlog, List.filterMap_append, hl, List.append_nil]; rfl

omit [Jsonb J] in
/-- The claim has ended itself: a write that ends it took effect. -/
def Ended (s : Server J) (run : RunId) (token : Token) : Prop :=
  ∃ ch ∈ s.log run, ch.ends token = true

omit [Jsonb J] in
instance (s : Server J) (run : RunId) (token : Token) : Decidable (s.Ended run token) :=
  inferInstanceAs (Decidable (∃ ch ∈ s.log run, ch.ends token = true))

omit [Jsonb J] in
/-- The claim was made for this run, with leases of this length. -/
def ClaimedFor (s : Server J) (ttl : Time) (run : RunId) (token : Token) : Prop :=
  ∃ now clock, Change.claimed token (milliseconds ttl) now clock ∈ s.log run

/-- Why a worker may rely on a deadline for a claim: the claim has ended, or the worker cannot
rely on it any more, or the row carries the claim for at least as long, or the run is canceled
and this was its last claim. -/
inductive Covers (s : Server J) (run : RunId) (token : Token) (t : Time) : Prop
  | ended (h : s.Ended run token)
  | past (h : t ≤ s.clock)
  | leased (r : Row J) (u : Time) (hr : s.db.run run = some r) (hlease : r.lease = some (token, u))
    (hle : t ≤ u)
  | cancelled (r : Row J) (hr : s.db.run run = some r) (hstate : r.state = .cancelled)
    (hlast : s.lastClaim run = some token)

omit [Jsonb J] in
/-- A deadline that the worker of a claim has computed, from leases of length `ttl` of which the
server counts the whole milliseconds. -/
structure Sound (s : Server J) (ttl : Time) (run : RunId) (token : Token) (t : Time) : Prop where
  claimed : s.ClaimedFor ttl run token
  bound : t ≤ s.clock + ttl
  /-- The deadline is not later than the stored one, expired or not. -/
  carried : 1000000 ∣ ttl → ∀ r u, s.db.run run = some r → r.lease = some (token, u) → t ≤ u
  covers : 1000000 ∣ ttl → s.Covers run token t

variable {s s' : Server J} {a : Act J} {run : RunId} {token : Token} {t ttl : Time}

lemma Inv.lastClaim (hs : s.Inv) {r : Row J} (hr : s.db.run run = some r) {u : Time}
    (hlease : r.lease = some (token, u)) : s.lastClaim run = some token := by
  obtain ⟨hfenced, hlog⟩ := (hs.life run).fenced
  have hrow : (s.view run).row = some r := hr
  rw [hrow, Option.bind_some, hlease] at hlog
  rw [Server.lastClaim, ← claims_leaseLog]
  refine (hfenced.holder ?_ hlog).1
  rw [claims_leaseLog]; exact hs.once run

lemma Ended.step (h : s.step a = some s') (he : s.Ended run token) : s'.Ended run token := by
  obtain ⟨ch, hmem, hends⟩ := he
  exact ⟨ch, (log_grows h run).subset hmem, hends⟩

lemma ClaimedFor.step (h : s.step a = some s') (hc : s.ClaimedFor ttl run token) :
    s'.ClaimedFor ttl run token := by
  obtain ⟨now, clock, hmem⟩ := hc
  exact ⟨now, clock, (log_grows h run).subset hmem⟩

omit [Jsonb J] in
lemma ClaimedFor.mem (h : s.ClaimedFor ttl run token) :
    token ∈ (s.log run).filterMap Change.claimToken? := by
  obtain ⟨now, clock, hmem⟩ := h
  exact List.mem_filterMap.mpr ⟨_, hmem, rfl⟩

lemma Inv.claimed_unique (hs : s.Inv) {ms ms' : ℤ} {now clock now' clock' : Time}
    (h : Change.claimed token ms now clock ∈ s.log run)
    (h' : Change.claimed token ms' now' clock' ∈ s.log run) : ms = ms' := by
  cases eq_of_nodup_filterMap (hs.once run) h h' rfl rfl
  rfl

lemma carried_step (hs : s.Inv) (h : s.step a = some s') (hc : s.ClaimedFor ttl run token)
    (hcarried : ∀ r u, s.db.run run = some r → r.lease = some (token, u) → t ≤ u)
    (hrenew : ∀ claims ms now, a = .renewLeases claims ms now → (run, token) ∈ claims →
      t ≤ s.clock + millis ms) {r' : Row J} {u : Time} (hr' : s'.db.run run = some r')
    (hlease' : r'.lease = some (token, u)) : t ≤ u := by
  rcases lease_step hs h hr' with ⟨-, hnone⟩ | ⟨r, hr, hstep⟩
  · rw [hnone] at hlease'; cases hlease'
  · cases hstep with
    | kept heq => exact hcarried r u hr (heq.symm.trans hlease')
    | claimed _ _ _ hfresh heq =>
      rw [heq] at hlease'; cases hlease'
      exact absurd (mem_tokens hc.mem) hfresh
    | renewed claims ms now _ _ ha hmem _ _ heq =>
      rw [heq] at hlease'; cases hlease'
      exact hrenew claims ms now ha hmem
    | ended _ _ _ _ _ _ _ _ heq | recovered _ heq | cancelled _ _ _ heq =>
      rw [heq] at hlease'; cases hlease'

lemma Covers.leased_step (hs : s.Inv) (h : s.step a = some s') {r : Row J} {u : Time}
    (hr : s.db.run run = some r) (hlease : r.lease = some (token, u)) (hle : t ≤ u)
    (hrenew : ∀ claims ms now, a = .renewLeases claims ms now → (run, token) ∈ claims →
      t ≤ s.clock + millis ms) : s'.Covers run token t := by
  obtain ⟨r', hr', -⟩ := step_keeps hs.tx h hr
  rcases lease_step hs h hr' with ⟨hnone, -⟩ | ⟨r₀, hr₀, hstep⟩
  · rw [hnone] at hr; cases hr
  cases hr.symm.trans hr₀
  cases hstep with
  | kept heq => exact .leased r' u hr' (heq.trans hlease) hle
  | claimed _ _ hready =>
    have hleased := ((hs.life run).row_ok hr).token.mp (by simp [(Row.lease_eq_some.mp hlease).1])
    rw [hready] at hleased; cases hleased
  | renewed claims ms now _ _ ha hmem hold _ heq =>
    rw [hold] at hlease; cases hlease
    exact .leased r' _ hr' heq (hrenew claims ms now ha hmem)
  | ended _ _ w now clock hw hlog hold =>
    rw [hold] at hlease; cases hlease
    exact .ended ⟨.wrote token w now clock, by simp [hlog], by simp [Change.ends, hw]⟩
  | recovered hpast => exact .past ((hle.trans (hpast token u hlease).le).trans (clock_le h))
  | cancelled now hlog hstate =>
    exact .cancelled r' hr' hstate ((lastClaim_of_log hlog rfl).trans (hs.lastClaim hr hlease))

/-- **Cover lasts**: what covers a deadline covers it after a step, if a renewal is for long
enough. -/
lemma Covers.step (hs : s.Inv) (h : s.step a = some s') (hc : s.Covers run token t)
    (hrenew : ∀ claims ms now, a = .renewLeases claims ms now → (run, token) ∈ claims →
      t ≤ s.clock + millis ms) : s'.Covers run token t := by
  cases hc with
  | ended he => exact .ended (he.step h)
  | past hle => exact .past (hle.trans (clock_le h))
  | leased r u hr hlease hle => exact leased_step hs h hr hlease hle hrenew
  | cancelled r hr hstate hlast =>
    obtain ⟨r', hr', -, hfrozen⟩ := step_lifecycle hs h hr
    have hfrozen := (hfrozen (by simp [hstate, RunState.terminal])).1
    refine .cancelled r' hr' (hfrozen.state.trans hstate) ?_
    -- a run that is over is not claimed
    obtain ⟨o, ⟨hlog, hm⟩, -⟩ := step_moved hs.tx h run
    rcases o with _ | ch
    · exact (lastClaim_of_log hlog rfl).trans hlast
    · have hnone : ch.claimToken? = none := by
        by_contra hne
        cases ch with
        | claimed token' ms now clock =>
          have hfound := View.Moves.found hm hr
          rw [hstate] at hfound; cases hfound
        | _ => exact hne rfl
      exact (lastClaim_of_log hlog (by simp [hnone])).trans hlast

lemma Sound.step (hs : s.Inv) (h : s.step a = some s') (hsound : s.Sound ttl run token t)
    (hrenew : ∀ claims ms now, a = .renewLeases claims ms now → (run, token) ∈ claims →
      ∃ now clock, Change.claimed token ms now clock ∈ s.log run) : s'.Sound ttl run token t := by
  have hlong : 1000000 ∣ ttl → ∀ claims ms now, a = .renewLeases claims ms now →
      (run, token) ∈ claims → t ≤ s.clock + millis ms := by
    intro hms claims ms now ha hmem
    obtain ⟨now₁, clock₁, h₁⟩ := hrenew claims ms now ha hmem
    obtain ⟨now₂, clock₂, h₂⟩ := hsound.claimed
    rw [hs.claimed_unique h₁ h₂, millis_milliseconds hms]
    exact hsound.bound
  exact
    { claimed := hsound.claimed.step h
      bound := hsound.bound.trans (Int.add_le_add_right (clock_le h) ttl)
      carried := fun hms _ _ =>
        carried_step hs h hsound.claimed (hsound.carried hms) (hlong hms)
      covers := fun hms => (hsound.covers hms).step hs h (hlong hms) }

omit [Jsonb J] in
lemma Sound.of_leased (hc : s.ClaimedFor ttl run token) (hbound : t ≤ s.clock + ttl) {r : Row J}
    {u : Time} (hr : s.db.run run = some r) (hlease : r.lease = some (token, u))
    (hle : 1000000 ∣ ttl → t ≤ u) : s.Sound ttl run token t where
  claimed := hc
  bound := hbound
  carried hms r' u' hr' hlease' := by
    cases hr.symm.trans hr'
    rw [hlease] at hlease'; cases hlease'
    exact hle hms
  covers hms := .leased r u hr hlease (hle hms)

end Server

/-! ### What claims and renewals leave behind -/

omit [Jsonb J] in
lemma Engine.claimQuery_leaseMs {e : Engine} {limit : ℕ} {q : ClaimQuery}
    (h : e.claimQuery limit = some q) : q.leaseMs = milliseconds e.leaseTTL := by
  unfold Engine.claimQuery at h
  split at h
  · cases h
  · split at h <;> cases h <;> rfl

namespace Server

variable {s s' : Server J} {run : RunId}

lemma claim_leased {q : ClaimQuery} {gen : RunId → Token} {now : Time}
    (h : s.step (.claim q gen now) = some s')
    (hrun : run ∈ s.db.picked (q.claimable now) Row.nextRunAt s.locked q.limit) :
    (∃ r', s'.db.run run = some r' ∧
      r'.lease = some (gen run, s.clock + millis q.leaseMs)) ∧
    Change.claimed (gen run) q.leaseMs now s.clock ∈ s'.log run := by
  obtain ⟨r, hr, -⟩ := Db.mem_picked hrun
  cases does h with
  | @claim q gen now hnow ids hids hnodup hfresh =>
    rw [← hids] at hrun
    have hid := Db.run_id hr
    set u : Update J := DurablePg.claim ids gen q.leaseMs now s.clock with hu
    have hg : u.guard r = true := by simp [hu, DurablePg.claim, hid, hrun]
    refine ⟨⟨u.set r, by rw [exec_run, hr, Option.map_some, if_pos hg], ?_⟩, ?_⟩
    · rw [← hid]; rfl
    · rw [exec_log, hr, List.mem_append]
      right
      simp [Option.filter, hg, hid]

lemma renew_leased {claims : List (RunId × Token)} {ms : ℤ} {now : Time}
    (h : s.step (.renewLeases claims ms now) = some s') {r : Row J} (hr : r ∈ s.db.runs.rows)
    (hg : (DurablePg.renewLeases claims ms now s.clock).guard r = true) {token : Token}
    (htoken : r.leaseToken = some token) :
    (r.id, token) ∈ claims ∧ ∃ r', s'.db.run r.id = some r' ∧
      r'.lease = some (token, s.clock + millis ms) := by
  cases does h with
  | renew =>
    have hg' := hg
    simp only [DurablePg.renewLeases, htoken, Option.any_some, Bool.and_eq_true,
      decide_eq_true_eq] at hg'
    refine ⟨hg'.1.1, (DurablePg.renewLeases claims ms now s.clock).set r, ?_,
      Row.lease_eq_some.mpr ⟨htoken, rfl⟩⟩
    rw [exec_run, Db.run_of_mem hr, Option.map_some, if_pos hg]

end Server

/-! ### The invariant of the workers -/

namespace Workers

variable (engines : ℕ → Engine)

structure Inv (y : Workers J) : Prop where
  srv : y.srv.Inv
  entries : ∀ n, ∀ e ∈ (y.leases n).rows,
    y.srv.Sound (engines n).leaseTTL e.runID e.token e.deadline
  arrivals : ∀ a ∈ y.arrivals.rows,
    y.srv.Sound (engines a.worker).leaseTTL a.run a.token a.deadline
  now : ∀ b ∈ y.renewals.rows, b.now ≤ y.srv.clock
  sent : ∀ b ∈ y.renewals.rows, ∀ run token, (run, token) ∈ b.sent →
    y.srv.ClaimedFor (engines b.worker).leaseTTL run token
  renewed : ∀ b ∈ y.renewals.rows, ∀ run token l, (run, token) ∈ b.sent → b.renewed = some l →
    token ∈ l → y.srv.Sound (engines b.worker).leaseTTL run token
      (b.now + (engines b.worker).leaseTTL)

namespace Inv

variable {engines} {y y' : Workers J} {a : Act J} {s' : Server J}

lemma init (clock : Time) : (Workers.init clock : Workers J).Inv engines where
  srv := Server.inv_init clock
  entries _ _ h := by cases h
  arrivals _ h := by cases h
  now _ h := by cases h
  sent _ h := by cases h
  renewed _ h := by cases h

/-- **Server steps**: a step of the server keeps the deadlines sound. -/
lemma server (hy : y.Inv engines) (h : y.srv.step a = some s')
    (hrenew : ∀ claims ms now, a = .renewLeases claims ms now → ∀ run token,
      (run, token) ∈ claims → ∃ now clock, Change.claimed token ms now clock ∈ y.srv.log run) :
    ({ y with srv := s' } : Workers J).Inv engines := by
  have hsound : ∀ {n run token t}, y.srv.Sound (engines n).leaseTTL run token t →
      s'.Sound (engines n).leaseTTL run token t := fun hsound =>
    hsound.step hy.srv h fun claims ms now ha hmem => hrenew claims ms now ha _ _ hmem
  exact
    { srv := Server.inv_step hy.srv h
      entries := fun n e he => hsound (hy.entries n e he)
      arrivals := fun a ha => hsound (hy.arrivals a ha)
      now := fun b hb => (hy.now b hb).trans (Server.clock_le h)
      sent := fun b hb run token hmem => (hy.sent b hb run token hmem).step h
      renewed := fun b hb run token l hmem hl ht =>
        hsound (hy.renewed b hb run token l hmem hl ht) }

lemma same_run (hy : y.Inv engines) {ttl ttl' : Time} {run run' : RunId} {token : Token}
    (h : y.srv.ClaimedFor ttl run token) (h' : y.srv.ClaimedFor ttl' run' token) : run = run' :=
  hy.srv.owner run run' token h.mem h'.mem

lemma claim_sound {worker limit : ℕ} {q : ClaimQuery} {gen : RunId → Token} {started now : Time}
    (hq : (engines worker).claimQuery limit = some q)
    (hs : y.srv.step (.claim q gen now) = some s') (hstarted : started ≤ y.srv.clock) {run : RunId}
    (hrun : run ∈ y.srv.db.picked (q.claimable now) Row.nextRunAt y.srv.locked q.limit) :
    s'.Sound (engines worker).leaseTTL run (gen run) (started + (engines worker).leaseTTL) := by
  obtain ⟨⟨r', hr', hlease⟩, hlog⟩ := Server.claim_leased hs hrun
  rw [Engine.claimQuery_leaseMs hq] at hlog hlease
  refine .of_leased ⟨now, y.srv.clock, hlog⟩
    (Int.add_le_add_right (hstarted.trans (Server.clock_le hs)) _) hr' hlease fun hwhole => ?_
  rw [millis_milliseconds hwhole]
  exact Int.add_le_add_right hstarted _

lemma renewed_sound (hy : y.Inv engines) {b : Renewal} (hb : b ∈ y.renewals.rows) {now : Time}
    (hs : y.srv.step (.renewLeases b.sent (milliseconds (engines b.worker).leaseTTL) now) = some s')
    {run : RunId} {token : Token} (hsent : (run, token) ∈ b.sent)
    (htoken : token ∈ (y.srv.db.runs.rows.filter (DurablePg.renewLeases b.sent
      (milliseconds (engines b.worker).leaseTTL) now y.srv.clock).guard).filterMap Row.leaseToken) :
    s'.Sound (engines b.worker).leaseTTL run token (b.now + (engines b.worker).leaseTTL) := by
  obtain ⟨r, hr, htok⟩ := List.mem_filterMap.mp htoken
  obtain ⟨hr, hg⟩ := List.mem_filter.mp hr
  obtain ⟨hsent', r', hr', hlease⟩ := Server.renew_leased hs hr hg htok
  obtain rfl := hy.same_run (hy.sent b hb _ _ hsent') (hy.sent b hb _ _ hsent)
  have hnow := hy.now b hb
  refine .of_leased ((hy.sent b hb _ _ hsent).step hs)
    (Int.add_le_add_right (hnow.trans (Server.clock_le hs)) _) hr' hlease fun hwhole => ?_
  rw [millis_milliseconds hwhole]
  exact Int.add_le_add_right hnow _

lemma turn_sound (hy : y.Inv engines) {n : ℕ} {a : WorkerAct J} {t : LeaseTable}
    (h : y.LeaseTurn engines n a t) {e : LeaseEntry} (he : e ∈ t.rows) :
    y.srv.Sound (engines n).leaseTTL e.runID e.token e.deadline := by
  cases h with
  | same => exact hy.entries n e he
  | insert hb hn =>
    rcases Table.mem_insert he with he | rfl
    · exact hy.entries n e (List.mem_filter.mp he).1
    · exact hn ▸ hy.arrivals _ hb
  | release => exact hy.entries n e (List.mem_filter.mp he).1
  | expire =>
    obtain ⟨e₀, he₀, ⟨rfl, -⟩ | ⟨-, rfl⟩⟩ := LeaseTable.mem_expire he
    · exact hy.entries n e he₀
    · exact hy.entries n e₀ he₀
  | cancelAll =>
    obtain ⟨e₀, he₀, rfl⟩ := LeaseTable.mem_cancelAll he
    exact hy.entries n e₀ he₀
  | @applyRenewal b l hb hn hl =>
    subst hn
    obtain ⟨e₀, he₀, ⟨-, rfl⟩ | ⟨hsent, hrenewed, rfl⟩ | ⟨-, -, rfl⟩⟩ :=
      LeaseTable.mem_applyRenewal he
    · exact hy.entries _ e he₀
    · obtain ⟨⟨run, token⟩, hpair, rfl⟩ := List.mem_map.mp hsent
      obtain rfl := hy.same_run (hy.sent b hb _ _ hpair) (hy.entries _ e₀ he₀).claimed
      exact hy.renewed b hb _ _ l hpair hl hrenewed
    · exact hy.entries _ e₀ he₀

theorem step (hy : y.Inv engines) {a : WorkerAct J} (h : y.step engines a = some y') :
    y'.Inv engines := by
  have hentries := fun n => leases_step h n
  cases does h with
  | server hleases _ hs =>
    exact hy.server hs fun claims ms now ha => by rw [ha] at hleases; cases hleases
  | issue => exact { hy with }
  | claim hq hs hstarted =>
    have hinv := hy.server hs (by simp)
    refine { hinv with arrivals := fun a ha => ?_ }
    rcases Table.mem_insertAll ha with ha | ha
    · exact hinv.arrivals a ha
    · obtain ⟨run, hrun, rfl⟩ := List.mem_map.mp ha
      exact claim_sound hq hs hstarted hrun
  | insert =>
    exact { hy with
      entries := fun n e he => hy.turn_sound (hentries n) he
      arrivals := fun b hb => hy.arrivals b (List.mem_filter.mp hb).1 }
  | release | expire | cancelAll =>
    exact { hy with entries := fun n e he => hy.turn_sound (hentries n) he }
  | nothing => exact hy
  | @heartbeat id worker now hnow =>
    refine { hy with now := fun b hb => ?_, sent := fun b hb run token hmem => ?_, renewed := ?_ }
    · rcases Table.mem_insert hb with hb | rfl
      · exact hy.now b hb
      · exact hnow
    · rcases Table.mem_insert hb with hb | rfl
      · exact hy.sent b hb run token hmem
      · obtain ⟨e, he, heq⟩ := List.mem_map.mp hmem
        cases heq
        exact (hy.entries worker e (List.mem_filter.mp he).1).claimed
    · intro b hb run token l hmem hl
      rcases Table.mem_insert hb with hb | rfl
      · exact hy.renewed b hb run token l hmem hl
      · cases hl
  | @renewLeases b now ms s hmem _ hms hs =>
    subst hms
    have hinv := hy.server hs (by
      rintro claims ms now' ⟨⟩ run token hsent
      exact hy.sent b hmem run token hsent)
    -- the renewal that was answered, or another
    have hrows : ∀ {b' : Renewal} {l : List Token}, b' ∈ (y.renewals.updateWhere
        (fun b' => b'.id = b.id) (fun b => { b with renewed := some l }) fun _ => rfl).rows →
        b' = { b with renewed := some l } ∨ b' ∈ y.renewals.rows := by
      intro b' l hb'
      obtain ⟨b₀, hb₀, rfl⟩ := List.mem_map.mp hb'
      split
      · rename_i hid
        have heq : b₀ = b :=
          List.inj_on_of_nodup_map y.renewals.nodup hb₀ hmem (of_decide_eq_true hid)
        exact Or.inl (by rw [heq])
      · exact Or.inr hb₀
    refine { hinv with
      now := fun b' hb' => ?_, sent := fun b' hb' => ?_, renewed := fun b' hb' => ?_ }
    · rcases hrows hb' with rfl | hb'
      · exact hinv.now b hmem
      · exact hinv.now b' hb'
    · rcases hrows hb' with rfl | hb'
      · exact hinv.sent b hmem
      · exact hinv.sent b' hb'
    · rcases hrows hb' with rfl | hb'
      · rintro run token l hsent ⟨⟩ htoken
        exact hy.renewed_sound hmem hs hsent htoken
      · exact hinv.renewed b' hb'
  | applyRenewal =>
    exact { hy with
      entries := fun n e he => hy.turn_sound (hentries n) he
      now := fun b' hb' => hy.now b' (List.mem_filter.mp hb').1
      sent := fun b' hb' => hy.sent b' (List.mem_filter.mp hb').1
      renewed := fun b' hb' => hy.renewed b' (List.mem_filter.mp hb').1 }

lemma of_reaches {clock : Time} (hy : Reaches (Workers.step engines) (Workers.init clock) y) :
    y.Inv engines :=
  hy.invariant (.init clock) fun _ _ _ ih _ => ih.step

end Inv

/-- **A worker's view of its leases is conservative**: when its leases last a whole number of
milliseconds, the deadline in the lease table is not later than the stored one for as long as
the row carries the claim's token. A claim whose deadline lies in the future, which has not
ended itself and whose run is not canceled, passes the fence. -/
theorem lease_conservative {engines : ℕ → Engine} {n : ℕ}
    (hwhole : 1000000 ∣ (engines n).leaseTTL) {clock : Time} {y : Workers J}
    (hy : Reaches (step engines) (init clock) y) {e : LeaseEntry} (he : e ∈ (y.leases n).rows) :
    ∃ r, y.srv.db.run e.runID = some r ∧
      (r.leaseToken = some e.token → ∃ u, r.leaseUntil = some u ∧ e.deadline ≤ u) ∧
      (y.srv.clock < e.deadline → ¬ y.srv.Ended e.runID e.token → r.state ≠ .cancelled →
        fence e.runID e.token y.srv.clock r = true) := by
  have hinv := Inv.of_reaches hy
  have hsound := hinv.entries n e he
  obtain ⟨r, hr⟩ : ∃ r, y.srv.db.run e.runID = some r := by
    obtain ⟨now, clock, hmem⟩ := hsound.claimed
    exact (hinv.srv.life _).row_of_mem hmem
  have hok := (hinv.srv.life _).row_ok hr
  refine ⟨r, hr, fun htoken => ?_, fun hlt hended hstate => ?_⟩
  · obtain ⟨u, hu⟩ := Option.isSome_iff_exists.mp (hok.lease.mpr (hok.token.mp (by simp [htoken])))
    exact ⟨u, hu, hsound.carried hwhole r u hr (Row.lease_eq_some.mpr ⟨htoken, hu⟩)⟩
  · cases hsound.covers hwhole with
    | ended h => exact absurd h hended
    | past h => exact absurd hlt (not_lt.mpr h)
    | leased r' u hr' hlease hle =>
      cases hr.symm.trans hr'
      obtain ⟨htoken, huntil⟩ := Row.lease_eq_some.mp hlease
      exact fence_iff.mpr ⟨Db.run_id hr, hok.token.mp (by simp [htoken]), htoken, u, huntil,
        hlt.trans_le hle⟩
    | cancelled r' hr' h =>
      cases hr.symm.trans hr'
      exact absurd h hstate

/-- A claim statement that is slow, and a renewal whose answer is lost. -/
def unanswered : List (WorkerAct Doc) :=
  [.server (.insertRun ⟨"r", "w", 1, "q", 3, none, .null, none⟩ 0), .server (.tick 4),
    .claimReadyRuns 0 1 (fun _ => "c") 0 4, .insert "c" false, .server (.tick 9),
    .heartbeat 0 0 9, .renewLeases 0 9]

theorem lease_conservative_unanswered : ∃ (y : Workers Doc) (e : LeaseEntry) (r : Row Doc),
    Reaches (step fun _ => System.worker) (init 0) y ∧ e ∈ (y.leases 0).rows ∧
    y.srv.db.run e.runID = some r ∧ r.leaseToken = some e.token ∧ y.srv.clock < e.deadline ∧
    (∃ u, r.leaseUntil = some u ∧ e.deadline ≤ u) ∧
    fence e.runID e.token y.srv.clock r = true := by
  have hrun : (unanswered.foldlM (step fun _ => System.worker) (init 0)).bind (fun y =>
      (y.leases 0).rows.head?.bind fun e => (y.srv.db.run e.runID).map fun r => decide
        (r.leaseToken = some e.token ∧ y.srv.clock < e.deadline ∧ ¬ y.srv.Ended e.runID e.token ∧
          r.state ≠ .cancelled)) = some true := by decide +kernel
  obtain ⟨y, hy, hrun⟩ := Option.bind_eq_some_iff.mp hrun
  obtain ⟨e, he, hrun⟩ := Option.bind_eq_some_iff.mp hrun
  obtain ⟨r, hr, hrun⟩ := Option.map_eq_some_iff.mp hrun
  obtain ⟨htoken, hlt, hended, hstate⟩ := of_decide_eq_true hrun
  have hreach := Reaches.of_run unanswered hy
  have hmem := List.mem_of_head? he
  obtain ⟨r', hr', hcarried, hfence⟩ := lease_conservative (by decide) hreach hmem
  cases hr.symm.trans hr'
  exact ⟨y, e, r, hreach, hmem, hr, htoken, hlt, hcarried htoken, hfence hlt hended hstate⟩

/-- A run is claimed with a lease of 1.5 ms, and 1.2 ms pass. -/
def fraction : List (WorkerAct Doc) :=
  [.server (.insertRun ⟨"r", "w", 1, "q", 3, none, .null, none⟩ 0),
    .claimReadyRuns 0 1 (fun _ => "c") 0 0, .insert "c" false, .server (.tick 1200000)]

/-- `New` accepts a lease of 1.5 ms, of which the server stores 1 ms. -/
theorem lease_outlived : ∃ (c : Settings) (y : Workers Doc) (e : LeaseEntry) (r : Row Doc),
    Config.new ⟨true, "", "q", 0, 0, 1500000, 1000000⟩ 1 = .ok c ∧
    Reaches (step fun _ => c.engine [("w", 1)]) (init 0) y ∧ e ∈ (y.leases 0).rows ∧
    e.canceled = false ∧ y.srv.clock < e.deadline ∧ ¬ y.srv.Ended e.runID e.token ∧
    y.srv.db.run e.runID = some r ∧ r.state = .leased ∧ r.leaseToken = some e.token ∧
    r.leaseUntil.any (· < e.deadline) = true ∧ fence e.runID e.token y.srv.clock r = false := by
  have hnew : (match Config.new ⟨true, "", "q", 0, 0, 1500000, 1000000⟩ 1 with
      | .ok c => decide (c.queue = "q" ∧ c.leaseTTL = 1500000)
      | .error _ => false) = true := by decide +kernel
  split at hnew
  · rename_i c hc
    obtain ⟨hqueue, httl⟩ := of_decide_eq_true hnew
    have hengine : c.engine [("w", 1)] = ⟨"q", 1500000, [("w", 1)]⟩ := by
      rw [Settings.engine, hqueue, httl]
    have hrun : (fraction.foldlM (step fun _ => ⟨"q", 1500000, [("w", 1)]⟩) (init 0)).bind (fun y =>
        (y.leases 0).rows.head?.bind fun e => (y.srv.db.run e.runID).map fun r => decide
          (e.canceled = false ∧ y.srv.clock < e.deadline ∧ ¬ y.srv.Ended e.runID e.token ∧
            r.state = .leased ∧ r.leaseToken = some e.token ∧
            r.leaseUntil.any (· < e.deadline) = true ∧
            fence e.runID e.token y.srv.clock r = false)) = some true := by decide +kernel
    rw [← hengine] at hrun
    obtain ⟨y, hy, hrun⟩ := Option.bind_eq_some_iff.mp hrun
    obtain ⟨e, he, hrun⟩ := Option.bind_eq_some_iff.mp hrun
    obtain ⟨r, hr, hrun⟩ := Option.map_eq_some_iff.mp hrun
    obtain ⟨hcanceled, hlt, hended, hrest⟩ := of_decide_eq_true hrun
    exact ⟨c, y, e, r, hc, .of_run fraction hy, List.mem_of_head? he, hcanceled, hlt, hended, hr,
      hrest⟩
  · cases hnew

end Workers

end DurablePg

import DurablePg.Heartbeat

/-!
The heartbeat never stops a healthy claim.

The snapshot, the statement of the renewal and the application of its answer are three steps,
with claims entered and released between them. What is applied is matched by token: a claim is
canceled if its token was sent and is missing from the answer, which it is only if the run was
not leased under it when the statement ran.
-/

namespace DurablePg

open DurablePg.Lib

variable {J : Type} [Jsonb J]

namespace Hearts

variable {cfg : ℕ → Settings} {workflows : ℕ → List (String × ℤ)} {clock : Time}
  {acts : List (HeartAct J)} {y y' : Hearts J} {a : HeartAct J} {n : ℕ}

/-! ### Where renewals come from -/

variable (cfg workflows clock acts) in
/-- The renewals in progress, in the run that has led to them. -/
structure Told (y : Hearts J) : Prop where
  taken : ∀ b ∈ y.net.renewals.rows, ∃ z : Hearts J,
    Takes (step cfg workflows) (init clock) acts (.snapshot b.worker) z ∧ z.nextId = b.id ∧
      b.sent = (z.net.leases b.worker).snapshot
  answered : ∀ b ∈ y.net.renewals.rows, ∀ l, b.renewed = some l → ∃ (z : Hearts J) (now : Time),
    Takes (step cfg workflows) (init clock) acts (.net (.renewLeases b.id now)) z ∧
      z.net.renewals.get b.id = some { b with renewed := none } ∧
      ∀ run token, (run, token) ∈ b.sent → z.net.srv.Live run token → token ∈ l

lemma Told.snoc (ht : y.Told cfg workflows clock acts) (a : HeartAct J) :
    y.Told cfg workflows clock (acts ++ [a]) where
  taken b hb := by
    obtain ⟨z, hz, hrest⟩ := ht.taken b hb
    exact ⟨z, hz.snoc a, hrest⟩
  answered b hb l hl := by
    obtain ⟨z, now, hz, hrest⟩ := ht.answered b hb l hl
    exact ⟨z, now, hz.snoc a, hrest⟩

lemma Told.step (ht : y.Told cfg workflows clock acts) (hy : y.Inv cfg workflows)
    (hrun : acts.foldlM (step cfg workflows) (init clock) = some y)
    (h : y.step cfg workflows a = some y') : y'.Told cfg workflows clock (acts ++ [a]) := by
  -- renewals that were there before were so in this run
  have hkept := ht.snoc a
  rcases net_step h with heq | ⟨c, hruns, hc⟩
  · exact ⟨heq ▸ hkept.taken, heq ▸ hkept.answered⟩
  refine ⟨fun b hb => ?_, fun b hb l hl => ?_⟩
  · rcases Workers.renewals_step hy.net.srv hc hb with hb | ⟨heq, hsent, -⟩ |
      ⟨b₀, hb₀, -, -, -, -, rfl, -⟩
    · exact hkept.taken b hb
    · cases hruns with
      | snapshot =>
        injection heq with hid hworker
        subst hworker
        exact ⟨y, .last hrun _, hid, hsent⟩
      | net hd => rw [heq] at hd; cases hd
      | _ => cases heq
    · exact hkept.taken b₀ hb₀
  · rcases Workers.renewals_step hy.net.srv hc hb with hb | ⟨-, -, hnone⟩ |
      ⟨b₀, hb₀, now, l', heq, hnone, hb', hlive⟩
    · exact hkept.answered b hb l hl
    · rw [hnone] at hl; cases hl
    · cases hruns with
      | net hd =>
        subst heq hb'
        cases hl
        exact ⟨y, now, .last hrun _, (Table.get_of_mem hb₀).trans (by rw [← hnone]), hlive⟩
      | _ => cases heq

lemma told (hrun : acts.foldlM (step cfg workflows) (init clock) = some y) :
    y.Inv cfg workflows ∧ y.Told cfg workflows clock acts :=
  run_induction (P := fun l z => z.Inv cfg workflows ∧ z.Told cfg workflows clock l)
    ⟨.init clock, ⟨fun _ h => (by cases h), fun _ h => (by cases h)⟩⟩
    (fun _ _ _ _ hz ih h => ⟨ih.1.step h, ih.2.step ih.1 hz h⟩) hrun

/-! ### Canceled claims -/

/-- A token under which only canceled claims are entered, and none will be. -/
structure Over (y : Hearts J) (n : ℕ) (token : Token) : Prop where
  claimed : token ∈ y.net.srv.tokens
  arrivals : ∀ b ∈ y.net.arrivals.rows, b.token ≠ token
  canceled : ∀ e ∈ (y.net.leases n).rows, e.token = token → e.canceled = true

lemma Over.step {token : Token} (ho : y.Over n token) (h : y.step cfg workflows a = some y') :
    y'.Over n token := by
  rcases net_step h with heq | ⟨c, -, hc⟩
  · exact ⟨heq ▸ ho.claimed, heq ▸ ho.arrivals, heq ▸ ho.canceled⟩
  refine ⟨Workers.tokens_step hc ho.claimed, fun b hb => ?_, fun e he htoken => ?_⟩
  · rcases Workers.arrivals_step hc hb with ⟨hb, -⟩ | ⟨hnew, -⟩
    · exact ho.arrivals b hb
    · exact fun heq => hnew (heq ▸ ho.claimed)
  · rcases (Workers.leases_step hc n).entry he with ⟨e₀, he₀, heq, -, hcanceled⟩ |
      ⟨b, hb, _, -, -, rfl⟩
    · exact hcanceled (ho.canceled e₀ he₀ (heq.trans htoken))
    · exact absurd htoken (ho.arrivals b hb)

lemma Inv.over (hy : y.Inv cfg workflows) {e : LeaseEntry} (he : e ∈ (y.net.leases n).rows)
    (hcanceled : e.canceled = true) : y.Over n e.token where
  claimed := Server.mem_tokens (hy.net.entries n e he).claimed.mem
  arrivals := hy.fresh n e he
  canceled e' he' htoken := by
    obtain rfl := List.inj_on_of_nodup_map (y.net.leases n).nodup he' he htoken
    exact hcanceled

/-! ### Why a claim is canceled -/

lemma Inv.applied (hy : y.Inv cfg workflows)
    (h : y.step cfg workflows (.applyRenewal n) = some y') :
    ∃ b ∈ y.net.renewals.rows, ∃ l, (y.hearts n).pc = .renewed b.id ∧ b.worker = n ∧
      b.renewed = some l ∧ y'.net.leases n = (y.net.leases n).applyRenewal (b.sent.map Prod.snd) l
        (b.now + (cfg n).leaseTTL) := by
  cases does h with
  | applyRenewal hpc hw =>
    cases Workers.does hw with
    | @applyRenewal b l hb hl =>
      obtain ⟨b', hb', rfl⟩ := hy.own n b.id (by rw [hpc]; rfl)
      cases hb'.symm.trans (Table.get_of_mem hb)
      exact ⟨b, hb, l, hpc, rfl, hl, (Workers.leases_setLeases _ _ _ _).trans (if_pos rfl)⟩

/-- A claim that is canceled had its deadline pass at an `expire`, or was sent for a renewal when
its run was no longer leased under it. -/
lemma canceled_by (hrun : acts.foldlM (step cfg workflows) (init clock) = some y)
    (h : y.step cfg workflows a = some y') {e e' : LeaseEntry} (he : e ∈ (y.net.leases n).rows)
    (hlive : e.canceled = false) (ha : a ≠ .cancelWork n) (he' : e' ∈ (y'.net.leases n).rows)
    (htoken : e'.token = e.token) (hcanceled : e'.canceled = true) :
    (∃ now, (a = .sleep n now ∨ (a = .expire n ∧ (y.hearts n).pc = .due now)) ∧
      now ≤ y.net.srv.clock ∧ e.deadline ≤ now) ∨
    ∃ b ∈ y.net.renewals.rows, ∃ (z : Hearts J) (now : Time), a = .applyRenewal n ∧
      (y.hearts n).pc = .renewed b.id ∧ (e.runID, e.token) ∈ b.sent ∧
      Takes (step cfg workflows) (init clock) acts (.net (.renewLeases b.id now)) z ∧
      z.net.renewals.get b.id = some { b with renewed := none } ∧
      ¬ z.net.srv.Live e.runID e.token := by
  obtain ⟨hy, ht⟩ := told hrun
  rcases net_step h with heq | ⟨c, hruns, hc⟩
  · rw [heq] at he'
    rw [List.inj_on_of_nodup_map (y.net.leases n).nodup he' he htoken, hlive] at hcanceled
    cases hcanceled
  rcases (Workers.leases_step hc n).canceled he hlive he' htoken hcanceled (hy.fresh n e he) with
    rfl | ⟨now, rfl, hnow, hle⟩ | ⟨b, hb, l, rfl, hworker, hl, hsent, hnot⟩
  · cases hruns with
    | net hd => cases hd
    | cancelWork => exact absurd rfl ha
  · cases hruns with
    | net hd => cases hd
    | sleep => exact Or.inl ⟨now, Or.inl rfl, hnow, hle⟩
    | expire hpc => exact Or.inl ⟨now, Or.inr ⟨rfl, hpc⟩, hnow, hle⟩
  · -- the run of the entry is the one that was sent
    obtain ⟨⟨run, token⟩, hpair, htok⟩ := List.mem_map.mp hsent
    obtain rfl : token = e.token := htok
    obtain rfl := hy.net.same_run (hy.net.sent b hb _ _ hpair) (hy.net.entries n e he).claimed
    obtain ⟨z, now, hz, hget, hrenewed⟩ := ht.answered b hb l hl
    cases hruns with
    | net hd => cases hd
    | @applyRenewal m _ hpc =>
      obtain ⟨b', hb', rfl⟩ := hy.own m b.id (by rw [hpc]; rfl)
      cases hb'.symm.trans (Table.get_of_mem hb)
      subst hworker
      exact Or.inr ⟨b, hb, z, now, rfl, hpc, hpair, hz, hget,
        fun hleased => hnot (hrenewed _ _ hpair hleased)⟩

/-- **The heartbeat never stops a healthy claim.** In every step of every run:
* a claim whose context is canceled, other than with that of the worker, had its deadline pass at
  an `expire`, or was sent for the renewal that is applied, and when the statement of this renewal
  ran its run was not leased under its token with an unexpired lease;
* a renewal that is applied leaves alone what was entered after its snapshot, and enters nothing;
* a renewal that fails changes nothing;
* a canceled claim stays canceled, and is in no later snapshot. -/
theorem heartbeat_spares (hrun : acts.foldlM (step cfg workflows) (init clock) = some y)
    (h : y.step cfg workflows a = some y') (n : ℕ) :
    (∀ e ∈ (y.net.leases n).rows, e.canceled = false → a ≠ .cancelWork n →
      ∀ e' ∈ (y'.net.leases n).rows, e'.token = e.token → e'.canceled = true →
        (∃ now, (a = .sleep n now ∨ (a = .expire n ∧ (y.hearts n).pc = .due now)) ∧
          now ≤ y.net.srv.clock ∧ e.deadline ≤ now) ∨
        ∃ b ∈ y.net.renewals.rows, ∃ (z : Hearts J) (now : Time), a = .applyRenewal n ∧
          (y.hearts n).pc = .renewed b.id ∧ (e.runID, e.token) ∈ b.sent ∧
          Takes (step cfg workflows) (init clock) acts (.net (.renewLeases b.id now)) z ∧
          z.net.renewals.get b.id = some { b with renewed := none } ∧
          ¬ z.net.srv.Live e.runID e.token) ∧
    (a = .applyRenewal n → ∃ b ∈ y.net.renewals.rows, ∃ z : Hearts J,
      (y.hearts n).pc = .renewed b.id ∧
      Takes (step cfg workflows) (init clock) acts (.snapshot n) z ∧ z.nextId = b.id ∧
      b.sent = (z.net.leases n).snapshot ∧
      (∀ e ∈ (y.net.leases n).rows, (∀ e₀ ∈ (z.net.leases n).rows, e₀.token ≠ e.token) →
        e ∈ (y'.net.leases n).rows) ∧
      ∀ e' ∈ (y'.net.leases n).rows, ∃ e ∈ (y.net.leases n).rows, e.token = e'.token) ∧
    (a = .fail n → y'.net = y.net) ∧
    ∀ e ∈ (y.net.leases n).rows, e.canceled = true → ∀ z, Reaches (step cfg workflows) y z →
      (∀ e' ∈ (z.net.leases n).rows, e'.token = e.token → e'.canceled = true) ∧
      ∀ run, (run, e.token) ∉ (z.net.leases n).snapshot := by
  obtain ⟨hy, ht⟩ := told hrun
  refine ⟨fun e he hlive ha e' he' => canceled_by hrun h he hlive ha he', ?_, ?_, ?_⟩
  · rintro rfl
    obtain ⟨b, hb, l, hpc, rfl, -, hleases⟩ := hy.applied h
    obtain ⟨z, hz, hid, hsent⟩ := ht.taken b hb
    refine ⟨b, hb, z, hpc, hz, hid, hsent, fun e he hnew => ?_, fun e' he' => ?_⟩
    · -- what is not in the table is not in the snapshot
      rw [hleases]
      refine LeaseTable.mem_applyRenewal_of_unsent _ he fun hmem => ?_
      obtain ⟨⟨run, token⟩, hpair, rfl⟩ := List.mem_map.mp hmem
      rw [hsent] at hpair
      obtain ⟨e₀, he₀, heq⟩ := List.mem_map.mp hpair
      exact hnew e₀ (List.mem_filter.mp he₀).1 (congrArg Prod.snd heq)
    · rw [hleases] at he'
      obtain ⟨e, he, ⟨-, rfl⟩ | ⟨-, -, rfl⟩ | ⟨-, -, rfl⟩⟩ := LeaseTable.mem_applyRenewal he'
      all_goals exact ⟨_, he, rfl⟩
  · rintro rfl
    cases does h
    rfl
  · intro e he hcanceled z hz
    have hover : z.Over n e.token := hz.invariant (P := fun z => z.Over n e.token)
      (hy.over he hcanceled) fun _ _ _ ih _ => ih.step
    exact ⟨hover.canceled, LeaseTable.not_mem_snapshot hover.canceled⟩

/-- A run is canceled after the snapshot, while another is claimed and entered. -/
def overlapped : List (HeartAct Doc) :=
  [.net (.server (.insertRun ⟨"r", "w", 1, "q", 3, none, .null, none⟩ 0)), .startWorker 0 0,
    .net (.claimReadyRuns 0 1 (fun _ => "c") 0 0), .net (.insert "c" false), .sleep 0 0,
    .net (.server (.tick defaultHeartbeatInterval)), .wake 0 defaultHeartbeatInterval, .expire 0,
    .snapshot 0, .net (.server (.insertRun ⟨"s", "w", 1, "q", 3, none, .null, none⟩ 0)),
    .net (.claimReadyRuns 0 1 (fun _ => "d") 0 0), .net (.insert "d" false),
    .net (.server (.cancelRun "r" 0)), .net (.renewLeases 0 0), .answer 0]

theorem heartbeat_spares_overlapped : ∃ (y y' : Hearts Doc) (e e' d : LeaseEntry),
    overlapped.foldlM (step (fun _ => defaults) fun _ => [("w", 1)]) (init 0) = some y ∧
    y.step (fun _ => defaults) (fun _ => [("w", 1)]) (.applyRenewal 0) = some y' ∧
    e ∈ (y.net.leases 0).rows ∧ e.canceled = false ∧ d ∈ (y.net.leases 0).rows ∧
    e' ∈ (y'.net.leases 0).rows ∧ e'.token = e.token ∧ e'.canceled = true ∧
    (∃ (b : Renewal) (z : Hearts Doc) (now : Time), (e.runID, e.token) ∈ b.sent ∧
      Takes (step (fun _ => defaults) fun _ => [("w", 1)]) (init 0) overlapped
        (.net (.renewLeases b.id now)) z ∧ ¬ z.net.srv.Live e.runID e.token) ∧
    ∃ d' ∈ (y'.net.leases 0).rows, d'.token = d.token ∧ d'.canceled = false := by
  have hrun : (overlapped.foldlM (step (fun _ => defaults) fun _ => [("w", 1)]) (init 0)).bind
      (fun y => (y.step (fun _ => defaults) (fun _ => [("w", 1)]) (.applyRenewal 0)).bind fun y' =>
        ((y.net.leases 0).get "c").bind fun e => ((y.net.leases 0).get "d").bind fun d =>
        ((y'.net.leases 0).get "c").bind fun e' => ((y'.net.leases 0).get "d").map fun d' =>
          !e.canceled && e'.canceled && !d'.canceled) = some true := by decide +kernel
  obtain ⟨y, hy, hrun⟩ := Option.bind_eq_some_iff.mp hrun
  obtain ⟨y', hy', hrun⟩ := Option.bind_eq_some_iff.mp hrun
  obtain ⟨e, he, hrun⟩ := Option.bind_eq_some_iff.mp hrun
  obtain ⟨d, hd, hrun⟩ := Option.bind_eq_some_iff.mp hrun
  obtain ⟨e', he', hrun⟩ := Option.bind_eq_some_iff.mp hrun
  obtain ⟨d', hd', hrun⟩ := Option.map_eq_some_iff.mp hrun
  simp only [Bool.and_eq_true, Bool.not_eq_true'] at hrun
  obtain ⟨⟨hlive, hcanceled⟩, hspared⟩ := hrun
  obtain ⟨he, htoken⟩ := Table.get_eq_some_iff.mp he
  obtain ⟨hd, hdtoken⟩ := Table.get_eq_some_iff.mp hd
  obtain ⟨he', htoken'⟩ := Table.get_eq_some_iff.mp he'
  obtain ⟨hd', hdtoken'⟩ := Table.get_eq_some_iff.mp hd'
  refine ⟨y, y', e, e', d, hy, hy', he, hlive, hd, he', htoken'.trans htoken.symm, hcanceled, ?_,
    d', hd', hdtoken'.trans hdtoken.symm, hspared⟩
  rcases (heartbeat_spares hy hy' 0).1 e he hlive (by simp) e' he' (htoken'.trans htoken.symm)
    hcanceled with ⟨now, hexpire | hexpire, -⟩ | ⟨b, -, z, now, -, -, hsent, hz, -, hnot⟩
  · cases hexpire
  · cases hexpire.1
  · exact ⟨b, z, now, hsent, hz, hnot⟩

end Hearts

end DurablePg

import DurablePg.Deadlines

/-!
Two workers never both rely on a claim of one run.

Both deadlines are at most the stored one while the row carries their tokens, and it carries one
token at a time. A claim that has ended itself issued the write that did it before.
-/

namespace DurablePg

open DurablePg.Lib

variable {J : Type} [Jsonb J]

namespace Workers

variable {engines : ℕ → Engine} {y y' : Workers J} {a : Act J} {s' : Server J}

/-- What ends a claim was issued before. -/
structure Issued (y : Workers J) : Prop where
  srv : y.srv.Inv
  /-- The last write of a claim in an open transaction. -/
  waits : ∀ id tx token run i ms complete w clock, y.srv.txs.get id = some tx →
    tx.job = .wait token run i ms complete → tx.phase = .wrote w clock → w.ends = true →
    token ∈ y.issued
  ended : ∀ run token, y.srv.Ended run token → token ∈ y.issued

namespace Issued

lemma waits_step (hy : y.Issued) (h : y.srv.step a = some s')
    (hissued : ∀ c ∈ y.srv.endsClaim a, c ∈ y.issued) {id : TxId} {tx : Tx J} {token : Token}
    {run : RunId} {i : ℕ} {ms : ℤ} {complete : Bool} {w : Write J} {clock : Time}
    (htx : s'.txs.get id = some tx) (hjob : tx.job = .wait token run i ms complete)
    (hphase : tx.phase = .wrote w clock) (hw : w.ends = true) : token ∈ y.issued := by
  rcases Server.tx_cases h htx with hget | ⟨job, key, rfl⟩ | ⟨tx₀, phase, hget, ha, rfl, hturns⟩
  · exact hy.waits id tx token run i ms complete w clock hget hjob hphase hw
  · cases hphase
  · cases hturns with
    | wrote ha' hjob' hphase' =>
      have hjob : tx₀.job = .wait token run i ms complete := hjob
      cases hjob.symm.trans hjob'
      cases hphase
      subst ha'
      cases ha
      exact hissued token (by simp [Server.endsClaim, hget, hjob', hphase', hw])
    | _ => cases hphase

lemma ended_step (hy : y.Issued) (h : y.srv.step a = some s')
    (hissued : ∀ c ∈ y.srv.endsClaim a, c ∈ y.issued) {run : RunId} {token : Token}
    (hended : s'.Ended run token) : token ∈ y.issued := by
  obtain ⟨ch, hmem, hends⟩ := hended
  obtain ⟨o, ⟨hlog, -⟩, hmakes⟩ := Server.step_moved hy.srv.tx h run
  rw [hlog, List.mem_append] at hmem
  rcases hmem with hmem | hmem
  · exact hy.ended run token ⟨ch, hmem, hends⟩
  · have hmk := hmakes ch (Option.mem_toList.mp hmem)
    cases ch with
    | wrote token' w now clock =>
      obtain ⟨htoken, hw⟩ := Bool.and_eq_true_iff.mp hends
      obtain rfl := of_decide_eq_true htoken
      cases hmk with
      | wrote => exact hissued token' (by simp [Server.endsClaim, hw])
      | waited tx _ _ i ms complete _ _ htx hjob hphase =>
        exact hy.waits tx.id tx token' run i ms complete w clock htx hjob hphase hw
    | _ => cases hends

lemma step (hy : y.Issued) {a : WorkerAct J} (h : y.step engines a = some y') : y'.Issued := by
  rcases srv_step h with ⟨hsrv, hsub⟩ | ⟨b, hb, -, hissued, hsame⟩
  · refine ⟨hsrv ▸ hy.srv, fun id tx token run i ms complete w clock htx hjob hphase hw => ?_,
      fun run token hended => ?_⟩
    · rw [hsrv] at htx
      exact hsub _ (hy.waits id tx token run i ms complete w clock htx hjob hphase hw)
    · rw [hsrv] at hended
      exact hsub _ (hy.ended run token hended)
  · refine ⟨Server.inv_step hy.srv hb,
      fun id tx token run i ms complete w clock htx hjob hphase hw => ?_,
      fun run token hended => ?_⟩
    · rw [hsame]; exact hy.waits_step hb hissued htx hjob hphase hw
    · rw [hsame]; exact hy.ended_step hb hissued hended

lemma of_reaches {clock : Time} (hy : Reaches (Workers.step engines) (init clock) y) :
    y.Issued := by
  refine hy.invariant (P := Issued) ⟨Server.inv_init clock, ?_, ?_⟩ fun _ _ _ ih _ => ih.step
  · intro id tx _ _ _ _ _ _ _ htx; cases htx
  · rintro run token ⟨ch, hmem, -⟩; cases hmem

end Issued

/-- **Mutual exclusion**: when every engine's leases last a whole number of milliseconds, two
claims of one run are never both confirmed unless one of them has issued its last write. -/
theorem mutual_exclusion {engines : ℕ → Engine} (hwhole : ∀ n, 1000000 ∣ (engines n).leaseTTL)
    {clock : Time} {y : Workers J} (hy : Reaches (step engines) (init clock) y) {run : RunId}
    {m n : ℕ} {c d : Token} (hne : c ≠ d) (hc : y.Confirmed m run c) (hd : y.Confirmed n run d) :
    c ∈ y.issued ∨ d ∈ y.issued := by
  have hinv := Inv.of_reaches hy
  have hissued := Issued.of_reaches hy
  obtain ⟨e, he, rfl, rfl, -, hlt⟩ := hc
  obtain ⟨e', he', rfl, hrun, -, hlt'⟩ := hd
  have hcov := (hinv.entries m e he).covers (hwhole m)
  have hcov' := (hinv.entries n e' he').covers (hwhole n)
  rw [hrun] at hcov'
  -- a row that carries a claim is leased
  have hleased : ∀ {r : Row J} {token u}, y.srv.db.run e.runID = some r →
      r.lease = some (token, u) → r.state = .leased := fun hr hlease =>
    ((hinv.srv.life _).row_ok hr).token.mp (by simp [(Row.lease_eq_some.mp hlease).1])
  cases hcov with
  | ended h => exact Or.inl (hissued.ended _ _ h)
  | past h => exact absurd hlt (not_lt.mpr h)
  | leased r u hr hlease hle =>
    cases hcov' with
    | ended h => exact Or.inr (hissued.ended _ _ h)
    | past h => exact absurd hlt' (not_lt.mpr h)
    | leased r' u' hr' hlease' =>
      cases hr.symm.trans hr'
      have htoken := congrArg Prod.fst (Option.some.inj (hlease.symm.trans hlease'))
      exact absurd htoken hne
    | cancelled r' hr' hstate =>
      cases hr.symm.trans hr'
      rw [hleased hr hlease] at hstate; cases hstate
  | cancelled r hr hstate hlast =>
    cases hcov' with
    | ended h => exact Or.inr (hissued.ended _ _ h)
    | past h => exact absurd hlt' (not_lt.mpr h)
    | leased r' u' hr' hlease' =>
      cases hr.symm.trans hr'
      rw [hleased hr hlease'] at hstate; cases hstate
    | cancelled r' hr' hstate' hlast' =>
      exact absurd (Option.some.inj (hlast.symm.trans hlast')) hne

/-- A claim renews its lease and then gives the run up for a retry; the run is claimed again
before the first worker has released its entry. -/
def retried : List (WorkerAct Doc) :=
  [.server (.insertRun ⟨"r", "w", 1, "q", 3, none, .null, none⟩ 0),
    .claimReadyRuns 0 1 (fun _ => "c") 0 0, .insert "c" false, .server (.tick 5),
    .heartbeat 0 0 5, .renewLeases 0 5, .applyRenewal 0, .issue "c",
    .server (.write "r" "c" (.failOrRetry 1 0 []) 5), .claimReadyRuns 1 1 (fun _ => "d") 5 5,
    .insert "d" false]

theorem mutual_exclusion_retried : ∃ y : Workers Doc,
    Reaches (step fun _ => System.worker) (init 0) y ∧
    y.Confirmed 0 "r" "c" ∧ y.Confirmed 1 "r" "d" ∧ ("c" ∈ y.issued ∨ "d" ∈ y.issued) := by
  have hrun : (retried.foldlM (step fun _ => System.worker) (init 0)).map (fun y =>
      ((y.leases 0).rows.any fun e => e.token = "c" && e.runID = "r" && !e.canceled &&
        y.srv.clock < e.deadline) &&
      (y.leases 1).rows.any fun e => e.token = "d" && e.runID = "r" && !e.canceled &&
        y.srv.clock < e.deadline) = some true := by decide +kernel
  obtain ⟨y, hy, hboth⟩ := Option.map_eq_some_iff.mp hrun
  have hreach := Reaches.of_run retried hy
  simp only [Bool.and_eq_true, List.any_eq_true, decide_eq_true_eq, Bool.not_eq_true',
    and_assoc] at hboth
  obtain ⟨⟨e, he, hc⟩, e', he', hd⟩ := hboth
  exact ⟨y, hreach, ⟨e, he, hc⟩, ⟨e', he', hd⟩,
    mutual_exclusion (fun _ => by decide) hreach (by decide) ⟨e, he, hc⟩ ⟨e', he', hd⟩⟩

end Workers

end DurablePg

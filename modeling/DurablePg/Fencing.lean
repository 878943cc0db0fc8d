import DurablePg.History
import DurablePg.Lib.Lease
import DurablePg.Replay

/-!
Fencing: what a claim token is good for.

The changes of a run are read as a log of its lease, and the fence of every write makes that
log a fenced one. A write that finds no lease changes nothing; it comes from a claim whose lease
is gone for good, so that no later statement of that claim has an effect.
-/

namespace DurablePg

open DurablePg.Lib

variable {J Ω : Type}

/-! ### The lease of a run -/

def Change.leaseEv? : Change J → Option (LeaseEv Token Time)
  | .claimed token leaseMs _ clock => some (.claim token (clock + millis leaseMs))
  | .renewed leaseMs _ clock => some (.renew (clock + millis leaseMs))
  | .wrote token w _ _ => some (.write token w.ends)
  | .recovered .. | .cancelled _ => some .release
  | _ => none

/-- What the changes of a run mean for its lease. -/
def leaseLog (l : List (Change J)) : List (LeaseEv Token Time) := l.filterMap Change.leaseEv?

def Row.lease (r : Row J) : Option (Token × Time) :=
  r.leaseToken.bind fun token => r.leaseUntil.map fun t => (token, t)

lemma claims_leaseLog (l : List (Change J)) :
    claims (leaseLog l) = l.filterMap Change.claimToken? := by
  unfold claims leaseLog
  rw [List.filterMap_filterMap]
  congr 1
  funext ch
  cases ch <;> rfl

lemma leaseLog_snoc (l : List (Change J)) (ch : Change J) :
    leaseLog (l ++ [ch]) = leaseLog l ++ ch.leaseEv?.toList := by
  rcases h : ch.leaseEv? with _ | e <;> simp [leaseLog, h]

lemma Row.lease_eq_some {r : Row J} {token : Token} {t : Time} :
    r.lease = some (token, t) ↔ r.leaseToken = some token ∧ r.leaseUntil = some t := by
  unfold Row.lease
  rcases r.leaseToken with _ | c <;> rcases r.leaseUntil with _ | t' <;> simp

lemma Row.Ok.lease_none {r : Row J} (h : r.Ok) (hs : r.state ≠ .leased) : r.lease = none := by
  simp [Row.lease, (h.not_leased hs).1]

lemma Row.Ok.lease_some {r : Row J} (h : r.Ok) (hs : r.state = .leased) :
    ∃ token t, r.lease = some (token, t) := by
  obtain ⟨token, htok⟩ := Option.isSome_iff_exists.mp (h.token.mpr hs)
  obtain ⟨t, ht⟩ := Option.isSome_iff_exists.mp (h.lease.mpr hs)
  exact ⟨token, t, Row.lease_eq_some.mpr ⟨htok, ht⟩⟩

lemma lease_of_fence {id : RunId} {token : Token} {clock : Time} {r : Row J}
    (h : fence id token clock r = true) : ∃ t, r.lease = some (token, t) ∧ clock < t := by
  obtain ⟨-, -, htok, t, ht, hlt⟩ := fence_iff.mp h
  exact ⟨t, Row.lease_eq_some.mpr ⟨htok, ht⟩, hlt⟩

variable [Jsonb J]

lemma Change.next_lease {r : Row J} (h : r.Ok) {ch : Change J} {cps : ℕ → Option J} {u : Update J}
    (hu : ch.update cps r.id = some u) (hg : u.guard r = true) :
    (u.set r).lease = (ch.leaseEv?.map (LeaseEv.next r.lease)).getD r.lease ∧
      ∀ l, Fenced l → lease l = r.lease → Fenced (l ++ ch.leaseEv?.toList) := by
  have hfound := Change.finds_of_guard hu hg
  cases ch with
  | inserted => cases hu
  | touched | delivered | timedOut =>
    cases hu
    exact ⟨rfl, fun l hl _ => by simpa [Change.leaseEv?] using hl⟩
  | claimed token leaseMs now clock =>
    cases hu
    have hs : r.state = .ready := of_decide_eq_true hfound
    exact ⟨rfl, fun l hl heq => .claim hl (heq.trans (h.lease_none (by simp [hs])))⟩
  | renewed leaseMs now clock =>
    cases hu
    have hs : r.state = .leased := of_decide_eq_true hfound
    obtain ⟨token, t, hlease⟩ := h.lease_some hs
    refine ⟨?_, fun l hl _ => .renew hl⟩
    simp only [Change.leaseEv?, Option.map_some, Option.getD_some, LeaseEv.next, hlease]
    exact Row.lease_eq_some.mpr ⟨(Row.lease_eq_some.mp hlease).1, rfl⟩
  | wrote token w now clock =>
    cases hu
    obtain ⟨t, hlease, -⟩ := lease_of_fence (Write.fence_of_guard hg)
    refine ⟨?_, fun l hl heq => .write hl (heq.trans hlease)⟩
    cases w with
    | commitStep i x complete => cases complete <;> rfl
    | completeRun | parkSleep | parkWait | failOrRetry => rfl
  | recovered | cancelled => cases hu; exact ⟨rfl, fun l hl _ => .release hl⟩

/-- **Leases**: the changes of a run make a fenced log, and the lease columns hold what the log
says. -/
theorem Life.fenced {l : List (Change J)} {v : View J} (h : Life l v) :
    Fenced (leaseLog l) ∧ lease (leaseLog l) = v.row.bind Row.lease := by
  induction h with
  | nil => exact ⟨.nil, rfl⟩
  | @snoc l v v' ch hl hm ih =>
    obtain ⟨hf, hlease⟩ := ih
    rw [leaseLog_snoc]
    cases hm with
    | inserted n now hrow =>
      rw [hrow] at hlease
      exact ⟨by simpa [Change.leaseEv?] using hf,
        by simpa [Change.leaseEv?, Row.lease, NewRun.row] using hlease⟩
    | updated ch r u hrow hu hg =>
      rw [hrow, Option.bind_some] at hlease
      obtain ⟨hnext, hfenced⟩ := Change.next_lease (hl.row_ok hrow) hu hg
      refine ⟨hfenced _ hf hlease, ?_⟩
      rw [Option.bind_some, hnext]
      rcases ch.leaseEv? with _ | e <;> simp [hlease]

lemma Life.split {l₁ l₂ : List (Change J)} {ch : Change J} {v : View J}
    (h : Life (l₁ ++ ch :: l₂) v) : ∃ v₁ v₂, Life l₁ v₁ ∧ v₁.Moves ch v₂ := by
  induction l₂ using List.reverseRecOn generalizing v with
  | nil =>
    obtain ⟨v₁, h₁, hm⟩ := h.snoc_inv
    exact ⟨v₁, v, h₁, hm⟩
  | append_singleton l₂ ch' ih =>
    rw [← List.cons_append, ← List.append_assoc] at h
    obtain ⟨v₁, h₁, -⟩ := h.snoc_inv
    exact ih h₁

lemma Life.wrote_lease {l₁ l₂ : List (Change J)} {token : Token} {w : Write J} {now clock : Time}
    {v : View J} (h : Life (l₁ ++ .wrote token w now clock :: l₂) v) :
    ∃ t, lease (leaseLog l₁) = some (token, t) ∧ clock < t := by
  obtain ⟨v₁, v₂, h₁, hm⟩ := h.split
  cases hm with
  | updated _ r u hrow hu hg =>
    cases hu
    obtain ⟨t, hlease, hlt⟩ := lease_of_fence (Write.fence_of_guard hg)
    exact ⟨t, by rw [h₁.fenced.2, hrow]; exact hlease, hlt⟩

/-! ### Live claims -/

namespace Server

/-- The claim holds an unexpired lease. -/
def Live (s : Server J) (run : RunId) (token : Token) : Prop :=
  ∃ r t, s.db.run run = some r ∧ r.lease = some (token, t) ∧ s.clock < t

variable {s s' : Server J} {a : Act J} {run : RunId} {token : Token}

omit [Jsonb J] in
lemma live_of_owns {w : Write J} {now : Time} (h : s.owns run token w now = true) :
    s.Live run token := by
  obtain ⟨r, hr, hg⟩ := Option.any_eq_true _ _ |>.mp h
  obtain ⟨t, hlease, hlt⟩ := lease_of_fence (Write.fence_of_guard hg)
  exact ⟨r, t, hr, hlease, hlt⟩

lemma owns_of_live (hs : s.Inv) (h : s.Live run token) {w : Write J} (now : Time)
    (hw : ∀ i x complete, w = .commitStep i x complete → ∀ r, s.db.run run = some r →
      r.leaseToken = some token → r.stepIndex ≤ i) : s.owns run token w now = true := by
  obtain ⟨r, t, hr, hlease, hlt⟩ := h
  obtain ⟨htok, huntil⟩ := Row.lease_eq_some.mp hlease
  have hleased : r.state = .leased := ((hs.life run).row_ok hr).token.mp (by simp [htok])
  have hfence : fence run token s.clock r = true :=
    fence_iff.mpr ⟨Db.run_id hr, hleased, htok, t, huntil, hlt⟩
  refine Option.any_eq_true _ _ |>.mpr ⟨r, hr, ?_⟩
  cases w with
  | commitStep i x complete =>
    exact Bool.and_eq_true_iff.mpr ⟨hfence, by simpa using hw i x complete rfl r hr htok⟩
  | completeRun | parkSleep | parkWait | failOrRetry => exact hfence

/-- What a step from `s` to `s'` does to the lease of a run, whose row goes from `r` to `r'`. -/
inductive LeaseStep (s : Server J) (a : Act J) (s' : Server J) (run : RunId) (r r' : Row J) : Prop
  | kept (h : r'.lease = r.lease)
  | claimed (token : Token) (t : Time) (hready : r.state = .ready) (hfresh : token ∉ s.tokens)
    (h : r'.lease = some (token, t))
  | renewed (claims : List (RunId × Token)) (ms : ℤ) (now : Time) (token : Token) (t : Time)
    (ha : a = .renewLeases claims ms now) (hmem : (run, token) ∈ claims)
    (hold : r.lease = some (token, t)) (hlt : s.clock < t)
    (h : r'.lease = some (token, s.clock + millis ms))
  | ended (token : Token) (t : Time) (w : Write J) (now clock : Time) (hw : w.ends = true)
    (hlog : s'.log run = s.log run ++ [.wrote token w now clock])
    (hold : r.lease = some (token, t)) (h : r'.lease = none)
  | recovered (hpast : ∀ token t, r.lease = some (token, t) → t < s.clock) (h : r'.lease = none)
  | cancelled (now : Time) (hlog : s'.log run = s.log run ++ [.cancelled now])
    (hstate : r'.state = .cancelled) (h : r'.lease = none)

lemma lease_step (hs : s.Inv) (h : s.step a = some s') {r' : Row J}
    (hr' : s'.db.run run = some r') :
    (s.db.run run = none ∧ r'.lease = none) ∨
      ∃ r, s.db.run run = some r ∧ s.LeaseStep a s' run r r' := by
  obtain ⟨o, ⟨hlog, hm⟩, hmakes⟩ := step_moved hs.tx h run
  rcases o with _ | ch
  · exact Or.inr ⟨r', (congrArg View.row (show s'.view run = s.view run from hm)).symm.trans hr',
      .kept rfl⟩
  have hm : (s.view run).Moves ch (s'.view run) := hm
  have hmk := hmakes ch rfl
  generalize hv' : s'.view run = v' at hm
  have hr' : v'.row = some r' := hv' ▸ hr'
  cases hm with
  | inserted n now hnone => cases hr'; exact Or.inl ⟨hnone, rfl⟩
  | updated ch r u hrow hu hg =>
    cases hr'
    have hrow : s.db.run run = some r := hrow
    refine Or.inr ⟨r, hrow, ?_⟩
    have hnext := (Change.next_lease ((hs.life run).row_ok hrow) hu hg).1
    cases ch with
    | inserted => cases hu
    | touched | delivered | timedOut => exact .kept hnext
    | claimed =>
      cases hmk with
      | claimed _ _ _ _ _ _ hfresh =>
        have hready := of_decide_eq_true (Change.finds_of_guard hu hg)
        cases hu
        exact .claimed _ _ hready hfresh rfl
    | renewed ms now clock =>
      cases hmk with
      | renewed claims _ _ _ r₁ token hr₁ htok hmem =>
        cases hrow.symm.trans hr₁
        cases hu
        obtain ⟨t, huntil, hlt⟩ := Option.any_eq_true _ _ |>.mp (Bool.and_eq_true_iff.mp hg).2
        exact .renewed claims ms now token t rfl hmem (Row.lease_eq_some.mpr ⟨htok, huntil⟩)
          (by simpa using hlt) (Row.lease_eq_some.mpr ⟨htok, rfl⟩)
    | wrote token w now clock =>
      cases hw : w.ends with
      | true =>
        cases hu
        obtain ⟨t, hold, -⟩ := lease_of_fence (Write.fence_of_guard hg)
        exact .ended token t w now clock hw hlog hold
          (by simpa [Change.leaseEv?, LeaseEv.next, hw] using hnext)
      | false => exact .kept (by simpa [Change.leaseEv?, LeaseEv.next, hw] using hnext)
    | recovered now clock =>
      cases hmk with
      | recovered _ _ hnow =>
        cases hu
        refine .recovered (fun token t hlease => ?_) hnext
        simp only [expiredLease, (Row.lease_eq_some.mp hlease).2, Option.any_some,
          Bool.and_eq_true, decide_eq_true_eq] at hg
        exact hg.2.trans_le hnow
    | cancelled now => cases hu; exact .cancelled now hlog rfl hnext

/-- **Leases are lost for good**: a claim that is no longer live does not come back. -/
lemma live_back (hs : s.Inv) (h : s.step a = some s') (ht : token ∈ s.tokens)
    (hlive : s'.Live run token) : s.Live run token := by
  obtain ⟨r', t', hr', hlease', hlt'⟩ := hlive
  have hlt : s.clock < t' := (clock_le h).trans_lt hlt'
  rcases lease_step hs h hr' with ⟨-, hnone⟩ | ⟨r, hr, hstep⟩
  · rw [hnone] at hlease'; cases hlease'
  · cases hstep with
    | kept heq => exact ⟨r, t', hr, heq.symm.trans hlease', hlt⟩
    | claimed token' t hready hfresh heq =>
      -- a claim generates a token of its own
      rw [heq] at hlease'; cases hlease'
      exact absurd ht hfresh
    | renewed claims ms now token' t ha hmem hold hlt₀ heq =>
      rw [heq] at hlease'; cases hlease'
      exact ⟨r, t, hr, hold, hlt₀⟩
    | ended _ _ _ _ _ _ _ _ heq | recovered _ heq | cancelled _ _ _ heq =>
      rw [heq] at hlease'; cases hlease'

end Server

/-! ### Refused claims -/

namespace System

variable {reg : Registry Ω} {y y' : System J Ω} {run : RunId} {token : Token}

lemma Inv.not_live (h : y.Inv reg) {m : Move J Ω} (hstep : y.step reg m = some y')
    {evs : List (Ev J)} (hhist : y'.srv.hist = y.srv.hist ++ evs) {w : Write J} {clock : Time}
    (hmem : Ev.refused run token w clock ∈ evs) :
    token ∈ y.srv.tokens ∧ ¬ y.srv.Live run token := by
  -- the refused write is one that the claim of the token has asked for
  suffices hclaim : ∃ p, y.procs token = some p ∧ p.run.id = run ∧
      (∀ i x complete, w = .commitStep i x complete → i = p.index ∧
        p.Driving (y.srv.txs.get (.wait token))) ∧ ∃ now, y.srv.owns run token w now = false by
    obtain ⟨p, hp, rfl, hw, now, hnot⟩ := hclaim
    refine ⟨h.mem_tokens_of_proc hp, fun hlive => ?_⟩
    have howns := Server.owns_of_live h.srv.inv hlive now fun i x complete hi r hr htok => by
      obtain ⟨rfl, hd⟩ := hw i x complete hi
      exact ((h.proc token p hp).holds r hr ((h.token token p hp).1.symm ▸ htok)).cursor hd
    rw [hnot] at howns; cases howns
  have hfinds : ∀ {a : Act J} {s : Server J}, y.srv.step a = some s → s = y'.srv →
      y.srv.Finds a (.refused run token w clock) := by
    rintro a s hs rfl
    obtain ⟨evs', hevs', hf, -⟩ := Server.finds h.srv.holding hs
    rw [hhist] at hevs'
    obtain rfl := List.append_cancel_left hevs'
    exact hf _ hmem
  have hsent : ∀ {p : Proc J Ω}, y.procs token = some p → ∀ w, p.sent = some w →
      ∀ i x complete, w = .commitStep i x complete → i = p.index ∧
        p.Driving (y.srv.txs.get (.wait token)) := by
    rintro p hp _ hw i x complete rfl
    exact ⟨((h.proc token p hp).asks.sent _ hw).1, Or.inr (Or.inr (Or.inl (by simp [hw])))⟩
  cases does hstep with
  | outside ha hs =>
    obtain ⟨now, -, rfl | ⟨tx, -, -, -, -, -, rfl, -⟩⟩ := hfinds hs rfl <;> cases ha
  | insert _ hs | claim hs | begin _ _ _ hs | lock _ hs | look _ _ hs | commit _ hs =>
    obtain ⟨now, -, he | ⟨tx, -, -, -, -, -, he, -⟩⟩ := hfinds hs rfl <;> cases he
  | turn =>
    have hnil : evs = [] := by
      have := congrArg List.length hhist
      rw [List.length_append] at this
      exact List.eq_nil_of_length_eq_zero (by simpa [setProc] using this)
    rw [hnil] at hmem; cases hmem
  | exec hp hw hs =>
    obtain ⟨now, hnot, he | ⟨tx, -, -, -, -, -, he, -⟩⟩ := hfinds hs rfl
    · cases he
      exact ⟨_, hp, rfl, hsent hp _ hw, _, hnot⟩
    · cases he
  | execFailure hp hw hs =>
    obtain ⟨now, hnot, he | ⟨tx, -, -, -, -, -, he, -⟩⟩ := hfinds hs rfl
    · cases he
      refine ⟨_, hp, rfl, fun i x complete hi => ?_, _, hnot⟩
      obtain ⟨ms, msg, rfl⟩ := (h.proc token _ hp).asks.failure w hw
      cases hi
    · cases he
  | statement hp _ hs =>
    obtain ⟨now, hnot, he | ⟨tx, index, timeoutMs, complete, found, htx, he, hjob, -, hw⟩⟩ :=
      hfinds hs rfl
    · cases he
    · cases he
      obtain ⟨-, -, -, -, timeout, -, hjob', -⟩ := (h.proc token _ hp).asks.tx tx htx
      rw [hjob] at hjob'
      cases hjob'
      refine ⟨_, hp, rfl, fun i x complete' hi => ⟨?_, ?_⟩, now, hnot⟩
      · rw [hi] at hw
        rcases found with _ | payload <;> cases hw; rfl
      · rw [htx]; exact Or.inr (Or.inr (Or.inr rfl))

lemma Inv.finds (h : y.Inv reg) {m : Move J Ω} (hstep : y.step reg m = some y') :
    ∃ evs, y'.srv.hist = y.srv.hist ++ evs ∧
      (∀ run token w clock, Ev.held run token w clock ∈ evs → y.srv.Live run token) ∧
      (∀ run token w now clock, Ev.change run (.wrote token w now clock) ∈ evs →
        y.srv.Live run token ∨ Ev.held run token w clock ∈ y.srv.hist) ∧
      (∀ run token w clock, Ev.refused run token w clock ∈ evs →
        evs = [Ev.refused run token w clock]) ∧
      ∀ run token, token ∈ y.srv.tokens → y'.srv.Live run token → y.srv.Live run token := by
  rcases step_server hstep with heq | ⟨a, hs⟩
  · refine ⟨[], by rw [heq, List.append_nil], by simp, by simp, by simp, fun _ _ _ hl => ?_⟩
    rw [heq] at hl; exact hl
  · obtain ⟨evs, hevs, hf, href⟩ := Server.finds h.srv.holding hs
    have howns : ∀ {run : RunId} {token : Token} {w : Write J},
        (∃ now, y.srv.owns run token w now = true) → y.srv.Live run token :=
      fun ⟨_, howns⟩ => Server.live_of_owns howns
    exact ⟨evs, hevs, fun _ _ _ _ hmem => howns (hf _ hmem),
      fun _ _ _ _ _ hmem => (hf _ hmem).imp_left howns,
      fun _ _ _ _ hmem => (href _ _ _ _ hmem).1,
      fun _ _ ht hl => Server.live_back h.srv.inv hs ht hl⟩

/-- After a refusal no statement of the claim has an effect; what it had written before, in a
transaction still open, can commit. -/
lemma Reachable.after_refusal (hy : y.Reachable reg) {h₁ h₂ : List (Ev J)} {w : Write J}
    {t : Time} (hhist : y.srv.hist = h₁ ++ .refused run token w t :: h₂) :
    (∀ w' t', Ev.held run token w' t' ∉ h₂) ∧ ∀ w' now clock,
      Ev.change run (.wrote token w' now clock) ∈ h₂ → Ev.held run token w' clock ∈ h₁ := by
  obtain ⟨clock₀, h⟩ := hy
  -- a claim with a refusal is known to the server and not live
  refine (h.invariant (P := fun z => z.Inv reg ∧ ∀ h₁ h₂ w t,
    z.srv.hist = h₁ ++ .refused run token w t :: h₂ →
    (token ∈ z.srv.tokens ∧ ¬ z.srv.Live run token) ∧ (∀ w' t', Ev.held run token w' t' ∉ h₂) ∧
    ∀ w' now clock, Ev.change run (.wrote token w' now clock) ∈ h₂ →
      Ev.held run token w' clock ∈ h₁)
    ⟨.init clock₀, fun h₁ h₂ w t he => ?_⟩ ?_).2 h₁ h₂ w t hhist |>.2
  · simp [System.init, Server.init] at he
  rintro z m z' ⟨hz, ih⟩ - hstep
  refine ⟨hz.step hstep, fun h₁ h₂ w t he => ?_⟩
  obtain ⟨evs, hevs, hheld, hwrote, href, hback⟩ := hz.finds hstep
  have htok : token ∈ z.srv.tokens → token ∈ z'.srv.tokens :=
    tokens_grow (.single ⟨m, trivial, hstep⟩)
  rw [hevs] at he
  rcases append_eq_append_cons he with ⟨l, rfl, hl⟩ | ⟨l, hl, rfl⟩
  · -- the step is the refusal
    have hmem : Ev.refused run token w t ∈ evs := by rw [hl]; simp
    have heq := href _ _ _ _ hmem
    obtain ⟨hknown, hnot⟩ := hz.not_live hstep hevs hmem
    rw [heq] at hl
    obtain ⟨rfl, rfl⟩ : l = [] ∧ h₂ = [] := by
      rcases l with _ | ⟨x, l⟩
      · simpa using hl.symm
      · simp at hl
    exact ⟨⟨htok hknown, fun hl => hnot (hback _ _ hknown hl)⟩, by simp, by simp⟩
  · -- the refusal came before
    obtain ⟨⟨hknown, hnot⟩, hno, hin⟩ := ih h₁ l w t hl
    refine ⟨⟨htok hknown, fun hlive => hnot (hback _ _ hknown hlive)⟩, fun w' t' hmem => ?_,
      fun w' now clock hmem => ?_⟩
    · rcases List.mem_append.mp hmem with hmem | hmem
      · exact hno w' t' hmem
      · exact hnot (hheld _ _ _ _ hmem)
    · rcases List.mem_append.mp hmem with hmem | hmem
      · exact hin w' now clock hmem
      · rcases hwrote _ _ _ _ _ hmem with hlive | hmem
        · exact absurd hlive hnot
        · rw [hl] at hmem
          rcases List.mem_append.mp hmem with hmem | hmem
          · exact hmem
          · rcases List.mem_cons.mp hmem with he | hmem
            · cases he
            · exact absurd hmem (hno _ _)

/-- **Fencing**: a write under a claim token takes effect only while the claim is the last one of
its run, has not ended and has an unexpired lease; otherwise it changes nothing, and no later
statement of the claim has an effect. So the writes of a run come in blocks, one for each claim
and in their order, and a claim ends at most once. -/
theorem fencing (hy : y.Reachable reg) (run : RunId) :
    (∀ l₁ token w now clock l₂, y.srv.log run = l₁ ++ .wrote token w now clock :: l₂ →
      (∃ t, lease (leaseLog l₁) = some (token, t) ∧ clock < t) ∧
      (claims (leaseLog l₁)).getLast? = some token ∧ token ∉ ended (leaseLog l₁)) ∧
    (∀ token w now s, y.srv.step (.write run token w now) = some s →
      s.db = y.srv.db ∨ s.log run = y.srv.log run ++ [.wrote token w now y.srv.clock]) ∧
    (∀ token s, y.srv.step (.statement (.wait token)) = some s → s.db = y.srv.db ∧
      ∃ run' w, s.hist = y.srv.hist ++ [.held run' token w y.srv.clock] ∨
        s.hist = y.srv.hist ++ [.refused run' token w y.srv.clock]) ∧
    (∀ token s, y.srv.step (.commit (.wait token)) = some s → ∃ run' w now clock,
      Ev.held run' token w clock ∈ y.srv.hist ∧
      s.hist = y.srv.hist ++ [.change run' (.wrote token w now clock)]) ∧
    (∀ h₁ token w t h₂, y.srv.hist = h₁ ++ .refused run token w t :: h₂ →
      (∀ w' t', Ev.held run token w' t' ∉ h₂) ∧ ∀ w' now clock,
        Ev.change run (.wrote token w' now clock) ∈ h₂ → Ev.held run token w' clock ∈ h₁) ∧
    writers (leaseLog (y.srv.log run)) = (claims (leaseLog (y.srv.log run))).flatMap
      (fun token => List.replicate ((writers (leaseLog (y.srv.log run))).count token) token) ∧
    (claims (leaseLog (y.srv.log run))).Nodup ∧
    claims (leaseLog (y.srv.log run)) = ended (leaseLog (y.srv.log run)) ++
      ((lease (leaseLog (y.srv.log run))).map Prod.fst).toList := by
  have hinv := hy.inv
  have hlife := hinv.srv.inv.life run
  have hnd : (claims (leaseLog (y.srv.log run))).Nodup := by
    rw [claims_leaseLog]; exact hinv.srv.inv.once run
  refine ⟨fun l₁ token w now clock l₂ hl => ?_, fun token w now s hs => ?_, fun token s hs => ?_,
    fun token s hs => ?_, fun h₁ token w t h₂ hhist => hy.after_refusal hhist,
    hlife.fenced.1.blocks hnd, hnd, hlife.fenced.1.claims_eq⟩
  · rw [hl] at hlife hnd
    obtain ⟨t, hlease, hlt⟩ := hlife.wrote_lease
    obtain ⟨v₁, -, h₁, -⟩ := hlife.split
    rw [claims_leaseLog, List.filterMap_append, ← claims_leaseLog l₁] at hnd
    exact ⟨⟨t, hlease, hlt⟩, h₁.fenced.1.holder (List.nodup_append.mp hnd).1 hlease⟩
  · exact Server.write_logged hs
  · exact Server.statement_logged hs
  · exact Server.commit_logged hinv.srv.inv.tx hinv.srv.holding hs

/-- One step. -/
def oneStep : Registry Unit := .single "w" 1
  [.step "a" (some fun _ _ => .returns (.ok (utf8 "true"))) []]

/-- A commit arrives after its lease has been recovered and another worker has claimed the run. -/
def lateCommit : List (Move Doc Unit) :=
  [.enqueue worker "w" (utf8 "null") [] "r" 0,
    .claim worker 1 (fun _ => "c") 0 false, .turn "c" (.invoke () []),
    .outside (.tick 60000000000), .outside (.recoverLeases 60000000000),
    .outside (.tick 90000000000), .claim worker 1 (fun _ => "d") 90000000000 false,
    .exec "c" 90000000000 false, .turn "d" (.invoke () []), .exec "d" 90000000000 false]

theorem fencing_lateCommit : ∃ y, lateCommit.foldlM (step oneStep) (init 0) = some y ∧
    writers (leaseLog (y.srv.log "r")) = ["d"] ∧
    claims (leaseLog (y.srv.log "r")) = ["c", "d"] ∧
    (∃ h₁ h₂ w t, y.srv.hist = h₁ ++ .refused "r" "c" w t :: h₂ ∧
      ∀ w' t', Ev.held "r" "c" w' t' ∉ h₂) ∧
    ∀ l₁ token w now clock l₂, y.srv.log "r" = l₁ ++ .wrote token w now clock :: l₂ →
      (claims (leaseLog l₁)).getLast? = some token := by
  have hrun : (lateCommit.foldlM (step oneStep) (init 0)).map (fun y =>
      (writers (leaseLog (y.srv.log "r")), claims (leaseLog (y.srv.log "r")),
        y.srv.hist.any fun ev => match ev with
          | .refused run token _ _ => run = "r" && token = "c"
          | _ => false)) = some (["d"], ["c", "d"], true) := by decide +kernel
  obtain ⟨y, hy, hlog⟩ := Option.map_eq_some_iff.mp hrun
  simp only [Prod.mk.injEq] at hlog
  obtain ⟨hw, hc, hany⟩ := hlog
  obtain ⟨hwrote, -, -, -, hrefused, -⟩ := fencing (.of_run 0 _ hy) "r"
  obtain ⟨ev, hev, hev'⟩ := List.any_eq_true.mp hany
  split at hev'
  · rename_i run token w t
    simp only [Bool.and_eq_true, decide_eq_true_eq] at hev'
    obtain ⟨rfl, rfl⟩ := hev'
    obtain ⟨h₁, h₂, hhist⟩ := List.append_of_mem hev
    exact ⟨y, hy, hw, hc, ⟨h₁, h₂, w, t, hhist, (hrefused h₁ _ w t h₂ hhist).1⟩,
      fun l₁ token w now clock l₂ hl => (hwrote l₁ token w now clock l₂ hl).2.1⟩
  · cases hev'

end System

end DurablePg

import DurablePg.ClaimBound
import DurablePg.Contexts

/-!
How often step functions and event-key resolvers are called.

A claim calls its operations in order, and goes on from one to the next only when its own
statement has stored the result. Of the calls of a run, then, all but the last of each claim have
left a result, and a result is stored once: there are no more calls than claims and operations
together. A claim never calls an operation whose result was there when the run was claimed.
-/

namespace DurablePg

open DurablePg.Lib

variable {J Ω : Type}

/-! ### Results in the life of a run -/

/-- The change stores the result of the operation at `i`, for the claim with the token. -/
def Change.commits (token : Token) (i : ℕ) : Change J → Bool
  | .wrote t (.commitStep j _ _) _ _ => t = token && j = i
  | _ => false

/-- The claim with the token has stored the result of the operation at `i`. -/
def Committed (l : List (Change J)) (token : Token) (i : ℕ) : Prop :=
  ∃ ch ∈ l, ch.commits token i = true

/-- The run was claimed under the token when it was as in `v`. -/
def ClaimedAt [Jsonb J] (l : List (Change J)) (token : Token) (v : View J) : Prop :=
  ∃ l₁ l₂ leaseMs now clock, l = l₁ ++ .claimed token leaseMs now clock :: l₂ ∧ Life l₁ v

lemma ClaimedAt.mono [Jsonb J] {l l' : List (Change J)} {token : Token} {v : View J}
    (h : ClaimedAt l token v) (hl : l <+: l') : ClaimedAt l' token v := by
  obtain ⟨l₁, l₂, leaseMs, now, clock, rfl, hlife⟩ := h
  obtain ⟨l₃, rfl⟩ := hl
  exact ⟨l₁, l₂ ++ l₃, leaseMs, now, clock, by simp, hlife⟩

lemma Change.commits_iff {token : Token} {i : ℕ} {ch : Change J} : ch.commits token i = true ↔
    ∃ x complete now clock, ch = .wrote token (.commitStep i x complete) now clock := by
  unfold commits
  split
  · simp
  · rename_i hne
    simp only [Bool.false_eq_true, false_iff, not_exists]
    rintro x complete now clock rfl
    exact hne _ _ _ _ _ _ rfl

lemma Committed.mono {l l' : List (Change J)} {token : Token} {i : ℕ} (h : Committed l token i)
    (hl : l <+: l') : Committed l' token i := by
  obtain ⟨ch, hch, hc⟩ := h
  exact ⟨ch, hl.subset hch, hc⟩

variable [Jsonb J]

section Lives

variable {past : Past J Ω} {wf : CompiledWorkflow Ω} {l : List (Change J)} {v v' : View J}
  {token token' : Token} {i : ℕ}

lemma View.Moves.commits {ch : Change J} (hm : v.Moves ch v') (hc : ch.commits token i = true) :
    (v'.cps i).isSome := by
  obtain ⟨x, complete, now, clock, rfl⟩ := Change.commits_iff.mp hc
  cases hm with
  | updated _ r u hrow hu hg =>
    cases hu
    exact Update.recordAt_isSome hg rfl

lemma Lawful.committed_isSome (h : Lawful past wf l v) (hc : Committed l token i) :
    (v.cps i).isSome := by
  induction h with
  | nil =>
    obtain ⟨ch, hch, -⟩ := hc
    cases hch
  | snoc _ hm _ ih =>
    obtain ⟨ch, hch, hc⟩ := hc
    rcases List.mem_append.mp hch with hch | hch
    · obtain ⟨x, hx⟩ := Option.isSome_iff_exists.mp (ih ⟨ch, hch, hc⟩)
      exact Option.isSome_iff_exists.mpr ⟨x, hm.cps_some hx⟩
    · rw [List.mem_singleton.mp hch] at hc
      exact hm.commits hc

/-- **Once**: no two claims store the result of one operation. -/
lemma Lawful.committed_unique (h : Lawful past wf l v) (hc : Committed l token i)
    (hc' : Committed l token' i) : token = token' := by
  induction h with
  | nil =>
    obtain ⟨ch, hch, -⟩ := hc
    cases hch
  | @snoc l v v' ch hl hm hfits ih =>
    -- the last change stores nothing where a result is
    have hlast : ∀ {t t' : Token}, Committed l t i → ch.commits t' i = true → False := by
      intro t t' hold hnew
      have hsome := hl.committed_isSome hold
      obtain ⟨x, complete, now, clock, rfl⟩ := Change.commits_iff.mp hnew
      obtain ⟨r, hr, -⟩ := hm.wrote_row
      rw [(hfits r hr).2.1] at hsome
      cases hsome
    obtain ⟨ch₁, hch₁, h₁⟩ := hc
    obtain ⟨ch₂, hch₂, h₂⟩ := hc'
    rcases List.mem_append.mp hch₁ with hch₁ | hch₁ <;>
      rcases List.mem_append.mp hch₂ with hch₂ | hch₂
    · exact ih ⟨ch₁, hch₁, h₁⟩ ⟨ch₂, hch₂, h₂⟩
    · rw [List.mem_singleton.mp hch₂] at h₂
      exact (hlast ⟨ch₁, hch₁, h₁⟩ h₂).elim
    · rw [List.mem_singleton.mp hch₁] at h₁
      exact (hlast ⟨ch₂, hch₂, h₂⟩ h₁).elim
    · rw [List.mem_singleton.mp hch₁] at h₁
      rw [List.mem_singleton.mp hch₂] at h₂
      obtain ⟨_, _, _, _, heq₁⟩ := Change.commits_iff.mp h₁
      obtain ⟨_, _, _, _, heq₂⟩ := Change.commits_iff.mp h₂
      rw [heq₁] at heq₂
      cases heq₂
      rfl

end Lives

namespace Server

variable {s s' : Server J} {run : RunId} {token : Token}

lemma write_log {w : Write J} {now : Time} (h : s.step (.write run token w now) = some s')
    (howns : s.owns run token w now = true) :
    .wrote token w now s.clock ∈ s'.log run := by
  cases does h with
  | refuse _ hnot => rw [howns] at hnot; cases hnot
  | write =>
    obtain ⟨r, hr, hg⟩ := Option.any_eq_true _ _ |>.mp howns
    rw [exec_log, hr]
    refine List.mem_append_right _ ?_
    simp only [Option.filter, show (s.writeUpdate run token w now s.clock).guard r = true from hg,
      if_true, Option.map_some, Option.toList_some, List.mem_singleton]

lemma waited_log (hs : s.TxInv) {tx : Tx J} {index : ℕ} {timeoutMs : ℤ} {complete : Bool}
    {w : Write J} {clock : Time} (htx : s.txs.get (.wait token) = some tx)
    (hjob : tx.job = .wait token run index timeoutMs complete) (hphase : tx.phase = .wrote w clock)
    (h : s.step (.commit (.wait token)) = some s') :
    .wrote token w tx.start clock ∈ s'.log run := by
  obtain ⟨hmem, hid⟩ := Table.get_eq_some_iff.mp htx
  have hd := does h
  rw [← hid] at hd
  generalize ha : Act.commit tx.id = a at hd
  cases hd with
  | @emitted tx' _ _ _ _ htx' hjob' =>
    rw [eq_of_id hmem htx' (Act.commit.inj ha), hjob'] at hjob
    cases hjob
  | @waited tx' _ _ _ _ _ _ _ htx' hjob' hphase' =>
    obtain rfl := eq_of_id hmem htx' (Act.commit.inj ha)
    rw [hjob] at hjob'
    cases hjob'
    rw [hphase] at hphase'
    cases hphase'
    have hready := hs.ready tx hmem
    simp only [Tx.Ready, hphase, hjob] at hready
    obtain ⟨r, hr, -⟩ := hready
    have hrun := Db.run_id hr
    rw [exec_log]
    refine List.mem_append_right _ ?_
    rw [show (s.close tx.id).db.run run = some r from hr]
    simp [Update.pinned, hrun, Option.filter]
  | _ => cases ha

end Server

/-! ### Claims -/

namespace Proc

/-- A claim goes on from `p` to `p'`: it keeps its values, and leaves an operation that it has
called only once its result is stored, under the claim's own token, in the life `l'` of the run. -/
structure Passes (p p' : Proc J Ω) (l' : List (Change J)) : Prop where
  onward : p.Onward p'
  stays : p.pc ≠ .loop → p'.index = p.index → p'.pc ≠ .loop
  goes : p.pc ≠ .loop → p.index < p'.index → Committed l' p.run.token p.index

variable {p p' : Proc J Ω} {l l' : List (Change J)}

omit [Jsonb J] in
lemma Passes.of_index (hon : p.Onward p') (hindex : p'.index = p.index)
    (hpc : p.pc ≠ .loop → p'.pc ≠ .loop) : p.Passes p' l' where
  onward := hon
  stays h _ := hpc h
  goes _ hlt := by omega

omit [Jsonb J] in
lemma Passes.of_loop (hon : p.Onward p') (hpc : p.pc = .loop) : p.Passes p' l' where
  onward := hon
  stays h := absurd hpc h
  goes h := absurd hpc h

omit [Jsonb J] in
lemma Passes.refl (p : Proc J Ω) : p.Passes p l' := .of_index (.refl p) rfl id

omit [Jsonb J] in
lemma Passes.of_pc {pc : Pc} (hpc : pc ≠ .loop) : p.Passes { p with pc := pc } l' :=
  .of_index (.of_values rfl rfl rfl rfl) rfl fun _ => hpc

lemma answered_passes {owned : Bool} {existing : Option J}
    (hc : owned = true → ∀ raw, p.pc = .await (some raw) ∨ p.pc = .wait (some raw) →
      Committed l' p.run.token p.index) : p.Passes (p.answered owned existing) l' := by
  have hstored : ∀ raw, p.pc = .await (some raw) ∨ p.pc = .wait (some raw) →
      p.Passes (if owned then p.stored raw existing else { p with pc := .done }) l' := by
    intro raw hpc
    split
    · rename_i howned
      refine ⟨stored_onward .., fun _ hindex => ?_, fun _ _ => hc howned raw hpc⟩
      unfold stored at hindex ⊢
      split
      · simp
      · rename_i hlast
        simp [hlast] at hindex
    · exact .of_pc (by simp)
  unfold answered
  split
  · rename_i raw hpc; exact hstored raw (Or.inl hpc)
  · rename_i raw hpc; exact hstored raw (Or.inr hpc)
  · exact .of_pc (by simp)
  · exact .of_pc (by simp)
  · exact .refl p

lemma turn_passes {t : Turn Ω} {ks : List (Call Ω)} (h : p.turn t = some (p', ks)) :
    p.Passes p' l' := by
  have hon := turn_onward h
  cases turns h with
  | advance hpc | failed hpc | returned hpc | resolved hpc | sleep hpc | complete hpc
  | refused hpc => exact .of_loop hon hpc
  | error | failOrRetry | stop => exact .of_index hon rfl fun _ => by simp

/-- The call is one the claim has made: of an operation it has passed, or of the one it is at. -/
def HasMade (p : Proc J Ω) (l : List (Change J)) (k : Call Ω) : Prop :=
  k.run = p.run.id ∧ k.token = p.run.token ∧
    (k.index < p.index ∧ Committed l k.token k.index ∨ k.index = p.index ∧ p.pc ≠ .loop)

omit [Jsonb J] in
lemma HasMade.passes {k : Call Ω} (h : p.HasMade l k) (hp : p.Passes p' l') (hl : l <+: l') :
    p'.HasMade l' k := by
  obtain ⟨hrun, htok, hcase⟩ := h
  refine ⟨by rw [hp.onward.run]; exact hrun, by rw [hp.onward.run]; exact htok, ?_⟩
  rcases hcase with ⟨hlt, hc⟩ | ⟨hindex, hpc⟩
  · exact Or.inl ⟨hlt.trans_le hp.onward.index, hc.mono hl⟩
  · rcases hp.onward.index.eq_or_lt with heq | hlt
    · exact Or.inr ⟨hindex.trans heq, hp.stays hpc heq.symm⟩
    · refine Or.inl ⟨hindex ▸ hlt, ?_⟩
      rw [hindex, htok]
      exact hp.goes hpc hlt

end Proc

/-! ### The system -/

namespace System

variable {reg : Registry Ω} {y y' : System J Ω} {token : Token} {p : Proc J Ω}

lemma Inv.exec_committed (h : y.Inv reg) (hp : y.procs token = some p) {w : Write J} {now : Time}
    {s : Server J} (hw : p.sent = some w) (hs : y.srv.step (.write p.run.id token w now) = some s)
    (howns : y.srv.owns p.run.id token w now = true) {raw : Bytes}
    (hpc : p.pc = .await (some raw)) : Committed (s.log p.run.id) p.run.token p.index := by
  have hlog := Server.write_log hs howns
  rw [← (h.token token p hp).1] at hlog
  have hsends := (h.proc token p hp).asks.sent w hw
  cases w with
  | commitStep i x complete =>
    obtain ⟨rfl, -⟩ := hsends
    exact ⟨_, hlog, Change.commits_iff.mpr ⟨_, _, _, _, rfl⟩⟩
  | completeRun => cases hsends.2.2.2 _ hpc
  | parkSleep => cases hsends.2.2 _ hpc
  | parkWait | failOrRetry => exact hsends.elim

lemma Inv.exec_passes (h : y.Inv reg) (hp : y.procs token = some p) {w : Write J} {now : Time}
    {s : Server J} (hw : p.sent = some w) (hs : y.srv.step (.write p.run.id token w now) = some s)
    (existing : Option J) :
    p.Passes (({ p with sent := none } : Proc J Ω).answered (y.srv.owns p.run.id token w now)
      existing) (s.log p.run.id) := by
  have hpass : ({ p with sent := none } : Proc J Ω).Passes
      (({ p with sent := none } : Proc J Ω).answered (y.srv.owns p.run.id token w now) existing)
      (s.log p.run.id) := by
    refine Proc.answered_passes fun howns raw hpc => ?_
    rcases hpc with hpc | hpc
    · exact h.exec_committed hp hw hs howns hpc
    · have hidle := (h.proc token p hp).asks.idle (Or.inr (Or.inr ⟨_, hpc⟩))
      rw [hw] at hidle
      cases hidle
  have hon : p.Onward { p with sent := none } := .of_values rfl rfl rfl rfl
  exact ⟨hon.trans hpass.onward, hpass.stays, hpass.goes⟩

lemma Inv.commit_committed (h : y.Inv reg) (hp : y.procs token = some p) {s : Server J}
    (hs : y.srv.step (.commit (.wait token)) = some s) {raw : Bytes}
    (hpc : p.pc = .await (some raw) ∨ p.pc = .wait (some raw)) :
    Committed (s.log p.run.id) p.run.token p.index := by
  obtain ⟨htok, -⟩ := h.token token p hp
  have hi := h.proc token p hp
  obtain ⟨tx, htx, -⟩ := Option.bind_eq_some_iff.mp hs
  rw [htx] at hi
  obtain ⟨-, -, -, hawait, timeout, -, hjob, hw⟩ := hi.asks.tx tx rfl
  rw [htok] at hjob
  obtain ⟨w, clock, hphase, -⟩ := Server.waited_moves h.srv.inv.tx htx hjob hs
  have hlog := Server.waited_log h.srv.inv.tx htx hjob hphase hs
  rw [← htok] at hlog
  simp only [hphase] at hw
  obtain ⟨found, ⟨hfound, -⟩, rfl⟩ := hw
  rcases hpc with hpc | hpc
  · exact absurd hpc (hawait _)
  · -- the worker has a result, so an event was found
    rcases found with _ | payload
    · cases hfound _ hpc
    · exact ⟨_, hlog, Change.commits_iff.mpr ⟨_, _, _, _, rfl⟩⟩

/-- **Step**: a claim in progress goes on. -/
lemma Inv.procs_pass (h : y.Inv reg) {m : Move J Ω} (hstep : y.step reg m = some y')
    (hp : y.procs token = some p) :
    ∃ p', y'.procs token = some p' ∧ p.Passes p' (y'.srv.log p.run.id) := by
  -- one claim goes on and the others stay as they are
  have hset : ∀ {token₀ : Token} {p₀ p₁ : Proc J Ω} {srv : Server J} {calls : List (Call Ω)},
      y.procs token₀ = some p₀ → p₀.Passes p₁ (srv.log p₀.run.id) → ∃ p',
        (⟨srv, Function.update y.procs token₀ (some p₁), calls⟩ : System J Ω).procs token =
          some p' ∧ p.Passes p' (srv.log p.run.id) := by
    intro token₀ p₀ p₁ srv calls hp₀ hpass
    by_cases ht : token = token₀
    · subst ht
      rw [hp] at hp₀
      cases hp₀
      exact ⟨p₁, by simp, hpass⟩
    · exact ⟨p, by simpa [ht] using hp, .refl p⟩
  cases does hstep with
  | outside | insert | lock => exact ⟨p, hp, .refl p⟩
  | @claim e q gen now s lost hs =>
    refine ⟨p, ?_, .refl p⟩
    have hnone : y.claimed reg e q gen now token = none := by
      -- a claim that is made now has a token that nobody has had
      by_contra hne
      obtain ⟨p', hp'⟩ := Option.ne_none_iff_exists'.mp hne
      obtain ⟨id, hid, hp'⟩ := Option.bind_eq_some_iff.mp hp'
      obtain ⟨r, hr, -⟩ := Option.bind_eq_some_iff.mp hp'
      have hgen : gen id = token := by simpa using List.find?_some hid
      obtain ⟨-, -, -, hfresh⟩ := Server.claim_picked hs (List.mem_of_find?_eq_some hid) hr
      exact hfresh (hgen ▸ h.mem_tokens_of_proc hp)
    simp only [hnone, Option.none_or, ite_self]
    exact hp
  | turn hp₀ ht => exact hset hp₀ (Proc.turn_passes ht)
  | @exec token₀ p₀ w now s lost hp₀ hw hs =>
    refine hset hp₀ ?_
    cases lost
    · exact h.exec_passes hp₀ hw hs _
    · exact .of_index (.of_values rfl rfl rfl rfl) rfl id
  | execFailure hp₀ => exact hset hp₀ (.of_index (.of_values rfl rfl rfl rfl) rfl id)
  | begin hp₀ | look hp₀ => exact hset hp₀ (.of_pc (by simp))
  | @statement token₀ p₀ p₁ s hp₀ _ _ hp₁ =>
    subst hp₁
    refine hset hp₀ ?_
    split
    · exact .refl p₀
    · exact .of_pc (by simp)
  | @commit token₀ p₀ s lost hp₀ hs =>
    refine hset hp₀ ?_
    cases lost
    · exact Proc.answered_passes fun _ raw hpc => h.commit_committed hp₀ hs hpc
    · exact .refl p₀

/-! ### What a claim has loaded -/

lemma procs_new {m : Move J Ω} (h : y.step reg m = some y') (hnone : y.procs token = none)
    {p' : Proc J Ω} (hp' : y'.procs token = some p') : ∃ e q gen now,
      y.srv.step (.claim q gen now) = some y'.srv ∧
      y.claimed reg e q gen now token = some p' := by
  have hset : ∀ {token₀ : Token} {p₀ p₁ : Proc J Ω} {srv : Server J} {calls : List (Call Ω)},
      (⟨srv, Function.update y.procs token₀ (some p₁), calls⟩ : System J Ω).procs token = some p' →
      y.procs token₀ = some p₀ → False := by
    intro token₀ p₀ p₁ srv calls hp' hp₀
    rcases Inv.procs_setProc hp' with ⟨rfl, -⟩ | ⟨-, hp'⟩
    · rw [hnone] at hp₀; cases hp₀
    · rw [hnone] at hp'; cases hp'
  cases does h with
  | outside | insert | lock => rw [hnone] at hp'; cases hp'
  | @claim e q gen now s lost hs =>
    cases lost
    · simp only [Bool.false_eq_true, if_false, hnone, Option.or_none] at hp'
      exact ⟨e, q, gen, now, hs, hp'⟩
    · simp only [if_true, hnone] at hp'; cases hp'
  | turn hp₀ | exec hp₀ | execFailure hp₀ | begin hp₀ | look hp₀ | statement hp₀ | commit hp₀ =>
    exact (hset hp' hp₀).elim

/-- A claim in progress was made at a point in the life of its run, and has a value wherever there
was a result then. -/
def Loaded (y : System J Ω) (token : Token) (p : Proc J Ω) : Prop :=
  ∃ v, ClaimedAt (y.srv.log p.run.id) token v ∧ ∀ i, (v.cps i).isSome → (p.value i).isSome

lemma Inv.loaded_new (hy : y.Inv reg) (hy' : y'.Inv reg) {e : Engine} {q : ClaimQuery}
    {gen : RunId → Token} {now : Time} {p' : Proc J Ω}
    (hs : y.srv.step (.claim q gen now) = some y'.srv)
    (hclaimed : y.claimed reg e q gen now token = some p') (hp' : y'.procs token = some p') :
    y'.Loaded token p' := by
  obtain ⟨id, hid, hstart⟩ := Option.bind_eq_some_iff.mp hclaimed
  obtain ⟨r, hr, hstart⟩ := Option.bind_eq_some_iff.mp hstart
  have hgen : gen id = token := by simpa using List.find?_some hid
  obtain ⟨wf, -, rfl⟩ := Option.map_eq_some_iff.mp hstart
  have hpid : (r.claimedRun token (y.srv.db.checkpoint id)).id = id := Db.run_id hr
  obtain ⟨-, hcps, hmem, hfresh⟩ := Server.claim_picked hs (List.mem_of_find?_eq_some hid) hr
  obtain ⟨o, ⟨hlog, hm⟩, hmakes⟩ := Server.step_moved hy.srv.inv.tx hs id
  rcases o with _ | ch
  · rw [hlog] at hmem
    exact absurd (Server.mem_tokens (by simpa using hmem)) hfresh
  have hm : (y.srv.view id).Moves ch (y'.srv.view id) := hm
  cases hmakes ch rfl with
  | claimed =>
    refine ⟨y.srv.view id, ?_, fun i hi => ?_⟩
    · simp only [hpid]
      exact ⟨_, [], _, _, _, by rw [hlog, hgen]; rfl, hy.srv.inv.life id⟩
    · obtain ⟨r', hr'⟩ := hm.row_some
      have hlive : r'.leaseToken = some token := by
        generalize y'.srv.view id = v' at hm hr'
        cases hm with
        | updated _ _ _ _ hu => cases hu; cases hr'; exact congrArg some hgen
      obtain ⟨x, hx⟩ := Option.isSome_iff_exists.mp hi
      have hinv := hy'.proc token _ hp'
      simp only [hpid] at hinv
      exact (hinv.holds r' hr' hlive).loaded (Or.inl rfl) i x (by rw [hcps]; exact hx)

lemma Inv.loaded_step (hy : y.Inv reg) {m : Move J Ω} (h : y.step reg m = some y')
    (hold : ∀ token p, y.procs token = some p → y.Loaded token p) {p' : Proc J Ω}
    (hp' : y'.procs token = some p') : y'.Loaded token p' := by
  rcases hp : y.procs token with _ | p
  · obtain ⟨e, q, gen, now, hs, hclaimed⟩ := procs_new h hp hp'
    exact hy.loaded_new (hy.step h) hs hclaimed hp'
  · obtain ⟨p₁, hp₁, hpass⟩ := hy.procs_pass h hp
    rw [hp'] at hp₁
    cases hp₁
    obtain ⟨v, hv, hvals⟩ := hold token p hp
    refine ⟨v, ?_, fun i hi => hpass.onward.value i (hvals i hi)⟩
    rw [hpass.onward.run]
    exact hv.mono (srv_log_grows h p.run.id)

/-! ### Calls -/

lemma calls_append {m : Move J Ω} (h : y.step reg m = some y') :
    y'.calls = y.calls ∨ ∃ (token : Token) (p p' : Proc J Ω) (ω : Ω) (name : String),
      y.procs token = some p ∧ y'.procs token = some p' ∧ p.pc = .loop ∧
      p.value p.index = none ∧ p'.run = p.run ∧ p'.index = p.index ∧ p'.pc ≠ .loop ∧
      y'.calls = y.calls ++ [p.call ω name] ∧ y'.srv = y.srv := by
  cases does h with
  | @turn token p p' t ks hp ht =>
    cases Proc.turns ht with
    | failed hpc hnone | returned hpc hnone | resolved hpc hnone =>
      exact Or.inr ⟨token, p, _, _, _, hp, Function.update_self .., hpc, hnone, rfl, rfl, by simp,
        rfl, rfl⟩
    | advance | sleep | complete | refused | error | failOrRetry | stop =>
      exact Or.inl (List.append_nil _)
  | _ => exact Or.inl rfl

/-- What is known of the calls made so far. -/
structure CallInv (y : System J Ω) : Prop where
  made : ∀ k ∈ y.calls, ∃ p, y.procs k.token = some p ∧ p.HasMade (y.srv.log k.run) k
  ordered : y.calls.Pairwise fun k k' => k.token = k'.token → k.index < k'.index
  loaded : ∀ token p, y.procs token = some p → y.Loaded token p
  unstored : ∀ k ∈ y.calls, ∃ v, ClaimedAt (y.srv.log k.run) k.token v ∧ v.cps k.index = none

lemma CallInv.step (hc : y.CallInv) (hy : y.Inv reg) {m : Move J Ω}
    (h : y.step reg m = some y') : y'.CallInv := by
  have hold : ∀ k ∈ y.calls, ∃ p, y'.procs k.token = some p ∧ p.HasMade (y'.srv.log k.run) k := by
    intro k hk
    obtain ⟨p, hp, hmade⟩ := hc.made k hk
    obtain ⟨p', hp', hpass⟩ := hy.procs_pass h hp
    rw [← hmade.1] at hpass
    exact ⟨p', hp', hmade.passes hpass (srv_log_grows h k.run)⟩
  have hloaded : ∀ token p, y'.procs token = some p → y'.Loaded token p :=
    fun token p hp => hy.loaded_step h hc.loaded hp
  have hunstored : ∀ k ∈ y.calls, ∃ v, ClaimedAt (y'.srv.log k.run) k.token v ∧
      v.cps k.index = none := by
    intro k hk
    obtain ⟨v, hv, hnone⟩ := hc.unstored k hk
    exact ⟨v, hv.mono (srv_log_grows h k.run), hnone⟩
  rcases calls_append h with heq | ⟨token, p, p', ω, name, hp, hp', hpc, hnone, hrun, hindex, hpc',
    heq, hsrv⟩
  · exact ⟨heq ▸ hold, heq ▸ hc.ordered, hloaded, heq ▸ hunstored⟩
  have htok := (hy.token token p hp).1
  have hcall : (p.call ω name).token = token := htok
  refine ⟨fun k hk => ?_, ?_, hloaded, fun k hk => ?_⟩
  · rw [heq] at hk
    rcases List.mem_append.mp hk with hk | hk
    · exact hold k hk
    · rw [List.mem_singleton.mp hk, hcall]
      exact ⟨p', hp', hrun ▸ rfl, hrun ▸ rfl, Or.inr ⟨hindex.symm, hpc'⟩⟩
  · rw [heq, List.pairwise_append]
    refine ⟨hc.ordered, List.pairwise_singleton _ _, fun k hk k' hk' ht => ?_⟩
    rw [List.mem_singleton.mp hk'] at ht ⊢
    -- at the head of the loop, all calls of the claim are of operations it has passed
    obtain ⟨p₀, hp₀, -, -, hcase⟩ := hc.made k hk
    rw [ht, hcall, hp] at hp₀
    cases hp₀
    rcases hcase with ⟨hlt, -⟩ | ⟨-, hne⟩
    · exact hlt
    · exact absurd hpc hne
  · rw [heq] at hk
    rcases List.mem_append.mp hk with hk | hk
    · exact hunstored k hk
    · rw [List.mem_singleton.mp hk, hcall, hsrv]
      obtain ⟨v, hv, hvals⟩ := hc.loaded token p hp
      refine ⟨v, hv, ?_⟩
      by_contra hsome
      have hval := hvals p.index (Option.isSome_iff_ne_none.mpr hsome)
      rw [hnone] at hval
      cases hval

/-- **Run.** -/
theorem Reachable.callInv (hy : y.Reachable reg) : y.CallInv := by
  obtain ⟨clock, h⟩ := hy
  refine (h.invariant (P := fun z => z.Inv reg ∧ z.CallInv) ⟨.init clock, ?_⟩ ?_).2
  · refine ⟨fun k hk => ?_, List.Pairwise.nil, fun token p hp => ?_, fun k hk => ?_⟩
    · cases hk
    · cases hp
    · cases hk
  · rintro z m z' ⟨hz, hc⟩ - hstep
    exact ⟨hz.step hstep, hc.step hz hstep⟩

/-! ### Counting -/

variable {run : RunId} {r : Row J}

/-- Calls that have left their result are of different operations. -/
lemma CallInv.committed_le (hc : y.CallInv) {wf : CompiledWorkflow Ω}
    (hl : Lawful y.past wf (y.srv.log run) (y.srv.view run)) {ks : List (Call Ω)}
    (hks : ks.Sublist y.calls) (hrun : ∀ k ∈ ks, k.run = run ∧ k.index < wf.ops.length)
    (hcom : ∀ k ∈ ks, Committed (y.srv.log run) k.token k.index) : ks.length ≤ wf.ops.length := by
  have hnodup : (ks.map Call.index).Nodup := by
    rw [List.nodup_iff_pairwise_ne, List.pairwise_map]
    refine (hc.ordered.sublist hks).imp_of_mem fun {k k'} hk hk' hord heq => ?_
    have htok := hl.committed_unique (hcom k hk) (heq ▸ hcom k' hk')
    exact absurd (hord htok) (by omega)
  have hsub : ks.map Call.index ⊆ List.range wf.ops.length := by
    intro i hi
    obtain ⟨k, hk, rfl⟩ := List.mem_map.mp hi
    exact List.mem_range.mpr (hrun k hk).2
  simpa using (hnodup.subperm hsub).length_le

/-- Calls that have not are under different claims. -/
lemma CallInv.open_le (hc : y.CallInv) (hy : y.Inv reg) {ks : List (Call Ω)}
    (hks : ks.Sublist y.calls) (hrun : ∀ k ∈ ks, k.run = run)
    (hopen : ∀ k ∈ ks, ¬ Committed (y.srv.log run) k.token k.index) :
    ks.length ≤ claimCount (y.srv.log run) := by
  -- each of them is of the operation its claim is at
  have hat : ∀ k ∈ ks, ∃ p, y.procs k.token = some p ∧ k.run = p.run.id ∧ k.index = p.index := by
    intro k hk
    obtain ⟨p, hp, hid, -, ⟨-, hcom⟩ | ⟨hindex, -⟩⟩ := hc.made k (hks.subset hk)
    · rw [hrun k hk] at hcom
      exact absurd hcom (hopen k hk)
    · exact ⟨p, hp, hid, hindex⟩
  have hnodup : (ks.map Call.token).Nodup := by
    rw [List.nodup_iff_pairwise_ne, List.pairwise_map]
    refine (hc.ordered.sublist hks).imp_of_mem fun {k k'} hk hk' hord heq => ?_
    obtain ⟨p, hp, -, hindex⟩ := hat k hk
    obtain ⟨p', hp', -, hindex'⟩ := hat k' hk'
    rw [heq, hp'] at hp
    cases hp
    have := hord heq
    omega
  have hsub : ks.map Call.token ⊆ (y.srv.log run).filterMap Change.claimToken? := by
    intro token ht
    obtain ⟨k, hk, rfl⟩ := List.mem_map.mp ht
    obtain ⟨p, hp, hid, -⟩ := hat k hk
    rw [← hrun k hk, hid]
    exact (hy.token k.token p hp).2
  simpa [claimCount] using (hnodup.subperm hsub).length_le

/-- **How often user code is called.** In every reachable state, whatever crashes, lost answers,
retries and stale workers there have been: the step functions and event-key resolvers of a run have
been called no more often than the run was claimed and has operations together; each claim calls
them in order, each at most once; and a claim never calls one whose result was stored when it was
made. -/
theorem calls_bounded (hy : y.Reachable reg) (hr : y.srv.db.run run = some r) :
    ∃ wf, reg.workflow r.workflowName r.workflowVersion = some wf ∧
      (y.calls.filter (·.run = run)).length ≤ claimCount (y.srv.log run) + wf.ops.length ∧
      (y.calls.filter (·.run = run)).Pairwise
        (fun k k' => k.token = k'.token → k.index < k'.index) ∧
      ∀ k ∈ y.calls, k.run = run →
        ∃ v, ClaimedAt (y.srv.log run) k.token v ∧ v.cps k.index = none := by
  classical
  have hc := hy.callInv
  obtain ⟨wf, hwf, hl⟩ := hy.inv.lawful run r hr
  refine ⟨wf, hwf, ?_, hc.ordered.sublist List.filter_sublist, fun k hk hrun => ?_⟩
  · set ks := y.calls.filter (·.run = run) with hks
    have hsub : ks.Sublist y.calls := List.filter_sublist
    have hrun : ∀ k ∈ ks, k.run = run := fun k hk => by simpa using (List.mem_filter.mp hk).2
    have hindex : ∀ k ∈ ks, k.index < wf.ops.length := by
      intro k hk
      obtain ⟨-, r', wf', name, hmade⟩ := hy.made (hsub.subset hk)
      have hrow := hmade.row
      rw [hrun k hk, hr] at hrow
      cases hrow
      have hwf' := hmade.registered
      rw [hwf] at hwf'
      cases hwf'
      obtain ⟨op, hop, -⟩ := hmade.op
      exact (List.getElem?_eq_some_iff.mp hop).1
    let com (k : Call Ω) : Bool := decide (Committed (y.srv.log run) k.token k.index)
    have hcom := hc.committed_le hl (List.filter_sublist.trans hsub : (ks.filter com).Sublist _)
      (fun k hk => ⟨hrun k (List.mem_filter.mp hk).1, hindex k (List.mem_filter.mp hk).1⟩)
      fun k hk => of_decide_eq_true (List.mem_filter.mp hk).2
    have hopen := hc.open_le hy.inv
      (List.filter_sublist.trans hsub : (ks.filter fun k => !com k).Sublist _)
      (fun k hk => hrun k (List.mem_filter.mp hk).1)
      fun k hk => by simpa [com] using (List.mem_filter.mp hk).2
    have hsplit := List.length_eq_length_filter_add com (l := ks)
    omega
  · rw [← hrun]
    exact hc.unstored k hk

/-- The resolver is called twice, by the first and by the third of five claims. -/
theorem calls_bounded_fiveClaims : ∃ (y : System Doc Bool) (r : Row Doc),
    y.srv.db.run "r" = some r ∧ y.calls.length = 2 ∧
    claimCount (y.srv.log "r") = 5 ∧
    ∃ wf, resolvedWait.workflow r.workflowName r.workflowVersion = some wf ∧
      (y.calls.filter (·.run = "r")).length ≤ claimCount (y.srv.log "r") + wf.ops.length ∧
      (y.calls.filter (·.run = "r")).Pairwise
        (fun k k' => k.token = k'.token → k.index < k'.index) ∧
      ∀ k ∈ y.calls, k.run = "r" →
        ∃ v, ClaimedAt (y.srv.log "r") k.token v ∧ v.cps k.index = none := by
  have hrun : ((fiveClaims.foldlM (step resolvedWait) (init 0)).map fun y =>
      ((y.srv.db.run "r").isSome, y.calls.length, claimCount (y.srv.log "r"))) =
      some (true, 2, 5) := by
    decide +kernel
  obtain ⟨y, hy, heq⟩ := Option.map_eq_some_iff.mp hrun
  simp only [Prod.mk.injEq] at heq
  obtain ⟨hsome, hcalls, hclaims⟩ := heq
  obtain ⟨r, hr⟩ := Option.isSome_iff_exists.mp hsome
  exact ⟨y, r, hr, hcalls, hclaims, calls_bounded (.of_run 0 fiveClaims hy) hr⟩

end System

end DurablePg

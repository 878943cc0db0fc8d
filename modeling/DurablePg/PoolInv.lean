import DurablePg.Pool
import Mathlib.Data.List.Count

/-!
What holds in every state of the workers of an engine: the workers agree with the flag, the
slots with the claims, the claims with the runs, the histories with the goroutines, and
`activeClaims` with the claims that are not over.
-/

namespace DurablePg

open DurablePg.Lib

namespace Pool

variable {s s' : Pool} {a : PoolAct}

/-! ### Lists with one entry changed -/

section Lists

variable {α β : Type} {l : List α} {i : ℕ} {x y : α}

lemma map_set_eq (f : α → β) (hx : l[i]? = some x) (hxy : f y = f x) :
    (l.set i y).map f = l.map f := by
  rw [List.map_set]
  refine List.ext_getElem? fun j => ?_
  rw [List.getElem?_set]
  split
  · rename_i hj
    subst hj
    have hlt := (List.getElem?_eq_some_iff.mp hx).1
    rw [if_pos (by simpa using hlt), List.getElem?_map, hx, hxy]
    rfl
  · rfl

lemma map_modify_eq (f : α → β) (i : ℕ) (k : α → α) (h : ∀ x, f (k x) = f x) :
    (l.modify i k).map f = l.map f := by
  refine List.ext_getElem? fun j => ?_
  rw [List.getElem?_map, List.getElem?_map, List.getElem?_modify]
  rcases l[j]? with _ | x
  · rfl
  · split
    · simp [h]
    · rfl

lemma getElem?_set_cases {j : ℕ} {z : α} (h : (l.set i y)[j]? = some z) :
    j = i ∧ z = y ∨ j ≠ i ∧ l[j]? = some z := by
  rw [List.getElem?_set] at h
  split at h
  · rename_i hj
    split at h
    · cases h; exact Or.inl ⟨hj.symm, rfl⟩
    · cases h
  · rename_i hj
    exact Or.inr ⟨Ne.symm hj, h⟩

lemma getElem?_snoc_cases {j : ℕ} {z : α} (h : (l ++ [y])[j]? = some z) :
    j = l.length ∧ z = y ∨ l[j]? = some z := by
  rcases Nat.lt_or_ge j l.length with hj | hj
  · rw [List.getElem?_append_left hj] at h
    exact Or.inr h
  · rw [List.getElem?_append_right hj, List.getElem?_singleton] at h
    split at h
    · cases h; exact Or.inl ⟨by omega, rfl⟩
    · cases h

lemma countP_set_add (p : α → Bool) (hx : l[i]? = some x) :
    (l.set i y).countP p + (if p x then 1 else 0) = l.countP p + if p y then 1 else 0 := by
  obtain ⟨hi, rfl⟩ := List.getElem?_eq_some_iff.mp hx
  rw [List.countP_set hi]
  have hpos : p l[i] = true → 0 < l.countP p := fun hp =>
    List.countP_pos_iff.mpr ⟨_, List.getElem_mem hi, hp⟩
  split
  · rename_i hp
    have := hpos hp
    omega
  · omega

end Lists

/-! ### The running worker -/

/-- The workers agree with the flag, which is the last one's, and nobody waits for the claims of
a running worker. -/
structure Flagged (s : Pool) : Prop where
  last : ∀ n w, s.workers[n]? = some w →
    (w.loop.isSome ↔ s.workerRunning = true ∧ n + 1 = s.workers.length)
  mutex : s.workerMu.isSome → s.workerRunning = false
  some_worker : s.workerRunning = true → s.workers ≠ []

namespace Flagged

lemma unique (h : s.Flagged) {n n' : ℕ} {w w' : WorkerCall} (hw : s.workers[n]? = some w)
    (hw' : s.workers[n']? = some w') (hr : w.loop.isSome) (hr' : w'.loop.isSome) : n = n' := by
  have hn := ((h.last n w hw).mp hr).2
  have hn' := ((h.last n' w' hw').mp hr').2
  omega

lemma running (h : s.Flagged) {n : ℕ} {w : WorkerCall} {l : Loop} (hw : s.workers[n]? = some w)
    (hl : w.loop = some l) : s.workerRunning = true ∧ n + 1 = s.workers.length :=
  (h.last n w hw).mp (by rw [hl]; rfl)

lemma mutex_free (h : s.Flagged) {n : ℕ} {w : WorkerCall} {l : Loop} (hw : s.workers[n]? = some w)
    (hl : w.loop = some l) : s.workerMu = none := by
  by_contra hmu
  have hidle := h.mutex (Option.isSome_iff_ne_none.mpr hmu)
  rw [(h.running hw hl).1] at hidle
  cases hidle

lemma of_loops (h : s.Flagged) (hrun : s'.workerRunning = s.workerRunning)
    (hmu : s'.workerMu.isSome → s.workerMu.isSome)
    (hloops : s'.workers.map (fun w => w.loop.isSome) = s.workers.map fun w => w.loop.isSome) :
    s'.Flagged := by
  have hlen : s'.workers.length = s.workers.length := by simpa using congrArg List.length hloops
  refine ⟨fun n w' hw' => ?_, fun hsome => hrun.trans (h.mutex (hmu hsome)), fun hr hnil => ?_⟩
  swap
  · rw [hnil, List.length_nil, eq_comm, List.length_eq_zero_iff] at hlen
    exact h.some_worker (hrun ▸ hr) hlen
  have hn := congrArg (fun l : List Bool => l[n]?) hloops
  simp only [List.getElem?_map, hw', Option.map_some] at hn
  obtain ⟨w, hw, hsame⟩ := Option.map_eq_some_iff.mp hn.symm
  rw [← hsame, hrun, hlen]
  exact h.last n w hw

lemma setLoop (h : s.Flagged) {n : ℕ} {w : WorkerCall} {l : Loop} (hw : s.workers[n]? = some w)
    (hl : w.loop = some l) (l' : Loop) : (s.setLoop n w (some l')).Flagged :=
  h.of_loops rfl id (map_set_eq _ hw (by rw [hl]; rfl))

lemma step (h : s.Flagged) (hstep : s.step a = some s') : s'.Flagged := by
  cases does hstep with
  | refused | full | busy => exact h
  | startWorker hmu hrun =>
    refine ⟨fun n w hw => ?_, fun hsome => ?_, fun _ => by simp⟩
    · simp only [List.length_append, List.length_singleton, true_and]
      rcases getElem?_snoc_cases hw with ⟨rfl, rfl⟩ | hw
      · simp
      · have hn := (List.getElem?_eq_some_iff.mp hw).1
        rw [h.last n w hw, hrun]
        simp only [Bool.false_eq_true, false_and, false_iff]
        omega
    · simp only [hmu, Option.isSome_none] at hsome
      cases hsome
  | dispatch hw hl | dispatched hw hl | cancel hw hl | drained hw hl => exact h.setLoop hw hl _
  | @claimed n available w runs hw hl =>
    have hset := h.setLoop hw hl (.starting (List.range' s.returned.length runs.length))
    exact ⟨hset.last, hset.mutex, hset.some_worker⟩
  | startClaim hw hl => exact h.of_loops rfl id (map_set_eq _ hw (by rw [hl]; rfl))
  | endWorker hw hl hmu =>
    obtain ⟨hrun, hlast⟩ := h.running hw hl
    refine ⟨fun n' w' hw' => ?_, fun _ => rfl, fun hr => by cases hr⟩
    simp only [Bool.false_eq_true, false_and, iff_false]
    rcases getElem?_set_cases hw' with ⟨rfl, rfl⟩ | ⟨hne, hw'⟩
    · exact Bool.false_ne_true
    · intro hsome
      have := ((h.last n' w' hw').mp hsome).2
      omega
  | execute | executed | release | done | gone => exact h.of_loops rfl id rfl
  | leave => exact h.of_loops rfl id (map_modify_eq _ _ _ fun _ => rfl)
  | waitForIdle hmu hrun => exact ⟨h.last, fun _ => hrun, h.some_worker⟩
  | enterWait | leaveWait => exact ⟨h.last, h.mutex, h.some_worker⟩
  | returnIdle => exact ⟨h.last, (fun hsome => by cases hsome), h.some_worker⟩

end Flagged

/-! ### Slots -/

/-- The slots a worker counts on for the claims it is about to start. -/
def reserved (w : WorkerCall) : ℕ :=
  match w.loop with
  | some (.claiming available) => available
  | some (.starting runs) => runs.length
  | _ => 0

/-- The claims of a worker that hold a slot. -/
def held (s : Pool) (n : ℕ) : ℕ := s.claims.countP fun g => g.worker = n && g.phase.holdsSlot

/-- `inFlight` is what it counts, and leaves room for what is reserved. -/
structure Slotted (s : Pool) : Prop where
  counted : ∀ (n : ℕ) w, s.workers[n]? = some w → w.inFlight = (s.held n : ℤ)
  bound : ∀ (n : ℕ) w, s.workers[n]? = some w → w.inFlight + (reserved w : ℤ) ≤ s.maxConcurrency
  owner : ∀ g ∈ s.claims, g.worker < s.workers.length

namespace Slotted

lemma held_setPhase {c : ℕ} {g : Goroutine} (hg : s.claims[c]? = some g) {phase : GoPhase}
    (hp : phase.holdsSlot = g.phase.holdsSlot) (n : ℕ) :
    (s.setPhase c g phase).held n = s.held n := by
  have h := countP_set_add (y := { g with phase := phase })
    (fun g : Goroutine => g.worker = n && g.phase.holdsSlot) hg
  simp only [hp] at h
  exact Nat.add_right_cancel h

lemma owner_setPhase (h : s.Slotted) {c : ℕ} {g : Goroutine} (hg : s.claims[c]? = some g)
    {phase : GoPhase} : ∀ g' ∈ (s.setPhase c g phase).claims, g'.worker < s.workers.length := by
  intro g' hg'
  rcases List.mem_or_eq_of_mem_set hg' with hg' | rfl
  · exact h.owner g' hg'
  · exact h.owner g (List.mem_of_getElem? hg)

lemma setPhase (h : s.Slotted) {c : ℕ} {g : Goroutine} (hg : s.claims[c]? = some g)
    (phase : GoPhase) (hp : phase.holdsSlot = g.phase.holdsSlot) :
    (s.setPhase c g phase).Slotted where
  counted n w hw := (h.counted n w hw).trans (by rw [held_setPhase hg hp])
  bound := h.bound
  owner := h.owner_setPhase hg

lemma setLoop (h : s.Slotted) {n : ℕ} {w : WorkerCall} (hw : s.workers[n]? = some w)
    (loop : Option Loop)
    (hres : w.inFlight + (reserved { w with loop := loop } : ℤ) ≤ s.maxConcurrency) :
    (s.setLoop n w loop).Slotted := by
  refine ⟨fun n' w' hw' => ?_, fun n' w' hw' => ?_, fun g hg => ?_⟩
  · rcases getElem?_set_cases hw' with ⟨rfl, rfl⟩ | ⟨-, hw'⟩
    · exact h.counted n' w hw
    · exact h.counted n' w' hw'
  · rcases getElem?_set_cases hw' with ⟨rfl, rfl⟩ | ⟨-, hw'⟩
    · exact hres
    · exact h.bound n' w' hw'
  · simp only [Pool.setLoop, List.length_set]
    exact h.owner g hg

lemma held_new (h : s.Slotted) : s.held s.workers.length = 0 := by
  unfold held
  rw [List.countP_eq_zero]
  intro g hg
  have := h.owner g hg
  simp only [Bool.and_eq_true, decide_eq_true_eq, not_and]
  omega

lemma startWorker (h : s.Slotted) : ({ s with
    workerRunning := true, workers := s.workers ++ [⟨some .select, 0⟩] } : Pool).Slotted := by
  refine ⟨fun n w hw => ?_, fun n w hw => ?_, fun g hg => ?_⟩
  · rcases getElem?_snoc_cases hw with ⟨rfl, rfl⟩ | hw
    · exact congrArg Nat.cast h.held_new.symm
    · exact h.counted n w hw
  · rcases getElem?_snoc_cases hw with ⟨rfl, rfl⟩ | hw
    · simp [reserved]
    · exact h.bound n w hw
  · simp only [List.length_append]
    exact Nat.lt_add_right _ (h.owner g hg)

lemma startClaim (h : s.Slotted) {n run : ℕ} {rest : List ℕ} {w : WorkerCall}
    (hw : s.workers[n]? = some w) (hl : w.loop = some (.starting (run :: rest))) : ({ s with
      workers := s.workers.set n ⟨some (.starting rest), w.inFlight + 1⟩
      activeClaims := s.activeClaims.add
      claims := s.claims ++ [⟨n, run, .spawned⟩] } : Pool).Slotted := by
  have hheld : ∀ n', (s.claims ++ [(⟨n, run, .spawned⟩ : Goroutine)]).countP
      (fun g => g.worker = n' && g.phase.holdsSlot) = s.held n' + if n = n' then 1 else 0 := by
    intro n'
    rw [List.countP_append, List.countP_singleton]
    simp [held, GoPhase.holdsSlot]
  refine ⟨fun n' w' hw' => ?_, fun n' w' hw' => ?_, fun g hg => ?_⟩
  · rw [held, hheld]
    rcases getElem?_set_cases hw' with ⟨rfl, rfl⟩ | ⟨hne, hw'⟩
    · rw [if_pos rfl, Nat.cast_add, ← h.counted n' w hw]
      rfl
    · rw [if_neg hne.symm]
      exact h.counted n' w' hw'
  · rcases getElem?_set_cases hw' with ⟨rfl, rfl⟩ | ⟨-, hw'⟩
    · have hb := h.bound n' w hw
      simp only [reserved, hl, List.length_cons] at hb ⊢
      push_cast at hb
      omega
    · exact h.bound n' w' hw'
  · simp only [List.length_set]
    rcases List.mem_append.mp hg with hg | hg
    · exact h.owner g hg
    · rw [List.mem_singleton.mp hg]
      exact (List.getElem?_eq_some_iff.mp hw).1

lemma leave (h : s.Slotted) {c : ℕ} {g : Goroutine} (hg : s.claims[c]? = some g)
    (hp : g.phase = .released) : ({ s.setPhase c g .left with
      workers := s.workers.modify g.worker fun w => { w with inFlight := w.inFlight - 1 } } :
      Pool).Slotted := by
  have hheld : ∀ n, (s.setPhase c g .left).held n + (if g.worker = n then 1 else 0) = s.held n := by
    intro n
    have hset := countP_set_add (y := { g with phase := .left })
      (fun g : Goroutine => g.worker = n && g.phase.holdsSlot) hg
    have hreleased : GoPhase.released.holdsSlot = true := rfl
    have hleft : GoPhase.left.holdsSlot = false := rfl
    simpa [hp, hreleased, hleft, held, Pool.setPhase] using hset
  have hcases : ∀ {n : ℕ} {w : WorkerCall}, (s.workers.modify g.worker fun w =>
      { w with inFlight := w.inFlight - 1 })[n]? = some w → ∃ w₀, s.workers[n]? = some w₀ ∧
      w.loop = w₀.loop ∧ w.inFlight = w₀.inFlight - if g.worker = n then 1 else 0 := by
    intro n w hw
    rw [List.getElem?_modify] at hw
    obtain ⟨w₀, hw₀, rfl⟩ := Option.map_eq_some_iff.mp hw
    refine ⟨w₀, hw₀, ?_⟩
    split
    · exact ⟨rfl, rfl⟩
    · exact ⟨rfl, (Int.sub_zero _).symm⟩
  refine ⟨fun n w hw => ?_, fun n w hw => ?_, fun g' hg' => ?_⟩
  · obtain ⟨w₀, hw₀, -, hw⟩ := hcases hw
    have hn := hheld n
    change _ = (((s.setPhase c g .left).held n : ℕ) : ℤ)
    rw [hw, h.counted n w₀ hw₀, ← hn]
    push_cast
    split <;> simp
  · obtain ⟨w₀, hw₀, hloop, hw⟩ := hcases hw
    have hb := h.bound n w₀ hw₀
    have hres : reserved w = reserved w₀ := by rw [reserved, hloop, reserved]
    rw [hres, hw]
    change _ ≤ (s.maxConcurrency : ℤ)
    split <;> omega
  · simp only [List.length_modify]
    exact h.owner_setPhase hg g' hg'

lemma step (h : s.Slotted) (hstep : s.step a = some s') : s'.Slotted := by
  cases does hstep with
  | refused | full | busy => exact h
  | waitForIdle | enterWait | leaveWait | returnIdle => exact ⟨h.counted, h.bound, h.owner⟩
  | startWorker => exact h.startWorker
  | @dispatch n w hw hl hfree =>
    refine h.setLoop hw _ ?_
    simp only [reserved]
    omega
  | @claimed n available w runs hw hl hlen =>
    have hb := h.bound n w hw
    simp only [reserved, hl] at hb
    have hset := h.setLoop hw (some (.starting (List.range' s.returned.length runs.length)))
      (by simp only [reserved, List.length_range']; omega)
    exact ⟨hset.counted, hset.bound, hset.owner⟩
  | startClaim hw hl => exact h.startClaim hw hl
  | dispatched hw hl | cancel hw hl | drained hw hl =>
    have hb := h.bound _ _ hw
    exact h.setLoop hw _ (by simp only [reserved, hl] at hb ⊢; simpa using hb)
  | endWorker hw hl =>
    have hb := h.bound _ _ hw
    have hset := h.setLoop hw none (by simp only [reserved, hl] at hb ⊢; simpa using hb)
    exact ⟨hset.counted, hset.bound, hset.owner⟩
  | execute hg hp =>
    have hset := h.setPhase hg .executing (by rw [hp]; rfl)
    exact ⟨hset.counted, hset.bound, hset.owner⟩
  | release hg hp =>
    have hset := h.setPhase hg .released (by rw [hp]; rfl)
    exact ⟨hset.counted, hset.bound, hset.owner⟩
  | executed hg hp | gone hg hp => exact h.setPhase hg _ (by rw [hp]; rfl)
  | done hg hp =>
    have hset := h.setPhase hg .done (by rw [hp]; rfl)
    exact ⟨hset.counted, hset.bound, hset.owner⟩
  | leave hg hp => exact h.leave hg hp

end Slotted

/-! ### Runs -/

/-- The runs a worker still has to start. -/
def pending (l : Loop) : List ℕ :=
  match l with
  | .starting runs => runs
  | _ => []

/-- Claims are started in the order in which their runs were returned, and what is left is with
the running worker. -/
structure Ordered (s : Pool) : Prop where
  runs : s.claims.map Goroutine.run = List.range s.claims.length
  le : s.claims.length ≤ s.returned.length
  pending : ∀ (n : ℕ) w l, s.workers[n]? = some w → w.loop = some l →
    pending l = List.range' s.claims.length (s.returned.length - s.claims.length)
  idle : s.workerRunning = false → s.claims.length = s.returned.length

namespace Ordered

lemma nothing_left (h : s.Ordered) {n : ℕ} {w : WorkerCall} {l : Loop}
    (hw : s.workers[n]? = some w) (hl : w.loop = some l) (hnone : Pool.pending l = []) :
    s.claims.length = s.returned.length := by
  have hp := h.pending n w l hw hl
  have hle := h.le
  rw [hnone, eq_comm, List.range'_eq_nil_iff] at hp
  omega

lemma setLoop (h : s.Ordered) {n : ℕ} {w : WorkerCall} {l : Loop} (hw : s.workers[n]? = some w)
    (hl : w.loop = some l) {l' : Loop} (hsame : Pool.pending l' = Pool.pending l) :
    (s.setLoop n w (some l')).Ordered where
  runs := h.runs
  le := h.le
  pending n' w' l'' hw' hl' := by
    rcases getElem?_set_cases hw' with ⟨rfl, rfl⟩ | ⟨-, hw'⟩
    · cases hl'
      exact hsame.trans (h.pending n' w l hw hl)
    · exact h.pending n' w' l'' hw' hl'
  idle := h.idle

lemma of_claims (h : s.Ordered) (hclaims : s'.claims.map Goroutine.run = s.claims.map Goroutine.run)
    (hreturned : s'.returned = s.returned) (hrun : s'.workerRunning = s.workerRunning)
    (hloops : s'.workers.map WorkerCall.loop = s.workers.map WorkerCall.loop) : s'.Ordered := by
  have hlen : s'.claims.length = s.claims.length := by simpa using congrArg List.length hclaims
  refine ⟨by rw [hclaims, hlen]; exact h.runs, by rw [hlen, hreturned]; exact h.le,
    fun n w' l hw' hl => ?_, fun hidle => ?_⟩
  · have hn := congrArg (fun ls : List (Option Loop) => ls[n]?) hloops
    simp only [List.getElem?_map, hw', Option.map_some] at hn
    obtain ⟨w, hw, hsame⟩ := Option.map_eq_some_iff.mp hn.symm
    rw [hlen, hreturned]
    exact h.pending n w l hw (hsame.trans hl)
  · rw [hlen, hreturned]
    exact h.idle (hrun ▸ hidle)

lemma map_run_setPhase {c : ℕ} {g : Goroutine} (hg : s.claims[c]? = some g) (phase : GoPhase) :
    (s.setPhase c g phase).claims.map Goroutine.run = s.claims.map Goroutine.run :=
  map_set_eq _ hg rfl

lemma step (h : s.Ordered) (hf : s.Flagged) (hstep : s.step a = some s') : s'.Ordered := by
  cases does hstep with
  | refused | full | busy => exact h
  | startWorker hmu hrun =>
    have hsame := h.idle hrun
    refine ⟨h.runs, h.le, fun n w l hw hl => ?_, fun hidle => by cases hidle⟩
    rcases getElem?_snoc_cases hw with ⟨rfl, rfl⟩ | hw
    · cases hl
      simp [Pool.pending, hsame]
    · have := (hf.running hw hl).1
      rw [hrun] at this
      cases this
  | dispatch hw hl | dispatched hw hl | cancel hw hl | drained hw hl => exact h.setLoop hw hl rfl
  | @claimed n available w runs hw hl hlen =>
    have hsame := h.nothing_left hw hl rfl
    refine ⟨h.runs, ?_, fun n' w' l hw' hl' => ?_, fun hidle => ?_⟩
    · exact h.le.trans (by simp)
    · rcases getElem?_set_cases hw' with ⟨rfl, rfl⟩ | ⟨hne, hw'⟩
      · cases hl'
        simp [Pool.pending, Pool.setLoop, hsame]
      · exact absurd (hf.unique hw' hw (by rw [hl']; rfl) (by rw [hl]; rfl)) hne
    · have := (hf.running hw hl).1
      exact absurd hidle (by simp [Pool.setLoop, this])
  | @startClaim n run rest w hw hl =>
    -- the first run left is the next in order
    have hp := h.pending n w _ hw hl
    have hle := h.le
    obtain ⟨k, hk⟩ : ∃ k, s.returned.length - s.claims.length = k + 1 := by
      rcases hk : s.returned.length - s.claims.length with _ | k
      · rw [hk] at hp
        cases hp
      · exact ⟨k, rfl⟩
    rw [hk, List.range'_succ] at hp
    obtain ⟨rfl, rfl⟩ := List.cons.inj hp
    refine ⟨?_, ?_, fun n' w' l hw' hl' => ?_, fun hidle => ?_⟩
    · simp only [List.map_append, h.runs, List.length_append, List.length_singleton,
        List.range_succ, List.map_cons, List.map_nil]
    · simp only [List.length_append, List.length_singleton]
      omega
    · rcases getElem?_set_cases hw' with ⟨rfl, rfl⟩ | ⟨hne, hw'⟩
      · cases hl'
        simp only [Pool.pending, List.length_append, List.length_singleton]
        rw [show s.returned.length - (s.claims.length + 1) = k by omega]
      · exact absurd (hf.unique hw' hw (by rw [hl']; rfl) (by rw [hl]; rfl)) hne
    · have := (hf.running hw hl).1
      exact absurd hidle (by simp [this])
  | @endWorker n w hw hl hmu =>
    have hsame := h.nothing_left hw hl rfl
    refine ⟨h.runs, h.le, fun n' w' l hw' hl' => ?_, fun _ => hsame⟩
    rcases getElem?_set_cases hw' with ⟨rfl, rfl⟩ | ⟨hne, hw'⟩
    · cases hl'
    · exact absurd (hf.unique hw' hw (by rw [hl']; rfl) (by rw [hl]; rfl)) hne
  | execute hg | executed hg | release hg | done hg | gone hg =>
    exact h.of_claims (map_run_setPhase hg _) rfl rfl rfl
  | leave hg =>
    exact h.of_claims (map_run_setPhase hg _) rfl rfl (map_modify_eq _ _ _ fun _ => rfl)
  | waitForIdle | enterWait | leaveWait | returnIdle => exact h.of_claims rfl rfl rfl rfl

end Ordered

/-! ### Executions and releases -/

/-- The histories hold each run as often as its goroutine has got there. -/
structure Counted (s : Pool) : Prop where
  executions : ∀ t, s.executions.count t = s.claims.countP fun g => g.run = t && g.phase.begun
  releases : ∀ t, s.releases.count t = s.claims.countP fun g => g.run = t && g.phase.freed

namespace Counted

lemma countP_setPhase {c : ℕ} {g : Goroutine} (hg : s.claims[c]? = some g) {phase : GoPhase}
    (p : GoPhase → Bool) (hp : p phase = p g.phase) (t : ℕ) :
    (s.setPhase c g phase).claims.countP (fun g => g.run = t && p g.phase) =
      s.claims.countP fun g => g.run = t && p g.phase := by
  have h := countP_set_add (y := { g with phase := phase })
    (fun g : Goroutine => g.run = t && p g.phase) hg
  simp only [hp] at h
  exact Nat.add_right_cancel h

lemma countP_setPhase_succ {c : ℕ} {g : Goroutine} (hg : s.claims[c]? = some g) {phase : GoPhase}
    (p : GoPhase → Bool) (hold : p g.phase = false) (hnew : p phase = true) (t : ℕ) :
    (s.setPhase c g phase).claims.countP (fun g => g.run = t && p g.phase) =
      s.claims.countP (fun g => g.run = t && p g.phase) + if g.run = t then 1 else 0 := by
  have h := countP_set_add (y := { g with phase := phase })
    (fun g : Goroutine => g.run = t && p g.phase) hg
  simpa [hold, hnew, Pool.setPhase] using h

lemma count_snoc (l : List ℕ) (r t : ℕ) :
    (l ++ [r]).count t = l.count t + if r = t then 1 else 0 := by
  rw [List.count_append, List.count_singleton]
  simp [beq_iff_eq]

lemma setPhase (h : s.Counted) {c : ℕ} {g : Goroutine} (hg : s.claims[c]? = some g)
    (phase : GoPhase) (hbegun : phase.begun = g.phase.begun)
    (hfreed : phase.freed = g.phase.freed) : (s.setPhase c g phase).Counted where
  executions t := by rw [countP_setPhase hg _ hbegun]; exact h.executions t
  releases t := by rw [countP_setPhase hg _ hfreed]; exact h.releases t

lemma step (h : s.Counted) (hstep : s.step a = some s') : s'.Counted := by
  cases does hstep with
  | refused | full | busy => exact h
  | startWorker | dispatch | claimed | dispatched | cancel | drained | endWorker | waitForIdle
  | enterWait | leaveWait | returnIdle => exact ⟨h.executions, h.releases⟩
  | startClaim =>
    refine ⟨fun t => ?_, fun t => ?_⟩
    · rw [List.countP_append, List.countP_singleton]
      simpa [GoPhase.begun] using h.executions t
    · rw [List.countP_append, List.countP_singleton]
      simpa [GoPhase.freed] using h.releases t
  | execute hg hp =>
    refine ⟨fun t => ?_, fun t => ?_⟩
    · rw [count_snoc, h.executions t, countP_setPhase_succ hg _ (by rw [hp]; rfl) rfl]
    · rw [countP_setPhase hg _ (by rw [hp]; rfl)]
      exact h.releases t
  | release hg hp =>
    refine ⟨fun t => ?_, fun t => ?_⟩
    · rw [countP_setPhase hg _ (by rw [hp]; rfl)]
      exact h.executions t
    · rw [count_snoc, h.releases t, countP_setPhase_succ hg _ (by rw [hp]; rfl) rfl]
  | executed hg hp | gone hg hp => exact h.setPhase hg _ (by rw [hp]; rfl) (by rw [hp]; rfl)
  | leave hg hp =>
    have hset := h.setPhase hg .left (by rw [hp]; rfl) (by rw [hp]; rfl)
    exact ⟨hset.executions, hset.releases⟩
  | done hg hp =>
    have hset := h.setPhase hg .done (by rw [hp]; rfl) (by rw [hp]; rfl)
    exact ⟨hset.executions, hset.releases⟩

end Counted

/-! ### `activeClaims` -/

/-- `activeClaims` is what it counts, and the goroutine of the `WaitForIdle` in progress gets
through when it is zero. -/
structure Tracked (s : Pool) : Prop where
  counter : s.activeClaims.counter = s.claims.countP fun g => g.phase.active
  waits : ∀ m, s.workerMu = some m → s.activeClaims.waiters[m]? = some .woken ∨
    s.activeClaims.waiters[m]? = some .returned → s.activeClaims.counter = 0

namespace Tracked

lemma countP_active {c : ℕ} {g : Goroutine} (hg : s.claims[c]? = some g) {phase : GoPhase}
    (hp : phase.active = g.phase.active) :
    (s.setPhase c g phase).claims.countP (fun g => g.phase.active) =
      s.claims.countP fun g => g.phase.active := by
  have h := countP_set_add (y := { g with phase := phase })
    (fun g : Goroutine => g.phase.active) hg
  simp only [hp] at h
  exact Nat.add_right_cancel h

lemma step (h : s.Tracked) (hf : s.Flagged) (hstep : s.step a = some s') : s'.Tracked := by
  cases does hstep with
  | refused | full | busy => exact h
  | startWorker | dispatch | claimed | dispatched | cancel | drained | endWorker =>
    exact ⟨h.counter, h.waits⟩
  | startClaim hw hl =>
    have hmu := hf.mutex_free hw hl
    refine ⟨?_, fun m hm => ?_⟩
    · rw [List.countP_append, List.countP_singleton, ← h.counter]
      rfl
    · have hm : s.workerMu = some m := hm
      rw [hmu] at hm
      cases hm
  | execute hg hp | executed hg hp | release hg hp | leave hg hp | gone hg hp =>
    exact ⟨h.counter.trans (countP_active hg (by rw [hp]; rfl)).symm, h.waits⟩
  | @done c g wg hg hp hwg =>
    have hset := countP_set_add (y := { g with phase := .done })
      (fun g : Goroutine => g.phase.active) hg
    have hleft : GoPhase.left.active = true := rfl
    have hdone : GoPhase.done.active = false := rfl
    simp only [hp, hleft, hdone, if_true, Bool.false_eq_true, if_false] at hset
    rw [← h.counter] at hset
    have hcounter := WaitGroup.done_counter hwg
    refine ⟨?_, fun m hm hw => ?_⟩
    · change wg.counter = (s.claims.set c { g with phase := .done }).countP _
      omega
    · by_contra hne
      have hw : s.activeClaims.waiters[m]? = some .woken ∨
          s.activeClaims.waiters[m]? = some .returned := by
        rw [← WaitGroup.done_waiters hwg hne]
        exact hw
      have := h.waits m hm hw
      omega
  | waitForIdle hmu hrun =>
    refine ⟨h.counter, fun m hm hw => ?_⟩
    cases hm
    simp [WaitGroup.spawn] at hw
  | enterWait hwg =>
    have hcounter := WaitGroup.enter_counter hwg
    refine ⟨hcounter.trans h.counter, fun m hm hw => hcounter.trans ?_⟩
    rcases hw with hw | hw
    · rcases WaitGroup.enter_waiters hwg hw with hw | hw | hc
      · exact h.waits m hm (Or.inl hw)
      · cases hw
      · exact hc
    · rcases WaitGroup.enter_waiters hwg hw with hw | hw | hc
      · exact h.waits m hm (Or.inr hw)
      · cases hw
      · exact hc
  | leaveWait hwg =>
    have hcounter := WaitGroup.leave_counter hwg
    refine ⟨hcounter.trans h.counter, fun m hm hw => hcounter.trans ?_⟩
    rcases hw with hw | hw
    · rcases WaitGroup.leave_waiters hwg hw with hw | hw <;> exact h.waits m hm (Or.inl hw)
    · rcases WaitGroup.leave_waiters hwg hw with hw | hw
      · exact h.waits m hm (Or.inr hw)
      · exact h.waits m hm (Or.inl hw)
  | returnIdle => exact ⟨h.counter, fun m hm => by cases hm⟩

end Tracked

/-! ### Every run of the engine -/

structure Inv (s : Pool) : Prop where
  flagged : s.Flagged
  slotted : s.Slotted
  ordered : s.Ordered
  counted : s.Counted
  tracked : s.Tracked

lemma Inv.init (maxConcurrency : ℕ) : (Pool.init maxConcurrency).Inv where
  flagged := ⟨(fun _ _ hw => by cases hw), (fun h => by cases h), (fun h => by cases h)⟩
  slotted := ⟨(fun _ _ hw => by cases hw), (fun _ _ hw => by cases hw), (fun _ hg => by cases hg)⟩
  ordered := ⟨rfl, le_rfl, (fun _ _ _ hw => by cases hw), fun _ => rfl⟩
  counted := ⟨fun _ => rfl, fun _ => rfl⟩
  tracked := ⟨rfl, (fun _ hm => by cases hm)⟩

lemma Inv.step (h : s.Inv) (hstep : s.step a = some s') : s'.Inv where
  flagged := h.flagged.step hstep
  slotted := h.slotted.step hstep
  ordered := h.ordered.step h.flagged hstep
  counted := h.counted.step hstep
  tracked := h.tracked.step h.flagged hstep

theorem inv_of_reaches {maxConcurrency : ℕ} (h : Reaches Pool.step (init maxConcurrency) s) :
    s.Inv :=
  h.invariant (Inv.init maxConcurrency) fun _ _ _ hs _ hstep => hs.step hstep

lemma maxConcurrency_of_reaches {maxConcurrency : ℕ}
    (h : Reaches Pool.step (init maxConcurrency) s) : s.maxConcurrency = maxConcurrency := by
  refine h.invariant (P := fun s => s.maxConcurrency = maxConcurrency) rfl ?_
  intro s a s' hs _ hstep
  rw [← hs]
  cases does hstep <;> rfl

lemma countP_run {claims : List Goroutine} (h : claims.map Goroutine.run = List.range claims.length)
    (p : GoPhase → Bool) (t : ℕ) : claims.countP (fun g => g.run = t && p g.phase) =
      if (claims[t]?).any (fun g => p g.phase) then 1 else 0 := by
  induction claims using List.reverseRecOn with
  | nil => rfl
  | append_singleton claims g ih =>
    rw [List.map_append, List.length_append, List.length_singleton, List.range_succ] at h
    obtain ⟨hclaims, hg⟩ := List.append_inj h (by simp)
    have hg : g.run = claims.length := by simpa using hg
    rw [List.countP_append, List.countP_singleton, ih hclaims, hg]
    rcases lt_trichotomy t claims.length with ht | rfl | ht
    · rw [List.getElem?_append_left ht]
      simp [ht.ne']
    · simp
    · rw [List.getElem?_eq_none ht.le, List.getElem?_eq_none (by simp; omega)]
      simp [ht.ne]

end Pool

end DurablePg

import DurablePg.Lib.Trace

/-!
A loop that works off a store batch by batch while others use it: it ends with the first batch
that is not full, when its time is up, after so many batches, or with an error.
-/

namespace DurablePg.Lib

/-- Why the loop has ended. -/
inductive Ending
  | drained | late | spent | failed
  deriving DecidableEq

structure Pass (σ : Type*) where
  state : σ
  /-- The batches that may still be taken. -/
  left : ℕ
  /-- What the batches so far have taken. -/
  taken : ℕ
  ended : Option Ending

inductive PassAct (α β : Type*)
  | other (a : α)
  /-- One turn of the loop; the time is up after it or not. -/
  | batch (b : β) (late : Bool)
  | fail

namespace Pass

variable {σ α β : Type*} (step : σ → α → Option σ) (batch : σ → β → Option (σ × ℕ)) (size : ℕ)

def start (maxBatches : ℕ) (s : σ) : Pass σ :=
  ⟨s, maxBatches, 0, if maxBatches = 0 then some .spent else none⟩

def next (p : Pass σ) : PassAct α β → Option (Pass σ)
  | .other a => (step p.state a).map fun s => { p with state := s }
  | .batch b late =>
    if p.ended.isSome then none
    else (batch p.state b).map fun (s, n) =>
      { state := s
        left := p.left - 1
        taken := p.taken + n
        ended :=
          if n < size then some .drained
          else if late then some .late
          else if p.left = 1 then some .spent
          else none }
  | .fail => if p.ended.isSome then none else some { p with ended := some .failed }

/-- Something that the loop is there to remove: nobody brings it back, and a batch that is not
full has removed it unless it was blocked. `P` is an invariant of the store. -/
structure Removes (P Gone Blocked : σ → Prop) : Prop where
  other : ∀ s a s', P s → step s a = some s' → P s' ∧ (Gone s → Gone s')
  batch : ∀ s b s' n, P s → batch s b = some (s', n) →
    P s' ∧ (n < size → Gone s' ∨ Blocked s)

/-- In this run of the loop, `q` is the pass just before the batch that was not full. -/
def Drains (p₀ : Pass σ) (acts : List (PassAct α β)) (q : Pass σ) : Prop :=
  ∃ b late q', Takes (next step batch size) p₀ acts (.batch b late) q ∧
    q.next step batch size (.batch b late) = some q' ∧ q'.ended = some .drained

variable {step batch size} {P Gone Blocked : σ → Prop} {maxBatches : ℕ} {s : σ} {p p₀ q : Pass σ}
  {acts : List (PassAct α β)}

lemma Drains.snoc (h : Drains step batch size p₀ acts q) (a : PassAct α β) :
    Drains step batch size p₀ (acts ++ [a]) q := by
  obtain ⟨b, late, q', htakes, hq', hended⟩ := h
  exact ⟨b, late, q', htakes.snoc a, hq', hended⟩

/-- What is known of a pass in progress; `stopped` is why it may have drained with the thing still
there. -/
structure Inv (P Gone : σ → Prop) (stopped : Prop) (size maxBatches : ℕ) (p : Pass σ) : Prop where
  state : P p.state
  running : p.ended = none → p.left ≠ 0 ∧ maxBatches * size ≤ p.taken + p.left * size
  spent : p.ended = some .spent → maxBatches * size ≤ p.taken
  drained : p.ended = some .drained → Gone p.state ∨ stopped

lemma inv_next (hr : Removes step batch size P Gone Blocked)
    (hp : p.Inv P Gone (∃ q, Drains step batch size p₀ acts q ∧ Blocked q.state) size maxBatches)
    (hrun : acts.foldlM (next step batch size) p₀ = some p) {a : PassAct α β} {p' : Pass σ}
    (h : p.next step batch size a = some p') :
    p'.Inv P Gone (∃ q, Drains step batch size p₀ (acts ++ [a]) q ∧ Blocked q.state) size
      maxBatches := by
  cases a with
  | other a =>
    obtain ⟨s', hs, rfl⟩ := Option.map_eq_some_iff.mp h
    obtain ⟨hP, hgone⟩ := hr.other p.state a s' hp.state hs
    refine ⟨hP, hp.running, hp.spent, fun he => (hp.drained he).imp hgone ?_⟩
    rintro ⟨q, hq, hblocked⟩
    exact ⟨q, hq.snoc _, hblocked⟩
  | batch b late =>
    have hdrains (he : p'.ended = some .drained) :
        Drains step batch size p₀ (acts ++ [.batch b late]) p := ⟨b, late, p', .last hrun _, h, he⟩
    obtain ⟨hended, h⟩ := Option.ite_none_left_eq_some.mp h
    obtain ⟨⟨s', n⟩, hs, rfl⟩ := Option.map_eq_some_iff.mp h
    obtain ⟨hP, hless⟩ := hr.batch p.state b s' n hp.state hs
    obtain ⟨hleft, hcount⟩ := hp.running (by simpa using hended)
    have hmul : p.left * size = (p.left - 1) * size + size := by
      rw [← Nat.succ_mul, Nat.succ_eq_add_one, Nat.sub_add_cancel (Nat.pos_of_ne_zero hleft)]
    refine ⟨hP, ?_, ?_, ?_⟩ <;> dsimp only <;> split
    · intro he; cases he
    · intro he
      split at he
      · cases he
      · split at he
        · cases he
        · exact ⟨by omega, by omega⟩
    · intro he; cases he
    · intro he
      split at he
      · cases he
      · split at he
        · rename_i hone
          rw [hone] at hcount
          omega
        · cases he
    · rename_i hn
      exact fun _ => (hless hn).imp_right fun hblocked => ⟨p, hdrains (if_pos hn), hblocked⟩
    · intro he
      split at he
      · cases he
      · split at he <;> cases he
  | fail =>
    obtain ⟨-, h⟩ := Option.ite_none_left_eq_some.mp h
    cases h
    exact ⟨hp.state, (fun he => by cases he), (fun he => by cases he), fun he => by cases he⟩

/-- **What a pass achieves**: when it has ended without an error, the thing is gone, or was blocked
at the batch that was not full, or the time was up, or every batch was full. -/
theorem complete (hr : Removes step batch size P Gone Blocked) (hs : P s)
    (hrun : acts.foldlM (next step batch size) (start maxBatches s) = some p) {e : Ending}
    (he : p.ended = some e) (hok : e ≠ .failed) :
    Gone p.state ∨
      (e = .drained ∧ ∃ q, Drains step batch size (start maxBatches s) acts q ∧ Blocked q.state) ∨
      e = .late ∨ (e = .spent ∧ maxBatches * size ≤ p.taken) := by
  let Stopped (l : List (PassAct α β)) : Prop :=
    ∃ q, Drains step batch size (start maxBatches s) l q ∧ Blocked q.state
  have hinit : (start maxBatches s).Inv P Gone (Stopped []) size maxBatches := by
    refine ⟨hs, ?_, ?_, ?_⟩ <;> unfold start <;> dsimp only <;> split
    · intro h; cases h
    · exact fun _ => ⟨by assumption, by omega⟩
    · rename_i hzero
      intro _
      simp [hzero]
    · intro h; cases h
    · intro h; cases h
    · intro h; cases h
  have hp : p.Inv P Gone (Stopped acts) size maxBatches :=
    run_induction (P := fun l z => z.Inv P Gone (Stopped l) size maxBatches) hinit
      (fun _ _ _ _ hrun ih h => inv_next hr ih hrun h) hrun
  cases e with
  | drained => exact (hp.drained he).imp_right fun hstopped => Or.inl ⟨rfl, hstopped⟩
  | late => exact Or.inr (Or.inr (Or.inl rfl))
  | spent => exact Or.inr (Or.inr (Or.inr ⟨rfl, hp.spent he⟩))
  | failed => exact absurd rfl hok

end Pass

end DurablePg.Lib

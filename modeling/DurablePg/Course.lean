import DurablePg.Lawful

/-!
What holds along a lawful life: the cursor against the checkpoints, and where each checkpoint
and the output came from.
-/

namespace DurablePg

variable {J Ω : Type}

/-- The stored cursor against the checkpoints, for a run of the definition. -/
structure Cursor (wf : CompiledWorkflow Ω) (r : Row J) (cps : ℕ → Option J) : Prop where
  le : r.stepIndex ≤ wf.ops.length
  below : ∀ i op, i < r.stepIndex → wf.ops[i]? = some op → op.isSleep = false → (cps i).isSome
  sleep : ∀ i op, wf.ops[i]? = some op → op.isSleep = true → cps i = none
  above : ∀ i, r.stepIndex < i → cps i = none
  here : (cps r.stepIndex).isSome →
    (∃ op, wf.ops[r.stepIndex]? = some op ∧ op.isWait = true) ∧ r.state ≠ .waitingEvent
  waiting : r.state = .waitingEvent → ∃ op, wf.ops[r.stepIndex]? = some op ∧ op.isWait = true
  completed : r.state = .completed → r.stepIndex = wf.ops.length

/-- Insert a checkpoint where none is. -/
def record (cps : ℕ → Option J) (k : ℕ) (x : J) : ℕ → Option J :=
  fun i => (cps i).or (if k = i then some x else none)

section Record

variable {cps : ℕ → Option J} {k i : ℕ} {x : J}

lemma record_ne (h : i ≠ k) : record cps k x i = cps i := by
  simp [record, Ne.symm h]

lemma record_self (h : cps k = none) : record cps k x k = some x := by
  simp [record, h]

lemma record_isSome (h : (cps i).isSome) : (record cps k x i).isSome := by
  obtain ⟨y, hy⟩ := Option.isSome_iff_exists.mp h
  simp [record, hy]

end Record

namespace Cursor

variable {wf : CompiledWorkflow Ω} {r r' : Row J} {cps : ℕ → Option J}

lemma beyond (h : Cursor wf r cps) {i : ℕ} (hi : wf.ops.length ≤ i) : cps i = none := by
  rcases Nat.lt_or_ge r.stepIndex i with hlt | hge
  · exact h.above i hlt
  · have heq : r.stepIndex = i := by have := h.le; omega
    by_contra hne
    rw [← heq] at hne hi
    obtain ⟨⟨op, hop, -⟩, -⟩ := h.here (Option.isSome_iff_ne_none.mpr hne)
    rw [List.getElem?_eq_none hi] at hop
    cases hop

lemma none_of_waiting (h : Cursor wf r cps) (hw : r.state = .waitingEvent) :
    cps r.stepIndex = none := by
  by_contra hne
  exact (h.here (Option.isSome_iff_ne_none.mpr hne)).2 hw

lemma quiet (h : Cursor wf r cps) (hq : r.Quiet r') : Cursor wf r' cps := by
  refine ⟨?_, ?_, h.sleep, ?_, ?_, ?_, ?_⟩
  · rw [hq.stepIndex]; exact h.le
  · rw [hq.stepIndex]; exact h.below
  · rw [hq.stepIndex]; exact h.above
  · rw [hq.stepIndex]
    exact fun hs => ⟨(h.here hs).1, fun hw => (h.here hs).2 (hq.waiting hw).1⟩
  · rw [hq.stepIndex]; exact fun hw => h.waiting (hq.waiting hw).1
  · rw [hq.stepIndex]; exact fun hc => h.completed (hq.completed hc)

lemma outcome (h : Cursor wf r cps) (hwait : r.state = .waitingEvent) (hstate : r'.state = .ready)
    (hindex : r'.stepIndex = r.stepIndex) (x : J) : Cursor wf r' (record cps r.stepIndex x) := by
  obtain ⟨op, hop, hiswait⟩ := h.waiting hwait
  refine ⟨?_, ?_, ?_, ?_, ?_, ?_, ?_⟩ <;> try rw [hindex]
  · exact h.le
  · exact fun i op hi hop hs => record_isSome (h.below i op hi hop hs)
  · intro i op' hop' hs
    have hne : i ≠ r.stepIndex := by
      rintro rfl
      rw [hop] at hop'; cases hop'
      rw [Operation.isSleep_of_isWait hiswait] at hs; cases hs
    rw [record_ne hne]; exact h.sleep i op' hop' hs
  · exact fun i hi => by rw [record_ne (by omega)]; exact h.above i hi
  · exact fun _ => ⟨⟨op, hop, hiswait⟩, by simp [hstate]⟩
  · intro hw; rw [hstate] at hw; cases hw
  · intro hc; rw [hstate] at hc; cases hc

lemma commit (h : Cursor wf r cps) {k : ℕ} (hn : Next wf r cps k) {op : Operation Ω}
    (hop : wf.ops[k]? = some op) (hsleep : op.isSleep = false) (hnone : cps k = none)
    (hindex : r'.stepIndex = k + 1) (hwait : r'.state ≠ .waitingEvent)
    (hdone : r'.state = .completed → k + 1 = wf.ops.length) (x : J) :
    Cursor wf r' (record cps k x) := by
  have hk : k < wf.ops.length := (List.getElem?_eq_some_iff.mp hop).1
  have hcur := hn.cursor
  refine ⟨?_, ?_, ?_, ?_, ?_, ?_, ?_⟩ <;> try rw [hindex]
  · omega
  · intro i op' hi hop' hs
    by_cases hik : i = k
    · rw [hik, record_self hnone]; rfl
    · exact record_isSome (hn.below i op' (by omega) hop' hs)
  · intro i op' hop' hs
    have hne : i ≠ k := by
      rintro rfl
      rw [hop] at hop'; cases hop'
      rw [hsleep] at hs; cases hs
    rw [record_ne hne]; exact h.sleep i op' hop' hs
  · exact fun i hi => by rw [record_ne (by omega)]; exact h.above i (by omega)
  · intro hs
    rw [record_ne (by omega), h.above (k + 1) (by omega)] at hs; cases hs
  · exact fun hw => absurd hw hwait
  · exact hdone

lemma move (h : Cursor wf r cps) {k : ℕ} (hcur : r.stepIndex ≤ k) (hle : k ≤ wf.ops.length)
    (hbelow : ∀ i op, i < k → wf.ops[i]? = some op → op.isSleep = false → (cps i).isSome)
    (hnone : cps k = none) (hindex : r'.stepIndex = k)
    (hwait : r'.state = .waitingEvent → ∃ op, wf.ops[k]? = some op ∧ op.isWait = true)
    (hdone : r'.state = .completed → k = wf.ops.length) : Cursor wf r' cps := by
  refine ⟨?_, ?_, h.sleep, ?_, ?_, ?_, ?_⟩ <;> rw [hindex]
  · exact hle
  · exact hbelow
  · exact fun i hi => h.above i (by omega)
  · intro hs; rw [hnone] at hs; cases hs
  · exact hwait
  · exact hdone

end Cursor

/-! ### The course of a run -/

variable [Jsonb J]

/-- The state of a run that has had a lawful life. -/
structure Course (past : Past J Ω) (wf : CompiledWorkflow Ω) (cps : ℕ → Option J) (r : Row J) :
    Prop where
  name : r.workflowName = wf.name
  version : r.workflowVersion = wf.version
  cursor : Cursor wf r cps
  /-- Every checkpoint is a result of its operation on the checkpoints below. -/
  origin : ∀ i x, cps i = some x → ∃ op, wf.ops[i]? = some op ∧ past.Result wf r cps i op x
  waitKey : r.state = .waitingEvent → ∃ name key timeout k,
    wf.ops[r.stepIndex]? = some (.waitEvent name key timeout) ∧ r.waitingEventKey = some k ∧
    past.Called wf r cps r.stepIndex name fun ω sc => key.resolve ω sc = .ok k
  output : r.state = .completed → r.outputJson = wf.outputIndex.bind cps

namespace Course

variable {past : Past J Ω} {wf : CompiledWorkflow Ω} {r r' : Row J} {cps : ℕ → Option J}

lemma origin_record (h : Course past wf cps r) (hr : r.Keeps r') {k : ℕ} {x : J}
    {op : Operation Ω} (hop : wf.ops[k]? = some op) (hres : past.Result wf r cps k op x)
    (hnone : cps k = none) (habove : ∀ i, k < i → cps i = none) (i : ℕ) (y : J)
    (hy : record cps k x i = some y) :
    ∃ op, wf.ops[i]? = some op ∧ past.Result wf r' (record cps k x) i op y := by
  by_cases hik : i = k
  · subst hik
    rw [record_self hnone] at hy; cases hy
    exact ⟨op, hop, hres.congr (.refl past) hr fun j hj => record_ne (by omega)⟩
  · rw [record_ne hik] at hy
    obtain ⟨op', hop', hres'⟩ := h.origin i y hy
    have hlt : i < k := by
      by_contra hge
      rw [habove i (by omega)] at hy; cases hy
    exact ⟨op', hop', hres'.congr (.refl past) hr fun j hj => record_ne (by omega)⟩

lemma origin_keep (h : Course past wf cps r) (hr : r.Keeps r') (i : ℕ) (y : J)
    (hy : cps i = some y) : ∃ op, wf.ops[i]? = some op ∧ past.Result wf r' cps i op y := by
  obtain ⟨op, hop, hres⟩ := h.origin i y hy
  exact ⟨op, hop, hres.congr (.refl past) hr fun _ _ => rfl⟩

lemma inserted {n : NewRun J} (hname : n.workflowName = wf.name)
    (hversion : n.workflowVersion = wf.version) (now : Time) :
    Course past wf (fun _ => none) (n.row now) where
  name := hname
  version := hversion
  cursor := by constructor <;> simp [NewRun.row]
  origin _ _ h := by cases h
  waitKey h := by cases h
  output h := by cases h

lemma quiet (h : Course past wf cps r) (hr : r.Keeps r') (hq : r.Quiet r') :
    Course past wf cps r' where
  name := hr.workflowName.trans h.name
  version := hr.workflowVersion.trans h.version
  cursor := h.cursor.quiet hq
  origin := h.origin_keep hr
  waitKey hw := by
    obtain ⟨name, key, timeout, k, hop, hk, hcall⟩ := h.waitKey (hq.waiting hw).1
    rw [hq.stepIndex]
    exact ⟨name, key, timeout, k, hop, (hq.waiting hw).2.trans hk,
      hcall.congr (.refl past) hr fun _ _ => rfl⟩
  output hc := by rw [hq.outputJson]; exact h.output (hq.completed hc)

lemma outcome (h : Course past wf cps r) (hr : r.Keeps r') {ch : Change J} {x : J}
    (hwait : r.state = .waitingEvent) (hstate : r'.state = .ready)
    (hindex : r'.stepIndex = r.stepIndex) {v : View J} (hfits : ch.Fits past wf v)
    (hx : (∃ now, ch = .timedOut now ∧ x = timedOut) ∨ ∃ key payload now,
      ch = .delivered key payload now ∧ r.waitingEventKey = some key ∧ x = received payload) :
    Course past wf (record cps r.stepIndex x) r' := by
  obtain ⟨name, key, timeout, k, hop, hk, hcall⟩ := h.waitKey hwait
  have hres : past.Result wf r cps r.stepIndex (.waitEvent name key timeout) x := by
    rcases hx with ⟨now, -, rfl⟩ | ⟨key', payload, now, rfl, hkey, rfl⟩
    · exact .timedOut
    · obtain ⟨e, he, hekey, rfl⟩ := hfits
      rw [hkey] at hk; cases hk
      exact .received hcall he hekey
  refine ⟨hr.workflowName.trans h.name, hr.workflowVersion.trans h.version,
    h.cursor.outcome hwait hstate hindex x,
    h.origin_record hr hop hres (h.cursor.none_of_waiting hwait) h.cursor.above, ?_, ?_⟩
  · intro hw; rw [hstate] at hw; cases hw
  · intro hc; rw [hstate] at hc; cases hc

omit [Jsonb J] in
/-- The completing commit and `completeRun` store the value of the same operation. -/
lemma output_commit (hv : wf.Valid) {k : ℕ} {op : Operation Ω} (hop : wf.ops[k]? = some op)
    (hsleep : op.isSleep = false) (hlast : k + 1 = wf.ops.length) (hnone : cps k = none) (x : J) :
    some x = wf.outputIndex.bind (record cps k x) := by
  have hk : wf.ops.length - 1 = k := by omega
  rw [hv.output_last (hk.symm ▸ hop) hsleep, hk]
  exact (record_self hnone).symm

lemma progress (hv : wf.Valid) (h : Course past wf cps r) {w : Write J} {token : Token}
    {now clock : Time} (hw : w.progress = true)
    (hg : (w.update cps r.id token now clock).guard r = true) (hfits : w.Fits past wf r cps) :
    Course past wf (fun i => (cps i).or ((w.update cps r.id token now clock).recordAt r i))
      ((w.update cps r.id token now clock).set r) := by
  obtain ⟨-, hs, -⟩ := fence_iff.mp (Write.fence_of_guard hg)
  have hkeeps : r.Keeps ((w.update cps r.id token now clock).set r) := by
    cases w <;> exact ⟨rfl, rfl, rfl, rfl, rfl, rfl, rfl⟩
  -- all but the first of the writes record nothing
  have hcps : (w.update cps r.id token now clock).record r = none →
      (fun i => (cps i).or ((w.update cps r.id token now clock).recordAt r i)) = cps := by
    intro hrec; funext i; simp [Update.recordAt, hrec]
  cases w with
  | commitStep k x complete =>
    obtain ⟨hn, hnone, hlast, op, hop, hres⟩ := hfits
    have hrec : (fun i => (cps i).or (((Write.commitStep k x complete).update cps r.id token
        now clock).recordAt r i)) = record cps k x := by
      funext i; simp only [Update.recordAt, hg, if_true]; rfl
    rw [hrec]
    have hsleep := hres.not_sleep
    refine ⟨h.name, h.version, h.cursor.commit hn hop hsleep hnone rfl ?_ ?_ x,
      h.origin_record hkeeps hop hres hnone fun i hi => h.cursor.above i ?_, ?_, ?_⟩
    · cases complete <;> simp [Write.update, commitStep, hs]
    · cases complete
      · simp [Write.update, commitStep, hs]
      · exact fun _ => hlast.mp rfl
    · have := hn.cursor; omega
    · cases complete <;> simp [Write.update, commitStep, hs]
    · cases complete
      · simp [Write.update, commitStep, hs]
      · intro _
        simp only [Write.update, commitStep, hnone, if_true, Option.getD_none]
        exact output_commit hv hop hsleep (hlast.mp rfl) hnone x
  | completeRun steps output =>
    obtain ⟨rfl, hn, hout⟩ := hfits
    rw [hcps rfl]
    refine ⟨h.name, h.version, h.cursor.move hn.cursor hn.le hn.below (h.cursor.beyond le_rfl) rfl
      ?_ fun _ => rfl, h.origin_keep hkeeps, ?_, fun _ => hout⟩
    · intro hc; cases hc
    · intro hc; cases hc
  | parkSleep next ms =>
    obtain ⟨i, d, rfl, hop, -, hn⟩ := hfits
    have hi : i < wf.ops.length := (List.getElem?_eq_some_iff.mp hop).1
    have hcur := hn.cursor
    rw [hcps rfl]
    refine ⟨h.name, h.version, h.cursor.move (k := i + 1) (by omega) hi ?_
      (h.cursor.above _ (by omega)) rfl ?_ ?_, h.origin_keep hkeeps, ?_, ?_⟩
    · intro j op hj hop' hsleep
      rcases Nat.lt_succ_iff_lt_or_eq.mp hj with hlt | rfl
      · exact hn.below j op hlt hop' hsleep
      · -- the operation at the old cursor is the sleep itself
        rw [hop] at hop'; cases hop'; cases hsleep
    all_goals intro hc; cases hc
  | parkWait i k ms =>
    obtain ⟨hn, hnone, name, key, timeout, hop, -, hcall⟩ := hfits
    rw [hcps rfl]
    refine ⟨h.name, h.version, h.cursor.move hn.cursor hn.le hn.below hnone rfl
      (fun _ => ⟨_, hop, rfl⟩) ?_, h.origin_keep hkeeps, fun _ => ⟨name, key, timeout, k, hop, rfl,
        hcall.congr (.refl past) hkeeps fun _ _ => rfl⟩, ?_⟩
    all_goals intro hc; cases hc
  | failOrRetry => cases hw

lemma moves (hv : wf.Valid) {v v' : View J} {ch : Change J} (h : Course past wf v.cps r)
    (hr : v.row = some r) (hm : v.Moves ch v') (hfits : ch.Fits past wf v) :
    ∃ r', v'.row = some r' ∧ Course past wf v'.cps r' := by
  obtain ⟨r', hr'⟩ := hm.row_some
  have hkeeps := hm.keeps hr hr'
  refine ⟨r', hr', ?_⟩
  cases hm.effect hr with
  | quiet hq hch => cases hr'; exact h.quiet hkeeps hq
  | outcome hwait hstate hindex hx =>
    cases hr'
    exact h.outcome hkeeps hwait hstate hindex hfits hx
  | progress hw hg => cases hr'; exact h.progress hv hw hg (hfits r hr)

end Course

/-- **Course**: a run that has had a lawful life is on its course. -/
theorem Lawful.course {past : Past J Ω} {wf : CompiledWorkflow Ω} (hv : wf.Valid)
    {l : List (Change J)} {v : View J} (h : Lawful past wf l v) {r : Row J} (hr : v.row = some r) :
    Course past wf v.cps r := by
  refine h.row_induction (motive := fun _ v r => Course past wf v.cps r) ?_ ?_ hr
  · exact fun n now _ hname hversion => Course.inserted hname hversion now
  · intro l v ch v' r r' _ hm hfits hr hr' ih
    obtain ⟨r₁, hr₁, hcourse⟩ := ih.moves hv hr hm hfits
    rw [hr₁] at hr'; cases hr'; exact hcourse

/-! ### Later states -/

lemma View.Moves.stepIndex_le {past : Past J Ω} {wf : CompiledWorkflow Ω} {v v' : View J}
    {ch : Change J} (hm : v.Moves ch v') (hfits : ch.Fits past wf v) {r r' : Row J}
    (hr : v.row = some r) (hr' : v'.row = some r') : r.stepIndex ≤ r'.stepIndex := by
  cases hm.effect hr with
  | quiet hq => cases hr'; exact hq.stepIndex.ge
  | outcome _ _ hindex => cases hr'; exact hindex.ge
  | @progress token w now clock hw hg =>
    cases hr'
    have hfits : w.Fits past wf r v.cps := hfits r hr
    cases w with
    | commitStep i x complete => exact hfits.1.cursor.trans (Nat.le_succ i)
    | completeRun steps output => exact hfits.2.1.cursor
    | parkSleep next ms =>
      obtain ⟨i, d, rfl, -, -, hn⟩ := hfits
      exact hn.cursor.trans (Nat.le_succ i)
    | parkWait i k ms => exact hfits.1.cursor
    | failOrRetry => cases hw

/-- **Progress**: from any point of a lawful life on, the cursor does not go back and the
checkpoints stay. -/
theorem Lawful.later {past : Past J Ω} {wf : CompiledWorkflow Ω} {l l' : List (Change J)}
    {v v' : View J} (h : Lawful past wf (l ++ l') v') (hl : Life l v) {r : Row J}
    (hr : v.row = some r) : ∃ r', v'.row = some r' ∧ r.Keeps r' ∧ r.stepIndex ≤ r'.stepIndex ∧
      ∀ i x, v.cps i = some x → v'.cps i = some x := by
  -- the changes after the first point, the last one first
  induction l' using List.reverseRecOn generalizing v' with
  | nil =>
    rw [List.append_nil] at h
    obtain rfl := hl.unique h.life
    exact ⟨r, hr, .refl r, le_rfl, fun _ _ => id⟩
  | append_singleton l' ch ih =>
    rw [← List.append_assoc] at h
    obtain ⟨v₁, h₁, hm, hfits⟩ := h.snoc_inv
    obtain ⟨r₁, hr₁, hk, hle, hcps⟩ := ih h₁
    obtain ⟨r', hr'⟩ := hm.row_some
    exact ⟨r', hr', hk.trans (hm.keeps hr₁ hr'), hle.trans (hm.stepIndex_le hfits hr₁ hr'),
      fun i x hx => hm.cps_some (hcps i x hx)⟩

end DurablePg

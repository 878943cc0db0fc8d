import DurablePg.Contexts
import DurablePg.Uuid

/-!
Idempotency keys: `run:index:name`, without any escaping.

Identifiers have one length, and the digits of an index contain no colon, so the two first
colons after the identifier's end are where they seem to be, whatever the name contains.
-/

namespace DurablePg

open DurablePg.Lib

variable {J Ω : Type}

/-! ### The text of a key -/

lemma append_separator_inj {α : Type} {a : α} {l m l' m' : List α} (hl : a ∉ l) (hm : a ∉ m)
    (h : l ++ a :: l' = m ++ a :: m') : l = m ∧ l' = m' := by
  induction l generalizing m with
  | nil =>
    rcases m with _ | ⟨c, m⟩
    · exact ⟨rfl, (List.cons.inj h).2⟩
    · exact absurd List.mem_cons_self ((List.cons.inj h).1 ▸ hm)
  | cons b l ih =>
    rcases m with _ | ⟨c, m⟩
    · exact absurd List.mem_cons_self ((List.cons.inj h).1 ▸ hl)
    · obtain ⟨rfl, htail⟩ := List.cons.inj h
      obtain ⟨rfl, rfl⟩ := ih (fun hb => hl (List.mem_cons_of_mem _ hb))
        (fun hb => hm (List.mem_cons_of_mem _ hb)) htail
      exact ⟨rfl, rfl⟩

lemma toList_toString (i : ℕ) : (toString i).toList = Nat.toDigits 10 i := by
  rw [Nat.toString_eq_repr, Nat.toList_repr]

lemma colon_notMem_toString (i : ℕ) : ':' ∉ (toString i).toList := by
  intro h
  rw [toList_toString] at h
  have hdigit := Nat.isDigit_of_mem_toDigits (by decide) (by decide) h
  exact absurd hdigit (by decide)

lemma stepKey_inj {i j : ℕ} {n m : String} :
    toString i ++ ":" ++ n = toString j ++ ":" ++ m ↔ i = j ∧ n = m := by
  constructor
  · intro h
    have hlist := congrArg String.toList h
    simp only [String.toList_append, List.append_assoc] at hlist
    obtain ⟨hi, hn⟩ := append_separator_inj (colon_notMem_toString i) (colon_notMem_toString j)
      hlist
    rw [toList_toString, toList_toString] at hi
    have hvalue := congrArg (fun digits => Nat.ofDigitChars 10 digits 0) hi
    simp only [Nat.ofDigitChars_toDigits (show 1 < 10 by decide) (Nat.le_refl 10)] at hvalue
    exact ⟨hvalue, String.toList_inj.mp hn⟩
  · rintro ⟨rfl, rfl⟩
    rfl

lemma stepKey_ne_empty (i : ℕ) (n : String) : toString i ++ ":" ++ n ≠ "" := by
  intro h
  have hlist := congrArg String.toList h
  simp only [String.toList_append] at hlist
  simp at hlist

lemma CanonicalUuid.ne_empty {s : String} (h : CanonicalUuid s) : s ≠ "" := by
  rintro rfl
  exact absurd h.1 (by decide)

/-- **A key is the run, the index and the name**, for canonical identifiers and any names. -/
lemma StepContext.idempotencyKey_inj {sc sc' : StepContext} {i j : ℕ} {n m : String}
    (hid : CanonicalUuid sc.runID) (hid' : CanonicalUuid sc'.runID)
    (hkey : sc.stepKey = toString i ++ ":" ++ n) (hkey' : sc'.stepKey = toString j ++ ":" ++ m) :
    sc.idempotencyKey = sc'.idempotencyKey ↔ sc.runID = sc'.runID ∧ i = j ∧ n = m := by
  have hne : ∀ {sc : StepContext} {i : ℕ} {n : String}, CanonicalUuid sc.runID →
      sc.stepKey = toString i ++ ":" ++ n →
      sc.idempotencyKey = sc.runID ++ ":" ++ (toString i ++ ":" ++ n) := by
    intro sc i n hid hkey
    unfold StepContext.idempotencyKey
    rw [hkey, if_neg]
    simp only [hid.ne_empty, stepKey_ne_empty, decide_false, Bool.or_self, Bool.false_eq_true,
      not_false_eq_true]
  rw [hne hid hkey, hne hid' hkey', ← stepKey_inj]
  constructor
  · intro h
    have hlist := congrArg String.toList h
    simp only [String.toList_append, List.append_assoc] at hlist
    obtain ⟨hrun, hrest⟩ := List.append_inj hlist (hid.1.trans hid'.1.symm)
    refine ⟨String.toList_inj.mp hrun, String.toList_inj.mp ?_⟩
    simpa only [String.toList_append, List.append_assoc] using List.append_cancel_left hrest
  · rintro ⟨hrun, hstep⟩
    rw [hrun, hstep]

/-! ### Keys of operations -/

lemma CompiledWorkflow.Valid.name_inj {wf : CompiledWorkflow Ω} (hv : wf.Valid) {i j : ℕ}
    {n m : String} (hi : (wf.ops[i]?).bind Operation.name? = some n)
    (hj : (wf.ops[j]?).bind Operation.name? = some m) : n = m ↔ i = j := by
  constructor
  · rintro rfl
    have hni := (hv.names n i).mpr hi
    rw [(hv.names n j).mpr hj] at hni
    exact (Option.some.inj hni).symm
  · rintro rfl
    rw [hi] at hj
    exact Option.some.inj hj

variable [Jsonb J]

namespace System

variable {reg : Registry Ω}

/-- **Idempotency keys identify the run and the operation**: two invocations have one key just
if run, index and name are the same; two operations of a definition have different names and
different keys within a run; and of the calls the system ever makes, those of one operation of
one run share a key and no others do. -/
theorem idempotencyKey_identifies :
    (∀ (p q : Proc J Ω) (n m : String), CanonicalUuid p.run.id → CanonicalUuid q.run.id →
      ((p.stepContext n).idempotencyKey = (q.stepContext m).idempotencyKey ↔
        p.run.id = q.run.id ∧ p.index = q.index ∧ n = m)) ∧
    (∀ name version build (wf : CompiledWorkflow Ω), compileWorkflow name version build = .ok wf →
      ∀ (p q : Proc J Ω) (n m : String), p.wf = wf → q.wf = wf → CanonicalUuid p.run.id →
        p.run.id = q.run.id → (wf.ops[p.index]?).bind Operation.name? = some n →
        (wf.ops[q.index]?).bind Operation.name? = some m →
        (n = m ↔ p.index = q.index) ∧
        ((p.stepContext n).idempotencyKey = (q.stepContext m).idempotencyKey ↔
          p.index = q.index)) ∧
    ∀ y : System J Ω, y.Reachable reg → ∀ k ∈ y.calls, ∀ k' ∈ y.calls,
      (k.run = k'.run → k.index = k'.index → k.ctx.idempotencyKey = k'.ctx.idempotencyKey) ∧
      (CanonicalUuid k.run → CanonicalUuid k'.run →
        k.ctx.idempotencyKey = k'.ctx.idempotencyKey → k.run = k'.run ∧ k.index = k'.index) := by
  refine ⟨fun p q n m hp hq => StepContext.idempotencyKey_inj hp hq rfl rfl, ?_, ?_⟩
  · intro name version build wf hwf p q n m hpwf hqwf hp hid hn hm
    have hnames := (compileWorkflow_valid hwf).name_inj hn hm
    have hq : CanonicalUuid q.run.id := hid ▸ hp
    refine ⟨hnames, (StepContext.idempotencyKey_inj hp hq rfl rfl).trans ?_⟩
    exact ⟨fun h => h.2.1, fun h => ⟨hid, h, hnames.mpr h⟩⟩
  · intro y hy k hk k' hk'
    obtain ⟨-, r, wf, n, hmade⟩ := hy.made hk
    obtain ⟨-, r', wf', n', hmade'⟩ := hy.made hk'
    have hrun : k.ctx.runID = k.run := hmade.sees.runID.trans (Db.run_id hmade.row)
    have hrun' : k'.ctx.runID = k'.run := hmade'.sees.runID.trans (Db.run_id hmade'.row)
    constructor
    · -- both calls are of the operation that the definition of the run has at the index
      intro hsame hi
      have hname : n = n' := by
        have hr := hmade.row
        rw [hsame, hmade'.row] at hr; cases hr
        have hwf := hmade.registered
        rw [hmade'.registered] at hwf; cases hwf
        obtain ⟨op, hop, hname⟩ := hmade.op
        obtain ⟨op', hop', hname'⟩ := hmade'.op
        rw [hi, hop'] at hop; cases hop
        rw [hname'] at hname
        exact (Option.some.inj hname).symm
      unfold StepContext.idempotencyKey
      rw [hrun, hrun', hsame, hmade.sees.stepKey, hmade'.sees.stepKey, hi, hname]
    · intro hid hid' hkey
      rw [StepContext.idempotencyKey_inj (by rwa [hrun]) (by rwa [hrun']) hmade.sees.stepKey
        hmade'.sees.stepKey, hrun, hrun'] at hkey
      exact ⟨hkey.1, hkey.2.1⟩

/-- A run whose second step, with a colon in its name, is called twice. -/
def calledAgain : List (Move Doc Unit) :=
  [.enqueue worker "w" (utf8 "null") [] "01900000-00ff-7fff-bfff-ffffffffffff" 0,
    .claim worker 1 (fun _ => "c") 0 false, .turn "c" (.invoke () []), .exec "c" 0 false,
    .turn "c" (.invoke () []), .turn "c" .stop, .outside (.tick 60000000000),
    .outside (.recoverLeases 60000000000), .outside (.tick 90000000000),
    .claim worker 1 (fun _ => "d") 90000000000 false, .turn "d" (.invoke () [])]

def colonNames : Registry Unit := .single "w" 1
  [.step "1:a" (some fun _ _ => .returns (.ok (utf8 "true"))) [],
    .step ":a" (some fun _ _ => .returns (.ok (utf8 "false"))) []]

theorem idempotencyKey_identifies_calledAgain : ∃ y k₀ k k',
    calledAgain.foldlM (step colonNames) (init 0) = some y ∧
    k₀ ∈ y.calls ∧ k ∈ y.calls ∧ k' ∈ y.calls ∧ CanonicalUuid k.run ∧
    k.token = "c" ∧ k'.token = "d" ∧ k.ctx.idempotencyKey = k'.ctx.idempotencyKey ∧
    k₀.ctx.idempotencyKey ≠ k.ctx.idempotencyKey := by
  have hrun : (calledAgain.foldlM (step colonNames) (init 0)).map (fun y =>
      y.calls.map fun k => (k.run, k.token, k.index)) =
      some [("01900000-00ff-7fff-bfff-ffffffffffff", "c", 0),
        ("01900000-00ff-7fff-bfff-ffffffffffff", "c", 1),
        ("01900000-00ff-7fff-bfff-ffffffffffff", "d", 1)] := by decide +kernel
  have huuid : CanonicalUuid "01900000-00ff-7fff-bfff-ffffffffffff" := by decide +kernel
  obtain ⟨y, hy, hcalls⟩ := Option.map_eq_some_iff.mp hrun
  obtain ⟨k₀, hk₀, hkey₀⟩ := List.mem_map.mp (hcalls ▸ List.mem_cons_self)
  obtain ⟨k, hk, hkey⟩ := List.mem_map.mp (hcalls ▸ List.mem_cons_of_mem _ List.mem_cons_self)
  obtain ⟨k', hk', hkey'⟩ := List.mem_map.mp
    (hcalls ▸ List.mem_cons_of_mem _ (List.mem_cons_of_mem _ List.mem_cons_self))
  simp only [Prod.mk.injEq] at hkey₀ hkey hkey'
  obtain ⟨hr₀, -, hi₀⟩ := hkey₀
  obtain ⟨hr, ht, hi⟩ := hkey
  obtain ⟨hr', ht', hi'⟩ := hkey'
  have hall := idempotencyKey_identifies.2.2 y (.of_run 0 _ hy)
  refine ⟨y, k₀, k, k', hy, hk₀, hk, hk', hr ▸ huuid, ht, ht',
    (hall k hk k' hk').1 (hr.trans hr'.symm) (hi.trans hi'.symm), fun heq => ?_⟩
  have hsame := ((hall k₀ hk₀ k hk).2 (hr₀ ▸ huuid) (hr ▸ huuid) heq).2
  omega

end System

end DurablePg

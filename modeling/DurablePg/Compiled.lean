import DurablePg.Doc
import DurablePg.DriveAnswers
import Mathlib.Data.List.DropRight
import Mathlib.Order.Bounds.Basic

/-!
A compiled definition is what its builder was told.

Every call that does not panic appends one operation, under the trimmed name if it has one, and
a name is handed out once. The two ways in which a run completes, with the commit of its last
operation and with a statement of its own, therefore store the result of one operation.
-/

namespace DurablePg

variable {J Ω : Type}

/-! ### Trimmed names -/

lemma trimSpace_trimSpace (s : String) : trimSpace (trimSpace s) = trimSpace s := by
  set l := s.toList.dropWhile isSpace with hl
  have htrim : ∀ t : String, trimSpace t =
      .ofList ((t.toList.dropWhile isSpace).rdropWhile isSpace) := fun t => rfl
  -- what is left begins as the string without its leading blanks does
  have hleft : (l.rdropWhile isSpace).dropWhile isSpace = l.rdropWhile isSpace := by
    rw [List.dropWhile_eq_self_iff]
    intro hpos
    have hpre : l.rdropWhile isSpace <+: l := List.rdropWhile_prefix isSpace l
    rw [hpre.getElem hpos]
    exact List.dropWhile_get_zero_not isSpace s.toList (hpos.trans_le hpre.length_le)
  rw [htrim (trimSpace s), htrim s, String.toList_ofList, ← hl, hleft, List.rdropWhile_idempotent]

/-! ### Calls of the builder -/

namespace BuildCall

/-- The name a call is given. -/
def name? : BuildCall Ω → Option String
  | .step name _ _ | .waitEvent name _ _ | .waitEventFunc name _ _ => some name
  | .sleep _ => none

/-- The operation a call is for, if it is for one. -/
def operation : BuildCall Ω → Option (Operation Ω)
  | .step name fn opts => fn.map fun fn => .step (trimSpace name) fn (opts.getLastD 0)
  | .sleep d => some (.sleep d)
  | .waitEvent name key timeout =>
    some (.waitEvent (trimSpace name) (.key (trimSpace key)) timeout)
  | .waitEventFunc name keyFn timeout =>
    keyFn.map fun keyFn => .waitEvent (trimSpace name) (.keyFn keyFn) timeout

lemma operation_name {c : BuildCall Ω} {op : Operation Ω} (h : c.operation = some op) :
    op.name? = c.name?.map trimSpace := by
  cases c with
  | step name fn opts => obtain ⟨fn, -, rfl⟩ := Option.map_eq_some_iff.mp h; rfl
  | sleep d => cases h; rfl
  | waitEvent name key timeout => cases h; rfl
  | waitEventFunc name keyFn timeout => obtain ⟨f, -, rfl⟩ := Option.map_eq_some_iff.mp h; rfl

end BuildCall

namespace Builder

variable {b b' : Builder Ω}

lemma addName_ok {name name' : String} (h : b.addName name = .ok (b', name')) :
    b'.ops = b.ops ∧ name' = trimSpace name := by
  unfold addName at h
  simp only at h
  split at h
  · cases h
  · split at h
    · cases h
    · cases h; exact ⟨rfl, rfl⟩

/-- **Step**: a call appends the operation it is for. -/
lemma apply_ops {c : BuildCall Ω} (h : c.apply b = .ok b') :
    ∃ op, c.operation = some op ∧ b'.ops = b.ops ++ [op] := by
  cases c with
  | step name fn opts =>
    rcases fn with _ | fn
    · cases h
    · obtain ⟨b₁, name₁, hadd, h⟩ := addName_cases h
      obtain ⟨hops, rfl⟩ := addName_ok hadd
      simp only at h
      split at h
      · cases h
      · cases h; exact ⟨_, rfl, by rw [hops]⟩
  | sleep d =>
    simp only [BuildCall.apply, sleep] at h
    split at h
    · cases h
    · cases h; exact ⟨_, rfl, rfl⟩
  | waitEvent name key timeout =>
    simp only [BuildCall.apply, waitEvent] at h
    split at h
    · cases h
    · split at h
      · cases h
      · obtain ⟨b₁, name₁, hadd, h⟩ := addName_cases h
        obtain ⟨hops, rfl⟩ := addName_ok hadd
        cases h; exact ⟨_, rfl, by rw [hops]⟩
  | waitEventFunc name keyFn timeout =>
    rcases keyFn with _ | keyFn
    · cases h
    · simp only [BuildCall.apply, waitEventFunc] at h
      split at h
      · cases h
      · obtain ⟨b₁, name₁, hadd, h⟩ := addName_cases h
        obtain ⟨hops, rfl⟩ := addName_ok hadd
        cases h; exact ⟨_, rfl, by rw [hops]⟩

lemma build_ops (calls : List (BuildCall Ω)) (h : calls.foldlM BuildCall.apply b = .ok b') :
    b'.ops.map some = b.ops.map some ++ calls.map BuildCall.operation := by
  induction calls generalizing b with
  | nil => cases h; simp
  | cons c calls ih =>
    rw [List.foldlM_cons] at h
    rcases hc : c.apply b with e | b₁
    · rw [hc] at h; cases h
    · rw [hc] at h
      obtain ⟨op, hop, hops⟩ := apply_ops hc
      rw [ih h, hops, List.map_cons, hop]
      simp

end Builder

/-! ### Definitions -/

lemma compileWorkflow_ok {name : String} {version : ℤ} {build : List (BuildCall Ω)}
    {wf : CompiledWorkflow Ω} (h : compileWorkflow name version build = .ok wf) :
    ∃ b : Builder Ω, build.foldlM BuildCall.apply ⟨[], []⟩ = .ok b ∧ wf.ops = b.ops ∧
      wf.name = trimSpace name ∧ wf.name ≠ "" ∧ wf.version = version ∧ 1 ≤ version := by
  unfold compileWorkflow at h
  simp only at h
  split at h
  · cases h
  · rename_i hname
    split at h
    · cases h
    · rename_i hversion
      rcases hb : build.foldlM BuildCall.apply (⟨[], []⟩ : Builder Ω) with e | b
      · rw [hb] at h; cases h
      · rw [hb] at h
        change (if b.ops.length = 0 then _ else _) = _ at h
        split at h
        · cases h
        · cases h; exact ⟨b, rfl, rfl, rfl, hname, rfl, not_lt.mp hversion⟩

namespace CompiledWorkflow.Valid

variable {wf : CompiledWorkflow Ω}

lemma named_iff (hv : wf.Valid) {i : ℕ} {op : Operation Ω} (hop : wf.ops[i]? = some op) :
    op.isSleep = false ↔ ∃ x, wf.names x = some i := by
  have hname : (∃ x, wf.names x = some i) ↔ ∃ x, op.name? = some x := by
    refine exists_congr fun x => ?_
    rw [hv.names, hop, Option.bind_some]
  rw [hname, ← Option.isSome_iff_exists, Option.isSome_iff_ne_none, ne_eq,
    Operation.name?_eq_none, Bool.not_eq_true]

lemma output_greatest (hv : wf.Valid) (i : ℕ) : wf.outputIndex = some i ↔
    IsGreatest {j | ∃ op, wf.ops[j]? = some op ∧ op.isSleep = false} i := by
  have hout := hv.output
  rcases ho : wf.outputIndex with _ | k <;> rw [ho] at hout
  · refine ⟨fun h => (by cases h), ?_⟩
    rintro ⟨⟨op, hop, hs⟩, -⟩
    rw [hout op (List.mem_of_getElem? hop)] at hs; cases hs
  · have hgreatest : IsGreatest {j | ∃ op, wf.ops[j]? = some op ∧ op.isSleep = false} k := by
      refine ⟨hout.1, fun j hj => ?_⟩
      obtain ⟨op, hop, hs⟩ := hj
      by_contra hlt
      rw [hout.2 j op (not_le.mp hlt) hop] at hs; cases hs
    refine ⟨fun h => Option.some.inj h ▸ hgreatest, fun h => ?_⟩
    rw [h.unique hgreatest]

lemma output_none (hv : wf.Valid) :
    wf.outputIndex = none ↔ ∀ op ∈ wf.ops, op.isSleep = true := by
  have hout := hv.output
  rcases ho : wf.outputIndex with _ | k <;> rw [ho] at hout
  · exact ⟨fun _ => hout, fun _ => rfl⟩
  · obtain ⟨⟨op, hop, hs⟩, -⟩ := hout
    refine ⟨fun h => (by cases h), fun h => ?_⟩
    rw [h op (List.mem_of_getElem? hop)] at hs; cases hs

end CompiledWorkflow.Valid

lemma View.Moves.commit_output [Jsonb J] {v v' : View J} {token : Token} {i : ℕ} {x : J}
    {now clock : Time} {r' : Row J}
    (hm : v.Moves (.wrote token (.commitStep i x true) now clock) v') (hr' : v'.row = some r') :
    r'.outputJson = v'.cps i := by
  cases hm with
  | updated _ r u hrow hu hg =>
    cases hu; cases hr'
    have hg : (commitStep (v.cps i) r.id token i x true now clock).guard r = true := hg
    have hrec : (commitStep (v.cps i) r.id token i x true now clock).recordAt r i = some x := by
      rw [Update.recordAt, if_pos hg]
      simp [commitStep]
    change some ((v.cps i).getD x) = (v.cps i).or
      ((commitStep (v.cps i) r.id token i x true now clock).recordAt r i)
    rw [hrec]
    cases v.cps i <;> rfl

/-- **Compiled definitions are faithful**: the operations are the calls in order; `names` has the
trimmed name of each step and wait, at its index, and nothing else; `outputIndex` is the largest
of these indexes. When the last operation is a step or a wait, a commit that completes the run
and a `completeRun` both store its result. -/
theorem compiled_faithful [Jsonb J] {name : String} {version : ℤ} {build : List (BuildCall Ω)}
    {wf : CompiledWorkflow Ω} (h : compileWorkflow name version build = .ok wf) :
    wf.ops.map some = build.map BuildCall.operation ∧
    (∀ x i, wf.names x = some i ↔ ∃ c, build[i]? = some c ∧ c.name?.map trimSpace = some x) ∧
    (∀ x y i, wf.names x = some i → wf.names y = some i → x = y) ∧
    (∀ (i : ℕ) op, wf.ops[i]? = some op → (op.isSleep = false ↔ ∃ x, wf.names x = some i)) ∧
    (∀ x i, wf.names x = some i → i < wf.ops.length ∧ x ≠ "" ∧ trimSpace x = x) ∧
    (∀ i, wf.outputIndex = some i ↔
      IsGreatest {j | ∃ op, wf.ops[j]? = some op ∧ op.isSleep = false} i) ∧
    (wf.outputIndex = none ↔ ∀ op ∈ wf.ops, op.isSleep = true) ∧
    ∀ op, wf.ops[wf.ops.length - 1]? = some op → op.isSleep = false →
      wf.outputIndex = some (wf.ops.length - 1) ∧
      (∀ (v v' : View J) token i x now clock r',
        v.Moves (.wrote token (.commitStep i x true) now clock) v' → i + 1 = wf.ops.length →
        v'.row = some r' → r'.outputJson = v'.cps (wf.ops.length - 1)) ∧
      ∀ p : Proc J Ω, p.wf = wf → (p.complete = true → p.index = wf.ops.length - 1) ∧
        wf.outputIndex.bind p.value = p.value (wf.ops.length - 1) := by
  have hv := compileWorkflow_valid h
  obtain ⟨b, hb, hops, -⟩ := compileWorkflow_ok h
  have hcalls : wf.ops.map some = build.map BuildCall.operation := by
    rw [hops, Builder.build_ops build hb]; rfl
  have hnamed := Builder.Named.empty.build build hb
  have hnames : ∀ x i, wf.names x = some i ↔
      ∃ c, build[i]? = some c ∧ c.name?.map trimSpace = some x := by
    intro x i
    have hi : (wf.ops[i]?).map some = build[i]?.map BuildCall.operation := by
      rw [← List.getElem?_map, ← List.getElem?_map, hcalls]
    rw [hv.names]
    rcases hc : build[i]? with _ | c
    · rw [hc, Option.map_none, Option.map_eq_none_iff] at hi
      simp [hi]
    · rw [hc, Option.map_some] at hi
      obtain ⟨op, hop, heq⟩ := Option.map_eq_some_iff.mp hi
      simp [hop, BuildCall.operation_name heq.symm]
  refine ⟨hcalls, hnames, fun x y i hx hy => ?_, fun i op hop => hv.named_iff hop,
    fun x i hx => ?_, hv.output_greatest, hv.output_none, fun op hop hs => ?_⟩
  · rw [hv.names] at hx hy
    exact Option.some.inj (hx.symm.trans hy)
  · obtain ⟨op, hop, hname⟩ := Option.bind_eq_some_iff.mp ((hv.names x i).mp hx)
    rw [hops] at hop
    obtain ⟨hne, y, rfl⟩ := hnamed.trimmed x (List.mem_filterMap.mpr
      ⟨op, List.mem_of_getElem? hop, hname⟩)
    refine ⟨?_, hne, trimSpace_trimSpace y⟩
    rw [hops]; exact (List.getElem?_eq_some_iff.mp hop).1
  · have hout := hv.output_last hop hs
    refine ⟨hout, fun v v' token i x now clock r' hm hi hr' => ?_, fun p hp => ⟨fun hc => ?_, ?_⟩⟩
    · obtain rfl : i = wf.ops.length - 1 := by omega
      exact hm.commit_output hr'
    · subst hp
      have hc : p.index + 1 = p.wf.ops.length := of_decide_eq_true hc
      omega
    · rw [hout]; rfl

/-- A definition of a wait, a sleep and a step, with blanks around its names. -/
theorem compiled_faithful_threeCalls : ∃ wf : CompiledWorkflow Unit,
    compileWorkflow " w " 2 [.waitEvent " e" "k" 1, .sleep 5,
      .step "s " (some fun _ _ => .returns (.ok [])) [1, 2]] = .ok wf ∧
    wf.ops.length = 3 ∧ wf.names "e" = some 0 ∧ wf.names "s" = some 2 ∧ wf.names "s " = none ∧
    wf.outputIndex = some 2 := by
  obtain ⟨wf, hwf⟩ : ∃ wf : CompiledWorkflow Unit,
      compileWorkflow " w " 2 [.waitEvent " e" "k" 1, .sleep 5,
        .step "s " (some fun _ _ => .returns (.ok [])) [1, 2]] = .ok wf := ⟨_, rfl⟩
  obtain ⟨hops, hnames, -, -, htrim, -, -, hlast⟩ := compiled_faithful (J := Doc) hwf
  have hlen : wf.ops.length = 3 := by simpa using congrArg List.length hops
  obtain ⟨op, hop⟩ : ∃ op, wf.ops[2]? = some op := ⟨_, List.getElem?_eq_getElem (by omega)⟩
  have hs : wf.names "s" = some 2 := (hnames "s" 2).mpr ⟨_, rfl, by decide +kernel⟩
  refine ⟨wf, hwf, hlen, (hnames "e" 0).mpr ⟨_, rfl, by decide +kernel⟩, hs, ?_, ?_⟩
  · rcases hn : wf.names "s " with _ | i
    · rfl
    · have := (htrim _ i hn).2.2
      exact absurd this (by decide +kernel)
  · have hsleep : op.isSleep = false :=
      ((compileWorkflow_valid hwf).named_iff hop).mpr ⟨"s", hs⟩
    have := (hlast op (by rw [hlen]; exact hop) hsleep).1
    rwa [hlen] at this

end DurablePg

import DurablePg.Types

/-!
Workflow definitions: the operations a builder records and what compiling them yields.

A step function or an event-key resolver is user code; what it does beside reading its
context is summed up in a parameter of type `Ω`, one value of which is spent on each call,
so that a function may answer differently each time. A panic of the builder is an error.
-/

namespace DurablePg

/-- How a call of user code ends. -/
inductive Outcome (α : Type)
  | returns (a : α)
  | fails (err : Bytes)
  | panics (msg : Bytes)

/-- A step function; what it returns is already encoded, or failed to encode. -/
abbrev StepFunc (Ω : Type) := Ω → StepContext → Outcome (Except Bytes Bytes)

abbrev KeyFunc (Ω : Type) := Ω → StepContext → Outcome String

/-- The key of a wait, fixed or derived from the run. -/
inductive EventKey (Ω : Type)
  | key (key : String)
  | keyFn (keyFn : KeyFunc Ω)

inductive Operation (Ω : Type)
  | step (name : String) (fn : StepFunc Ω) (timeout : Time)
  | sleep (d : Time)
  | waitEvent (name : String) (key : EventKey Ω) (timeout : Time)

variable {Ω : Type}

/-- `executeStepSafely`: a panic and an encoding failure become errors of the step. -/
def executeStepSafely (name : String) (fn : StepFunc Ω) (ω : Ω) (sc : StepContext) :
    Except Bytes Bytes :=
  match fn ω sc with
  | .panics r => .error (utf8 ("durablepg: step " ++ name.quote ++ " panicked: ") ++ r)
  | .fails err => .error err
  | .returns (.error err) =>
    .error (utf8 ("durablepg: marshal step " ++ name.quote ++ " output: ") ++ err)
  | .returns (.ok raw) => .ok raw

/-- `waitEventOp.resolve`. -/
def EventKey.resolve (k : EventKey Ω) (ω : Ω) (sc : StepContext) : Except Bytes String := do
  let found ← match k with
    | .key s => .ok s
    | .keyFn f =>
      match f ω sc with
      | .panics r => .error (utf8 "durablepg: event key resolver panicked: " ++ r)
      | .fails err => .error err
      | .returns s => .ok s
  let found := trimSpace found
  if found = "" then .error (utf8 "durablepg: resolved event key is required") else .ok found

namespace Operation

/-- The name under which the result of an operation is looked up; a sleep has none. -/
def name? : Operation Ω → Option String
  | .step name _ _ => some name
  | .sleep _ => none
  | .waitEvent name _ _ => some name

def isSleep : Operation Ω → Bool
  | .sleep _ => true
  | _ => false

def isWait : Operation Ω → Bool
  | .waitEvent .. => true
  | _ => false

lemma name?_eq_none {op : Operation Ω} : op.name? = none ↔ op.isSleep = true := by
  cases op <;> simp [name?, isSleep]

lemma isSleep_of_name? {op : Operation Ω} {x : String} (h : op.name? = some x) :
    op.isSleep = false := by
  cases op <;> simp_all [name?, isSleep]

lemma isSleep_of_isWait {op : Operation Ω} (h : op.isWait = true) : op.isSleep = false := by
  cases op <;> simp_all [isWait, isSleep]

end Operation

/-! ### The builder -/

structure Builder (Ω : Type) where
  ops : List (Operation Ω)
  stepNames : List String

namespace Builder

def addName (b : Builder Ω) (name : String) : Except String (Builder Ω × String) :=
  let name := trimSpace name
  if name = "" then .error "durablepg: step name is required"
  else if name ∈ b.stepNames then .error ("durablepg: duplicate step name " ++ name.quote)
  else .ok ({ b with stepNames := name :: b.stepNames }, name)

/-- `Builder.Step`; the options are the timeouts they set, of which the last one counts. -/
def step (b : Builder Ω) (name : String) (fn : Option (StepFunc Ω)) (opts : List Time) :
    Except String (Builder Ω) := do
  match fn with
  | none => .error ("durablepg: step " ++ name.quote ++ " has nil function")
  | some fn =>
    let (b, name) ← b.addName name
    let timeout := opts.getLastD 0
    if timeout < 0 then
      .error ("durablepg: step " ++ name.quote ++ " timeout cannot be negative")
    else .ok { b with ops := b.ops ++ [.step name fn timeout] }

def sleep (b : Builder Ω) (d : Time) : Except String (Builder Ω) :=
  if d ≤ 0 then .error "durablepg: sleep duration must be > 0"
  else .ok { b with ops := b.ops ++ [.sleep d] }

def waitEvent (b : Builder Ω) (name key : String) (timeout : Time) :
    Except String (Builder Ω) := do
  let key := trimSpace key
  if key = "" then .error "durablepg: wait event key is required"
  else if timeout ≤ 0 then .error "durablepg: wait event timeout must be > 0"
  else
    let (b, name) ← b.addName name
    .ok { b with ops := b.ops ++ [.waitEvent name (.key key) timeout] }

def waitEventFunc (b : Builder Ω) (name : String) (keyFn : Option (KeyFunc Ω)) (timeout : Time) :
    Except String (Builder Ω) := do
  match keyFn with
  | none => .error "durablepg: event key resolver is required"
  | some keyFn =>
    if timeout ≤ 0 then .error "durablepg: wait event timeout must be > 0"
    else
      let (b, name) ← b.addName name
      .ok { b with ops := b.ops ++ [.waitEvent name (.keyFn keyFn) timeout] }

end Builder

/-- One call a workflow's `Build` makes on its builder. -/
inductive BuildCall (Ω : Type)
  | step (name : String) (fn : Option (StepFunc Ω)) (opts : List Time)
  | sleep (d : Time)
  | waitEvent (name key : String) (timeout : Time)
  | waitEventFunc (name : String) (keyFn : Option (KeyFunc Ω)) (timeout : Time)

def BuildCall.apply (b : Builder Ω) : BuildCall Ω → Except String (Builder Ω)
  | .step name fn opts => b.step name fn opts
  | .sleep d => b.sleep d
  | .waitEvent name key timeout => b.waitEvent name key timeout
  | .waitEventFunc name keyFn timeout => b.waitEventFunc name keyFn timeout

/-! ### Compiled workflows -/

structure CompiledWorkflow (Ω : Type) where
  name : String
  version : ℤ
  ops : List (Operation Ω)
  names : String → Option ℕ
  outputIndex : Option ℕ

/-- The loop of `compileWorkflow` over the operations, building `names` and `outputIndex`. -/
def indexOps (ops : List (Operation Ω)) : (String → Option ℕ) × Option ℕ :=
  ops.zipIdx.foldl (fun acc op =>
    match op.1.name? with
    | some name => (Function.update acc.1 name (some op.2), some op.2)
    | none => acc) (fun _ => none, none)

def compileWorkflow (name : String) (version : ℤ) (build : List (BuildCall Ω)) :
    Except String (CompiledWorkflow Ω) := do
  let name := trimSpace name
  if name = "" then .error "workflow name is required"
  else if version < 1 then .error ("workflow " ++ name.quote ++ " version must be positive")
  else
    let b ← build.foldlM BuildCall.apply ⟨[], []⟩
    if b.ops.length = 0 then .error ("workflow " ++ name.quote ++ " has no operations")
    else
      let (names, outputIndex) := indexOps b.ops
      .ok ⟨name, version, b.ops, names, outputIndex⟩

/-! ### What compiling guarantees -/

lemma indexOps_snoc (ops : List (Operation Ω)) (op : Operation Ω) :
    indexOps (ops ++ [op]) =
      match op.name? with
      | some name => (Function.update (indexOps ops).1 name (some ops.length), some ops.length)
      | none => indexOps ops := by
  unfold indexOps
  rw [List.zipIdx_append, List.foldl_append]
  simp

lemma indexOps_names {ops : List (Operation Ω)} (hnd : (ops.filterMap Operation.name?).Nodup)
    (x : String) (i : ℕ) :
    (indexOps ops).1 x = some i ↔ ops[i]?.bind Operation.name? = some x := by
  induction ops using List.reverseRecOn generalizing i with
  | nil => simp [indexOps]
  | append_singleton ops op ih =>
    rw [List.filterMap_append] at hnd
    have ih := ih (List.Nodup.of_append_left hnd)
    rw [indexOps_snoc]
    rcases hname : op.name? with _ | name
    · rcases lt_trichotomy i ops.length with hi | rfl | hi
      · simp [ih, List.getElem?_append_left hi]
      · simp [ih, hname]
      · simp [ih, List.getElem?_eq_none (Nat.le_of_lt hi), hi]
    · -- the new name is not among the earlier ones
      have hfresh : ∀ j : ℕ, ops[j]?.bind Operation.name? ≠ some name := by
        intro j hj
        obtain ⟨op', hop', hn⟩ := Option.bind_eq_some_iff.mp hj
        have hmem : name ∈ ops.filterMap Operation.name? :=
          List.mem_filterMap.mpr ⟨op', List.mem_of_getElem? hop', hn⟩
        exact (List.disjoint_of_nodup_append hnd) hmem (by simp [hname])
      by_cases hx : x = name
      · subst hx
        rcases lt_trichotomy i ops.length with hi | rfl | hi
        · simp only [Function.update_self, Option.some.injEq, List.getElem?_append_left hi]
          exact ⟨fun h => by omega, fun h => absurd h (hfresh i)⟩
        · simp [hname]
        · simp [hi]; omega
      · simp only [Function.update_of_ne hx, ih]
        rcases lt_trichotomy i ops.length with hi | rfl | hi
        · simp [List.getElem?_append_left hi]
        · simp [hname, Ne.symm hx]
        · simp [List.getElem?_eq_none (Nat.le_of_lt hi), hi]

/-- `outputIndex` is the last operation that is not a sleep. -/
lemma indexOps_output (ops : List (Operation Ω)) :
    match (indexOps ops).2 with
    | none => ∀ op ∈ ops, op.isSleep = true
    | some i => (∃ op, ops[i]? = some op ∧ op.isSleep = false) ∧
        ∀ j op, i < j → ops[j]? = some op → op.isSleep = true := by
  induction ops using List.reverseRecOn with
  | nil => simp [indexOps]
  | append_singleton ops op ih =>
    rw [indexOps_snoc]
    rcases hname : op.name? with _ | name
    · have hs : op.isSleep = true := Operation.name?_eq_none.mp hname
      simp only
      rcases hout : (indexOps ops).2 with _ | i <;> rw [hout] at ih
      · intro op' hop'
        rcases List.mem_append.mp hop' with h | h
        · exact ih op' h
        · rw [List.mem_singleton.mp h]; exact hs
      · obtain ⟨⟨op', hop', hns⟩, hlast⟩ := ih
        have hi : i < ops.length := (List.getElem?_eq_some_iff.mp hop').1
        refine ⟨⟨op', by rw [List.getElem?_append_left hi]; exact hop', hns⟩, ?_⟩
        intro j op'' hij hop''
        rcases lt_trichotomy j ops.length with hj | rfl | hj
        · exact hlast j op'' hij (by rwa [List.getElem?_append_left hj] at hop'')
        · have : op = op'' := by simpa using hop''
          rw [← this]; exact hs
        · rw [List.getElem?_eq_none (by simp; omega)] at hop''; cases hop''
    · refine ⟨⟨op, by simp, ?_⟩, ?_⟩
      · cases op <;> simp_all [Operation.name?, Operation.isSleep]
      · intro j op' hj hop'
        rw [List.getElem?_eq_none (by simp; omega)] at hop'; cases hop'

/-- The names a builder has handed out are those of its operations, each trimmed, not empty
and used once. -/
structure Builder.Named (b : Builder Ω) : Prop where
  names : b.stepNames = (b.ops.filterMap Operation.name?).reverse
  nodup : (b.ops.filterMap Operation.name?).Nodup
  trimmed : ∀ x ∈ b.ops.filterMap Operation.name?, x ≠ "" ∧ ∃ y, x = trimSpace y

namespace Builder

lemma Named.empty : Named (⟨[], []⟩ : Builder Ω) :=
  ⟨by simp, by simp, by simp⟩

lemma Named.add {b b' : Builder Ω} {name name' : String} (hb : b.Named)
    (h : b.addName name = .ok (b', name')) (op : Operation Ω) (hop : op.name? = some name') :
    Named { b' with ops := b'.ops ++ [op] } := by
  unfold addName at h
  simp only at h
  split at h
  · cases h
  · split at h
    · cases h
    · rename_i hne hnew
      simp only [Except.ok.injEq, Prod.mk.injEq] at h
      obtain ⟨rfl, rfl⟩ := h
      have hnew' : trimSpace name ∉ b.ops.filterMap Operation.name? := by
        rw [hb.names] at hnew; simpa using hnew
      refine ⟨?_, ?_, ?_⟩ <;> simp only [List.filterMap_append, List.filterMap_cons, hop,
        List.filterMap_nil]
      · simp [hb.names]
      · exact List.Nodup.append hb.nodup (by simp) (by simpa using hnew')
      · intro x hx
        rcases List.mem_append.mp hx with hx | hx
        · exact hb.trimmed x hx
        · rw [List.mem_singleton.mp hx]; exact ⟨hne, _, rfl⟩

lemma addName_cases {b : Builder Ω} {name : String} {β : Type}
    {f : Builder Ω × String → Except String β} {r : β} (h : (b.addName name >>= f) = .ok r) :
    ∃ b' name', b.addName name = .ok (b', name') ∧ f (b', name') = .ok r := by
  rcases hn : b.addName name with e | ⟨b', name'⟩
  · rw [hn] at h; cases h
  · exact ⟨b', name', rfl, by rw [hn] at h; exact h⟩

lemma Named.apply {b b' : Builder Ω} {c : BuildCall Ω} (hb : b.Named)
    (h : c.apply b = .ok b') : b'.Named := by
  cases c with
  | step name fn opts =>
    rcases fn with _ | fn
    · cases h
    · obtain ⟨b₁, name₁, hadd, h⟩ := addName_cases h
      simp only at h
      split at h
      · cases h
      · cases h; exact hb.add hadd _ rfl
  | sleep d =>
    simp only [BuildCall.apply, sleep] at h
    split at h
    · cases h
    · cases h
      have hops : (b.ops ++ [Operation.sleep d]).filterMap Operation.name? =
          b.ops.filterMap Operation.name? := by
        rw [List.filterMap_append]; simp [Operation.name?]
      exact ⟨by rw [hops, hb.names], by rw [hops]; exact hb.nodup,
        by rw [hops]; exact hb.trimmed⟩
  | waitEvent name key timeout =>
    simp only [BuildCall.apply, waitEvent] at h
    split at h
    · cases h
    · split at h
      · cases h
      · obtain ⟨b₁, name₁, hadd, h⟩ := addName_cases h
        cases h; exact hb.add hadd _ rfl
  | waitEventFunc name keyFn timeout =>
    rcases keyFn with _ | keyFn
    · cases h
    · simp only [BuildCall.apply, waitEventFunc] at h
      split at h
      · cases h
      · obtain ⟨b₁, name₁, hadd, h⟩ := addName_cases h
        cases h; exact hb.add hadd _ rfl

lemma Named.build {b b' : Builder Ω} (calls : List (BuildCall Ω)) (hb : b.Named)
    (h : calls.foldlM BuildCall.apply b = .ok b') : b'.Named := by
  induction calls generalizing b with
  | nil => cases h; exact hb
  | cons c calls ih =>
    rw [List.foldlM_cons] at h
    rcases hc : c.apply b with e | b₁
    · rw [hc] at h; cases h
    · rw [hc] at h; exact ih (hb.apply hc) h

end Builder

/-- What the worker relies on in a definition. -/
structure CompiledWorkflow.Valid (wf : CompiledWorkflow Ω) : Prop where
  names : ∀ x i, wf.names x = some i ↔ wf.ops[i]?.bind Operation.name? = some x
  output : match wf.outputIndex with
    | none => ∀ op ∈ wf.ops, op.isSleep = true
    | some i => (∃ op, wf.ops[i]? = some op ∧ op.isSleep = false) ∧
        ∀ j op, i < j → wf.ops[j]? = some op → op.isSleep = true
  ops : wf.ops ≠ []

theorem compileWorkflow_valid {name : String} {version : ℤ} {build : List (BuildCall Ω)}
    {wf : CompiledWorkflow Ω} (h : compileWorkflow name version build = .ok wf) : wf.Valid := by
  unfold compileWorkflow at h
  simp only at h
  split at h
  · cases h
  · split at h
    · cases h
    · rcases hb : build.foldlM BuildCall.apply (⟨[], []⟩ : Builder Ω) with e | b
      · rw [hb] at h; cases h
      · rw [hb] at h
        have hnamed := Builder.Named.empty.build build hb
        change (if b.ops.length = 0 then _ else _) = _ at h
        split at h
        · cases h
        · rename_i hlen
          cases h
          exact ⟨indexOps_names hnamed.nodup, indexOps_output b.ops,
            fun h0 => hlen (List.length_eq_zero_iff.mpr h0)⟩

lemma CompiledWorkflow.Valid.output_last {wf : CompiledWorkflow Ω} (hv : wf.Valid)
    {op : Operation Ω} (hop : wf.ops[wf.ops.length - 1]? = some op) (hs : op.isSleep = false) :
    wf.outputIndex = some (wf.ops.length - 1) := by
  have hout := hv.output
  rcases ho : wf.outputIndex with _ | i <;> rw [ho] at hout
  · have := hout op (List.mem_of_getElem? hop)
    rw [hs] at this; cases this
  · obtain ⟨⟨op', hop', -⟩, hlast⟩ := hout
    have hi : i < wf.ops.length := (List.getElem?_eq_some_iff.mp hop').1
    by_contra hne
    have := hlast (wf.ops.length - 1) op (by simp at hne; omega) hop
    rw [hs] at this; cases this

end DurablePg

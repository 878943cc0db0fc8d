import DurablePg.Outcome

/-!
`claimReadyRuns`, from the registered definitions to the runs it returns.

The definitions travel as two arrays and are paired again by the statement, or as two scalars if
there is one of them. The checkpoints of a run come back as a JSON array of pairs. A parameter
that its type cannot hold is refused, by the driver or by the server, and then no run is claimed
at all. A checkpoint that is nested too deeply for `encoding/json`, or a limit for which no slice
can be made, is met when the runs are already leased.
-/

namespace DurablePg

open DurablePg.Lib

variable {J : Type}

/-! ### Parameters -/

/-- The value fits a `TEXT` parameter: the server takes no NUL. -/
def isText (s : String) : Bool := !s.toList.contains '\x00'

/-- The integers that the driver encodes are within their type. -/
def Selector.encodes : Selector → Bool
  | .single _ version => isInt4 version
  | .multi _ versions => versions.all isInt4

/-- The texts that the server reads are within their type. -/
def Selector.readable : Selector → Bool
  | .single name _ => isText name
  | .multi names _ => names.all isText

/-! ### Checkpoints -/

/-- The text of `jsonb_build_array(step_index, value_json)`. -/
def checkpointText [Jsonb J] (c : ℕ × J) : Bytes :=
  Json.listText id 91 93 [Json.decimal c.1, text c.2]

/-- The text of `COALESCE(jsonb_agg(jsonb_build_array(step_index, value_json)), '[]')`. -/
def checkpointsText [Jsonb J] (cs : List (ℕ × J)) : Bytes :=
  Json.listText id 91 93 (cs.map checkpointText)

def Db.checkpointsOf (db : Db J) (id : RunId) : List (ℕ × J) :=
  (db.checkpoints.rows.filter fun c => c.runId = id).map fun c => (c.stepIndex, c.value)

/-- One element of a `[][2]json.RawMessage`: an array, of which the first two elements are kept,
or `null`. -/
def decodePair (l : Bytes) : Option (Option Bytes × Option Bytes) :=
  if l = utf8 "null" then some (none, none)
  else (Json.rawArray l).map fun vs => (vs[0]?, vs[1]?)

/-- `encoding/json` refuses a text with more levels. -/
def maxNestingDepth : ℕ := 10000

def decodePairs (l : Bytes) : Option (List (Option Bytes × Option Bytes)) :=
  if maxNestingDepth < Json.nesting l then none
  else if l = utf8 "null" then some []
  else do (← Json.rawArray l).mapM decodePair

/-- The loop over the pairs: a later one replaces an earlier one. -/
def decodeCheckpoints (l : Bytes) : Except String (ℤ → Option Bytes) :=
  match decodePairs l with
  | none => .error "durablepg: decode checkpoints"
  | some pairs => pairs.foldlM (fun checkpoints pair =>
      match pair.1.bind Json.decodeInt with
      | none => .error "durablepg: decode checkpoint index"
      | some index => .ok (Function.update checkpoints index pair.2)) fun _ => none

/-! ### The claim -/

/-- What the statement returns of a row, as the driver hands it over. -/
structure Answer where
  id : RunId
  workflowName : String
  workflowVersion : ℤ
  stepIndex : ℕ
  attempt : ℕ
  leaseToken : Token
  inputJson : Bytes
  checkpoints : Bytes

/-- `RETURNING`, of an updated row. -/
def Db.answer [Jsonb J] (db : Db J) (r : Row J) : Answer where
  id := r.id
  workflowName := r.workflowName
  workflowVersion := r.workflowVersion
  stepIndex := r.stepIndex
  attempt := r.attempt
  leaseToken := r.leaseToken.getD ""
  inputJson := text r.inputJson
  checkpoints := checkpointsText (db.checkpointsOf r.id)

/-- What the loop over the rows makes of one of them. -/
def Answer.scan (a : Answer) : Except String ClaimedRun := do
  let checkpoints ← decodeCheckpoints a.checkpoints
  return {
    id := a.id
    workflowName := a.workflowName
    version := a.workflowVersion
    stepIndex := a.stepIndex
    input := a.inputJson
    attempt := a.attempt
    token := a.leaseToken
    checkpoints := fun i => checkpoints i }

/-- The order in which the server returns the rows of an update: any. -/
structure ReturnOrder where
  arrange : List RunId → List RunId
  perm : ∀ ids, (arrange ids).Perm ids

/-- The rows come as they were picked. -/
def ReturnOrder.asPicked : ReturnOrder := ⟨id, List.Perm.refl⟩

variable [Jsonb J]

/-- What the statement makes of the tables, where it is accepted. -/
def Db.afterClaim (db : Db J) (q : ClaimQuery) (locked : RunId → Bool) (gen : RunId → Token)
    (now clock : Time) : Db J :=
  db.update (claim (db.picked (q.claimable now) Row.nextRunAt locked q.limit) gen q.leaseMs now
    clock)

/-- Send the statement and read its answer. Errors stand without the text of the driver, and a
panic is an error. `maxCap` is the largest slice of claims that Go allocates. -/
def Db.claimRuns (db : Db J) (maxCap : ℕ) (ret : ReturnOrder) (q : ClaimQuery)
    (locked : RunId → Bool) (gen : RunId → Token) (now clock : Time) :
    Except String (List ClaimedRun) × Db J :=
  let ids := db.picked (q.claimable now) Row.nextRunAt locked q.limit
  let db' := db.afterClaim q locked gen now clock
  let accepted := isText q.queue && q.sel.readable
  if !q.sel.encodes then (.error "durablepg: claim runs", db)
  -- the slice is made before the first row is read
  else if maxCap < q.limit then
    (.error "panic: runtime error: makeslice: cap out of range", if accepted then db' else db)
  else if !accepted then (.error "durablepg: iterate claimed runs", db)
  else (((ret.arrange ids).filterMap db'.run).mapM fun r => (db'.answer r).scan, db')

/-- `claimReadyRuns`. The definitions stand in the order in which the map yields them. -/
def Engine.claimReadyRuns (e : Engine) (maxCap : ℕ) (ret : ReturnOrder) (limit : ℤ) (db : Db J)
    (locked : RunId → Bool) (gen : RunId → Token) (now clock : Time) :
    Except String (List ClaimedRun) × Db J :=
  if limit ≤ 0 then (.ok [], db)
  else
    match e.claimQuery limit.toNat with
    | none => (.ok [], db)
    | some q => db.claimRuns maxCap ret q locked gen now clock

/-! ### Checkpoints read back -/

omit [Jsonb J] in
lemma mapM_eq_pure {m : Type → Type} [Monad m] [LawfulMonad m] {α β : Type} {l : List α}
    {f : α → m β} {g : α → β} (h : ∀ x ∈ l, f x = pure (g x)) : l.mapM f = pure (l.map g) := by
  induction l with
  | nil => rfl
  | cons x l ih =>
    rw [List.mapM_cons, h x List.mem_cons_self, pure_bind,
      ih fun y hy => h y (List.mem_cons_of_mem _ hy), pure_bind, List.map_cons]

omit [Jsonb J] in
lemma mapM_eq_error {ε α β : Type} {l : List α} {f : α → Except ε β} {e : ε}
    (h : ∀ x ∈ l, (∃ y, f x = .ok y) ∨ f x = .error e) (hbad : ∃ x ∈ l, f x = .error e) :
    l.mapM f = .error e := by
  induction l with
  | nil => obtain ⟨x, hx, -⟩ := hbad; cases hx
  | cons x l ih =>
    rw [List.mapM_cons]
    rcases h x List.mem_cons_self with ⟨y, hx⟩ | hx
    · obtain ⟨z, hz, hbad⟩ := hbad
      have hz : z ∈ l := by
        rcases List.mem_cons.mp hz with rfl | hz
        · rw [hx] at hbad; cases hbad
        · exact hz
      rw [hx, ih (fun y hy => h y (List.mem_cons_of_mem _ hy)) ⟨z, hz, hbad⟩]
      rfl
    · rw [hx]
      rfl

omit [Jsonb J] in
lemma foldl_update {κ β : Type} [DecidableEq κ] (l : List (κ × β)) (hnodup : (l.map Prod.fst).Nodup)
    (m : κ → Option β) (k : κ) (b : β) :
    (l.foldl (fun m c => Function.update m c.1 (some c.2)) m : κ → Option β) k = some b ↔
      (k, b) ∈ l ∨ (k ∉ l.map Prod.fst ∧ m k = some b) := by
  induction l generalizing m with
  | nil => simp
  | cons c l ih =>
    obtain ⟨hc, hl⟩ := List.nodup_cons.mp hnodup
    rw [List.foldl_cons, ih hl]
    by_cases hk : k = c.1
    · subst hk
      have hnot : (c.1, b) ∉ l := fun hmem => hc (List.mem_map.mpr ⟨_, hmem, rfl⟩)
      simp only [hnot, hc, false_or, not_false_eq_true, true_and, Function.update_self,
        List.mem_cons, List.map_cons, not_true_eq_false, false_and, or_false]
      constructor
      · rintro h
        rw [← Option.some.inj h]
      · rintro h
        rw [← h]
    · have hne : (k, b) ≠ c := fun h => hk (congrArg Prod.fst h)
      simp [hk, hne]

section Read

variable {K : Type} [JsonbText K]

lemma isValue_of_mem_pair (c : ℕ × K) : ∀ v ∈ [Json.decimal c.1, text c.2], Json.IsValue v := by
  intro v hv
  rcases List.mem_cons.mp hv with rfl | hv
  · exact Json.isValue_decimal c.1
  · rw [List.mem_singleton.mp hv]
    exact JsonbText.isValue_text c.2

lemma isValue_checkpointText (c : ℕ × K) : Json.IsValue (checkpointText c) :=
  Json.isValue_listText (isValue_of_mem_pair c)

lemma listText_ne_null (vs : List Bytes) : Json.listText id 91 93 vs ≠ utf8 "null" := by
  intro h
  have hhead := congrArg List.head? h
  rcases vs with _ | ⟨v, vs⟩ <;> cases hhead

lemma decodePair_checkpointText (c : ℕ × K) :
    decodePair (checkpointText c) = some (some (Json.decimal c.1), some (text c.2)) := by
  have harray : Json.rawArray (checkpointText c) = some [Json.decimal c.1, text c.2] :=
    Json.rawArray_listText (isValue_of_mem_pair c)
  have hnull : checkpointText c ≠ utf8 "null" := listText_ne_null _
  rw [decodePair, if_neg hnull, harray]
  rfl

lemma nesting_checkpointsText (cs : List (ℕ × K)) :
    Json.nesting (checkpointsText cs) ≤ maxNestingDepth ↔
      ∀ c ∈ cs, Json.nesting (text c.2) + 2 ≤ maxNestingDepth := by
  have hvalues : ∀ v ∈ cs.map checkpointText, Json.IsValue v := by
    intro v hv
    obtain ⟨c, -, rfl⟩ := List.mem_map.mp hv
    exact isValue_checkpointText c
  have houter := Json.nesting_listText hvalues (maxNestingDepth - 1)
  rw [show maxNestingDepth - 1 + 1 = maxNestingDepth from rfl] at houter
  rw [checkpointsText, houter, List.forall_mem_map]
  refine forall₂_congr fun c _ => ?_
  have hinner := Json.nesting_listText (isValue_of_mem_pair c) (maxNestingDepth - 2)
  rw [show maxNestingDepth - 2 + 1 = maxNestingDepth - 1 from rfl] at hinner
  rw [checkpointText, hinner]
  simp only [List.forall_mem_cons, Json.nesting_decimal]
  simp [maxNestingDepth]

lemma decodePairs_checkpointsText (cs : List (ℕ × K))
    (hdepth : Json.nesting (checkpointsText cs) ≤ maxNestingDepth) :
    decodePairs (checkpointsText cs) =
      some (cs.map fun c => (some (Json.decimal c.1), some (text c.2))) := by
  have harray : Json.rawArray (checkpointsText cs) = some (cs.map checkpointText) := by
    refine Json.rawArray_listText fun v hv => ?_
    obtain ⟨c, -, rfl⟩ := List.mem_map.mp hv
    exact isValue_checkpointText c
  have hnull : checkpointsText cs ≠ utf8 "null" := listText_ne_null _
  rw [decodePairs, if_neg (by omega), if_neg hnull, harray, Option.bind_eq_bind, Option.bind_some,
    List.mapM_map]
  exact mapM_eq_pure fun c _ => decodePair_checkpointText c

lemma decodeCheckpoints_checkpointsText (cs : List (ℕ × K)) (hint : ∀ c ∈ cs, c.1 < 2 ^ 63)
    (hdepth : Json.nesting (checkpointsText cs) ≤ maxNestingDepth) :
    decodeCheckpoints (checkpointsText cs) =
      .ok ((cs.map fun c => ((c.1 : ℤ), text c.2)).foldl
        (fun m c => Function.update m c.1 (some c.2)) fun _ => none) := by
  rw [decodeCheckpoints, decodePairs_checkpointsText cs hdepth]
  simp only
  clear hdepth
  generalize (fun _ => none : ℤ → Option Bytes) = m
  induction cs generalizing m with
  | nil => rfl
  | cons c cs ih =>
    have hindex := Json.decodeInt_decimal (hint c List.mem_cons_self)
    simp only [List.map_cons, List.foldlM_cons, Option.bind_some, hindex, List.foldl_cons]
    exact ih (fun c' hc' => hint c' (List.mem_cons_of_mem _ hc')) _

/-- The step indexes fit their column. -/
def Db.Integers (db : Db K) : Prop := ∀ c ∈ db.checkpoints.rows, isInt4 c.stepIndex = true

/-- `encoding/json` decodes the checkpoints of the run, which come within two more arrays. -/
def Db.Shallow (db : Db K) (id : RunId) : Prop :=
  ∀ c ∈ db.checkpoints.rows, c.runId = id → Json.nesting (text c.value) + 2 ≤ maxNestingDepth

lemma Db.shallow_iff (db : Db K) (id : RunId) : db.Shallow id ↔
    Json.nesting (checkpointsText (db.checkpointsOf id)) ≤ maxNestingDepth := by
  simp only [nesting_checkpointsText, Shallow, checkpointsOf, List.forall_mem_map,
    List.mem_filter, decide_eq_true_eq, and_imp]

lemma Db.checkpoints_read {db : Db K} (hdb : db.Integers) {id : RunId} (hid : db.Shallow id) :
    ∃ m, decodeCheckpoints (checkpointsText (db.checkpointsOf id)) = .ok m ∧
      ∀ i : ℕ, m i = (db.checkpoint id i).map text := by
  have hint : ∀ c ∈ db.checkpointsOf id, c.1 < 2 ^ 63 := by
    intro c hc
    obtain ⟨c', hc', rfl⟩ := List.mem_map.mp hc
    have hfits := hdb c' (List.mem_filter.mp hc').1
    simp only [isInt4, Bool.and_eq_true, decide_eq_true_eq] at hfits
    omega
  refine ⟨_, decodeCheckpoints_checkpointsText _ hint ((db.shallow_iff id).mp hid),
    fun i => Option.ext fun b => ?_⟩
  -- the indexes of a run are pairwise different
  have hnodup :
      (((db.checkpointsOf id).map fun c => ((c.1 : ℤ), text c.2)).map Prod.fst).Nodup := by
    have hkeys := (List.filter_sublist (p := fun c => decide (c.runId = id))
      (l := db.checkpoints.rows)).map Checkpoint.key |>.nodup db.checkpoints.nodup
    rw [checkpointsOf, List.map_map, List.map_map]
    refine List.Nodup.map_on (fun c hc c' hc' heq => ?_) (List.Nodup.of_map _ hkeys)
    have hrun := (List.mem_filter.mp hc).2
    have hrun' := (List.mem_filter.mp hc').2
    simp only [decide_eq_true_eq] at hrun hrun'
    refine List.inj_on_of_nodup_map hkeys hc hc' ?_
    simp only [Function.comp_apply, Int.natCast_inj] at heq
    rw [Checkpoint.key, Checkpoint.key, hrun, hrun', heq]
  rw [foldl_update _ hnodup]
  simp only [List.mem_map, Prod.mk.injEq, reduceCtorEq, and_false, or_false, checkpointsOf,
    List.mem_filter, decide_eq_true_eq, checkpoint, Option.map_eq_some_iff,
    Table.get_eq_some_iff]
  constructor
  · rintro ⟨_, ⟨c, ⟨hc, hrun⟩, rfl⟩, hi, rfl⟩
    have hi : c.stepIndex = i := Int.natCast_inj.mp hi
    exact ⟨c.value, ⟨c, ⟨hc, by rw [Checkpoint.key, hrun, hi]⟩, rfl⟩, rfl⟩
  · rintro ⟨_, ⟨c, ⟨hc, hkey⟩, rfl⟩, rfl⟩
    obtain ⟨hrun, hi⟩ := Prod.mk.inj hkey
    exact ⟨_, ⟨c, ⟨hc, hrun⟩, rfl⟩, by rw [hi], rfl⟩

lemma Db.scan_answer {db : Db K} (hdb : db.Integers) {r : Row K} (hr : db.Shallow r.id) :
    (db.answer r).scan = .ok (r.claimedRun (r.leaseToken.getD "") (db.checkpoint r.id)) := by
  obtain ⟨m, hm, hread⟩ := db.checkpoints_read hdb hr
  rw [Answer.scan, Db.answer, hm]
  simp only [Row.claimedRun, bind, Except.bind, pure, Except.pure, hread]

lemma Db.scan_deep {db : Db K} {r : Row K} (hr : ¬db.Shallow r.id) :
    (db.answer r).scan = .error "durablepg: decode checkpoints" := by
  rw [Db.shallow_iff, not_le] at hr
  rw [Answer.scan, Db.answer, decodeCheckpoints, decodePairs, if_pos hr]
  rfl

lemma Db.scan_rows {db : Db K} (hdb : db.Integers) (rows : List (Row K)) :
    ((∀ r ∈ rows, db.Shallow r.id) → (rows.mapM fun r => (db.answer r).scan) =
      .ok (rows.map fun r => r.claimedRun (r.leaseToken.getD "") (db.checkpoint r.id))) ∧
    ((¬∀ r ∈ rows, db.Shallow r.id) → (rows.mapM fun r => (db.answer r).scan) =
      .error "durablepg: decode checkpoints") := by
  constructor
  · intro h
    exact mapM_eq_pure fun r hr => Db.scan_answer hdb (h r hr)
  · intro h
    push Not at h
    obtain ⟨r, hr, hdeep⟩ := h
    refine mapM_eq_error (fun r _ => ?_) ⟨r, hr, Db.scan_deep hdeep⟩
    by_cases hs : db.Shallow r.id
    · exact Or.inl ⟨_, Db.scan_answer hdb hs⟩
    · exact Or.inr (Db.scan_deep hs)

end Read

/-! ### Selection -/

/-- The row can be claimed: it is ready and due, on the queue of the engine, and of a definition
that the engine has registered, name and version together. -/
def Engine.claimable (e : Engine) (now : Time) (r : Row J) : Bool :=
  r.queue = e.queue && r.state = .ready && r.nextRunAt ≤ now &&
    (r.workflowName, r.workflowVersion) ∈ e.workflows

/-- The order of claims: by the time a run is due, then by its identifier. -/
def Row.Before (a b : Row J) : Prop :=
  a.nextRunAt < b.nextRunAt ∨ (a.nextRunAt = b.nextRunAt ∧ a.id ≤ b.id)

instance : DecidableRel (Row.Before (J := J)) := fun a b =>
  inferInstanceAs
    (Decidable (a.nextRunAt < b.nextRunAt ∨ (a.nextRunAt = b.nextRunAt ∧ a.id ≤ b.id)))

instance : Std.Total (Row.Before (J := J)) := ⟨fun a b => by unfold Row.Before; grind⟩

instance : IsTrans (Row J) Row.Before := ⟨fun a b c => by unfold Row.Before; grind⟩

/-- A row under a new lease of the engine. -/
def Engine.lease (e : Engine) (gen : RunId → Token) (now clock : Time) (r : Row J) : Row J :=
  { r with
    state := .leased
    leaseToken := some (gen r.id)
    leaseUntil := some (clock + millis (milliseconds e.leaseTTL))
    updatedAt := now }

/-- **What a claim does to the tables**: in their order, the rows that can be claimed are `first`
and then `rest`; `first` has as many of them as the limit allows, it is leased, and nothing else
changes. -/
structure Engine.Leases (e : Engine) (limit : ℤ) (db : Db J) (gen : RunId → Token)
    (now clock : Time) (db' : Db J) (first rest : List (Row J)) : Prop where
  rows : (first ++ rest).Perm (db.runs.rows.filter (e.claimable now))
  ordered : (first ++ rest).Pairwise Row.Before
  length : first.length = min limit.toNat (db.runs.rows.filter (e.claimable now)).length
  leased : ∀ id, db'.run id = (db.run id).map fun r =>
    if id ∈ first.map Row.id then e.lease gen now clock r else r
  checkpoints : db'.checkpoints = db.checkpoints
  events : db'.events = db.events

/-- **What a claim does**: the rows it leases are returned as they are stored. -/
structure Engine.Selects (e : Engine) (limit : ℤ) (db : Db J) (gen : RunId → Token)
    (now clock : Time) (res : Except String (List ClaimedRun) × Db J) (first rest : List (Row J)) :
    Prop where
  leases : e.Leases limit db gen now clock res.2 first rest
  returned : first ≠ [] → ∃ runs, res.1 = .ok runs
  only : ∀ runs, res.1 = .ok runs →
    runs.Perm (first.map fun r => r.claimedRun (gen r.id) (db.checkpoint r.id))

/-- Two claims do the same, in whatever order the rows come back. -/
structure SameClaim (res res' : Except String (List ClaimedRun) × Db J) : Prop where
  db : res.2 = res'.2
  error : ∀ e, res.1 = .error e ↔ res'.1 = .error e
  runs : ∀ runs runs', res.1 = .ok runs → res'.1 = .ok runs' → runs.Perm runs'

omit [Jsonb J] in
lemma SameClaim.refl (res : Except String (List ClaimedRun) × Db J) : SameClaim res res :=
  ⟨rfl, fun _ => Iff.rfl, fun runs runs' h h' => by rw [h] at h'; cases h'; exact .refl _⟩

/-! ### The statement and its parameters -/

namespace Engine

omit [Jsonb J] in
lemma claimQuery_spec {e : Engine} {n : ℕ} {q : ClaimQuery} (h : e.claimQuery n = some q) :
    q.queue = e.queue ∧ q.limit = n ∧ q.leaseMs = milliseconds e.leaseTTL ∧
      q.sel.encodes = e.workflows.all (fun key => isInt4 key.2) ∧
      q.sel.readable = e.workflows.all (fun key => isText key.1) ∧
      ∀ r : Row J,
        q.sel.selects r = decide ((r.workflowName, r.workflowVersion) ∈ e.workflows) := by
  unfold claimQuery at h
  split at h
  · cases h
  · split at h
    · cases h
    · rename_i name version hkeys
      cases h
      rw [hkeys]
      refine ⟨rfl, rfl, rfl, ?_, ?_, fun r => ?_⟩
      · simp [Selector.encodes]
      · simp [Selector.readable]
      · simp [Selector.selects]
    · cases h
      refine ⟨rfl, rfl, rfl, ?_, ?_, fun r => ?_⟩
      · simp [Selector.encodes, Function.comp_def]
      · simp [Selector.readable, Function.comp_def]
      · -- the arrays are paired again
        have hzip := List.zip_unzip e.workflows
        rw [List.unzip_eq_map] at hzip
        rw [Selector.selects, hzip]

omit [Jsonb J] in
lemma claimQuery_none {e : Engine} {n : ℕ} (hn : n ≠ 0) (h : e.claimQuery n = none) :
    e.workflows = [] := by
  unfold claimQuery at h
  rw [if_neg hn] at h
  split at h
  · assumption
  · cases h
  · cases h

omit [Jsonb J] in
lemma claimQuery_claimable {e : Engine} {n : ℕ} {q : ClaimQuery} (h : e.claimQuery n = some q)
    (now : Time) (r : Row J) : q.claimable now r = e.claimable now r := by
  obtain ⟨hqueue, -, -, -, -, hsel⟩ := claimQuery_spec (J := J) h
  rw [ClaimQuery.claimable, claimable, hqueue, hsel]

end Engine

section Claims

variable {K : Type} [JsonbText K] {db : Db K} {e : Engine} {limit : ℤ} {q : ClaimQuery}
  {maxCap : ℕ}

/-- Everything that is sent is within its type. -/
def Engine.Readable (e : Engine) : Prop :=
  isText e.queue = true ∧ ∀ key ∈ e.workflows, isText key.1 = true

/-- The rows to claim, in order. -/
def Engine.candidates (e : Engine) (now : Time) (db : Db K) : List (Row K) :=
  (db.runs.rows.filter (e.claimable now)).insertionSort Row.Before

/-- The rows that the statement picks. -/
def Db.pickedRows (db : Db K) (q : ClaimQuery) (now : Time) (locked : RunId → Bool) :
    List (Row K) :=
  ((db.runs.rows.filter fun r => q.claimable now r && !locked r.id).insertionSort Row.Before).take
    q.limit

/-! ### The tables behind a claim -/

section Tables

variable (ret ret' : ReturnOrder) (locked : RunId → Bool) (gen : RunId → Token) (now clock : Time)

omit [JsonbText K] in
lemma Db.picked_eq (db : Db K) (q : ClaimQuery) :
    db.picked (q.claimable now) Row.nextRunAt locked q.limit =
      (db.pickedRows q now locked).map Row.id := rfl

variable {locked now} in
omit [JsonbText K] in
lemma Db.mem_of_pickedRows {r : Row K} (h : r ∈ db.pickedRows q now locked) : r ∈ db.runs.rows :=
  (List.mem_filter.mp ((List.mem_insertionSort _).mp (List.mem_of_mem_take h))).1

omit [JsonbText K] in
lemma Db.checkpoints_afterClaim :
    (db.afterClaim q locked gen now clock).checkpoints = db.checkpoints := by
  simp [afterClaim, Db.update, Db.recorded, claim, Table.insertAll]

omit [JsonbText K] in
lemma Db.run_afterClaim (id : RunId) : (db.afterClaim q locked gen now clock).run id =
    (db.run id).map fun r => if id ∈ (db.pickedRows q now locked).map Row.id then
      (claim [] gen q.leaseMs now clock).set r else r := by
  rw [afterClaim, Db.run_update]
  refine Option.map_congr fun r hr => ?_
  rw [← Db.run_id hr, Db.picked_eq]
  simp only [claim, decide_eq_true_eq]

omit [JsonbText K] in
lemma Db.integers_afterClaim (hdb : db.Integers) :
    (db.afterClaim q locked gen now clock).Integers := by
  rw [Db.Integers, Db.checkpoints_afterClaim]
  exact hdb

lemma Db.shallow_afterClaim (id : RunId) :
    (db.afterClaim q locked gen now clock).Shallow id ↔ db.Shallow id := by
  rw [Db.Shallow, Db.checkpoints_afterClaim, Db.Shallow]

omit [JsonbText K] in
lemma Db.rows_returned : ∃ rows : List (Row K), rows.Perm (db.pickedRows q now locked) ∧
    (ret.arrange (db.picked (q.claimable now) Row.nextRunAt locked q.limit)).filterMap
      (db.afterClaim q locked gen now clock).run =
      rows.map (claim [] gen q.leaseMs now clock).set := by
  have hperm := ret.perm ((db.pickedRows q now locked).map Row.id)
  rw [Db.picked_eq]
  refine ⟨(ret.arrange ((db.pickedRows q now locked).map Row.id)).filterMap db.run, ?_, ?_⟩
  · -- each identifier finds its row
    refine (hperm.filterMap db.run).trans (List.Perm.of_eq ?_)
    rw [List.filterMap_map]
    refine (List.filterMap_congr fun r hr => ?_).trans List.filterMap_some
    exact Db.run_of_mem (Db.mem_of_pickedRows hr)
  · rw [List.map_filterMap]
    refine List.filterMap_congr fun id hid => ?_
    rw [Db.run_afterClaim]
    refine Option.map_congr fun r _ => ?_
    rw [if_pos (hperm.subset hid)]

/-! ### The answer -/

variable (maxCap) in
lemma Db.claimRuns_accepted (hencodes : q.sel.encodes = true) (hqueue : isText q.queue = true)
    (hreadable : q.sel.readable = true) :
    (db.claimRuns maxCap ret q locked gen now clock).2 = db.afterClaim q locked gen now clock := by
  simp only [Db.claimRuns, hencodes, hqueue, hreadable, Bool.not_true, Bool.false_eq_true,
    if_false, Bool.and_self, if_true]
  split <;> rfl

lemma Db.claimRuns_sent (hdb : db.Integers) (hencodes : q.sel.encodes = true)
    (hqueue : isText q.queue = true) (hreadable : q.sel.readable = true)
    (hcap : q.limit ≤ maxCap) :
    ((∀ r ∈ db.pickedRows q now locked, db.Shallow r.id) →
      ∃ runs, (db.claimRuns maxCap ret q locked gen now clock).1 = .ok runs ∧
        runs.Perm ((db.pickedRows q now locked).map fun r =>
          r.claimedRun (gen r.id) (db.checkpoint r.id))) ∧
    ((¬∀ r ∈ db.pickedRows q now locked, db.Shallow r.id) →
      (db.claimRuns maxCap ret q locked gen now clock).1 =
        .error "durablepg: decode checkpoints") := by
  obtain ⟨rows, hperm, hrows⟩ := db.rows_returned (q := q) ret locked gen now clock
  have hanswer : (db.claimRuns maxCap ret q locked gen now clock).1 =
      (rows.map (claim [] gen q.leaseMs now clock).set).mapM fun r =>
        ((db.afterClaim q locked gen now clock).answer r).scan := by
    rw [← hrows, Db.claimRuns]
    simp only [hencodes, hqueue, hreadable, Bool.not_true, Bool.false_eq_true, if_false,
      Bool.and_self]
    rw [if_neg (by omega)]
  have hshallow : (∀ r ∈ rows.map (claim [] gen q.leaseMs now clock).set,
      (db.afterClaim q locked gen now clock).Shallow r.id) ↔
      ∀ r ∈ db.pickedRows q now locked, db.Shallow r.id := by
    simp only [List.forall_mem_map, Db.shallow_afterClaim, hperm.mem_iff]
    rfl
  obtain ⟨hok, herror⟩ := Db.scan_rows (db.integers_afterClaim (q := q) locked gen now clock hdb)
    (rows.map (claim [] gen q.leaseMs now clock).set)
  rw [hshallow] at hok herror
  rw [hanswer]
  refine ⟨fun h => ⟨_, hok h, ?_⟩, herror⟩
  rw [List.map_map]
  refine (List.Perm.of_eq (List.map_congr_left fun r _ => ?_)).trans (hperm.map _)
  have hcheckpoint : (db.afterClaim q locked gen now clock).checkpoint r.id =
      db.checkpoint r.id := by
    funext i
    rw [Db.checkpoint, Db.checkpoint, Db.checkpoints_afterClaim]
  change Row.claimedRun _ _ ((db.afterClaim q locked gen now clock).checkpoint r.id) = _
  rw [hcheckpoint]
  rfl

variable {ret locked gen now clock} in
lemma Db.claimRuns_error (hdb : db.Integers) (hencodes : q.sel.encodes = true)
    (hqueue : isText q.queue = true) (hreadable : q.sel.readable = true) {err : String}
    (h : (db.claimRuns maxCap ret q locked gen now clock).1 = .error err) :
    err = "panic: runtime error: makeslice: cap out of range" ∨
      err = "durablepg: decode checkpoints" := by
  rcases Nat.lt_or_ge maxCap q.limit with hcap | hcap
  · simp only [Db.claimRuns, hencodes, Bool.not_true, Bool.false_eq_true, if_false,
      if_pos hcap] at h
    exact Or.inl (Except.error.inj h).symm
  · obtain ⟨hok, herror⟩ :=
      Db.claimRuns_sent ret locked gen now clock hdb hencodes hqueue hreadable hcap
    by_cases hs : ∀ r ∈ db.pickedRows q now locked, db.Shallow r.id
    · obtain ⟨runs, hruns, -⟩ := hok hs
      rw [hruns] at h; cases h
    · rw [herror hs] at h
      exact Or.inr (Except.error.inj h).symm

variable (maxCap) in
lemma Db.claimRuns_order (hdb : db.Integers) :
    SameClaim (db.claimRuns maxCap ret q locked gen now clock)
      (db.claimRuns maxCap ret' q locked gen now clock) := by
  by_cases hencodes : q.sel.encodes = true
  · rcases Nat.lt_or_ge maxCap q.limit with hcap | hcap
    · simp only [Db.claimRuns, if_pos hcap]
      exact .refl _
    · by_cases haccepted : (isText q.queue && q.sel.readable) = true
      · obtain ⟨hqueue, hreadable⟩ := Bool.and_eq_true_iff.mp haccepted
        obtain ⟨hok, herror⟩ :=
          Db.claimRuns_sent ret locked gen now clock hdb hencodes hqueue hreadable hcap
        obtain ⟨hok', herror'⟩ :=
          Db.claimRuns_sent ret' locked gen now clock hdb hencodes hqueue hreadable hcap
        have hafter : ∀ ret, (db.claimRuns maxCap ret q locked gen now clock).2 =
            db.afterClaim q locked gen now clock := fun ret =>
          Db.claimRuns_accepted maxCap ret locked gen now clock hencodes hqueue hreadable
        have hdb' := (hafter ret).trans (hafter ret').symm
        by_cases hs : ∀ r ∈ db.pickedRows q now locked, db.Shallow r.id
        · obtain ⟨runs, hruns, hperm⟩ := hok hs
          obtain ⟨runs', hruns', hperm'⟩ := hok' hs
          refine ⟨hdb', fun e => ?_, fun l l' hl hl' => ?_⟩
          · rw [hruns, hruns']; constructor <;> intro h <;> cases h
          · rw [hruns] at hl; cases hl
            rw [hruns'] at hl'; cases hl'
            exact hperm.trans hperm'.symm
        · refine ⟨hdb', fun e => by rw [herror hs, herror' hs], fun l l' hl _ => ?_⟩
          rw [herror hs] at hl; cases hl
      · simp only [Db.claimRuns, haccepted]
        exact .refl _
  · simp only [Db.claimRuns, hencodes]
    exact .refl _

variable (maxCap) in
/-- What is sent and read depends on the definitions only through what they select and whether
their types can hold them. -/
lemma Db.claimRuns_congr (hdb : db.Integers) {q' : ClaimQuery}
    (hqueue : q'.queue = q.queue) (hlimit : q'.limit = q.limit) (hms : q'.leaseMs = q.leaseMs)
    (hencodes : q'.sel.encodes = q.sel.encodes) (hreadable : q'.sel.readable = q.sel.readable)
    (hsel : ∀ r : Row K, q'.sel.selects r = q.sel.selects r) :
    SameClaim (db.claimRuns maxCap ret' q' locked gen now clock)
      (db.claimRuns maxCap ret q locked gen now clock) := by
  have hclaimable : q'.claimable (J := K) now = q.claimable now := by
    funext r
    rw [ClaimQuery.claimable, ClaimQuery.claimable, hqueue, hsel]
  have heq : db.claimRuns maxCap ret' q' locked gen now clock =
      db.claimRuns maxCap ret' q locked gen now clock := by
    unfold Db.claimRuns Db.afterClaim
    rw [hencodes, hreadable, hqueue, hlimit, hms, hclaimable]
  rw [heq]
  exact Db.claimRuns_order maxCap ret' ret locked gen now clock hdb

end Tables

/-! ### The claim of an engine -/

section Engines

variable {ret ret' : ReturnOrder} {locked : RunId → Bool} {gen : RunId → Token} {now clock : Time}

lemma Engine.claimQuery_sent (hint : ∀ key ∈ e.workflows, isInt4 key.2 = true)
    (htext : e.Readable) {n : ℕ} (hq : e.claimQuery n = some q) :
    q.sel.encodes = true ∧ isText q.queue = true ∧ q.sel.readable = true := by
  obtain ⟨hqueue, -, -, hencodes, hreadable, -⟩ := claimQuery_spec (J := Unit) hq
  rw [hqueue, hencodes, hreadable]
  exact ⟨List.all_eq_true.mpr hint, htext.1, List.all_eq_true.mpr htext.2⟩

omit [JsonbText K] in
lemma Engine.claimQuery_picked (hq : e.claimQuery limit.toNat = some q) :
    db.pickedRows q now (fun _ => false) = (e.candidates now db).take limit.toNat := by
  obtain ⟨-, hlim, -⟩ := claimQuery_spec (J := K) hq
  have hfilter : (fun r : Row K => q.claimable now r && !false) = e.claimable now := by
    funext r
    rw [Bool.not_false, Bool.and_true, claimQuery_claimable hq]
  rw [Db.pickedRows, hfilter, hlim]
  rfl

/-- The claim of the server is this one, and it hands out the runs that the workers drive. -/
theorem Server.claim_answer {s s' : Server K} (hdb : s.db.Integers)
    (hencodes : q.sel.encodes = true) (hqueue : isText q.queue = true)
    (hreadable : q.sel.readable = true) (hcap : q.limit ≤ maxCap)
    (h : s.step (.claim q gen now) = some s')
    (hshallow : ∀ id ∈ s.db.picked (q.claimable now) Row.nextRunAt s.locked q.limit,
      s.db.Shallow id) :
    ∃ runs, s.db.claimRuns maxCap ret q s.locked gen now s.clock = (.ok runs, s'.db) ∧
      ∀ run, run ∈ runs ↔ ∃ id r,
        id ∈ s.db.picked (q.claimable now) Row.nextRunAt s.locked q.limit ∧
        s.db.run id = some r ∧ run = r.claimedRun (gen id) (s.db.checkpoint id) := by
  rw [Db.picked_eq, List.forall_mem_map] at hshallow
  obtain ⟨runs, hruns, hperm⟩ := (Db.claimRuns_sent ret s.locked gen now s.clock hdb hencodes
    hqueue hreadable hcap).1 hshallow
  have hafter : (s.db.claimRuns maxCap ret q s.locked gen now s.clock).2 = _ :=
    Db.claimRuns_accepted maxCap ret s.locked gen now s.clock hencodes hqueue hreadable
  cases does h with
  | @claim q gen now hnow ids hids hnodup hfresh =>
    subst hids
    refine ⟨runs, Prod.ext hruns hafter, fun run => ?_⟩
    rw [hperm.mem_iff, Db.picked_eq]
    constructor
    · intro hrun
      obtain ⟨r, hr, rfl⟩ := List.mem_map.mp hrun
      exact ⟨r.id, r, List.mem_map_of_mem hr, Db.run_of_mem (Db.mem_of_pickedRows hr), rfl⟩
    · rintro ⟨id, r, hid, hr, rfl⟩
      obtain ⟨r', hr', rfl⟩ := List.mem_map.mp hid
      rw [Db.run_of_mem (Db.mem_of_pickedRows hr')] at hr
      cases hr
      exact List.mem_map.mpr ⟨r, hr', rfl⟩

omit [JsonbText K] in
lemma Engine.leases_nil (hnone : db.runs.rows.filter (e.claimable now) = []) :
    e.Leases limit db gen now clock db [] [] where
  rows := by rw [hnone]; exact .nil
  ordered := .nil
  length := by rw [hnone]; simp
  leased id := by simp
  checkpoints := rfl
  events := rfl

omit [JsonbText K] in
lemma Engine.claimable_nil (hnil : e.workflows = []) (now : Time) (db : Db K) :
    db.runs.rows.filter (e.claimable now) = [] := by
  refine List.filter_eq_nil_iff.mpr fun r _ => ?_
  simp [claimable, hnil]

lemma Engine.claimReadyRuns_nil (hlimit : 1 ≤ limit) (hnil : e.workflows = []) :
    e.claimReadyRuns maxCap ret limit db locked gen now clock = (.ok [], db) := by
  rw [claimReadyRuns, if_neg (by omega), claimQuery, if_neg (by omega), hnil]

lemma Engine.claimReadyRuns_eq (hlimit : 1 ≤ limit) (hq : e.claimQuery limit.toNat = some q) :
    e.claimReadyRuns maxCap ret limit db locked gen now clock =
      db.claimRuns maxCap ret q locked gen now clock := by
  rw [claimReadyRuns, if_neg (by omega), hq]

omit [JsonbText K] in
lemma Engine.leases_afterClaim (hq : e.claimQuery limit.toNat = some q) :
    e.Leases limit db gen now clock (db.afterClaim q (fun _ => false) gen now clock)
      ((e.candidates now db).take limit.toNat) ((e.candidates now db).drop limit.toNat) where
  rows := by
    rw [List.take_append_drop]
    exact List.perm_insertionSort _ _
  ordered := by
    rw [List.take_append_drop]
    exact List.pairwise_insertionSort _ _
  length := by rw [List.length_take, candidates, List.length_insertionSort]
  leased id := by
    obtain ⟨-, -, hms, -⟩ := claimQuery_spec (J := K) hq
    rw [Db.run_afterClaim, claimQuery_picked hq, hms]
    rfl
  checkpoints := Db.checkpoints_afterClaim ..
  events := rfl

/-- **A claim that is accepted leases.** -/
lemma Engine.leases_sent (db : Db K) (gen : RunId → Token) (now clock : Time)
    (hlimit : 1 ≤ limit) (hint : ∀ key ∈ e.workflows, isInt4 key.2 = true) (htext : e.Readable) :
    ∃ first rest, ∀ maxCap ret, e.Leases limit db gen now clock
      (e.claimReadyRuns maxCap ret limit db (fun _ => false) gen now clock).2 first rest := by
  rcases hq : e.claimQuery limit.toNat with _ | q
  · have hnil := claimQuery_none (by omega) hq
    refine ⟨[], [], fun maxCap ret => ?_⟩
    rw [claimReadyRuns_nil hlimit hnil]
    exact leases_nil (claimable_nil hnil now db)
  · obtain ⟨hencodes, hqueue, hreadable⟩ := claimQuery_sent hint htext hq
    refine ⟨(e.candidates now db).take limit.toNat, (e.candidates now db).drop limit.toNat,
      fun maxCap ret => ?_⟩
    rw [claimReadyRuns_eq hlimit hq,
      Db.claimRuns_accepted maxCap ret _ gen now clock hencodes hqueue hreadable]
    exact leases_afterClaim hq

/-- **A claim that can be read selects.** -/
lemma Engine.selects_sent (hdb : db.Integers) (hlimit : 1 ≤ limit)
    (hint : ∀ key ∈ e.workflows, isInt4 key.2 = true) (htext : e.Readable) (hcap : limit ≤ maxCap)
    (hshallow : ∀ r ∈ (e.candidates now db).take limit.toNat, db.Shallow r.id) :
    ∃ first rest, ∀ ret, e.Selects limit db gen now clock
      (e.claimReadyRuns maxCap ret limit db (fun _ => false) gen now clock) first rest := by
  rcases hq : e.claimQuery limit.toNat with _ | q
  · have hnil := claimQuery_none (by omega) hq
    refine ⟨[], [], fun ret => ?_⟩
    rw [claimReadyRuns_nil hlimit hnil]
    refine ⟨leases_nil (claimable_nil hnil now db), fun h => absurd rfl h, fun runs h => ?_⟩
    cases h
    exact .nil
  · obtain ⟨hencodes, hqueue, hreadable⟩ := claimQuery_sent hint htext hq
    obtain ⟨-, hlim, -⟩ := claimQuery_spec (J := K) hq
    rw [← claimQuery_picked hq] at hshallow
    refine ⟨(e.candidates now db).take limit.toNat, (e.candidates now db).drop limit.toNat,
      fun ret => ?_⟩
    have hcap' : q.limit ≤ maxCap := by omega
    obtain ⟨runs, hruns, hperm⟩ := (Db.claimRuns_sent ret (fun _ => false) gen now clock hdb
      hencodes hqueue hreadable hcap').1 hshallow
    rw [claimQuery_picked hq] at hperm
    rw [claimReadyRuns_eq hlimit hq]
    refine ⟨?_, fun _ => ⟨runs, hruns⟩, fun runs' h => ?_⟩
    · rw [Db.claimRuns_accepted maxCap ret _ gen now clock hencodes hqueue hreadable]
      exact leases_afterClaim hq
    · rw [hruns] at h; cases h
      exact hperm

omit [JsonbText K] in
lemma Engine.Leases.first_ne (hlimit : 1 ≤ limit) {db' : Db K} {first rest : List (Row K)}
    (h : e.Leases limit db gen now clock db' first rest)
    (hne : db.runs.rows.filter (e.claimable now) ≠ []) : first ≠ [] := by
  have hpos := List.length_pos_iff.mpr hne
  refine List.ne_nil_of_length_pos ?_
  rw [h.length]
  omega

omit [JsonbText K] in
lemma Engine.Leases.nothing (hlimit : 1 ≤ limit) {first rest : List (Row K)}
    (h : e.Leases limit db gen now clock db first rest) :
    db.runs.rows.filter (e.claimable now) = [] := by
  by_contra hne
  obtain ⟨r, hr⟩ := List.exists_mem_of_ne_nil _ (h.first_ne hlimit hne)
  obtain ⟨hmem, hclaim⟩ := List.mem_filter.mp (h.rows.subset (List.mem_append_left _ hr))
  have hleased := h.leased r.id
  rw [Db.run_of_mem hmem, Option.map_some, if_pos (List.mem_map_of_mem hr)] at hleased
  have hstate : r.state = .leased := congrArg Row.state (Option.some.inj hleased)
  simp only [claimable, Bool.and_eq_true, decide_eq_true_eq] at hclaim
  rw [hstate] at hclaim
  cases hclaim.1.1.2

lemma Engine.claimReadyRuns_refused (hlimit : 1 ≤ limit) (hcap : limit ≤ maxCap)
    (hint : ∀ key ∈ e.workflows, isInt4 key.2 = true) (htext : ¬e.Readable)
    (hne : e.workflows ≠ []) :
    e.claimReadyRuns maxCap ret limit db locked gen now clock =
      (.error "durablepg: iterate claimed runs", db) := by
  rcases hq : e.claimQuery limit.toNat with _ | q
  · exact absurd (claimQuery_none (by omega) hq) hne
  obtain ⟨hqueue, hlim, -, hencodes, hreadable, -⟩ := claimQuery_spec (J := K) hq
  have hnot : (isText e.queue && e.workflows.all fun key => isText key.1) = false := by
    by_contra h
    rw [Bool.not_eq_false, Bool.and_eq_true, List.all_eq_true] at h
    exact htext h
  have hall : (e.workflows.all fun key => isInt4 key.2) = true := List.all_eq_true.mpr hint
  rw [claimReadyRuns_eq hlimit hq]
  simp only [Db.claimRuns, hencodes, hreadable, hqueue, hnot, hall]
  rw [if_neg (by simp), if_neg (by omega), if_pos (by simp)]

/-- The order in which the map yields the definitions does not matter. -/
lemma Engine.claimReadyRuns_perm (hdb : db.Integers) {order : List (String × ℤ)}
    (h : order.Perm e.workflows) (hlimit : 1 ≤ limit) :
    SameClaim
      (({ e with workflows := order } : Engine).claimReadyRuns maxCap ret' limit db locked gen now
        clock)
      (e.claimReadyRuns maxCap ret limit db locked gen now clock) := by
  have hn : limit.toNat ≠ 0 := by omega
  rcases hq : e.claimQuery limit.toNat with _ | q
  · have hnil := claimQuery_none hn hq
    rw [hnil] at h
    rw [claimReadyRuns_nil hlimit hnil, claimReadyRuns_nil hlimit (List.perm_nil.mp h)]
    exact .refl _
  · rcases hq' : ({ e with workflows := order } : Engine).claimQuery limit.toNat with _ | q'
    · have hnil : order = [] := claimQuery_none hn hq'
      rw [hnil] at h
      rw [claimQuery, if_neg hn, List.nil_perm.mp h] at hq
      cases hq
    · obtain ⟨hqueue, hlim, hms, hencodes, hreadable, hsel⟩ := claimQuery_spec (J := K) hq
      obtain ⟨hqueue', hlim', hms', hencodes', hreadable', hsel'⟩ := claimQuery_spec (J := K) hq'
      rw [claimReadyRuns_eq hlimit hq, claimReadyRuns_eq hlimit hq']
      refine Db.claimRuns_congr maxCap _ _ _ _ _ _ hdb (hqueue'.trans hqueue.symm)
        (hlim'.trans hlim.symm) (hms'.trans hms.symm) ?_ ?_ fun r => ?_
      · rw [hencodes', hencodes, h.all_eq]
      · rw [hreadable', hreadable, h.all_eq]
      · rw [hsel', hsel]
        simp only [h.mem_iff]

/-- **Claim selection**: with every version within `INTEGER` and a limit for which the slice of
claims can be made, a claim on rows that nobody has locked does what it should exactly if there
is nothing to claim, or every name and the queue are texts that the server reads and no checkpoint
of a run to be returned is nested too deeply for `encoding/json`. -/
theorem claim_selection (db : Db K) (hdb : db.Integers) (e : Engine)
    (hint : ∀ key ∈ e.workflows, isInt4 key.2 = true) (maxCap : ℕ) (limit : ℤ)
    (hlimit : 1 ≤ limit) (hcap : limit ≤ maxCap) (gen : RunId → Token) (now clock : Time) :
    ((∃ first rest, ∀ ret, e.Selects limit db gen now clock
        (e.claimReadyRuns maxCap ret limit db (fun _ => false) gen now clock) first rest) ∧
      (∀ order, order.Perm e.workflows → ∀ ret ret', SameClaim
        (({ e with workflows := order } : Engine).claimReadyRuns maxCap ret' limit db
          (fun _ => false) gen now clock)
        (e.claimReadyRuns maxCap ret limit db (fun _ => false) gen now clock)) ∧
      ∀ name version ms ret ret', SameClaim
        (db.claimRuns maxCap ret ⟨e.queue, limit.toNat, ms, .single name version⟩ (fun _ => false)
          gen now clock)
        (db.claimRuns maxCap ret' ⟨e.queue, limit.toNat, ms, .multi [name] [version]⟩
          (fun _ => false) gen now clock)) ↔
    (e.Readable ∧ ∀ r ∈ (e.candidates now db).take limit.toNat, db.Shallow r.id) ∨
      db.runs.rows.filter (e.claimable now) = [] := by
  have hrefused : ∀ ret, ¬e.Readable → e.workflows ≠ [] →
      e.claimReadyRuns maxCap ret limit db (fun _ => false) gen now clock =
        (.error "durablepg: iterate claimed runs", db) :=
    fun ret htext hne => Engine.claimReadyRuns_refused hlimit hcap hint htext hne
  constructor
  · rintro ⟨⟨first, rest, hselects⟩, -⟩
    by_contra hnot
    obtain ⟨hbad, hsome⟩ := not_or.mp hnot
    have hne : e.workflows ≠ [] := fun hnil => hsome (Engine.claimable_nil hnil now db)
    have hsel := hselects .asPicked
    by_cases htext : e.Readable
    · -- the rows are leased, and their checkpoints cannot be decoded
      have hdeep := fun h => hbad ⟨htext, h⟩
      rcases hq : e.claimQuery limit.toNat with _ | q
      · exact hne (Engine.claimQuery_none (by omega) hq)
      obtain ⟨hencodes, hqueue, hreadable⟩ := Engine.claimQuery_sent hint htext hq
      obtain ⟨-, hlim, -⟩ := Engine.claimQuery_spec (J := K) hq
      rw [← Engine.claimQuery_picked hq] at hdeep
      have hcap' : q.limit ≤ maxCap := by omega
      have herror := (Db.claimRuns_sent .asPicked (fun _ => false) gen now clock hdb hencodes
        hqueue hreadable hcap').2 hdeep
      obtain ⟨runs, hruns⟩ := hsel.returned (hsel.leases.first_ne hlimit hsome)
      rw [Engine.claimReadyRuns_eq hlimit hq, herror] at hruns
      cases hruns
    · rw [hrefused _ htext hne] at hsel
      exact hsome (hsel.leases.nothing hlimit)
  · intro hcond
    refine ⟨?_, fun order h ret ret' => Engine.claimReadyRuns_perm hdb h hlimit,
      fun name version ms ret ret' => ?_⟩
    · rcases hcond with ⟨htext, hshallow⟩ | hnone
      · exact Engine.selects_sent hdb hlimit hint htext hcap hshallow
      · by_cases htext : e.Readable
        · refine Engine.selects_sent hdb hlimit hint htext hcap fun r hr => ?_
          rw [Engine.candidates, hnone] at hr
          simp at hr
        · refine ⟨[], [], fun ret => ?_⟩
          by_cases hnil : e.workflows = []
          · rw [Engine.claimReadyRuns_nil hlimit hnil]
            refine ⟨Engine.leases_nil hnone, fun h => absurd rfl h, fun runs h => ?_⟩
            cases h
            exact .nil
          · rw [hrefused ret htext hnil]
            exact ⟨Engine.leases_nil hnone, fun h => absurd rfl h, fun runs h => by cases h⟩
    · refine Db.claimRuns_congr maxCap _ _ _ _ _ _ hdb rfl rfl rfl ?_ ?_ fun r => ?_
      · simp [Selector.encodes]
      · simp [Selector.readable]
      · simp [Selector.selects]

end Engines

end Claims

/-- A run that is due from the start. -/
def dueRun (id : RunId) (name : String) (version : ℤ) : Row Doc :=
  (⟨id, name, version, "q", 25, none, .null, none⟩ : NewRun Doc).row 0

/-- Runs of two versions of a definition, one with a checkpoint. -/
def twoDue : Db Doc :=
  { Db.empty with
    runs := Table.empty.insertAll [dueRun "a" "w" 1, dueRun "b" "w" 2]
    checkpoints := Table.empty.insert ⟨"a", 0, .bool true⟩ }

/-- The name of one definition with the version of another is the second run. -/
def crossed : Engine := ⟨"q", 30000000000, [("w", 1), ("v", 2)]⟩

theorem claim_selection_crossed :
    twoDue.Integers ∧ (∀ key ∈ crossed.workflows, isInt4 key.2 = true) ∧ crossed.Readable ∧
    (twoDue.runs.rows.filter (crossed.claimable 0)).map Row.id = ["a"] ∧
    ∃ first rest, ∀ ret, crossed.Selects 5 twoDue (fun _ => "c") 0 0
      (crossed.claimReadyRuns 100 ret 5 twoDue (fun _ => false) (fun _ => "c") 0 0) first rest := by
  have hdb : twoDue.Integers := by unfold Db.Integers; decide
  have hint : ∀ key ∈ crossed.workflows, isInt4 key.2 = true := by decide
  have htext : crossed.Readable := by unfold Engine.Readable; decide
  have hshallow : ∀ id, twoDue.Shallow id := by
    intro id c hc _
    have hdepth : ∀ c ∈ twoDue.checkpoints.rows, Json.nesting (text c.value) = 0 := by decide
    rw [hdepth c hc]
    decide
  refine ⟨hdb, hint, htext, by decide, ?_⟩
  exact ((claim_selection twoDue hdb crossed hint 100 5 (by decide) (by decide) (fun _ => "c") 0
    0).mpr (Or.inl ⟨htext, fun r _ => hshallow r.id⟩)).1

/-- A definition beside one whose name has a NUL in it. -/
def nulNamed : Engine := ⟨"q", 30000000000, [("w", 1), ("x\x00", 1)]⟩

/-- One name that the server cannot read keeps every run from being claimed. -/
theorem claim_selection_nulNamed :
    (∀ key ∈ nulNamed.workflows, isInt4 key.2 = true) ∧
    (∃ wf, compileWorkflow (Ω := Unit) "x\x00" 1 [.sleep 1] = .ok wf ∧ wf.name = "x\x00") ∧
    (twoDue.runs.rows.filter (nulNamed.claimable 0)).map Row.id = ["a"] ∧
    ∀ ret, ¬∃ first rest, nulNamed.Selects 1 twoDue (fun _ => "c") 0 0
      (nulNamed.claimReadyRuns 100 ret 1 twoDue (fun _ => false) (fun _ => "c") 0 0)
      first rest := by
  have hint : ∀ key ∈ nulNamed.workflows, isInt4 key.2 = true := by decide
  have hdue : (twoDue.runs.rows.filter (nulNamed.claimable 0)).map Row.id = ["a"] := by decide
  have htext : ¬nulNamed.Readable := by unfold Engine.Readable; decide
  refine ⟨hint, ⟨_, rfl, by decide⟩, hdue, ?_⟩
  rintro ret ⟨first, rest, hselects⟩
  rw [Engine.claimReadyRuns_refused (by decide) (by decide) hint htext (by decide)] at hselects
  rw [hselects.leases.nothing (by decide)] at hdue
  cases hdue

end DurablePg

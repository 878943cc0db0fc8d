import DurablePg.Claiming
import DurablePg.Compiled

/-!
`Register`, and what a registered definition means for the claims of its worker.

A name is checked to be there and a version to be positive, and both are then kept as they are.
The statement of a claim carries every registered pair in one parameter of each type, so one
pair that does not fit keeps all runs of the worker from being claimed.
-/

namespace DurablePg

open DurablePg.Lib

variable {Ω : Type}

def CompiledWorkflow.key (wf : CompiledWorkflow Ω) : String × ℤ := (wf.name, wf.version)

/-- The definitions an engine has registered: one for each name and version, all compiled. -/
structure Definitions (Ω : Type) where
  table : Table (CompiledWorkflow.key (Ω := Ω))
  compiled : ∀ wf ∈ table.rows, ∃ name build, compileWorkflow name wf.version build = .ok wf

namespace Definitions

def empty : Definitions Ω := ⟨.empty, fun _ h => by cases h⟩

/-- `Register`. Both errors are panics, which leave the map as it is. -/
def register (defs : Definitions Ω) (name : String) (version : ℤ) (build : List (BuildCall Ω)) :
    Except String (Definitions Ω) :=
  match h : compileWorkflow name version build with
  | .error e => .error e
  | .ok wf =>
    if (defs.table.get wf.key).isSome then
      .error ("durablepg: workflow " ++ wf.name.quote ++ " version " ++ toString wf.version
        ++ " already registered")
    else .ok ⟨defs.table.insert wf, by
      intro wf' hwf'
      rcases Table.mem_insert hwf' with hold | rfl
      · exact defs.compiled wf' hold
      · obtain ⟨-, -, -, -, -, hversion, -⟩ := compileWorkflow_ok h
        exact ⟨name, build, hversion ▸ h⟩⟩

def keys (defs : Definitions Ω) : List (String × ℤ) := defs.table.rows.map CompiledWorkflow.key

/-- The definitions are a registry that the engine looks runs up in. -/
def registry (defs : Definitions Ω) : Registry Ω where
  workflow name version := defs.table.get (name, version)
  compiled name version wf h := by
    obtain ⟨hmem, hkey⟩ := Table.get_eq_some_iff.mp h
    obtain ⟨rfl, rfl⟩ := Prod.mk.inj hkey
    obtain ⟨n, build, hc⟩ := defs.compiled wf hmem
    exact ⟨rfl, rfl, n, build, hc⟩

/-- A new definition is found under its name and version, and the others stay. -/
theorem register_registry {defs defs' : Definitions Ω} {name : String} {version : ℤ}
    {build : List (BuildCall Ω)} (h : defs.register name version build = .ok defs') :
    ∃ wf, compileWorkflow name version build = .ok wf ∧
      defs.registry.workflow wf.name wf.version = none ∧
      ∀ n v, defs'.registry.workflow n v =
        if (n, v) = wf.key then some wf else defs.registry.workflow n v := by
  unfold register at h
  split at h
  · cases h
  · rename_i wf hc
    split at h
    · cases h
    · rename_i hnew
      cases h
      have hnone : defs.table.get wf.key = none := by simpa using hnew
      refine ⟨wf, hc, hnone, fun n v => ?_⟩
      change (defs.table.insert wf).get (n, v) = _
      rw [Table.get_insert]
      by_cases hkey : (n, v) = wf.key
      · rw [if_pos hkey, if_pos hkey.symm, hkey, hnone]
        rfl
      · rw [if_neg hkey, if_neg (Ne.symm hkey), Option.or_none]
        rfl

section Claims

variable (K : Type) [JsonbText K]

/-- No definition stands in the way of another: whatever order the map yields them in, the
parameters are within their types, the statement is not refused, and every run that is due is
among those it leases from. What becomes of the rows on their way back is another matter. -/
structure Unblocked (defs : Definitions Ω) : Prop where
  representable : ∀ e : Engine, e.workflows.Perm defs.keys → ∀ limit q,
    e.claimQuery limit = some q → q.sel.encodes = true ∧ q.sel.readable = true
  accepted : ∀ e : Engine, e.workflows.Perm defs.keys → isText e.queue = true →
    ∀ (maxCap : ℕ) (ret : ReturnOrder) (limit : ℤ) (db : Db K) (locked : RunId → Bool)
      (gen : RunId → Token) (now clock : Time), 1 ≤ limit → db.Integers →
      ∀ err, (e.claimReadyRuns maxCap ret limit db locked gen now clock).1 = .error err →
        err ≠ "durablepg: claim runs" ∧ err ≠ "durablepg: iterate claimed runs"
  claimable : ∀ e : Engine, e.workflows.Perm defs.keys → isText e.queue = true →
    ∀ (limit : ℤ) (db : Db K) (gen : RunId → Token) (now clock : Time), 1 ≤ limit →
      ∃ first rest, (∀ maxCap ret, e.Leases limit db gen now clock
        (e.claimReadyRuns maxCap ret limit db (fun _ => false) gen now clock).2 first rest) ∧
      ∀ r ∈ db.runs.rows, r.queue = e.queue → r.state = .ready → r.nextRunAt ≤ now →
        (defs.registry.workflow r.workflowName r.workflowVersion).isSome →
        r ∈ first ++ rest ∧ ((first ++ rest).length ≤ limit → r ∈ first)

variable {K} {defs : Definitions Ω} {e : Engine}

lemma version_pos {wf : CompiledWorkflow Ω} (h : wf ∈ defs.table.rows) : 1 ≤ wf.version := by
  obtain ⟨name, build, hc⟩ := defs.compiled wf h
  obtain ⟨-, -, -, -, -, -, hpos⟩ := compileWorkflow_ok hc
  exact hpos

lemma fits (h : ∀ wf ∈ defs.table.rows, wf.version ≤ 2147483647 ∧ isText wf.name = true)
    (he : e.workflows.Perm defs.keys) :
    ∀ key ∈ e.workflows, isInt4 key.2 = true ∧ isText key.1 = true := by
  intro key hkey
  obtain ⟨wf, hwf, rfl⟩ := List.mem_map.mp (he.subset hkey)
  obtain ⟨hmax, htext⟩ := h wf hwf
  have hpos := defs.version_pos hwf
  refine ⟨?_, htext⟩
  change isInt4 wf.version = true
  simp only [isInt4, Bool.and_eq_true, decide_eq_true_eq]
  omega

lemma mem_workflows (he : e.workflows.Perm defs.keys) {name : String} {version : ℤ}
    (h : (defs.registry.workflow name version).isSome) : (name, version) ∈ e.workflows := by
  obtain ⟨wf, hwf⟩ := Option.isSome_iff_exists.mp h
  obtain ⟨hmem, hkey⟩ := Table.get_eq_some_iff.mp hwf
  rw [he.mem_iff, ← hkey]
  exact List.mem_map_of_mem hmem

variable (K) in
/-- **Registration**: no definition stands in the way of another exactly if every version fits an
`INTEGER` and no name holds a NUL. `Register` asks for neither. -/
theorem unblocked_iff (defs : Definitions Ω) : defs.Unblocked K ↔
    ∀ wf ∈ defs.table.rows, wf.version ≤ 2147483647 ∧ isText wf.name = true := by
  constructor
  · intro h wf hwf
    -- the engine that yields the definitions in their order
    let e : Engine := ⟨"", 0, defs.keys⟩
    have hkey : wf.key ∈ e.workflows := List.mem_map_of_mem hwf
    rcases hq : e.claimQuery 1 with _ | q
    · rw [Engine.claimQuery_none (by decide) hq] at hkey
      cases hkey
    · obtain ⟨-, -, -, hencodes, hreadable, -⟩ := Engine.claimQuery_spec (J := Unit) hq
      obtain ⟨hint, htext⟩ := h.representable e (.refl _) 1 q hq
      rw [hencodes, List.all_eq_true] at hint
      rw [hreadable, List.all_eq_true] at htext
      have hfits := hint _ hkey
      simp only [isInt4, Bool.and_eq_true, decide_eq_true_eq] at hfits
      exact ⟨hfits.2, htext _ hkey⟩
  · intro h
    refine ⟨fun e he limit q hq => ?_,
      fun e he hqueue maxCap ret limit db locked gen now clock hlimit hdb err herr => ?_,
      fun e he hqueue limit db gen now clock hlimit => ?_⟩
    · obtain ⟨-, -, -, hencodes, hreadable, -⟩ := Engine.claimQuery_spec (J := Unit) hq
      rw [hencodes, hreadable, List.all_eq_true, List.all_eq_true]
      exact ⟨fun key hkey => (fits h he key hkey).1, fun key hkey => (fits h he key hkey).2⟩
    · rcases hq : e.claimQuery limit.toNat with _ | q
      · rw [Engine.claimReadyRuns_nil hlimit (Engine.claimQuery_none (by omega) hq)] at herr
        cases herr
      · obtain ⟨hencodes, hqueue', hreadable⟩ := Engine.claimQuery_sent
          (fun key hkey => (fits h he key hkey).1)
          ⟨hqueue, fun key hkey => (fits h he key hkey).2⟩ hq
        rw [Engine.claimReadyRuns_eq hlimit hq] at herr
        rcases Db.claimRuns_error hdb hencodes hqueue' hreadable herr with rfl | rfl <;> decide
    · obtain ⟨first, rest, hleases⟩ := Engine.leases_sent db gen now clock hlimit
        (fun key hkey => (fits h he key hkey).1) ⟨hqueue, fun key hkey => (fits h he key hkey).2⟩
      refine ⟨first, rest, hleases, fun r hr hrq hstate hdue hreg => ?_⟩
      obtain ⟨hrows, -, hlen, -⟩ := hleases 0 .asPicked
      have hmem : r ∈ first ++ rest := by
        rw [hrows.mem_iff, List.mem_filter]
        refine ⟨hr, ?_⟩
        simp [Engine.claimable, hrq, hstate, hdue, mem_workflows he hreg]
      refine ⟨hmem, fun hle => ?_⟩
      -- nothing is left over
      rw [← hrows.length_eq] at hlen
      rw [List.length_append] at hlen hle
      have hrest : rest = [] := List.length_eq_zero_iff.mp (by omega)
      rwa [hrest, List.append_nil] at hmem

end Claims

lemma ok_of_toOption {ε α : Type} {x : Except ε α} {a : α} (h : x.toOption = some a) :
    x = .ok a := by
  cases x with
  | error e => cases h
  | ok b => cases h; rfl

/-- A version that an `INTEGER` cannot hold, beside one that it can. -/
theorem unblocked_largeVersion : ∃ defs defs' : Definitions Unit,
    empty.register "w" 1 [.sleep 1] = .ok defs ∧
    defs.register "w" 2147483648 [.sleep 1] = .ok defs' ∧
    (defs'.registry.workflow "w" 1).isSome ∧
    (twoDue.runs.rows.map fun r => (r.id, r.workflowName, r.workflowVersion, r.state)) =
      [("a", "w", 1, .ready), ("b", "w", 2, .ready)] ∧
    (⟨"q", 30000000000, defs'.keys⟩ : Engine).claimReadyRuns 100 .asPicked 1 twoDue
      (fun _ => false) (fun _ => "c") 0 0 = (.error "durablepg: claim runs", twoDue) ∧
    ¬defs'.Unblocked Doc := by
  have hkeys : ((empty : Definitions Unit).register "w" 1 [.sleep 1]).toOption.bind (fun defs =>
      (defs.register "w" 2147483648 [.sleep 1]).toOption.map keys) =
      some [("w", 1), ("w", 2147483648)] := by decide +kernel
  obtain ⟨defs, hdefs, hkeys⟩ := Option.bind_eq_some_iff.mp hkeys
  obtain ⟨defs', hdefs', hkeys⟩ := Option.map_eq_some_iff.mp hkeys
  have hclaim : (⟨"q", 30000000000, defs'.keys⟩ : Engine).claimReadyRuns 100 .asPicked 1 twoDue
      (fun _ => false) (fun _ => "c") 0 0 = (.error "durablepg: claim runs", twoDue) := by
    rw [hkeys]
    rfl
  refine ⟨defs, defs', ok_of_toOption hdefs, ok_of_toOption hdefs', ?_, by decide, hclaim,
    fun h => ?_⟩
  · have hmem : ("w", 1) ∈ defs'.keys := hkeys ▸ List.mem_cons_self
    obtain ⟨wf, hwf, hkey⟩ := List.mem_map.mp hmem
    exact Option.isSome_iff_exists.mpr ⟨wf, Table.get_eq_some_iff.mpr ⟨hwf, hkey⟩⟩
  · have haccepted := h.accepted ⟨"q", 30000000000, defs'.keys⟩ (.refl _)
      (show isText "q" = true by decide) 100 .asPicked 1 twoDue (fun _ => false) (fun _ => "c") 0 0
      (by decide) (by unfold Db.Integers; decide) "durablepg: claim runs" (by rw [hclaim])
    exact haccepted.1 rfl

end Definitions

end DurablePg

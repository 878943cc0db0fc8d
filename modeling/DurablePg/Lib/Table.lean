import Mathlib.Data.List.Nodup
import Mathlib.Tactic

/-!
Tables with a primary key.

A table is a list of rows no two of which share a key. A statement of a database maps the
rows it selects, inserts rows whose keys are absent, or deletes rows; each keeps the key
constraint, which is a field of the table, and each is described by what a lookup sees
after it.
-/

namespace DurablePg.Lib

/-- Rows with pairwise different keys. -/
structure Table {α : Type*} {κ : Type*} (key : α → κ) where
  rows : List α
  nodup : (rows.map key).Nodup

namespace Table

variable {α κ : Type*} {key : α → κ}

def empty : Table key := ⟨[], List.nodup_nil⟩

/-- `UPDATE t SET f WHERE p`. -/
def updateWhere (t : Table key) (p : α → Bool) (f : α → α) (hf : ∀ a, key (f a) = key a) :
    Table key where
  rows := t.rows.map fun a => if p a then f a else a
  nodup := by
    have h : (t.rows.map fun a => if p a then f a else a).map key = t.rows.map key := by
      rw [List.map_map]
      refine List.map_congr_left fun a _ => ?_
      simp only [Function.comp]
      split <;> simp [hf]
    rw [h]; exact t.nodup

/-- `DELETE FROM t WHERE p`. -/
def deleteWhere (t : Table key) (p : α → Bool) : Table key where
  rows := t.rows.filter fun a => !p a
  nodup := (List.filter_sublist.map key).nodup t.nodup

variable [DecidableEq κ]

/-- The row with key `k`. -/
def get (t : Table key) (k : κ) : Option α := t.rows.find? fun a => key a = k

/-- `INSERT INTO t VALUES (a) ON CONFLICT DO NOTHING`. -/
def insert (t : Table key) (a : α) : Table key :=
  if h : key a ∈ t.rows.map key then t
  else ⟨t.rows ++ [a], by
    rw [List.map_append, List.map_singleton]
    exact List.Nodup.append t.nodup (by simp) (by simpa using h)⟩

/-- `INSERT INTO t SELECT .. ON CONFLICT DO NOTHING`, row after row. -/
def insertAll (t : Table key) (as : List α) : Table key := as.foldl insert t

/-! ### Lookups -/

lemma get_eq_some_iff {t : Table key} {k : κ} {a : α} :
    t.get k = some a ↔ a ∈ t.rows ∧ key a = k := by
  unfold get
  constructor
  · intro h
    exact ⟨List.mem_of_find?_eq_some h, by simpa using List.find?_some h⟩
  · rintro ⟨ha, rfl⟩
    obtain ⟨b, hb⟩ : ∃ b, t.rows.find? (fun x => key x = key a) = some b := by
      rw [← Option.isSome_iff_exists, List.find?_isSome]
      exact ⟨a, ha, by simp⟩
    have hkey : key b = key a := by simpa using List.find?_some hb
    rw [hb, List.inj_on_of_nodup_map t.nodup (List.mem_of_find?_eq_some hb) ha hkey]

lemma get_eq_none_iff {t : Table key} {k : κ} : t.get k = none ↔ ∀ a ∈ t.rows, key a ≠ k := by
  simp [get]

lemma get_key {t : Table key} {k : κ} {a : α} (h : t.get k = some a) : key a = k :=
  (get_eq_some_iff.mp h).2

lemma get_of_mem {t : Table key} {a : α} (h : a ∈ t.rows) : t.get (key a) = some a :=
  get_eq_some_iff.mpr ⟨h, rfl⟩

@[simp] lemma get_empty (k : κ) : (empty : Table key).get k = none := rfl

lemma get_updateWhere (t : Table key) (p : α → Bool) (f : α → α) (hf : ∀ a, key (f a) = key a)
    (k : κ) :
    (t.updateWhere p f hf).get k = (t.get k).map fun a => if p a then f a else a := by
  unfold get updateWhere
  simp only [List.find?_map]
  congr 2
  funext a
  simp only [Function.comp]
  split <;> simp [hf]

lemma get_deleteWhere (t : Table key) (p : α → Bool) (k : κ) :
    (t.deleteWhere p).get k = (t.get k).filter fun a => !p a := by
  ext a
  rw [get_eq_some_iff, Option.filter_eq_some_iff, get_eq_some_iff]
  simp [deleteWhere, and_right_comm]

lemma get_insert (t : Table key) (a : α) (k : κ) :
    (t.insert a).get k = (t.get k).or (if key a = k then some a else none) := by
  unfold insert
  split
  · rename_i h
    by_cases hk : key a = k
    · obtain ⟨b, hb, hkb⟩ := List.mem_map.mp h
      have : t.get k = some b := get_eq_some_iff.mpr ⟨hb, hkb.trans hk⟩
      simp [this]
    · simp [hk]
  · simp only [get, List.find?_append, List.find?_singleton]
    congr 1
    by_cases hk : key a = k <;> simp [hk]

lemma mem_insert {t : Table key} {a b : α} (h : b ∈ (t.insert a).rows) : b ∈ t.rows ∨ b = a := by
  unfold insert at h
  split at h
  · exact Or.inl h
  · simpa using h

lemma mem_insert_of_mem {t : Table key} {b : α} (a : α) (h : b ∈ t.rows) :
    b ∈ (t.insert a).rows := by
  unfold insert
  split
  · exact h
  · exact List.mem_append_left _ h

lemma insertAll_cons (t : Table key) (a : α) (as : List α) :
    t.insertAll (a :: as) = (t.insert a).insertAll as := rfl

lemma mem_insertAll {t : Table key} {as : List α} {b : α} (h : b ∈ (t.insertAll as).rows) :
    b ∈ t.rows ∨ b ∈ as := by
  induction as generalizing t with
  | nil => exact Or.inl h
  | cons a as ih =>
    rcases ih h with h | h
    · rcases mem_insert h with h | rfl
      · exact Or.inl h
      · exact Or.inr (.head _)
    · exact Or.inr (.tail _ h)

lemma get_insertAll (t : Table key) (as : List α) (k : κ) :
    (t.insertAll as).get k = (t.get k).or (as.find? fun a => key a = k) := by
  induction as generalizing t with
  | nil => simp [insertAll]
  | cons a as ih =>
    rw [insertAll_cons, ih, get_insert, Option.or_assoc]
    congr 1
    by_cases hk : key a = k <;> simp [hk]

lemma filter_key (t : Table key) (k : κ) :
    (t.rows.filter fun a => key a = k) = (t.get k).toList := by
  have hnd : (t.rows.filter fun a => key a = k).Nodup :=
    (List.Nodup.of_map key t.nodup).filter _
  have hmem : ∀ a, a ∈ t.rows.filter (fun a => key a = k) ↔ t.get k = some a := by
    intro a; rw [get_eq_some_iff]; simp
  rcases hg : t.get k with _ | b
  · refine List.eq_nil_iff_forall_not_mem.mpr fun a ha => ?_
    have := (hmem a).mp ha
    rw [hg] at this; cases this
  · refine List.perm_singleton.mp ((List.perm_ext_iff_of_nodup hnd (by simp)).mpr fun a => ?_)
    rw [hmem, hg]; simp [eq_comm]

lemma filterMap_key {β : Type*} (t : Table key) (p : α → Bool) (f : α → β) (k : κ) :
    ((t.rows.filter p).filterMap fun a => if key a = k then some (f a) else none) =
      (((t.get k).filter p).map f).toList := by
  have h : ∀ l : List α, ((l.filter p).filterMap fun a => if key a = k then some (f a) else none) =
      ((l.filter fun a => key a = k).filter p).map f := by
    intro l
    induction l with
    | nil => rfl
    | cons a l ih => by_cases hp : p a <;> by_cases hk : key a = k <;> simp_all
  rw [h, filter_key]
  rcases t.get k with _ | a
  · rfl
  · by_cases hp : p a <;> simp [hp, Option.filter]

end Table

end DurablePg.Lib

import DurablePg.Inversion
import DurablePg.Lib.Pick

/-!
What `SELECT .. ORDER BY at, id LIMIT n FOR UPDATE SKIP LOCKED` takes and what it passes over.
-/

namespace DurablePg

open DurablePg.Lib

variable {J : Type}

/-- The order of rows by a time and then by identifier. -/
def Row.By (at_ : Row J → Time) (a b : Row J) : Prop :=
  at_ a < at_ b ∨ (at_ a = at_ b ∧ a.id ≤ b.id)

variable {at_ : Row J → Time}

instance : DecidableRel (Row.By at_) := fun a b =>
  inferInstanceAs (Decidable (at_ a < at_ b ∨ (at_ a = at_ b ∧ a.id ≤ b.id)))

instance : Std.Total (Row.By at_) := ⟨fun a b => by unfold Row.By; grind⟩

instance : IsTrans (Row J) (Row.By at_) := ⟨fun a b c => by unfold Row.By; grind⟩

namespace Db

variable {db : Db J} {p : Row J → Bool} {locked : RunId → Bool} {limit : ℕ} {id : RunId}
  {r : Row J}

lemma picked_eq_pick (db : Db J) (p : Row J → Bool) (at_ : Row J → Time) (locked : RunId → Bool)
    (limit : ℕ) : db.picked p at_ locked limit =
      (pick (fun r => p r && !locked r.id) (Row.By at_) limit db.runs.rows).map Row.id := rfl

lemma nodup_picked : (db.picked p at_ locked limit).Nodup := by
  rw [picked_eq_pick]
  exact ((List.take_sublist _ _).map Row.id).nodup
    ((((List.perm_insertionSort _ _).map Row.id).nodup_iff).mpr
      ((List.filter_sublist.map Row.id).nodup db.runs.nodup))

lemma length_picked_le : (db.picked p at_ locked limit).length ≤ limit := by
  rw [picked_eq_pick, List.length_map, length_pick]
  exact min_le_left _ _

lemma picked_full (hr : db.run id = some r) (hp : p r = true) (hlocked : locked id = false)
    (hnot : id ∉ db.picked p at_ locked limit) :
    (db.picked p at_ locked limit).length = limit ∧ ∀ id' ∈ db.picked p at_ locked limit,
      ∃ r', db.run id' = some r' ∧ p r' = true ∧ r'.By at_ r := by
  have hid := run_id hr
  rw [picked_eq_pick] at hnot ⊢
  have hnot' : r ∉ pick (fun r => p r && !locked r.id) (Row.By at_) limit db.runs.rows :=
    fun hmem => hnot (hid ▸ List.mem_map_of_mem hmem)
  obtain ⟨hlen, hbefore⟩ := pick_full (mem_of_run hr) (by simp [hp, hid, hlocked]) hnot'
  refine ⟨by rw [List.length_map, hlen], fun id' hid' => ?_⟩
  obtain ⟨r', hr', rfl⟩ := List.mem_map.mp hid'
  obtain ⟨hmem, hp'⟩ := mem_of_mem_pick hr'
  exact ⟨r', run_of_mem hmem, (Bool.and_eq_true_iff.mp hp').1, hbefore r' hr'⟩

lemma mem_picked_of_lt (hr : db.run id = some r) (hp : p r = true) (hlocked : locked id = false)
    (hlt : (db.picked p at_ locked limit).length < limit) : id ∈ db.picked p at_ locked limit := by
  by_contra hnot
  exact absurd (picked_full hr hp hlocked hnot).1 hlt.ne

end Db

/-! ### Claims -/

namespace Server

variable [Jsonb J] {s s' : Server J} {run : RunId}

lemma claim_leases {q : ClaimQuery} {gen : RunId → Token} {now : Time}
    (h : s.step (.claim q gen now) = some s')
    (hrun : run ∈ s.db.picked (q.claimable now) Row.nextRunAt s.locked q.limit) :
    ∃ r', s'.db.run run = some r' ∧ r'.state = .leased := by
  obtain ⟨r, hr, -⟩ := Db.mem_picked hrun
  cases does h with
  | @claim q gen now hnow ids hids =>
    subst hids
    rw [exec_run, hr, Option.map_some,
      if_pos (show (DurablePg.claim _ gen q.leaseMs now s.clock).guard r = true from
        decide_eq_true (by rw [Db.run_id hr]; exact hrun))]
    exact ⟨_, rfl, rfl⟩

lemma claim_row {q : ClaimQuery} {gen : RunId → Token} {now : Time} {r : Row J}
    (hs : s.TxInv) (h : s.step (.claim q gen now) = some s') (hr : s.db.run run = some r) :
    ∃ r', s'.db.run run = some r' ∧
      (r' = r ∧ s'.log run = s.log run ∨ r'.state = .leased) := by
  obtain ⟨o, ⟨hlog, hm⟩, hmakes⟩ := step_moved hs h run
  rcases o with _ | ch
  · exact ⟨r, (congrArg View.row hm).trans hr, Or.inl ⟨rfl, by simpa using hlog⟩⟩
  · have hm : (s.view run).Moves ch (s'.view run) := hm
    obtain ⟨r', hr'⟩ : ∃ r', (s'.view run).row = some r' := hm.row_some
    refine ⟨r', hr', Or.inr ?_⟩
    have hmk := hmakes ch rfl
    generalize s'.view run = v' at hm hr'
    cases hmk with
    | claimed =>
      cases hm with
      | updated _ r u hr hu hg => cases hu; cases hr'; rfl

end Server

end DurablePg

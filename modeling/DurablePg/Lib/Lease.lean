import Mathlib.Data.List.Nodup
import Mathlib.Tactic

/-!
Leases as a log of what happened to one resource: claims under fresh tokens, renewals, writes
by a holder, which may give the lease up, and releases by somebody else.

A log is fenced if a claim finds the resource free and a write finds the lease of its writer.
In a fenced log with fresh tokens the writes come in blocks, one for each claim and in the order
of the claims, and a claim ends at most once.
-/

namespace DurablePg.Lib

variable {τ T : Type*}

inductive LeaseEv (τ T : Type*)
  | claim (c : τ) (t : T)
  | renew (t : T)
  /-- A write of a holder; with `ends`, its last. -/
  | write (c : τ) (ends : Bool)
  | release

lemma eq_of_nodup_filterMap {α β : Type*} {f : α → Option β} {l : List α}
    (h : (l.filterMap f).Nodup) {a b : α} (ha : a ∈ l) (hb : b ∈ l) {c : β} (hfa : f a = some c)
    (hfb : f b = some c) : a = b := by
  induction l with
  | nil => cases ha
  | cons x l ih =>
    have hmem : ∀ {y}, y ∈ l → f y = some c → c ∈ l.filterMap f := fun hy hfy =>
      List.mem_filterMap.mpr ⟨_, hy, hfy⟩
    rcases List.mem_cons.mp ha with rfl | ha' <;> rcases List.mem_cons.mp hb with rfl | hb'
    · rfl
    · rw [List.filterMap_cons_some hfa] at h
      exact absurd (hmem hb' hfb) (List.nodup_cons.mp h).1
    · rw [List.filterMap_cons_some hfb] at h
      exact absurd (hmem ha' hfa) (List.nodup_cons.mp h).1
    · refine ih ?_ ha' hb'
      cases hx : f x with
      | none => rwa [List.filterMap_cons_none hx] at h
      | some d =>
        rw [List.filterMap_cons_some hx] at h
        exact (List.nodup_cons.mp h).2

namespace LeaseEv

/-- The lease after an event: its holder and its deadline. -/
def next (o : Option (τ × T)) : LeaseEv τ T → Option (τ × T)
  | claim c t => some (c, t)
  | renew t => o.map fun l => (l.1, t)
  | write _ ends => if ends then none else o
  | release => none

/-- The event ends the claim there is. -/
def ends : LeaseEv τ T → Bool
  | write _ ends => ends
  | release => true
  | _ => false

def claim? : LeaseEv τ T → Option τ
  | claim c _ => some c
  | _ => none

def writer? : LeaseEv τ T → Option τ
  | write c _ => some c
  | _ => none

end LeaseEv

/-- The lease at the end of a log. -/
def lease (l : List (LeaseEv τ T)) : Option (τ × T) := l.foldl LeaseEv.next none

/-- The tokens of the claims, in order. -/
def claims (l : List (LeaseEv τ T)) : List τ := l.filterMap LeaseEv.claim?

/-- The writers, one for each write, in order. -/
def writers (l : List (LeaseEv τ T)) : List τ := l.filterMap LeaseEv.writer?

/-- The claims that have ended, in the order in which they did. -/
def ended (l : List (LeaseEv τ T)) : List τ :=
  (l.foldl (fun s e => (LeaseEv.next s.1 e,
    if e.ends then s.2 ++ (s.1.map Prod.fst).toList else s.2)) (none, [])).2

@[simp] lemma lease_nil : lease ([] : List (LeaseEv τ T)) = none := rfl

@[simp] lemma lease_snoc (l : List (LeaseEv τ T)) (e : LeaseEv τ T) :
    lease (l ++ [e]) = LeaseEv.next (lease l) e := by
  simp [lease]

@[simp] lemma claims_snoc (l : List (LeaseEv τ T)) (e : LeaseEv τ T) :
    claims (l ++ [e]) = claims l ++ e.claim?.toList := by
  rcases h : e.claim? with _ | c <;> simp [claims, h]

@[simp] lemma writers_snoc (l : List (LeaseEv τ T)) (e : LeaseEv τ T) :
    writers (l ++ [e]) = writers l ++ e.writer?.toList := by
  rcases h : e.writer? with _ | c <;> simp [writers, h]

@[simp] lemma ended_snoc (l : List (LeaseEv τ T)) (e : LeaseEv τ T) :
    ended (l ++ [e]) = if e.ends then ended l ++ ((lease l).map Prod.fst).toList else ended l := by
  have hfst : ∀ (l : List (LeaseEv τ T)) (s : Option (τ × T) × List τ),
      (l.foldl (fun s e => (LeaseEv.next s.1 e,
        if e.ends then s.2 ++ (s.1.map Prod.fst).toList else s.2)) s).1 =
      l.foldl LeaseEv.next s.1 := by
    intro l
    induction l with
    | nil => exact fun _ => rfl
    | cons a l ih => exact fun s => ih _
  simp only [ended, List.foldl_append, List.foldl_cons, List.foldl_nil, hfst]
  rfl

/-- A claim finds the resource free, and a write the lease of its writer. -/
inductive Fenced : List (LeaseEv τ T) → Prop
  | nil : Fenced []
  | claim {l : List (LeaseEv τ T)} {c : τ} {t : T} (h : Fenced l) (hfree : lease l = none) :
    Fenced (l ++ [.claim c t])
  | renew {l : List (LeaseEv τ T)} {t : T} (h : Fenced l) : Fenced (l ++ [.renew t])
  | write {l : List (LeaseEv τ T)} {c : τ} {t : T} {ends : Bool} (h : Fenced l)
    (hheld : lease l = some (c, t)) : Fenced (l ++ [.write c ends])
  | release {l : List (LeaseEv τ T)} (h : Fenced l) : Fenced (l ++ [.release])

namespace Fenced

variable {l : List (LeaseEv τ T)}

/-- Every claim has ended, once and in order, but for the one that holds the lease. -/
theorem claims_eq (h : Fenced l) : claims l = ended l ++ ((lease l).map Prod.fst).toList := by
  induction h with
  | nil => rfl
  | claim h hfree ih => simp [ih, hfree, LeaseEv.claim?, LeaseEv.ends, LeaseEv.next]
  | @renew l t h ih =>
    simp only [claims_snoc, ended_snoc, lease_snoc, LeaseEv.claim?, LeaseEv.ends, LeaseEv.next, ih]
    rcases lease l <;> simp
  | @write l c t ends h hheld ih =>
    cases ends <;> simp [ih, LeaseEv.claim?, LeaseEv.ends, LeaseEv.next]
  | release h ih => simp [ih, LeaseEv.claim?, LeaseEv.ends, LeaseEv.next]

/-- The holder of the lease is the last who claimed it, and its claim has not ended. -/
lemma holder (h : Fenced l) (hnd : (claims l).Nodup) {c : τ} {t : T} (hc : lease l = some (c, t)) :
    (claims l).getLast? = some c ∧ c ∉ ended l := by
  have heq := h.claims_eq
  rw [hc] at heq
  rw [heq] at hnd ⊢
  refine ⟨by simp, fun hmem => ?_⟩
  exact (List.disjoint_of_nodup_append hnd) hmem (by simp)

variable [DecidableEq τ]

lemma blocks_snoc {cs ws : List τ} {c : τ} (hnd : (cs ++ [c]).Nodup)
    (h : ws = (cs ++ [c]).flatMap fun a => List.replicate (ws.count a) a) :
    ws ++ [c] = (cs ++ [c]).flatMap fun a => List.replicate ((ws ++ [c]).count a) a := by
  have hc : c ∉ cs := fun hmem => (List.disjoint_of_nodup_append hnd) hmem (by simp)
  have hcs : (cs.flatMap fun a => List.replicate ((ws ++ [c]).count a) a) =
      cs.flatMap fun a => List.replicate (ws.count a) a := by
    refine List.flatMap_congr fun a ha => ?_
    have hne : a ≠ c := fun he => hc (he ▸ ha)
    simp [List.count_append, hne.symm]
  rw [List.flatMap_append, List.flatMap_singleton] at h ⊢
  rw [hcs, List.count_append, List.count_singleton_self, List.replicate_succ', ← List.append_assoc,
    ← h]

/-- The writes come in blocks, one for each claim, in the order of the claims. -/
theorem blocks (h : Fenced l) (hnd : (claims l).Nodup) :
    writers l = (claims l).flatMap fun c => List.replicate ((writers l).count c) c := by
  induction h with
  | nil => rfl
  | @claim l c t h hfree ih =>
    simp only [claims_snoc, writers_snoc, LeaseEv.claim?, LeaseEv.writer?, Option.toList_none,
      Option.toList_some, List.append_nil] at hnd ⊢
    have ih := ih (List.nodup_append.mp hnd).1
    -- nobody has written under the new token
    have hnew : (writers l).count c = 0 := by
      refine List.count_eq_zero.mpr fun hmem => ?_
      rw [ih] at hmem
      obtain ⟨a, ha, hmem⟩ := List.mem_flatMap.mp hmem
      rw [(List.mem_replicate.mp hmem).2] at hnd
      exact (List.disjoint_of_nodup_append hnd) ha (by simp)
    rw [List.flatMap_append, List.flatMap_singleton, hnew, List.replicate_zero, List.append_nil]
    exact ih
  | renew h ih =>
    simpa [LeaseEv.claim?, LeaseEv.writer?] using ih (by simpa [LeaseEv.claim?] using hnd)
  | @write l c t ends h hheld ih =>
    simp only [claims_snoc, writers_snoc, LeaseEv.claim?, LeaseEv.writer?, Option.toList_none,
      Option.toList_some, List.append_nil] at hnd ⊢
    have ih := ih hnd
    have heq := h.claims_eq
    rw [hheld] at heq
    rw [heq] at ih hnd ⊢
    exact blocks_snoc hnd ih
  | release h ih =>
    simpa [LeaseEv.claim?, LeaseEv.writer?] using ih (by simpa [LeaseEv.claim?] using hnd)

end Fenced

end DurablePg.Lib

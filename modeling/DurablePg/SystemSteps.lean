import DurablePg.System

/-!
What one step of the system can do: one case for each way a worker, an engine or the server
moves it on.
-/

namespace DurablePg

open DurablePg.Lib

variable {J Ω : Type} [Jsonb J]

namespace System

variable (reg : Registry Ω)

/-- One step of the system, by cases. -/
inductive Does (y : System J Ω) (m : Move J Ω) : System J Ω → Prop
  | outside {a : Act J} {s : Server J} (ha : a.outside = true) (h : y.srv.step a = some s) :
    Does y m { y with srv := s }
  | insert {n : NewRun J} {now : Time} {s : Server J} {wf : CompiledWorkflow Ω}
    (hwf : reg.workflow n.workflowName n.workflowVersion = some wf)
    (h : y.srv.step (.insertRun n now) = some s) : Does y m { y with srv := s }
  | claim {e : Engine} {q : ClaimQuery} {gen : RunId → Token} {now : Time} {s : Server J}
    {lost : Bool} (h : y.srv.step (.claim q gen now) = some s) :
    Does y m { y with
      srv := s
      procs := fun token =>
        if lost then y.procs token else (y.claimed reg e q gen now token).or (y.procs token) }
  | turn {token : Token} {p p' : Proc J Ω} {t : Turn Ω} {ks : List (Call Ω)}
    (hp : y.procs token = some p) (ht : p.turn t = some (p', ks)) :
    Does y m { y.setProc token p' with calls := y.calls ++ ks }
  | exec {token : Token} {p : Proc J Ω} {w : Write J} {now : Time} {s : Server J} {lost : Bool}
    (hp : y.procs token = some p) (hw : p.sent = some w)
    (h : y.srv.step (.write p.run.id token w now) = some s) (hm : m = .exec token now lost) :
    Does y m ({ y with srv := s }.setProc token (if lost then { p with sent := none }
      else ({ p with sent := none } : Proc J Ω).answered (y.srv.owns p.run.id token w now)
        (y.srv.db.checkpoint p.run.id p.index)))
  | execFailure {token : Token} {p : Proc J Ω} {w : Write J} {now : Time} {s : Server J}
    (hp : y.procs token = some p) (hw : p.failure = some w)
    (h : y.srv.step (.write p.run.id token w now) = some s) :
    Does y m ({ y with srv := s }.setProc token { p with failure := none })
  | begin {token : Token} {p : Proc J Ω} {k name : String} {key : EventKey Ω} {timeout : Time}
    {s : Server J} (hp : y.procs token = some p) (hpc : p.pc = .begin k)
    (hop : p.wf.ops[p.index]? = some (.waitEvent name key timeout))
    (h : y.srv.step (.begin (.wait token p.run.id p.index (milliseconds timeout) p.complete) k) =
      some s) : Does y m ({ y with srv := s }.setProc token { p with pc := .wait none })
  | lock {token : Token} {p : Proc J Ω} {s : Server J} (hp : y.procs token = some p)
    (h : y.srv.step (.lockEventKey (.wait token)) = some s) : Does y m { y with srv := s }
  | look {token : Token} {p : Proc J Ω} {tx : Tx J} {s : Server J} (hp : y.procs token = some p)
    (htx : y.srv.txs.get (.wait token) = some tx)
    (h : y.srv.step (.latestEvent token) = some s) :
    Does y m ({ y with srv := s }.setProc token { p with
      pc := .wait ((y.srv.db.latestEvent tx.key tx.start).map fun payload =>
        receivedBytes (text payload)) })
  | statement {token : Token} {p p' : Proc J Ω} {s : Server J} (hp : y.procs token = some p)
    (hpc : inWait p = true) (h : y.srv.step (.statement (.wait token)) = some s)
    (hp' : p' = if (s.txs.get (.wait token)).any (fun tx => tx.holdsRun p.run.id) then p
      else { p with pc := .done }) (hm : m = .statement token) :
    Does y m ({ y with srv := s }.setProc token p')
  | commit {token : Token} {p : Proc J Ω} {s : Server J} {lost : Bool}
    (hp : y.procs token = some p) (h : y.srv.step (.commit (.wait token)) = some s) :
    Does y m ({ y with srv := s }.setProc token (if lost then p
      else p.answered true (y.srv.db.checkpoint p.run.id p.index)))

variable {reg}

theorem does {y y' : System J Ω} {m : Move J Ω} (h : y.step reg m = some y') :
    Does reg y m y' := by
  cases m with
  | outside a =>
    simp only [step, Option.ite_none_right_eq_some, Option.map_eq_some_iff] at h
    obtain ⟨ha, s, hs, rfl⟩ := h
    exact .outside ha hs
  | emitEvent n key rawPayload =>
    simp only [step, Option.ite_none_left_eq_some] at h
    obtain ⟨-, h⟩ := h
    obtain ⟨payload, -, h⟩ := Option.bind_eq_some_iff.mp h
    obtain ⟨s, hs, h⟩ := Option.bind_eq_some_iff.mp h
    cases h
    exact .outside rfl hs
  | enqueue e name rawInput opts newUUID now =>
    simp only [step] at h
    split at h
    · cases h
    · rename_i n hn
      obtain ⟨s, hs, rfl⟩ := Option.map_eq_some_iff.mp h
      obtain ⟨-, ⟨wf, hwf⟩, -⟩ := Engine.enqueue_ok hn
      exact .insert hwf hs
  | claim e limit gen now lost =>
    obtain ⟨q, -, h⟩ := Option.bind_eq_some_iff.mp h
    obtain ⟨s, hs, h⟩ := Option.bind_eq_some_iff.mp h
    cases h
    exact .claim hs
  | turn token t =>
    obtain ⟨p, hp, h⟩ := Option.bind_eq_some_iff.mp h
    obtain ⟨⟨p', ks⟩, ht, h⟩ := Option.bind_eq_some_iff.mp h
    cases h
    exact .turn hp ht
  | exec token now lost =>
    obtain ⟨p, hp, h⟩ := Option.bind_eq_some_iff.mp h
    obtain ⟨w, hw, h⟩ := Option.bind_eq_some_iff.mp h
    obtain ⟨s, hs, h⟩ := Option.bind_eq_some_iff.mp h
    cases h
    exact .exec hp hw hs rfl
  | execFailure token now =>
    obtain ⟨p, hp, h⟩ := Option.bind_eq_some_iff.mp h
    obtain ⟨w, hw, h⟩ := Option.bind_eq_some_iff.mp h
    obtain ⟨s, hs, h⟩ := Option.bind_eq_some_iff.mp h
    cases h
    exact .execFailure hp hw hs
  | begin token =>
    obtain ⟨p, hp, h⟩ := Option.bind_eq_some_iff.mp h
    unfold System.begin at h
    split at h
    · rename_i k name key timeout hpc hop
      obtain ⟨s, hs, h⟩ := Option.bind_eq_some_iff.mp h
      cases h
      exact .begin hp hpc hop hs
    · cases h
  | lockEventKey token =>
    obtain ⟨p, hp, h⟩ := Option.bind_eq_some_iff.mp h
    simp only [Option.ite_none_right_eq_some, Option.map_eq_some_iff] at h
    obtain ⟨-, s, hs, rfl⟩ := h
    exact .lock hp hs
  | latestEvent token =>
    obtain ⟨p, hp, h⟩ := Option.bind_eq_some_iff.mp h
    obtain ⟨tx, htx, h⟩ := Option.bind_eq_some_iff.mp h
    obtain ⟨s, hs, h⟩ := Option.bind_eq_some_iff.mp h
    simp only [Option.ite_none_right_eq_some] at h
    obtain ⟨-, h⟩ := h
    cases h
    exact .look hp htx hs
  | statement token =>
    obtain ⟨p, hp, h⟩ := Option.bind_eq_some_iff.mp h
    obtain ⟨s, hs, h⟩ := Option.bind_eq_some_iff.mp h
    simp only [Option.ite_none_right_eq_some] at h
    obtain ⟨hpc, h⟩ := h
    cases h
    exact .statement hp hpc hs rfl rfl
  | commit token lost =>
    obtain ⟨p, hp, h⟩ := Option.bind_eq_some_iff.mp h
    obtain ⟨s, hs, h⟩ := Option.bind_eq_some_iff.mp h
    cases h
    exact .commit hp hs

end System

end DurablePg

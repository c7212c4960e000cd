import Mathlib.Tactic.Ring

namespace LoadForge.Framework

/-- A client, a server and the two queues between them, with the client's view of the server. -/
structure Mirror (M A V : Type) where
  client : V
  waiting : List M
  flying : List (M × A)
  queued : List M
  server : V

def obeyAll {M A V : Type} (obey : V → M → A → V) (view : V) (answered : List (M × A)) : V :=
  answered.foldl (fun v p => obey v p.1 p.2) view

namespace Mirror

variable {M A V : Type} {obey : V → M → A → V} {client server : V} {waiting queued : List M}
  {flying : List (M × A)}

/-- The client waits for what is on its way, and the answers make its view the server's. -/
def Agrees (obey : V → M → A → V) (m : Mirror M A V) : Prop :=
  m.waiting = m.flying.map Prod.fst ++ m.queued ∧ obeyAll obey m.client m.flying = m.server

theorem Agrees.ask (h : Agrees obey ⟨client, waiting, flying, queued, server⟩) (message : M) :
    Agrees obey ⟨client, waiting ++ [message], flying, queued ++ [message], server⟩ := by
  obtain ⟨hwaiting, hview⟩ := h
  refine ⟨?_, hview⟩
  show waiting ++ [message] = flying.map Prod.fst ++ (queued ++ [message])
  rw [← List.append_assoc]
  exact congrArg (· ++ [message]) hwaiting

theorem Agrees.answer (h : Agrees obey ⟨client, waiting, flying, queued, server⟩)
    (answered : List (M × A)) (rest : List M) (hq : queued = answered.map Prod.fst ++ rest) :
    Agrees obey ⟨client, waiting, flying ++ answered, rest, obeyAll obey server answered⟩ := by
  obtain ⟨hwaiting, hview⟩ := h
  refine ⟨?_, ?_⟩
  · show waiting = (flying ++ answered).map Prod.fst ++ rest
    rw [List.map_append, List.append_assoc, ← hq]
    exact hwaiting
  · have hserver : obeyAll obey client flying = server := hview
    show obeyAll obey client (flying ++ answered) = obeyAll obey server answered
    rw [← hserver, obeyAll, List.foldl_append]
    rfl

theorem Agrees.take {message : M} {answer : A}
    (h : Agrees obey ⟨client, waiting, (message, answer) :: flying, queued, server⟩) :
    ∃ rest, waiting = message :: rest ∧
      Agrees obey ⟨obey client message answer, rest, flying, queued, server⟩ := by
  obtain ⟨hwaiting, hview⟩ := h
  exact ⟨flying.map Prod.fst ++ queued, hwaiting, rfl, hview⟩

theorem Agrees.settled (h : Agrees obey ⟨client, [], flying, queued, server⟩) : client = server := by
  obtain ⟨hwaiting, hview⟩ := h
  have hnone : flying = [] := by
    have hnil := (List.append_eq_nil_iff.mp hwaiting.symm).1
    exact List.map_eq_nil_iff.mp hnil
  rw [hnone] at hview
  exact hview

end Mirror

end LoadForge.Framework

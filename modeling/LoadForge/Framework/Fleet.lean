import LoadForge.Framework.Run

namespace LoadForge.Framework

/-- Several machines of one kind, each taking only the events addressed to it. -/
def stepAt {S E : Type} (step : S → E → S) (ss : List S) (e : Nat × E) : List S :=
  ss.modify e.1 fun s => step s e.2

def eventsOf {E : Type} (index : Nat) (es : List (Nat × E)) : List E :=
  es.filterMap fun e => if e.1 = index then some e.2 else none

@[simp] theorem eventsOf_nil {E : Type} (index : Nat) : eventsOf (E := E) index [] = [] := rfl

theorem eventsOf_cons {E : Type} (index : Nat) (e : Nat × E) (es : List (Nat × E)) :
    eventsOf index (e :: es) =
      if e.1 = index then e.2 :: eventsOf index es else eventsOf index es := by
  unfold eventsOf
  rw [List.filterMap_cons]
  split_ifs <;> rfl

@[simp] theorem stepAt_length {S E : Type} (step : S → E → S) (ss : List S) (e : Nat × E) :
    (stepAt step ss e).length = ss.length := List.length_modify _ _ _

theorem run_stepAt_get {S E : Type} (step : S → E → S) (ss : List S) (es : List (Nat × E))
    (index : Nat) :
    (run (stepAt step) ss es)[index]? =
      ss[index]?.map fun s => run step s (eventsOf index es) := by
  induction es generalizing ss with
  | nil => cases hs : ss[index]? <;> simp [hs]
  | cons e es ih =>
    rw [run_cons, ih (stepAt step ss e), eventsOf_cons]
    unfold stepAt
    rw [List.getElem?_modify]
    cases hs : ss[index]? with
    | none => simp
    | some s => split_ifs <;> simp_all

def deal {E : Type} (count : Nat) (own : Nat → List E) : List (Nat × E) :=
  (List.range count).flatMap fun index => (own index).map (index, ·)

theorem eventsOf_append {E : Type} (index : Nat) (es fs : List (Nat × E)) :
    eventsOf index (es ++ fs) = eventsOf index es ++ eventsOf index fs :=
  List.filterMap_append

private theorem eventsOf_own {E : Type} (index owner : Nat) (es : List E) :
    eventsOf index (es.map (owner, ·)) = if owner = index then es else [] := by
  induction es with
  | nil => simp
  | cons e es ih =>
    rw [List.map_cons, eventsOf_cons, ih]
    split_ifs <;> rfl

theorem eventsOf_deal {E : Type} (count index : Nat) (own : Nat → List E) :
    eventsOf index (deal count own) = if index < count then own index else [] := by
  induction count with
  | zero => simp [deal]
  | succ count ih =>
    have hdeal : deal (count + 1) own = deal count own ++ (own count).map (count, ·) := by
      simp [deal, List.range_succ]
    rw [hdeal, eventsOf_append, ih, eventsOf_own]
    by_cases hlast : count = index
    · subst hlast
      simp
    · have hlt : index < count + 1 ↔ index < count := by omega
      simp [hlast, hlt]

end LoadForge.Framework

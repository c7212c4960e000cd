import Mathlib.Data.List.Lex
import LoadForge.Results.Document

namespace LoadForge.Results

open List

inductive Step (τ : Type)
  | key (name : τ)
  | index (number : Nat)
  deriving DecidableEq

/-- A node with nothing inside of it, where it is and how it is reached. -/
structure Leaf (τ ν : Type) where
  place : List Nat
  steps : List (Step τ)
  node : Node τ ν

/-- The leaf as it is seen from one node up. -/
def Leaf.under {τ ν : Type} (number : Nat) (step : Step τ) (leaf : Leaf τ ν) : Leaf τ ν :=
  ⟨number :: leaf.place, step :: leaf.steps, leaf.node⟩

namespace Node

variable {τ ν : Type}

def children : Node τ ν → List (Step τ × Node τ ν)
  | .array items => items.zipIdx.map fun entry => (.index entry.2, entry.1)
  | .object members => members.map fun member => (.key member.1, member.2)
  | _ => []

def descend : Node τ ν → List Nat → Option (List (Step τ) × Node τ ν)
  | node, [] => some ([], node)
  | node, entry :: place =>
    node.children[entry]?.bind fun (step, child) =>
      (child.descend place).map fun (steps, inner) => (step :: steps, inner)

/-- There is a node with nothing inside of it at the place. -/
def IsLeaf (node : Node τ ν) (place : List Nat) : Prop :=
  ∃ steps inner, node.descend place = some (steps, inner) ∧ inner.children = []

mutual

def leaves : Node τ ν → List (Leaf τ ν)
  | .array items => if items.isEmpty then [⟨[], [], .array []⟩] else leavesItems 0 items
  | .object members => if members.isEmpty then [⟨[], [], .object []⟩] else leavesMembers 0 members
  | .null => [⟨[], [], .null⟩]
  | .boolean value => [⟨[], [], .boolean value⟩]
  | .number value => [⟨[], [], .number value⟩]
  | .text value => [⟨[], [], .text value⟩]
  | .absence value => [⟨[], [], .absence value⟩]

def leavesItems (number : Nat) : List (Node τ ν) → List (Leaf τ ν)
  | [] => []
  | item :: items =>
    item.leaves.map (Leaf.under number (.index number)) ++ leavesItems (number + 1) items

def leavesMembers (number : Nat) : List (τ × Node τ ν) → List (Leaf τ ν)
  | [] => []
  | (key, value) :: members =>
    value.leaves.map (Leaf.under number (.key key)) ++ leavesMembers (number + 1) members

end

def leavesBelow (entry : (Step τ × Node τ ν) × Nat) : List (Leaf τ ν) :=
  entry.1.2.leaves.map (Leaf.under entry.2 entry.1.1)

/-- What holds of a tree whenever it holds of the trees right inside of it. -/
theorem induction_children {P : Node τ ν → Prop}
    (h : ∀ node, (∀ child ∈ node.children, P child.2) → P node) (node : Node τ ν) : P node := by
  refine Node.induction (h _ nofun) (fun _ => h _ nofun) (fun _ => h _ nofun) (fun _ => h _ nofun)
    ?_ ?_ (fun _ => h _ nofun) node
  · intro items hitems
    apply h
    intro child hchild
    obtain ⟨entry, hentry, rfl⟩ := mem_map.mp hchild
    exact hitems _ (fst_mem_of_mem_zipIdx hentry)
  · intro members hmembers
    apply h
    intro child hchild
    obtain ⟨member, hmember, rfl⟩ := mem_map.mp hchild
    exact hmembers member hmember

theorem leavesItems_eq (number : Nat) (items : List (Node τ ν)) :
    leavesItems number items =
      (((items.zipIdx number).map fun entry => (Step.index entry.2, entry.1)).zipIdx number).flatMap
        leavesBelow := by
  induction items generalizing number with
  | nil => rfl
  | cons item items ih =>
    rw [leavesItems, ih, zipIdx_cons, map_cons, zipIdx_cons, flatMap_cons]
    rfl

theorem leavesMembers_eq (number : Nat) (members : List (τ × Node τ ν)) :
    leavesMembers number members =
      ((members.map fun member => (Step.key member.1, member.2)).zipIdx number).flatMap
        leavesBelow := by
  induction members generalizing number with
  | nil => rfl
  | cons member members ih =>
    rw [leavesMembers, ih, map_cons, zipIdx_cons, flatMap_cons]
    rfl

theorem leaves_eq_self {node : Node τ ν} (h : node.children = []) :
    node.leaves = [⟨[], [], node⟩] := by
  cases node with
  | array items =>
    cases items with
    | nil => rfl
    | cons item items => cases h
  | object members =>
    cases members with
    | nil => rfl
    | cons member members => cases h
  | _ => rfl

theorem leaves_eq_below {node : Node τ ν} (h : node.children ≠ []) :
    node.leaves = node.children.zipIdx.flatMap leavesBelow := by
  cases node with
  | array items =>
    cases items with
    | nil => exact absurd rfl h
    | cons item items =>
      rw [leaves, if_neg (by simp), leavesItems_eq]
      rfl
  | object members =>
    cases members with
    | nil => exact absurd rfl h
    | cons member members =>
      rw [leaves, if_neg (by simp), leavesMembers_eq]
      rfl
  | _ => exact absurd rfl h

theorem descend_cons {node : Node τ ν} {entry : Nat} {place : List Nat} {steps : List (Step τ)}
    {inner : Node τ ν} :
    node.descend (entry :: place) = some (steps, inner) ↔
      ∃ step child rest, node.children[entry]? = some (step, child) ∧
        child.descend place = some (rest, inner) ∧ steps = step :: rest := by
  rw [descend, Option.bind_eq_some_iff]
  constructor
  · intro h
    obtain ⟨⟨step, child⟩, hchild, hrest⟩ := h
    obtain ⟨⟨rest, inner'⟩, hdescend, hsame⟩ := Option.map_eq_some_iff.mp hrest
    cases hsame
    exact ⟨step, child, rest, hchild, hdescend, rfl⟩
  · intro h
    obtain ⟨step, child, rest, hchild, hdescend, rfl⟩ := h
    exact ⟨(step, child), hchild, Option.map_eq_some_iff.mpr ⟨(rest, inner), hdescend, rfl⟩⟩

theorem mem_leaves {node : Node τ ν} {leaf : Leaf τ ν} :
    leaf ∈ node.leaves ↔
      node.descend leaf.place = some (leaf.steps, leaf.node) ∧ leaf.node.children = [] := by
  induction node using induction_children generalizing leaf with
  | h node ih =>
    obtain ⟨place, steps, inner⟩ := leaf
    by_cases hchildren : node.children = []
    · rw [leaves_eq_self hchildren, mem_singleton]
      cases place with
      | nil =>
        rw [descend]
        constructor
        · intro hleaf
          cases hleaf
          exact ⟨rfl, hchildren⟩
        · intro hdescend
          cases hdescend.1
          rfl
      | cons entry place =>
        constructor
        · intro hleaf
          cases hleaf
        · intro hdescend
          obtain ⟨step, child, rest, hchild, -⟩ := descend_cons.mp hdescend.1
          rw [hchildren] at hchild
          cases hchild
    · rw [leaves_eq_below hchildren, mem_flatMap]
      constructor
      · intro hleaf
        obtain ⟨⟨⟨step, child⟩, entry⟩, hentry, hbelow⟩ := hleaf
        obtain ⟨leaf, hleaf, hsame⟩ := mem_map.mp hbelow
        cases hsame
        have hchild := mem_zipIdx_iff_getElem?.mp hentry
        obtain ⟨hdescend, hinner⟩ := (ih _ (mem_of_getElem? hchild)).mp hleaf
        exact ⟨descend_cons.mpr ⟨step, child, leaf.steps, hchild, hdescend, rfl⟩, hinner⟩
      · intro hdescend
        obtain ⟨hdescend, hinner⟩ := hdescend
        cases place with
        | nil =>
          cases hdescend
          exact absurd hinner hchildren
        | cons entry place =>
          obtain ⟨step, child, rest, hchild, hrest, rfl⟩ := descend_cons.mp hdescend
          refine ⟨((step, child), entry), mem_zipIdx_iff_getElem?.mpr hchild, ?_⟩
          apply mem_map.mpr
          exact ⟨⟨place, rest, inner⟩, (ih _ (mem_of_getElem? hchild)).mpr ⟨hrest, hinner⟩, rfl⟩

theorem pairwise_leaves (node : Node τ ν) :
    node.leaves.Pairwise fun leaf other => leaf.place < other.place := by
  induction node using induction_children with
  | h node ih =>
    by_cases hchildren : node.children = []
    · rw [leaves_eq_self hchildren]
      exact pairwise_singleton _ _
    · rw [leaves_eq_below hchildren, pairwise_flatMap]
      constructor
      · intro entry hentry
        rw [leavesBelow, pairwise_map]
        apply (ih _ (fst_mem_of_mem_zipIdx hentry)).imp
        intro leaf other hlt
        exact cons_lt_cons_iff.mpr (Or.inr ⟨rfl, hlt⟩)
      · have horder : (node.children.zipIdx.map Prod.snd).Pairwise (· < ·) := by
          rw [zipIdx_map_snd]
          exact pairwise_lt_range' 1
        apply (pairwise_map.mp horder).imp
        intro entry entry' hlt leaf hleaf other hother
        obtain ⟨leaf, -, rfl⟩ := mem_map.mp hleaf
        obtain ⟨other, -, rfl⟩ := mem_map.mp hother
        exact cons_lt_cons_iff.mpr (Or.inl hlt)

/-- Nodes reached by the same steps are at the same place. -/
theorem descend_inj {node inner other : Node τ ν} {place place' : List Nat} {steps : List (Step τ)}
    (hsteps : ∀ place steps inner, node.descend place = some (steps, inner) →
      (inner.children.map Prod.fst).Nodup)
    (h : node.descend place = some (steps, inner))
    (h' : node.descend place' = some (steps, other)) : place = place' := by
  induction place generalizing node place' steps with
  | nil =>
    cases place' with
    | nil => rfl
    | cons entry place' =>
      obtain ⟨step, child, rest, -, -, hcons⟩ := descend_cons.mp h'
      cases h
      cases hcons
  | cons entry place ih =>
    obtain ⟨step, child, rest, hchild, hrest, rfl⟩ := descend_cons.mp h
    cases place' with
    | nil => cases h'
    | cons entry' place' =>
      obtain ⟨step', child', rest', hchild', hrest', hcons⟩ := descend_cons.mp h'
      cases hcons
      have hentry : entry = entry' := by
        have hlength : entry < (node.children.map Prod.fst).length := by
          rw [length_map]
          exact (List.getElem?_eq_some_iff.mp hchild).1
        apply (getElem?_inj hlength (hsteps [] [] node rfl)).mp
        rw [getElem?_map, getElem?_map, hchild, hchild']
        rfl
      subst hentry
      rw [hchild] at hchild'
      cases hchild'
      rw [ih (fun place steps inner hinner => hsteps (entry :: place) (step :: steps) inner
        (descend_cons.mpr ⟨step, child, steps, hchild, hinner, rfl⟩)) hrest hrest']

end Node

end LoadForge.Results

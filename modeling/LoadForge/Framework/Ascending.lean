import Mathlib.Algebra.BigOperators.Group.List.Basic
import Mathlib.Data.List.Induction
import Mathlib.Tactic.Ring

namespace LoadForge.Framework

open List

/-- A list whose keys strictly ascend, as an append-only log keeps them. -/
structure Ascending (α : Type) (key : α → Int) where
  items : List α
  ascending : items.Pairwise fun a b => key a < key b

namespace Ascending

variable {α : Type} {key : α → Int}

def empty : Ascending α key := ⟨[], List.Pairwise.nil⟩

variable (l : Ascending α key)

/-- Whether an item comes after everything the log holds, judged by its last item. -/
def follows (a : α) : Bool :=
  match l.items.getLast? with
  | none => true
  | some b => decide (key b < key a)

theorem lt_of_follows (a : α) (hf : l.follows a = true) : ∀ b ∈ l.items, key b < key a := by
  obtain ⟨items, hasc⟩ := l
  induction items using reverseRecOn with
  | nil => simp
  | append_singleton items c _ =>
    have hc : key c < key a := by simpa [follows] using hf
    intro b hb
    rcases mem_append.mp hb with hb | hb
    · have hbc : key b < key c := (pairwise_append.mp hasc).2.2 b hb c (by simp)
      omega
    · simpa [mem_singleton.mp hb] using hc

theorem le_getLast (a b : α) (ha : a ∈ l.items)
    (hb : l.items.getLast? = some b) : key a ≤ key b := by
  obtain ⟨items, hasc⟩ := l
  obtain ⟨init, rfl⟩ := getLast?_eq_some_iff.mp hb
  rcases mem_append.mp ha with ha | ha
  · exact Int.le_of_lt ((pairwise_append.mp hasc).2.2 a ha b (by simp))
  · exact Int.le_of_eq (congrArg key (mem_singleton.mp ha))

def push (a : α) (hf : l.follows a = true) : Ascending α key :=
  ⟨l.items ++ [a], by
    rw [List.pairwise_append]
    refine ⟨l.ascending, List.pairwise_singleton _ _, ?_⟩
    intro b hb c hc
    rw [List.mem_singleton.mp hc]
    exact l.lt_of_follows a hf b hb⟩

@[simp] theorem push_items (a : α) (hf : l.follows a = true) :
    (l.push a hf).items = l.items ++ [a] := rfl

@[simp] theorem empty_items : (empty : Ascending α key).items = [] := rfl

/-- The items from `lo` on and before `hi`, found as a binary search of sorted items finds
them. -/
def between (lo hi : Int) : List α :=
  (l.items.dropWhile fun a => key a < lo).takeWhile fun a => key a < hi

end Ascending

variable {α : Type} {key : α → Int}

theorem span_eq_filter {p : α → Bool} {xs : List α} (h : xs.Pairwise fun a b => p b → p a) :
    xs.takeWhile p = xs.filter p ∧ xs.dropWhile p = xs.filter (! p ·) := by
  induction xs with
  | nil => exact ⟨rfl, rfl⟩
  | cons a xs ih =>
    obtain ⟨ha, hxs⟩ := pairwise_cons.mp h
    by_cases hp : p a
    · simp [hp, ih hxs]
    · have hnone : ∀ b ∈ xs, p b = false := fun b hb => by
        simpa using fun hpb => hp (ha b hb hpb)
      have hall : xs.filter (! p ·) = xs := filter_eq_self.mpr fun b hb => by simp [hnone b hb]
      simpa [hp, hall] using hnone

theorem between_eq_filter (l : Ascending α key) (lo hi : Int) :
    l.between lo hi = l.items.filter fun a => lo ≤ key a && key a < hi := by
  have hbelow : ∀ n : Int, ∀ {xs : List α}, (xs.Pairwise fun a b => key a < key b) →
      xs.Pairwise fun a b => decide (key b < n) → decide (key a < n) := by
    intro n xs hasc
    refine hasc.imp ?_
    intro a b hab hb
    simp at hb ⊢
    omega
  have hasc := hbelow hi (l.ascending.filter fun a => ! decide (key a < lo))
  rw [Ascending.between, (span_eq_filter (hbelow lo l.ascending)).2, (span_eq_filter hasc).1,
    filter_filter]
  congr 1
  funext a
  rw [Bool.and_comm, ← decide_not]
  simp only [Int.not_lt]

/-- A measure of consecutive pairs, summed over a list. -/
def pairSum {M : Type} [AddCommMonoid M] (f : α → α → M) : List α → M
  | a :: b :: rest => f a b + pairSum f (b :: rest)
  | _ => 0

theorem pairSum_cut {M : Type} [AddCommMonoid M] (f : α → α → M) (xs : List α) (a : α)
    (ys : List α) :
    pairSum f (xs ++ a :: ys) = pairSum f (xs ++ [a]) + pairSum f (a :: ys) := by
  induction xs with
  | nil => simp [pairSum]
  | cons x xs ih =>
    cases xs with
    | nil => simp [pairSum]
    | cons y xs =>
      simp only [cons_append, pairSum] at ih ⊢
      rw [ih, add_assoc]

theorem between_around (l : Ascending α key) (lo hi : Int) (xs : List α) (a : α) (ys : List α)
    (hitems : l.items = xs ++ a :: ys) (hlo : lo ≤ key a) (hhi : key a < hi) :
    l.between lo hi =
      xs.filter (fun b => lo ≤ key b) ++ a :: ys.filter (fun b => key b < hi) := by
  have hasc := l.ascending
  rw [hitems] at hasc
  obtain ⟨-, hright, hcross⟩ := pairwise_append.mp hasc
  have hbefore : ∀ b ∈ xs, key b < key a := fun b hb => hcross b hb a (by simp)
  have hafter : ∀ b ∈ ys, key a < key b := (pairwise_cons.mp hright).1
  have hxs : xs.filter (fun b => lo ≤ key b && key b < hi) = xs.filter fun b => lo ≤ key b := by
    refine filter_congr ?_
    intro b hb
    have := hbefore b hb
    simp
    omega
  have hys : ys.filter (fun b => lo ≤ key b && key b < hi) = ys.filter fun b => key b < hi := by
    refine filter_congr ?_
    intro b hb
    have := hafter b hb
    simp
    omega
  rw [between_eq_filter, hitems, filter_append, filter_cons_of_pos (by simp; omega), hxs, hys]

theorem pairSum_between_cut {M : Type} [AddCommMonoid M] (f : α → α → M)
    (l : Ascending α key) (lo hi : Int) (a : α) (ha : a ∈ l.items) (hlo : lo ≤ key a)
    (hhi : key a ≤ hi) :
    pairSum f (l.between lo (hi + 1)) =
      pairSum f (l.between lo (key a + 1)) + pairSum f (l.between (key a) (hi + 1)) := by
  obtain ⟨xs, ys, hitems⟩ := append_of_mem ha
  have hasc := l.ascending
  rw [hitems] at hasc
  obtain ⟨-, hright, hcross⟩ := pairwise_append.mp hasc
  have hafter : ys.filter (fun b => key b < key a + 1) = [] := by
    rw [filter_eq_nil_iff]
    intro b hb
    have := (pairwise_cons.mp hright).1 b hb
    simp
    omega
  have hbefore : xs.filter (fun b => key a ≤ key b) = [] := by
    rw [filter_eq_nil_iff]
    intro b hb
    have := hcross b hb a (by simp)
    simp
    omega
  rw [between_around l lo (hi + 1) xs a ys hitems hlo (by omega),
    between_around l lo (key a + 1) xs a ys hitems hlo (by omega),
    between_around l (key a) (hi + 1) xs a ys hitems (Int.le_refl _) (by omega), hafter, hbefore,
    nil_append, pairSum_cut]

/-- The windows that open at each boundary and close on the next, the last on `last`. -/
def windowsFrom : List Int → Int → List (Int × Int)
  | [], _ => []
  | [m], last => [(m, last + 1)]
  | m :: n :: ms, last => (m, n + 1) :: windowsFrom (n :: ms) last

/-- Windows whose boundaries are keys have between them every pair of their span, once. -/
theorem sum_pairSum_windowsFrom {M : Type} [AddCommMonoid M] (f : α → α → M)
    (l : Ascending α key) (m : Int) (ms : List Int) (last : Int)
    (hms : ∀ n ∈ ms, ∃ a ∈ l.items, key a = n) (hasc : (m :: ms).Pairwise (· ≤ ·))
    (hlast : ∀ n ∈ ms, n ≤ last) :
    ((windowsFrom (m :: ms) last).map fun w => pairSum f (l.between w.1 w.2)).sum =
      pairSum f (l.between m (last + 1)) := by
  induction ms generalizing m with
  | nil => simp [windowsFrom]
  | cons n ms ih =>
    obtain ⟨a, ha, rfl⟩ := hms n (by simp)
    obtain ⟨hm, hrest⟩ := pairwise_cons.mp hasc
    have hcut := pairSum_between_cut f l m last a ha (hm _ (by simp)) (hlast _ (by simp))
    have htail := ih (key a) (fun k hk => hms k (by simp [hk])) hrest
      (fun k hk => hlast k (by simp [hk]))
    simp only [windowsFrom, map_cons, sum_cons] at htail ⊢
    rw [htail, hcut]

end LoadForge.Framework

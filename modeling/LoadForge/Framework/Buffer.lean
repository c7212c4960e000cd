import Mathlib.Tactic.Ring

namespace LoadForge.Framework

open List

/-- A buffer that is filled from the front: what it holds, and how much of it has been written. -/
structure Output (α : Type) where
  buffer : List α
  used : Nat := 0

namespace Output

variable {α : Type}

/-- One item more. There is no write outside of the buffer. -/
def put (o : Output α) (a : α) : Option (Output α) :=
  if o.used < o.buffer.length then some ⟨o.buffer.set o.used a, o.used + 1⟩ else none

def puts : Output α → List α → Option (Output α)
  | o, [] => some o
  | o, a :: as => (o.put a).bind fun o => o.puts as

def written (o : Output α) : List α := o.buffer.take o.used

def pop (o : Output α) : Option (α × Output α) :=
  if o.used = 0 then none
  else o.buffer[o.used - 1]?.map fun a => (a, ⟨o.buffer, o.used - 1⟩)

/-- From one state of a buffer to another these items were written, and nothing else was. -/
structure Wrote (o : Output α) (as : List α) (o' : Output α) : Prop where
  written : o'.written = o.written ++ as
  used : o'.used = o.used + as.length
  size : o'.buffer.length = o.buffer.length
  beyond : o'.buffer.drop o'.used = o.buffer.drop o'.used

theorem Wrote.fresh {buffer as : List α} {o : Output α} (h : Wrote ⟨buffer, 0⟩ as o) :
    o.buffer.take o.used = as := by
  have hwritten := h.written
  rwa [Output.written, Output.written, take_zero, nil_append] at hwritten

theorem Wrote.refl (o : Output α) : o.Wrote [] o :=
  ⟨(append_nil _).symm, rfl, rfl, rfl⟩

theorem Wrote.trans {o o' o'' : Output α} {as bs : List α} (h : o.Wrote as o')
    (h' : o'.Wrote bs o'') : o.Wrote (as ++ bs) o'' := by
  refine ⟨?_, ?_, h'.size.trans h.size, ?_⟩
  · rw [h'.written, h.written, append_assoc]
  · rw [h'.used, h.used, length_append, Nat.add_assoc]
  · have hsplit : o''.used = o'.used + bs.length := h'.used
    rw [h'.beyond, hsplit, ← drop_drop, h.beyond, drop_drop]

theorem put_wrote (o : Output α) (a : α) (h : o.used < o.buffer.length) :
    ∃ o', o.put a = some o' ∧ o.Wrote [a] o' := by
  refine ⟨_, if_pos h, ?_, rfl, length_set, ?_⟩
  · show (o.buffer.set o.used a).take (o.used + 1) = o.buffer.take o.used ++ [a]
    rw [take_add_one, take_set_of_le (Nat.le_refl _), getElem?_set_self h]
    rfl
  · show (o.buffer.set o.used a).drop (o.used + 1) = o.buffer.drop (o.used + 1)
    exact drop_set_of_lt (Nat.lt_succ_self _)

theorem puts_wrote (o : Output α) (as : List α) (h : o.used + as.length ≤ o.buffer.length) :
    ∃ o', o.puts as = some o' ∧ o.Wrote as o' := by
  induction as generalizing o with
  | nil => exact ⟨o, rfl, .refl o⟩
  | cons a as ih =>
    rw [length_cons] at h
    obtain ⟨o', hput, hwrote⟩ := put_wrote o a (by omega)
    have hused : o'.used = o.used + 1 := hwrote.used
    have hsize := hwrote.size
    obtain ⟨o'', hputs, hrest⟩ := ih o' (by omega)
    refine ⟨o'', ?_, hwrote.trans hrest⟩
    rw [puts, hput]
    exact hputs

theorem puts_append (o : Output α) (as bs : List α) :
    o.puts (as ++ bs) = (o.puts as).bind fun o' => o'.puts bs := by
  induction as generalizing o with
  | nil => rfl
  | cons a as ih =>
    rw [cons_append, puts, puts]
    cases o.put a with
    | none => rfl
    | some o' => exact ih o'

theorem pop_written {o : Output α} {front : List α} {a : α} (h : o.written = front ++ [a])
    (hu : o.used ≤ o.buffer.length) :
    ∃ o', o.pop = some (a, o') ∧ o'.written = front ∧ o'.used = front.length ∧
      o'.buffer.length = o.buffer.length := by
  have hused : o.used = front.length + 1 := by
    have hlength := congrArg length h
    rw [written, length_take, Nat.min_eq_left hu, length_append, length_singleton] at hlength
    exact hlength
  have hlast : o.buffer[o.used - 1]? = some a := by
    have hget := congrArg (fun xs => xs[front.length]?) h
    simp only [written, getElem?_concat_length] at hget
    rw [getElem?_take_of_lt (by omega)] at hget
    rw [hused, Nat.add_sub_cancel]
    exact hget
  refine ⟨⟨o.buffer, o.used - 1⟩, ?_, ?_, ?_, rfl⟩
  · rw [pop, if_neg (by omega), hlast]
    rfl
  · have htake := congrArg (take front.length) h
    rw [written, take_take, take_left' rfl, Nat.min_eq_left (by omega)] at htake
    rw [written, hused, Nat.add_sub_cancel]
    exact htake
  · rw [hused, Nat.add_sub_cancel]

end Output

end LoadForge.Framework

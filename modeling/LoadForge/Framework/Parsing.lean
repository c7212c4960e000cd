import LoadForge.Framework.Bytes

namespace LoadForge.Framework

open List

/-- The reader takes exactly the bytes its writer writes of the values that keep `ok`. -/
def Parses {α : Type} (get : List UInt8 → Option (α × List UInt8)) (ok : α → Prop)
    (put : α → List UInt8) : Prop :=
  ∀ bytes a rest, get bytes = some (a, rest) ↔ ok a ∧ bytes = put a ++ rest

section Parses

variable {α : Type} {get : List UInt8 → Option (α × List UInt8)} {ok : α → Prop}
  {put : α → List UInt8}

theorem Parses.read (h : Parses get ok put) {a : α} (ha : ok a) (rest : List UInt8) :
    get (put a ++ rest) = some (a, rest) :=
  (h _ a rest).mpr ⟨ha, rfl⟩

theorem Parses.bind_iff {β : Type} (h : Parses get ok put) {next : α × List UInt8 → Option β}
    {bytes : List UInt8} {b : β} :
    (get bytes).bind next = some b ↔
      ∃ a rest, ok a ∧ bytes = put a ++ rest ∧ next (a, rest) = some b := by
  constructor
  · intro hbind
    obtain ⟨⟨a, rest⟩, hget, hnext⟩ := Option.bind_eq_some_iff.mp hbind
    obtain ⟨ha, hbytes⟩ := (h bytes a rest).mp hget
    exact ⟨a, rest, ha, hbytes, hnext⟩
  · rintro ⟨a, rest, ha, rfl, hnext⟩
    rw [h.read ha, Option.bind_some]
    exact hnext

theorem Parses.cut (h : Parses get ok put) {a : α} (ha : ok a) {front back : List UInt8}
    (hsplit : put a = front ++ back) (hback : back ≠ []) : get front = none := by
  cases hget : get front with
  | none => rfl
  | some result =>
    obtain ⟨b, rest⟩ := result
    obtain ⟨hb, hfront⟩ := (h front b rest).mp hget
    have hwhole : get (put a) = some (a, []) := by
      have hread := h.read ha []
      rwa [append_nil] at hread
    have hother : get (put a) = some (b, rest ++ back) := by
      rw [hsplit, hfront, append_assoc]
      exact h.read hb (rest ++ back)
    rw [hwhole] at hother
    have hnil : [] = rest ++ back := congrArg Prod.snd (Option.some.inj hother)
    exact absurd (append_eq_nil_iff.mp hnil.symm).2 hback

end Parses

theorem span_append {α : Type} {p : α → Bool} {front rest : List α}
    (hfront : ∀ a ∈ front, p a = true) (hrest : ∀ a, rest.head? = some a → p a = false) :
    (front ++ rest).takeWhile p = front ∧ (front ++ rest).dropWhile p = rest := by
  rw [takeWhile_append_of_pos hfront, dropWhile_append_of_pos hfront]
  cases rest with
  | nil => exact ⟨append_nil front, rfl⟩
  | cons a rest =>
    have ha : ¬ p a = true := by
      rw [hrest a rfl]
      exact Bool.false_ne_true
    rw [takeWhile_cons_of_neg ha, dropWhile_cons_of_neg ha, append_nil]
    exact ⟨rfl, rfl⟩

theorem front_inj {α : Type} {p : α → Bool} {front front' rest rest' : List α}
    (hfront : ∀ a ∈ front, p a = true) (hfront' : ∀ a ∈ front', p a = true)
    (hrest : ∀ a, rest.head? = some a → p a = false)
    (hrest' : ∀ a, rest'.head? = some a → p a = false)
    (h : front ++ rest = front' ++ rest') : front = front' ∧ rest = rest' := by
  obtain ⟨htake, hdrop⟩ := span_append hfront hrest
  obtain ⟨htake', hdrop'⟩ := span_append hfront' hrest'
  rw [h, htake'] at htake
  rw [h, hdrop'] at hdrop
  exact ⟨htake.symm, hdrop.symm⟩

end LoadForge.Framework

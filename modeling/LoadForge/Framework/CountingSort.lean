import Mathlib.Data.Nat.Count
import Mathlib.Tactic.Ring

namespace LoadForge.Framework

/-- Where a stable sort by digit puts a position. -/
def place (digit : Nat → Nat) (n i : Nat) : Nat :=
  Nat.count (fun j => digit j < digit i) n + Nat.count (fun j => digit j = digit i) i

variable (digit : Nat → Nat)

theorem count_lt_succ (d n : Nat) :
    Nat.count (fun j => digit j < d + 1) n =
      Nat.count (fun j => digit j < d) n + Nat.count (fun j => digit j = d) n := by
  induction n with
  | zero => rfl
  | succ n ih =>
    rw [Nat.count_succ, Nat.count_succ, Nat.count_succ, ih]
    split_ifs <;> omega

theorem count_lt_mono {d e : Nat} (h : d ≤ e) (n : Nat) :
    Nat.count (fun j => digit j < d) n ≤ Nat.count (fun j => digit j < e) n :=
  Nat.count_mono_left fun _ _ hj => Nat.lt_of_lt_of_le hj h

theorem place_lt_end {n i : Nat} (hi : i < n) :
    place digit n i < Nat.count (fun j => digit j < digit i + 1) n := by
  rw [count_lt_succ, place]
  exact Nat.add_lt_add_left (Nat.count_strict_mono (p := fun j => digit j = digit i) rfl hi) _

theorem place_lt {n i : Nat} (hi : i < n) : place digit n i < n :=
  Nat.lt_of_lt_of_le (place_lt_end digit hi) (Nat.count_le ..)

theorem place_lt_of_digit_lt {n i j : Nat} (hi : i < n) (h : digit i < digit j) :
    place digit n i < place digit n j := by
  calc place digit n i < Nat.count (fun k => digit k < digit i + 1) n := place_lt_end digit hi
    _ ≤ Nat.count (fun k => digit k < digit j) n := count_lt_mono digit h n
    _ ≤ place digit n j := Nat.le_add_right _ _

theorem place_lt_of_digit_eq (n : Nat) {i j : Nat} (h : digit i = digit j) (hij : i < j) :
    place digit n i < place digit n j := by
  rw [place, place, h]
  exact Nat.add_lt_add_left (Nat.count_strict_mono (p := fun k => digit k = digit j) h hij) _

theorem place_lt_iff {n i j : Nat} (hi : i < n) (hj : j < n) :
    place digit n i < place digit n j ↔ digit i < digit j ∨ digit i = digit j ∧ i < j := by
  constructor
  · intro h
    by_contra hnot
    rcases Nat.lt_trichotomy (digit i) (digit j) with hlt | heq | hgt
    · exact hnot (Or.inl hlt)
    · rcases Nat.lt_trichotomy i j with hij | hij | hij
      · exact hnot (Or.inr ⟨heq, hij⟩)
      · rw [hij] at h
        exact Nat.lt_irrefl _ h
      · exact Nat.lt_asymm h (place_lt_of_digit_eq digit n heq.symm hij)
    · exact Nat.lt_asymm h (place_lt_of_digit_lt digit hj hgt)
  · intro h
    rcases h with hlt | ⟨heq, hij⟩
    · exact place_lt_of_digit_lt digit hi hlt
    · exact place_lt_of_digit_eq digit n heq hij

theorem place_inj {n i j : Nat} (hi : i < n) (hj : j < n) (h : place digit n i = place digit n j) :
    i = j := by
  rcases Nat.lt_trichotomy (digit i) (digit j) with hlt | heq | hgt
  · have hless := place_lt_of_digit_lt digit hi hlt
    omega
  · rcases Nat.lt_trichotomy i j with hij | hij | hij
    · have hless := place_lt_of_digit_eq digit n heq hij
      omega
    · exact hij
    · have hless := place_lt_of_digit_eq digit n heq.symm hij
      omega
  · have hless := place_lt_of_digit_lt digit hj hgt
    omega

/-- An injection of the numbers below a bound into themselves meets every one of them. -/
theorem exists_of_injective_below {n : Nat} {f : Nat → Nat} (hlt : ∀ i < n, f i < n)
    (hinj : ∀ i < n, ∀ j < n, f i = f j → i = j) {k : Nat} (hk : k < n) : ∃ i < n, f i = k := by
  let g : Fin n → Fin n := fun i => ⟨f i, hlt i i.isLt⟩
  have hg : Function.Injective g := by
    intro i j h
    exact Fin.ext (hinj i i.isLt j j.isLt (congrArg Fin.val h))
  obtain ⟨i, hi⟩ := (Finite.injective_iff_surjective.mp hg) ⟨k, hk⟩
  exact ⟨i, i.isLt, congrArg Fin.val hi⟩

theorem exists_place {n k : Nat} (hk : k < n) : ∃ i < n, place digit n i = k :=
  exists_of_injective_below (fun _ hi => place_lt digit hi)
    (fun _ hi _ hj h => place_inj digit hi hj h) hk

/-- Keys and the positions they came from, stably sorted by the keys modulo something. -/
structure SortedModulo (n : Nat) (source : Nat → Nat) (modulus : Nat) (key index : Nat → Nat) :
    Prop where
  named : ∀ j < n, index j < n ∧ key j = source (index j)
  ordered : ∀ i j, i < j → j < n → key i % modulus < key j % modulus ∨
    key i % modulus = key j % modulus ∧ index i < index j

/-- Before the first pass every key is beside its own position, and no digit counts. -/
theorem sortedModulo_one (n : Nat) (source : Nat → Nat) : SortedModulo n source 1 source id := by
  refine ⟨fun j hj => ⟨hj, rfl⟩, ?_⟩
  intro i j hij _
  exact Or.inr ⟨by rw [Nat.mod_one, Nat.mod_one], hij⟩

theorem SortedModulo.pass {n modulus radix : Nat} {source key index key' index' : Nat → Nat}
    (h : SortedModulo n source modulus key index)
    (hmove : ∀ i < n, key' (place (fun j => key j / modulus % radix) n i) = key i ∧
      index' (place (fun j => key j / modulus % radix) n i) = index i) :
    SortedModulo n source (modulus * radix) key' index' := by
  refine ⟨?_, ?_⟩
  · intro j hj
    obtain ⟨i, hi, hplace⟩ := exists_place (fun j => key j / modulus % radix) hj
    obtain ⟨hkey, hindex⟩ := hmove i hi
    rw [hplace] at hkey hindex
    rw [hkey, hindex]
    exact h.named i hi
  · intro i j hij hj
    obtain ⟨a, ha, hplaceA⟩ := exists_place (fun j => key j / modulus % radix) (Nat.lt_trans hij hj)
    obtain ⟨b, hb, hplaceB⟩ := exists_place (fun j => key j / modulus % radix) hj
    obtain ⟨hkeyA, hindexA⟩ := hmove a ha
    obtain ⟨hkeyB, hindexB⟩ := hmove b hb
    rw [hplaceA] at hkeyA hindexA
    rw [hplaceB] at hkeyB hindexB
    rw [hkeyA, hindexA, hkeyB, hindexB, Nat.mod_mul, Nat.mod_mul]
    rw [← hplaceA, ← hplaceB, place_lt_iff _ ha hb] at hij
    rcases hij with hdigit | ⟨hdigit, hab⟩
    · left
      have hpos : 0 < modulus := by
        by_contra hzero
        rw [Nat.eq_zero_of_not_pos hzero, Nat.div_zero, Nat.div_zero] at hdigit
        exact Nat.lt_irrefl _ hdigit
      have hsmall := Nat.mod_lt (key a) hpos
      have hstep := Nat.mul_le_mul_left modulus (Nat.succ_le_of_lt hdigit)
      rw [Nat.mul_succ] at hstep
      omega
    · rw [hdigit]
      rcases h.ordered a b hab hb with hless | ⟨hsame, hindex⟩
      · exact Or.inl (Nat.add_lt_add_right hless _)
      · exact Or.inr ⟨by rw [hsame], hindex⟩

variable {source key index : Nat → Nat} {n modulus : Nat}

section

variable (h : SortedModulo n source modulus key index)
include h

theorem SortedModulo.index_ne {i j : Nat} (hij : i < j) (hj : j < n) : index i ≠ index j := by
  intro hsame
  have hkeys : key i = key j := by
    rw [(h.named i (Nat.lt_trans hij hj)).2, (h.named j hj).2, hsame]
  rcases h.ordered i j hij hj with hless | ⟨_, hless⟩
  · rw [hkeys] at hless
    exact Nat.lt_irrefl _ hless
  · rw [hsame] at hless
    exact Nat.lt_irrefl _ hless

theorem SortedModulo.index_inj {i j : Nat}
    (hi : i < n) (hj : j < n)
    (hsame : index i = index j) : i = j := by
  rcases Nat.lt_trichotomy i j with hij | hij | hij
  · exact absurd hsame (h.index_ne hij hj)
  · exact hij
  · exact absurd hsame.symm (h.index_ne hij hi)

theorem SortedModulo.exists_index {k : Nat} (hk : k < n) : ∃ j < n, index j = k :=
  exists_of_injective_below (fun j hj => (h.named j hj).1)
    (fun _ hi _ hj hsame => h.index_inj hi hj hsame) hk

end

theorem SortedModulo.congr_source {source source' key index : Nat → Nat}
    (h : SortedModulo n source modulus key index) (hs : ∀ i < n, source i = source' i) :
    SortedModulo n source' modulus key index := by
  refine ⟨?_, h.ordered⟩
  intro j hj
  obtain ⟨hlt, hkey⟩ := h.named j hj
  exact ⟨hlt, by rw [hkey, hs _ hlt]⟩

theorem SortedModulo.lt_iff (h : SortedModulo n source modulus key index) {i j : Nat} (hi : i < n)
    (hj : j < n) :
    i < j ↔ source (index i) % modulus < source (index j) % modulus ∨
      source (index i) % modulus = source (index j) % modulus ∧ index i < index j := by
  have hforward : ∀ i j, i < j → j < n → source (index i) % modulus < source (index j) % modulus ∨
      source (index i) % modulus = source (index j) % modulus ∧ index i < index j := by
    intro i j hij hj
    rw [← (h.named i (Nat.lt_trans hij hj)).2, ← (h.named j hj).2]
    exact h.ordered i j hij hj
  constructor
  · intro hij
    exact hforward i j hij hj
  · intro hless
    by_contra hnot
    rcases Nat.eq_or_lt_of_le (Nat.not_lt.mp hnot) with hsame | hji
    · rw [hsame] at hless
      omega
    · have hback := hforward j i hji hi
      omega

theorem SortedModulo.unique {source key index key' index' : Nat → Nat}
    (h : SortedModulo n source modulus key index)
    (h' : SortedModulo n source modulus key' index') (j : Nat) (hj : j < n) :
    key j = key' j ∧ index j = index' j := by
  have hindex : ∀ j < n, index j = index' j := by
    intro j
    induction j using Nat.strongRecOn with
    | ind j ih =>
      intro hj
      obtain ⟨k, hk, hsame⟩ := h'.exists_index (h.named j hj).1
      obtain ⟨l, hl, hother⟩ := h.exists_index (h'.named j hj).1
      rcases Nat.lt_trichotomy k j with hkj | hkj | hkj
      · have hback := ih k hkj hk
        rw [hsame] at hback
        exact absurd (h.index_inj hk hj hback) (Nat.ne_of_lt hkj)
      · rw [← hsame, hkj]
      · have hjk := (h'.lt_iff hj hk).mp hkj
        rw [hsame, ← hother, ← h.lt_iff hl hj] at hjk
        have hback := ih l hjk hl
        rw [hother] at hback
        exact absurd (h'.index_inj hj hl hback) (Nat.ne_of_gt hjk)
  refine ⟨?_, hindex j hj⟩
  rw [(h.named j hj).2, (h'.named j hj).2, hindex j hj]

end LoadForge.Framework

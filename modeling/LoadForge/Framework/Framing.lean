import Mathlib.Data.List.GetD
import LoadForge.Framework.Bytes

namespace LoadForge.Framework

open List

/-- What a reader makes of the front of its bytes: a record and what follows it, or an end. -/
inductive Look (R E : Type)
  | stop (ending : E)
  | record (r : R) (rest : List UInt8)

/-- What a reading loop hands back: the records, why it ended, and the bytes it did not use. -/
structure Scan (R E : Type) where
  records : List R
  ending : E
  rest : List UInt8

/-- A reading loop with a bound on its rounds. `out` is the ending of one that runs out of it. -/
def scanWith {R E : Type} (look : List UInt8 → Look R E) (out : E) : Nat → List UInt8 → Scan R E
  | 0, bytes => ⟨[], out, bytes⟩
  | fuel + 1, bytes =>
    match look bytes with
    | .stop e => ⟨[], e, bytes⟩
    | .record r rest =>
      let after := scanWith look out fuel rest
      ⟨r :: after.records, after.ending, after.rest⟩

/-- What is found at the front of some bytes, once more follow them. -/
def Look.more {R E : Type} : Look R E → List UInt8 → Look R E
  | .stop e, _ => .stop e
  | .record r rest, more => .record r (rest ++ more)

/-- Only where a look found `out` can more bytes tell. -/
def Stable {R E : Type} (look : List UInt8 → Look R E) (out : E) : Prop :=
  ∀ bytes more, look bytes ≠ .stop out → look (bytes ++ more) = (look bytes).more more

/-- The records at the front of some bytes, why no other follows, and the bytes from there. -/
inductive Reads {R E : Type} (look : List UInt8 → Look R E) :
    List UInt8 → List R → E → List UInt8 → Prop
  | stop {bytes : List UInt8} {e : E} (hl : look bytes = .stop e) : Reads look bytes [] e bytes
  | record {bytes rest left : List UInt8} {r : R} {rs : List R} {e : E}
      (hl : look bytes = .record r rest) (h : Reads look rest rs e left) :
      Reads look bytes (r :: rs) e left

/-- The records whose encodings lie wholly in the first `n` bytes of all of them. -/
def whole {R : Type} (f : R → List UInt8) : Nat → List R → List R
  | _, [] => []
  | n, r :: rs => if (f r).length ≤ n then r :: whole f (n - (f r).length) rs else []

/-- What a cut after `n` bytes leaves of the first encoding that is not whole. -/
def torn {R : Type} (f : R → List UInt8) : Nat → List R → List UInt8
  | _, [] => []
  | n, r :: rs => if (f r).length ≤ n then torn f (n - (f r).length) rs else (f r).take n

section Scan

variable {R E : Type} {look : List UInt8 → Look R E} {out : E} {f : R → List UInt8}

theorem scanWith_stop (fuel : Nat) (bytes : List UInt8) (e : E) (hl : look bytes = .stop e) :
    scanWith look out (fuel + 1) bytes = ⟨[], e, bytes⟩ := by
  simp only [scanWith, hl]

theorem scanWith_record (fuel : Nat) (bytes rest : List UInt8) (r : R)
    (hl : look bytes = .record r rest) :
    (scanWith look out (fuel + 1) bytes).records =
      r :: (scanWith look out fuel rest).records := by
  simp only [scanWith, hl]

theorem scanWith_flatMap (rs : List R) (tail : List UInt8) (fuel : Nat)
    (hl : ∀ r ∈ rs, ∀ rest, look (f r ++ rest) = .record r rest) :
    (scanWith look out (rs.length + fuel) (rs.flatMap f ++ tail)).records =
      rs ++ (scanWith look out fuel tail).records := by
  induction rs with
  | nil => simp
  | cons r rs ih =>
    have hfuel : (r :: rs).length + fuel = rs.length + fuel + 1 := by
      simp
      omega
    rw [hfuel, flatMap_cons, append_assoc, scanWith_record _ _ _ r (hl r (by simp) _),
      ih fun r' hr' => hl r' (by simp [hr'])]
    rfl

/-- Encodings that are never empty are at least as many bytes as they are. -/
theorem length_le_flatMap (hf : ∀ r, f r ≠ []) (rs : List R) :
    rs.length ≤ (rs.flatMap f).length := by
  induction rs with
  | nil => simp
  | cons r rs ih =>
    have hr : 0 < (f r).length := length_pos_iff.mpr (hf r)
    simp only [flatMap_cons, length_append, length_cons]
    omega

namespace Reads

variable {bytes left left' more : List UInt8} {rs rs' : List R} {e e' : E}

theorem scan (h : Reads look bytes rs e left) (fuel : Nat) (hf : rs.length < fuel) :
    scanWith look out fuel bytes = ⟨rs, e, left⟩ := by
  induction h generalizing fuel with
  | stop hl =>
    cases fuel with
    | zero => omega
    | succ fuel => exact scanWith_stop fuel _ _ hl
  | record hl h ih =>
    cases fuel with
    | zero => omega
    | succ fuel => simp [scanWith, hl, ih fuel (by simpa using hf)]

theorem unique (h : Reads look bytes rs e left) (h' : Reads look bytes rs' e' left') :
    rs = rs' ∧ e = e' ∧ left = left' := by
  have hscan := @scan _ _ _ e _ _ _ _ h (rs.length + rs'.length + 1) (by omega)
  rw [h'.scan _ (by omega)] at hscan
  simpa [eq_comm] using hscan

theorem last (h : Reads look bytes rs e left) : look left = .stop e := by
  induction h with
  | stop hl => exact hl
  | record hl h ih => exact ih

theorem flatMap (hl : ∀ r ∈ rs, ∀ rest, look (f r ++ rest) = .record r rest)
    (h : Reads look bytes rs' e left) : Reads look (rs.flatMap f ++ bytes) (rs ++ rs') e left := by
  induction rs with
  | nil => exact h
  | cons r rs ih =>
    rw [flatMap_cons, append_assoc]
    exact .record (hl r (by simp) _) (ih fun r' hr' => hl r' (by simp [hr']))

theorem extend (hs : Stable look out) (he : e ≠ out) (h : Reads look bytes rs e left) :
    Reads look (bytes ++ more) rs e (left ++ more) := by
  induction h with
  | stop hl =>
    refine .stop ?_
    rw [hs _ more (by simp [hl, he]), hl, Look.more]
  | record hl h ih =>
    refine .record ?_ (ih he)
    rw [hs _ more (by simp [hl]), hl, Look.more]

/-- A reading that waits for bytes goes on with what it left. -/
theorem resume (hs : Stable look out) (h : Reads look bytes rs out left)
    (h' : Reads look (left ++ more) rs' e left') :
    Reads look (bytes ++ more) (rs ++ rs') e left' := by
  generalize hout : out = ending at h
  induction h with
  | stop hl => exact h'
  | record hl h ih =>
    refine .record ?_ (ih h' hout)
    rw [hs _ more (by simp [hl]), hl, Look.more]

end Reads

theorem exists_reads
    (hl : ∀ bytes r rest, look bytes = .record r rest → rest.length < bytes.length)
    (bytes : List UInt8) :
    ∃ rs e left, Reads look bytes rs e left ∧ rs.length ≤ bytes.length := by
  induction hn : bytes.length using Nat.strong_induction_on generalizing bytes with
  | _ n ih =>
    cases hlook : look bytes with
    | stop e => exact ⟨[], e, bytes, .stop hlook, by simp⟩
    | record r rest =>
      have hlt := hl bytes r rest hlook
      obtain ⟨rs, e, left, h, hle⟩ := ih rest.length (by omega) rest rfl
      exact ⟨r :: rs, e, left, .record hlook h, by simp; omega⟩

theorem scanWith_flatMap_stop (hf : ∀ r, f r ≠ []) (rs : List R) (tail : List UInt8) (e : E)
    (hl : ∀ r ∈ rs, ∀ rest, look (f r ++ rest) = .record r rest)
    (ht : look tail = .stop e) :
    scanWith look out ((rs.flatMap f ++ tail).length + 1) (rs.flatMap f ++ tail) =
      ⟨rs, e, tail⟩ := by
  have hreads := Reads.flatMap hl (.stop ht)
  have hle := length_le_flatMap hf rs
  rw [append_nil] at hreads
  exact hreads.scan _ (by rw [length_append]; omega)

end Scan

section Cut

variable {R : Type} {f : R → List UInt8}

section

variable (n : Nat) (rs : List R)

theorem take_flatMap_eq : (rs.flatMap f).take n = (whole f n rs).flatMap f ++ torn f n rs := by
  induction rs generalizing n with
  | nil => simp [whole, torn]
  | cons r rs ih =>
    by_cases hn : (f r).length ≤ n
    · have hsplit : n = (f r).length + (n - (f r).length) := by omega
      simp only [whole, torn, if_pos hn, flatMap_cons, append_assoc, ← ih]
      rw [hsplit, take_length_add_append]
      simp
    · simp only [whole, torn, if_neg hn, flatMap_cons, flatMap_nil, nil_append]
      exact take_append_of_le_length (by omega)

theorem whole_eq_take : ∃ k, whole f n rs = rs.take k := by
  induction rs generalizing n with
  | nil => exact ⟨0, rfl⟩
  | cons r rs ih =>
    by_cases hn : (f r).length ≤ n
    · obtain ⟨k, hk⟩ := ih (n - (f r).length)
      exact ⟨k + 1, by simp [whole, if_pos hn, hk]⟩
    · exact ⟨0, by simp [whole, if_neg hn]⟩

theorem whole_of_le (hn : (rs.flatMap f).length ≤ n) : whole f n rs = rs := by
  induction rs generalizing n with
  | nil => rfl
  | cons r rs ih =>
    rw [flatMap_cons, length_append] at hn
    rw [whole, if_pos (by omega), ih _ (by omega)]

theorem torn_of_le (hn : (rs.flatMap f).length ≤ n) : torn f n rs = [] := by
  induction rs generalizing n with
  | nil => rfl
  | cons r rs ih =>
    rw [flatMap_cons, length_append] at hn
    rw [torn, if_pos (by omega), ih _ (by omega)]

theorem torn_eq :
    torn f n rs = [] ∨
      ∃ r ∈ rs, ∃ k, 0 < k ∧ k < (f r).length ∧ torn f n rs = (f r).take k := by
  induction rs generalizing n with
  | nil => exact .inl rfl
  | cons r rs ih =>
    by_cases hn : (f r).length ≤ n
    · simp only [torn, if_pos hn]
      rcases ih (n - (f r).length) with hempty | ⟨r', hr', hk⟩
      · exact .inl hempty
      · exact .inr ⟨r', mem_cons_of_mem r hr', hk⟩
    · simp only [torn, if_neg hn]
      rcases Nat.eq_zero_or_pos n with rfl | hpos
      · exact .inl rfl
      · exact .inr ⟨r, (by simp), n, hpos, by omega, rfl⟩

end

/-- A change of one byte leaves the encodings before it, one that is changed, and those after it. -/
theorem set_flatMap_eq (rs : List R) (i : Nat) (v : UInt8) (hi : i < (rs.flatMap f).length) :
    ∃ r rs' j, rs = whole f i rs ++ r :: rs' ∧ j < (f r).length ∧
      (rs.flatMap f).getD i 0 = (f r).getD j 0 ∧
      (rs.flatMap f).set i v =
        (whole f i rs).flatMap f ++ ((f r).set j v ++ rs'.flatMap f) := by
  induction rs generalizing i with
  | nil => simp at hi
  | cons r rs ih =>
    rw [flatMap_cons] at hi ⊢
    by_cases hr : (f r).length ≤ i
    · rw [length_append] at hi
      obtain ⟨r', rs', j, hrs, hj, hget, hset⟩ := ih (i - (f r).length) (by omega)
      refine ⟨r', rs', j, ?_, hj, ?_, ?_⟩
      · rw [whole, if_pos hr, cons_append, ← hrs]
      · rw [getD_append_right _ _ _ _ hr, hget]
      · rw [set_append_right _ _ hr, hset, whole, if_pos hr, flatMap_cons, append_assoc]
    · refine ⟨r, rs, i, ?_, by omega, ?_, ?_⟩
      · rw [whole, if_neg hr, nil_append]
      · rw [getD_append _ _ _ _ (by omega)]
      · rw [whole, if_neg hr, set_append_left _ _ (by omega)]
        rfl

end Cut

end LoadForge.Framework

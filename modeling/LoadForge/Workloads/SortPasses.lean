import LoadForge.Framework.CountingSort
import LoadForge.Workloads.Sort

namespace LoadForge.Workloads.Sort

open Framework List Function

theorem kKeys_eq : kKeys = 131072 := rfl

theorem kRadix_eq : kRadix = 256 := rfl

theorem digitOf_eq (key number : Nat) :
    digitOf key (number * kDigitBits) = key / 256 ^ number % 256 := by
  have hpow : 2 ^ (number * kDigitBits) = 256 ^ number := by
    rw [Nat.mul_comm, Nat.pow_mul]
    rfl
  rw [digitOf, Nat.shiftRight_eq_div_pow, hpow]
  exact Nat.and_two_pow_sub_one_eq_mod _ 8

theorem digitOf_lt (key shift : Nat) : digitOf key shift < kRadix := by
  have hle : digitOf key shift ≤ kRadix - 1 := Nat.and_le_right
  rw [kRadix_eq] at hle ⊢
  omega

theorem chunks_cover {chunks : UInt32} (h : isChunkCount chunks = true) :
    0 < chunks.toNat ∧ chunks.toNat * (kKeys / chunks.toNat) = kKeys := by
  simp only [isChunkCount, kChunkCounts, any_cons, any_nil, Bool.or_false, Bool.or_eq_true,
    beq_iff_eq] at h
  rcases h with h | h | h | h | h | h | h
  all_goals
    rw [← h]
    decide

/-- One pass as its tasks find it: the words of its source, and how they are split. -/
structure Source (pass : Pass) (chunks : Nat) (key index : Nat → Nat) : Prop where
  cover : chunks * pass.rangeKeys = kKeys
  keys : Holds kKeyBytes pass.srcKeys kKeys key
  indices : ∀ i < kKeys, indexAt pass i = some (index i)
  small : ∀ i < kKeys, index i < 256 ^ kIndexBytes

section Pass

variable {pass : Pass} {chunks : Nat} {key index : Nat → Nat}

def counted (pass : Pass) (key : Nat → Nat) (range digit : Nat) : Nat :=
  Nat.count (fun i => digitOf (key (range * pass.rangeKeys + i)) pass.shift = digit) pass.rangeKeys

def start (pass : Pass) (key : Nat → Nat) (range digit : Nat) : Nat :=
  Nat.count (fun i => digitOf (key i) pass.shift < digit) kKeys +
    Nat.count (fun i => digitOf (key i) pass.shift = digit) (range * pass.rangeKeys)

variable (h : Source pass chunks key index)
include h

theorem range_lt {range k : Nat} (hr : range < chunks) (hk : k < pass.rangeKeys) :
    range * pass.rangeKeys + k < kKeys := by
  have hle := word_bound pass.rangeKeys hr
  rw [h.cover] at hle
  omega

omit h in
theorem counted_lt (pass : Pass) (key : Nat → Nat) (range digit : Nat)
    (hm : pass.rangeKeys ≤ kKeys) : counted pass key range digit < 256 ^ kIndexBytes := by
  have hle : counted pass key range digit ≤ pass.rangeKeys := Nat.count_le ..
  have hkeys : kKeys < 256 ^ kIndexBytes := by decide
  omega

theorem rangeKeys_pos : 0 < pass.rangeKeys := by
  by_contra hzero
  have hcover := h.cover
  rw [Nat.eq_zero_of_not_pos hzero, Nat.mul_zero, kKeys_eq] at hcover
  cases hcover

theorem rangeKeys_le {range : Nat} (hr : range < chunks) : pass.rangeKeys ≤ kKeys := by
  rw [← h.cover]
  exact Nat.le_mul_of_pos_left _ (by omega)

theorem countDigits_spec {range : Nat} (hr : range < chunks) :
    ∃ counts, countDigits pass range = some counts ∧
      ∀ digit, counts digit = counted pass key range digit := by
  apply foldlM_range'_spec (fun k (counts : Nat → Nat) => ∀ digit, counts digit =
    Nat.count (fun i => digitOf (key (range * pass.rangeKeys + i)) pass.shift = digit) k)
  · intro k hk counts hcounts
    have hload := h.keys.load _ (range_lt h hr hk)
    refine ⟨update counts (digitOf (key (range * pass.rangeKeys + k)) pass.shift)
      ((counts (digitOf (key (range * pass.rangeKeys + k)) pass.shift) + 1) % 2 ^ 32), ?_, ?_⟩
    · rw [loadLe64, hload]
      rfl
    · intro digit
      rw [Nat.count_succ]
      have hle := rangeKeys_le h hr
      by_cases hdigit : digitOf (key (range * pass.rangeKeys + k)) pass.shift = digit
      · have hcount : Nat.count (fun i =>
            digitOf (key (range * pass.rangeKeys + i)) pass.shift = digit) k ≤ k := Nat.count_le ..
        rw [if_pos hdigit, hdigit, update_self, hcounts]
        have hkeys := kKeys_eq
        omega
      · rw [if_neg hdigit, update_of_ne (Ne.symm hdigit), hcounts, Nat.add_zero]
  · intro digit
    rw [Nat.count_zero]

omit h in
theorem counter_lt {range digit : Nat} (hr : range < chunks) (hd : digit < kRadix) :
    range * kRadix + digit < chunks * kRadix := by
  have hle := word_bound kRadix hr
  omega

omit h in
theorem counter_div (range : Nat) {digit : Nat} (hd : digit < kRadix) :
    (range * kRadix + digit) / kRadix = range ∧ (range * kRadix + digit) % kRadix = digit := by
  rw [kRadix_eq] at hd ⊢
  omega

variable {counters : List UInt8}

theorem countRange_spec {c : Nat → Nat}
    (hc : Holds kCounterBytes counters (chunks * kRadix) c) {range : Nat} (hr : range < chunks) :
    ∃ counters', countRange pass counters range = some counters' ∧
      Holds kCounterBytes counters' (chunks * kRadix) fun i =>
        if i / kRadix = range then counted pass key range (i % kRadix) else c i := by
  obtain ⟨counts, hcounts, hcount⟩ := countDigits_spec h hr
  rw [countRange, hcounts]
  apply foldlM_range_result (fun k counters => Holds kCounterBytes counters (chunks * kRadix) fun i =>
    if i / kRadix = range ∧ i % kRadix < k then counted pass key range (i % kRadix) else c i)
  · intro digit hdigit counters hinv
    have hsmall : counts digit < 256 ^ kCounterBytes := by
      rw [hcount]
      exact counted_lt pass key range digit (rangeKeys_le h hr)
    obtain ⟨counters', hstore, hholds⟩ := hinv.store (counter_lt hr hdigit) hsmall
    refine ⟨counters', hstore, hholds.congr ?_⟩
    intro i _
    obtain ⟨hdiv, hmod⟩ := counter_div range hdigit
    by_cases hi : i = range * kRadix + digit
    · rw [hi, update_self, hdiv, hmod, if_pos ⟨rfl, Nat.lt_succ_self _⟩, hcount]
    · rw [update_of_ne hi]
      have hiff : (i / kRadix = range ∧ i % kRadix < digit) ↔
          (i / kRadix = range ∧ i % kRadix < digit + 1) := by
        rw [kRadix_eq] at hi ⊢
        omega
      simp only [hiff]
  · apply hc.congr
    intro i _
    rw [if_neg (by omega)]
  · intro counters' hholds
    apply hholds.congr
    intro i _
    have hmod : i % kRadix < kRadix := Nat.mod_lt _ (by decide)
    simp [hmod]

theorem countRanges_spec (hc : counters.length = countersBytes chunks) {order : List Nat}
    (ho : IsOrder chunks order) :
    ∃ counters', order.foldlM (countRange pass) counters = some counters' ∧
      Holds kCounterBytes counters' (chunks * kRadix) fun i =>
        counted pass key (i / kRadix) (i % kRadix) := by
  have hloop := foldlM_order_spec (f := countRange pass) (fun done counters => ∃ c,
      Holds kCounterBytes counters (chunks * kRadix) c ∧
        ∀ i < chunks * kRadix, done (i / kRadix) → c i = counted pass key (i / kRadix) (i % kRadix))
    ho (s := counters) (fun done range counters hr _ hinv => by
      obtain ⟨c, hholds, hdone⟩ := hinv
      obtain ⟨counters', hcount, hholds'⟩ := countRange_spec h hholds hr
      refine ⟨counters', hcount, _, hholds', ?_⟩
      intro i hi hor
      by_cases hrange : i / kRadix = range
      · rw [if_pos hrange, hrange]
      · rw [if_neg hrange]
        exact hdone i hi (hor.resolve_right hrange))
    ⟨_, holds_of_length kCounterBytes hc, fun _ _ hfalse => hfalse.elim⟩
  obtain ⟨counters', hcount, c, hholds, hall⟩ := hloop
  refine ⟨counters', hcount, hholds.congr ?_⟩
  intro i hi
  exact hall i hi (Nat.div_lt_of_lt_mul (by rw [Nat.mul_comm]; exact hi))

omit h in
theorem start_le (pass : Pass) (key : Nat → Nat) (range digit : Nat)
    (hr : range * pass.rangeKeys ≤ kKeys) : start pass key range digit ≤ 2 * kKeys := by
  have hone : Nat.count (fun i => digitOf (key i) pass.shift < digit) kKeys ≤ kKeys :=
    Nat.count_le ..
  have htwo : Nat.count (fun i => digitOf (key i) pass.shift = digit) (range * pass.rangeKeys) ≤
      range * pass.rangeKeys := Nat.count_le ..
  rw [start]
  omega

omit h in
theorem start_succ (pass : Pass) (key : Nat → Nat) (range digit : Nat) :
    start pass key (range + 1) digit = start pass key range digit + counted pass key range digit := by
  rw [start, start, counted, Nat.succ_mul, Nat.count_add, Nat.add_assoc]

theorem start_last (digit : Nat) : start pass key chunks digit = start pass key 0 (digit + 1) := by
  rw [start, start, h.cover, Nat.zero_mul, Nat.count_zero, Nat.add_zero,
    count_lt_succ fun i => digitOf (key i) pass.shift]

/-- The counters half way: the places of the digits and ranges before, the counts of the others. -/
def placed (pass : Pass) (key : Nat → Nat) (digit range i : Nat) : Nat :=
  if i % kRadix < digit ∨ i % kRadix = digit ∧ i / kRadix < range then
    start pass key (i / kRadix) (i % kRadix)
  else counted pass key (i / kRadix) (i % kRadix)

theorem placeRange_spec {digit range : Nat}
    (hd : digit < kRadix) (hr : range < chunks)
    (hc : Holds kCounterBytes counters (chunks * kRadix) (placed pass key digit range)) :
    ∃ counters', placeRange digit (start pass key range digit, counters) range =
        some (start pass key (range + 1) digit, counters') ∧
      Holds kCounterBytes counters' (chunks * kRadix) (placed pass key digit (range + 1)) := by
  obtain ⟨hdiv, hmod⟩ := counter_div range hd
  have hload := hc.load _ (counter_lt hr hd)
  have hcount : placed pass key digit range (range * kRadix + digit) =
      counted pass key range digit := by
    rw [placed, hdiv, hmod, if_neg (by omega)]
  have hbound : ∀ r ≤ chunks, start pass key r digit ≤ 2 * kKeys := by
    intro r hr
    apply start_le
    rw [← h.cover]
    exact Nat.mul_le_mul_right _ hr
  have hsmall : start pass key range digit < 256 ^ kCounterBytes :=
    Nat.lt_of_le_of_lt (hbound range (Nat.le_of_lt hr)) (by decide)
  have hnext : (start pass key range digit + counted pass key range digit) % 2 ^ 32 =
      start pass key (range + 1) digit := by
    rw [← start_succ]
    exact Nat.mod_eq_of_lt (Nat.lt_of_le_of_lt (hbound (range + 1) hr) (by decide))
  obtain ⟨counters', hstore, hholds⟩ := hc.store (counter_lt hr hd) hsmall
  refine ⟨counters', ?_, hholds.congr ?_⟩
  · have hload' : loadLe32 counters ((range * kRadix + digit) * kCounterBytes) =
        some (counted pass key range digit) := by
      rw [← hcount]
      exact hload
    have hstore' : storeLe32 counters ((range * kRadix + digit) * kCounterBytes)
        (start pass key range digit) = some counters' := hstore
    simp only [placeRange, hload', hstore', Option.bind_eq_bind, Option.bind_some, Option.pure_def,
      hnext]
  · intro i _
    by_cases hi : i = range * kRadix + digit
    · rw [hi, update_self, placed, hdiv, hmod, if_pos (by omega)]
    · rw [update_of_ne hi, placed, placed]
      have hiff : (i % kRadix < digit ∨ i % kRadix = digit ∧ i / kRadix < range) ↔
          (i % kRadix < digit ∨ i % kRadix = digit ∧ i / kRadix < range + 1) := by
        rw [kRadix_eq] at hi hd ⊢
        omega
      simp only [hiff]

theorem placeRanges_spec (hc : Holds kCounterBytes counters (chunks * kRadix) fun i =>
      counted pass key (i / kRadix) (i % kRadix)) :
    ∃ counters', placeRanges chunks counters = some counters' ∧
      Holds kCounterBytes counters' (chunks * kRadix) fun i =>
        start pass key (i / kRadix) (i % kRadix) := by
  rw [placeRanges, Option.map_eq_bind]
  apply result_bind
  apply foldlM_range_result (fun digit (state : Nat × List UInt8) =>
    state.1 = start pass key 0 digit ∧
      Holds kCounterBytes state.2 (chunks * kRadix) (placed pass key digit 0))
  · intro digit hd state hinv
    obtain ⟨hnext, hholds⟩ := hinv
    apply foldlM_range_result (fun range (state : Nat × List UInt8) =>
      state.1 = start pass key range digit ∧
        Holds kCounterBytes state.2 (chunks * kRadix) (placed pass key digit range))
    · intro range hr state hinv
      obtain ⟨counters', hplace, hholds⟩ := placeRange_spec h hd hr hinv.2
      rw [← hinv.1] at hplace
      exact ⟨_, hplace, rfl, hholds⟩
    · exact ⟨hnext, hholds⟩
    · rintro state' ⟨hnext', hholds'⟩
      refine ⟨by rw [hnext', start_last h], hholds'.congr ?_⟩
      intro i hi
      have hrange : i / kRadix < chunks := Nat.div_lt_of_lt_mul (by rw [Nat.mul_comm]; exact hi)
      rw [placed, placed]
      have hiff : (i % kRadix < digit ∨ i % kRadix = digit ∧ i / kRadix < chunks) ↔
          (i % kRadix < digit + 1 ∨ i % kRadix = digit + 1 ∧ i / kRadix < 0) := by
        rw [kRadix_eq] at hrange ⊢
        omega
      simp only [hiff]
  · refine ⟨?_, hc.congr ?_⟩
    · rw [start, Nat.zero_mul, Nat.count_zero, Nat.add_zero, Nat.count_iff_forall_not.mpr]
      intro i _
      exact Nat.not_lt_zero _
    · intro i _
      rw [placed, if_neg (by rw [kRadix_eq]; omega)]
  · rintro state ⟨_, hholds⟩
    refine ⟨_, rfl, hholds.congr ?_⟩
    intro i _
    rw [placed, if_pos (Or.inl (Nat.mod_lt _ (by decide)))]

omit h in
theorem loadPlaces_spec {c : Nat → Nat} (hc : Holds kCounterBytes counters (chunks * kRadix) c)
    {range : Nat} (hr : range < chunks) :
    ∃ places, loadPlaces counters range = some places ∧
      ∀ digit < kRadix, places digit = c (range * kRadix + digit) := by
  apply foldlM_range_spec (fun k (places : Nat → Nat) =>
    ∀ digit < k, places digit = c (range * kRadix + digit))
  · intro k hk places hinv
    have hload : loadLe32 counters ((range * kRadix + k) * kCounterBytes) =
        some (c (range * kRadix + k)) := hc.load _ (counter_lt hr hk)
    refine ⟨update places k (c (range * kRadix + k)), by rw [hload]; rfl, ?_⟩
    intro digit hdigit
    by_cases hlast : digit = k
    · rw [hlast, update_self]
    · rw [update_of_ne hlast]
      exact hinv digit (by omega)
  · intro digit hdigit
    exact absurd hdigit (Nat.not_lt_zero _)

/-- Where a pass moves the key at a position. -/
abbrev target (pass : Pass) (key : Nat → Nat) (position : Nat) : Nat :=
  place (fun j => digitOf (key j) pass.shift) kKeys position

/-- What of the source has been moved: the keys and indices at some positions. -/
structure MovedAt (pass : Pass) (key index : Nat → Nat) (moved : Moved) (at' : Nat → Prop)
    (key' index' : Nat → Nat) : Prop where
  keys : Holds kKeyBytes moved.keys kKeys key'
  indices : Holds kIndexBytes moved.indices kKeys index'
  here : ∀ i < kKeys, at' i →
    key' (target pass key i) = key i ∧ index' (target pass key i) = index i

theorem moveKey_spec {moved : Moved} {at' : Nat → Prop}
    {key' index' : Nat → Nat} (hm : MovedAt pass key index moved at' key' index')
    {places : Nat → Nat} {position : Nat} (hp : position < kKeys)
    (hplace : places (digitOf (key position) pass.shift) = target pass key position) :
    ∃ moved' key'' index'', moveKey pass (places, moved) position =
        some (update places (digitOf (key position) pass.shift)
          (places (digitOf (key position) pass.shift) + 1), moved') ∧
      MovedAt pass key index moved' (fun i => at' i ∨ i = position) key'' index'' := by
  have hlt : target pass key position < kKeys := place_lt _ hp
  obtain ⟨keys, hkeys, hholdsKeys⟩ := hm.keys.store hlt (h.keys.lt position hp)
  obtain ⟨indices, hindices, hholdsIndices⟩ := hm.indices.store hlt (h.small position hp)
  refine ⟨⟨keys, indices⟩, _, _, ?_, hholdsKeys, hholdsIndices, ?_⟩
  · have hload : loadLe64 pass.srcKeys (position * kKeyBytes) = some (key position) :=
      h.keys.load position hp
    have hsmall : places (digitOf (key position) pass.shift) + 1 < 2 ^ 32 := by
      rw [hplace]
      have hkeys := kKeys_eq
      omega
    have hkeys' : storeLe64 moved.keys (target pass key position * kKeyBytes) (key position) =
        some keys := hkeys
    have hindices' : storeLe32 moved.indices (target pass key position * kIndexBytes)
        (index position) = some indices := hindices
    simp only [moveKey, hload, h.indices position hp, Option.bind_eq_bind, Option.bind_some, hplace,
      hkeys', hindices', Option.pure_def]
    rw [hplace] at hsmall
    rw [Nat.mod_eq_of_lt hsmall]
  · intro i hi hor
    by_cases hsame : i = position
    · rw [hsame, update_self, update_self]
      exact ⟨rfl, rfl⟩
    · have hne : target pass key i ≠ target pass key position :=
        fun heq => hsame (place_inj _ hi hp heq)
      rw [update_of_ne hne, update_of_ne hne]
      exact hm.here i hi (hor.resolve_right hsame)

section

variable (hc : Holds kCounterBytes counters (chunks * kRadix) fun i =>
    start pass key (i / kRadix) (i % kRadix))
  {moved : Moved}
include hc

theorem moveRange_spec {at' : Nat → Prop} {key' index' : Nat → Nat}
    (hm : MovedAt pass key index moved at' key' index') {range : Nat} (hr : range < chunks) :
    ∃ moved' key'' index'', moveRange pass counters moved range = some moved' ∧
      MovedAt pass key index moved' (fun i => at' i ∨ i / pass.rangeKeys = range) key'' index'' := by
  obtain ⟨places, hplaces, hstart⟩ := loadPlaces_spec hc hr
  have hloop := @foldlM_range'_spec _ (moveKey pass) (fun k (state : (Nat → Nat) × Moved) =>
    (∀ digit < kRadix, state.1 digit = start pass key range digit + Nat.count
      (fun i => digitOf (key (range * pass.rangeKeys + i)) pass.shift = digit) k) ∧
    ∃ key'' index'', MovedAt pass key index state.2 (fun i => at' i ∨
      range * pass.rangeKeys ≤ i ∧ i < range * pass.rangeKeys + k) key'' index'')
    (range * pass.rangeKeys) pass.rangeKeys (places, moved) ?_ ?_
  · obtain ⟨state, hstate, _, key'', index'', hmoved⟩ := hloop
    refine ⟨state.2, key'', index'', ?_, hmoved.keys, hmoved.indices, ?_⟩
    · simp [moveRange, hplaces, hstate]
    · intro i hi hor
      apply hmoved.here i hi
      rcases hor with hat | rfl
      · exact Or.inl hat
      · exact Or.inr ⟨Nat.div_mul_le_self .., Nat.lt_div_mul_add (rangeKeys_pos h)⟩
  · intro k hk state hinv
    obtain ⟨hnext, key'', index'', hmoved⟩ := hinv
    have hplace : state.1 (digitOf (key (range * pass.rangeKeys + k)) pass.shift) =
        target pass key (range * pass.rangeKeys + k) := by
      rw [hnext _ (digitOf_lt _ _), start, target, place, Nat.count_add, Nat.add_assoc]
    obtain ⟨moved', keyNext, indexNext, hstep, hmoved'⟩ :=
      moveKey_spec h hmoved (range_lt h hr hk) hplace
    refine ⟨_, hstep, ?_, keyNext, indexNext, hmoved'.keys, hmoved'.indices, ?_⟩
    · intro digit hdigit
      rw [Nat.count_succ]
      by_cases hsame : digitOf (key (range * pass.rangeKeys + k)) pass.shift = digit
      · rw [if_pos hsame]
        simp only [hsame, update_self]
        rw [hnext digit hdigit, Nat.add_assoc]
      · rw [if_neg hsame]
        simp only [update_of_ne (Ne.symm hsame)]
        rw [hnext digit hdigit, Nat.add_zero]
    · intro i hi hor
      apply hmoved'.here i hi
      rcases hor with hat | ⟨hfirst, hlast⟩
      · exact Or.inl (Or.inl hat)
      · by_cases hlatest : i = range * pass.rangeKeys + k
        · exact Or.inr hlatest
        · exact Or.inl (Or.inr ⟨hfirst, by omega⟩)
  · refine ⟨?_, key', index', hm.keys, hm.indices, ?_⟩
    · intro digit hdigit
      obtain ⟨hdiv, hmod⟩ := counter_div range hdigit
      rw [Nat.count_zero, Nat.add_zero]
      show places digit = start pass key range digit
      rw [hstart digit hdigit, hdiv, hmod]
    · intro i hi hor
      exact hm.here i hi (hor.resolve_right (by omega))

/-- Every key at its place, in whatever order the tasks run. -/
theorem moveRanges_spec
    (hk : moved.keys.length = kKeys * kKeyBytes) (hi : moved.indices.length = kKeys * kIndexBytes)
    {order : List Nat} (ho : IsOrder chunks order) :
    ∃ moved' key' index', order.foldlM (moveRange pass counters) moved = some moved' ∧
      MovedAt pass key index moved' (fun _ => True) key' index' := by
  have hloop := foldlM_order_spec (f := moveRange pass counters) (fun done moved => ∃ key' index',
      MovedAt pass key index moved (fun i => done (i / pass.rangeKeys)) key' index')
    ho (s := moved) (fun done range moved hr _ hinv => by
      obtain ⟨key', index', hmoved⟩ := hinv
      obtain ⟨moved', key'', index'', hmove, hmoved'⟩ := moveRange_spec h hc hmoved hr
      exact ⟨moved', hmove, key'', index'', hmoved'⟩)
    ⟨_, _, holds_of_length kKeyBytes hk, holds_of_length kIndexBytes hi, fun _ _ hfalse => hfalse.elim⟩
  obtain ⟨moved', hmove, key', index', hmoved⟩ := hloop
  refine ⟨moved', key', index', hmove, hmoved.keys, hmoved.indices, ?_⟩
  intro i hi _
  apply hmoved.here i hi
  rw [← h.cover] at hi
  exact Nat.div_lt_of_lt_mul (by rw [Nat.mul_comm]; exact hi)

end

end Pass

/-- The buffer that holds the keys after so many passes. -/
def current (b : Buffers) (number : Nat) : Moved := if number % 2 = 1 then b.side else b.out

/-- The buffers after so many passes over the keys of an input. -/
structure Passed (chunks : Nat) (source : Nat → Nat) (number : Nat) (b : Buffers) : Prop where
  outKeys : b.out.keys.length = kKeys * kKeyBytes
  outIndices : b.out.indices.length = kKeys * kIndexBytes
  sideKeys : b.side.keys.length = kKeys * kKeyBytes
  sideIndices : b.side.indices.length = kKeys * kIndexBytes
  counters : b.counters.length = countersBytes chunks
  sorted : 0 < number → ∃ key index, Holds kKeyBytes (current b number).keys kKeys key ∧
    Holds kIndexBytes (current b number).indices kKeys index ∧
    SortedModulo kKeys source (256 ^ number) key index

def passOf (chunks : Nat) (input : List UInt8) (b : Buffers) (number : Nat) : Pass where
  srcKeys := if number = 0 then input else (current b number).keys
  srcIndices := if number = 0 then [] else (current b number).indices
  rangeKeys := kKeys / chunks
  shift := number * kDigitBits

section

variable {chunks : Nat} (hc : chunks * (kKeys / chunks) = kKeys) {input : List UInt8}
  {source : Nat → Nat} (hi : Holds kKeyBytes input kKeys source)
include hc hi

theorem passOf_source {b : Buffers} {number : Nat}
    (h : Passed chunks source number b) :
    ∃ key index, Source (passOf chunks input b number) chunks key index ∧
      SortedModulo kKeys source (256 ^ number) key index := by
  by_cases hzero : number = 0
  · refine ⟨source, id, ⟨hc, ?_, ?_, ?_⟩, ?_⟩
    · rw [passOf, if_pos hzero]
      exact hi
    · intro i hi
      simp only [indexAt, passOf, if_pos hzero, isEmpty_nil, if_true]
      rw [Nat.mod_eq_of_lt (Nat.lt_trans hi (by decide))]
      rfl
    · intro i hi
      exact Nat.lt_trans hi (by decide)
    · rw [hzero, Nat.pow_zero]
      exact sortedModulo_one kKeys source
  · obtain ⟨key, index, hkeys, hindices, hsorted⟩ := h.sorted (Nat.pos_of_ne_zero hzero)
    refine ⟨key, index, ⟨hc, ?_, ?_, hindices.lt⟩, hsorted⟩
    · rw [passOf, if_neg hzero]
      exact hkeys
    · intro i hi
      have hempty : (current b number).indices.isEmpty = false := by
        rw [isEmpty_eq_false_iff, ← length_pos_iff, hindices.size]
        decide
      simp only [indexAt, passOf, if_neg hzero, hempty, Bool.false_eq_true, if_false]
      exact hindices.load i hi

theorem runPass_spec {orders : Orders}
    (ho : ∀ run, IsOrder chunks (orders run)) {b : Buffers} {number : Nat}
    (h : Passed chunks source number b) :
    ∃ b', runPass chunks orders input b number = some b' ∧ Passed chunks source (number + 1) b' := by
  obtain ⟨key, index, hsource, hsorted⟩ := passOf_source hc hi h
  obtain ⟨counters, hcount, hcounted⟩ := countRanges_spec hsource h.counters (ho (2 * number))
  obtain ⟨counters', hplace, hplaced⟩ := placeRanges_spec hsource hcounted
  have hto : (if number % 2 = 1 then b.out else b.side).keys.length = kKeys * kKeyBytes ∧
      (if number % 2 = 1 then b.out else b.side).indices.length = kKeys * kIndexBytes := by
    split_ifs
    · exact ⟨h.outKeys, h.outIndices⟩
    · exact ⟨h.sideKeys, h.sideIndices⟩
  obtain ⟨moved, key', index', hmove, hmoved⟩ :=
    moveRanges_spec hsource hplaced hto.1 hto.2 (ho (2 * number + 1))
  have hpass : runPass chunks orders input b number =
      some (if number % 2 = 1 then ⟨moved, b.side, counters'⟩ else ⟨b.out, moved, counters'⟩) := by
    have hsetup : (⟨if number = 0 then input else if number % 2 = 1 then b.side.keys else b.out.keys,
        if number = 0 then [] else if number % 2 = 1 then b.side.indices else b.out.indices,
        kKeys / chunks, number * kDigitBits⟩ : Pass) = passOf chunks input b number := by
      rw [passOf, current]
      split_ifs <;> rfl
    simp [runPass, hsetup, hcount, hplace, hmove]
  have hnext : SortedModulo kKeys source (256 ^ (number + 1)) key' index' := by
    rw [Nat.pow_succ]
    apply hsorted.pass
    intro i hi
    have hhere := hmoved.here i hi trivial
    have hdigit : (fun j => digitOf (key j) (passOf chunks input b number).shift) =
        fun j => key j / 256 ^ number % 256 := by
      funext j
      exact digitOf_eq (key j) number
    rw [target, hdigit] at hhere
    exact hhere
  have hcounters : counters'.length = countersBytes chunks := hplaced.size
  refine ⟨_, hpass, ?_⟩
  by_cases hodd : number % 2 = 1
  · rw [if_pos hodd]
    refine ⟨hmoved.keys.size, hmoved.indices.size, h.sideKeys, h.sideIndices, hcounters, ?_⟩
    intro _
    rw [current, if_neg (by omega)]
    exact ⟨key', index', hmoved.keys, hmoved.indices, hnext⟩
  · rw [if_neg hodd]
    refine ⟨h.outKeys, h.outIndices, hmoved.keys.size, hmoved.indices.size, hcounters, ?_⟩
    intro _
    rw [current, if_pos (by omega)]
    exact ⟨key', index', hmoved.keys, hmoved.indices, hnext⟩

end

theorem isStableSort_of_sorted {input : List UInt8} {source : Nat → Nat}
    (hi : Holds kKeyBytes input kKeys source) {keys indices : List UInt8} {key index : Nat → Nat}
    (hk : Holds kKeyBytes keys kKeys key) (hx : Holds kIndexBytes indices kKeys index)
    (h : SortedModulo kKeys source (256 ^ kKeyBytes) key index) :
    IsStableSort input (keys ++ indices) := by
  have hkey : ∀ j < kKeys, loadLe64 (keys ++ indices) (keyOffset j) = some (key j) := by
    intro j hj
    rw [loadLe64, keyOffset, loadWord_append_left, hk.load j hj]
    rw [hk.size]
    exact word_bound kKeyBytes hj
  have hindex : ∀ j < kKeys, loadLe32 (keys ++ indices) (indexOffset j) = some (index j) := by
    intro j hj
    have hoffset : kIndexRegionOffset = keys.length := hk.size.symm
    rw [loadLe32, indexOffset, hoffset, loadWord_append_right, hx.load j hj]
  refine ⟨?_, ?_, ?_, ?_⟩
  · rw [length_append, hk.size, hx.size]
    rfl
  · intro j hj
    obtain ⟨hlt, hnamed⟩ := h.named j hj
    refine ⟨key j, index j, hkey j hj, hindex j hj, hlt, ?_⟩
    rw [hnamed]
    exact hi.load (index j) hlt
  · intro one hone
    obtain ⟨j, hj, hsame⟩ := h.exists_index hone
    exact ⟨j, hj, by rw [hindex j hj, hsame]⟩
  · intro i j hij hj keyI indexI keyJ indexJ hkeyI hindexI hkeyJ hindexJ
    have hiLt := Nat.lt_trans hij hj
    have hordered := h.ordered i j hij hj
    rw [Nat.mod_eq_of_lt (hk.lt i hiLt), Nat.mod_eq_of_lt (hk.lt j hj)] at hordered
    rw [hkey i hiLt] at hkeyI
    rw [hkey j hj] at hkeyJ
    rw [hindex i hiLt] at hindexI
    rw [hindex j hj] at hindexJ
    cases hkeyI
    cases hkeyJ
    cases hindexI
    cases hindexJ
    exact hordered

/-- Whatever the output and the scratch held, and in whatever order the tasks ran. -/
theorem compute_spec {chunks : UInt32} (hc : isChunkCount chunks = true) {orders : Orders}
    (ho : ∀ run, IsOrder chunks.toNat (orders run)) {input output scratch : List UInt8}
    (hi : input.length = kInputBytes) (hout : output.length = kOutputBytes)
    (hs : kSideBytes + countersBytes chunks.toNat ≤ scratch.length) :
    ∃ sorted, compute chunks.toNat orders input output scratch = some sorted ∧
      IsStableSort input sorted := by
  have hsource := holds_of_length kKeyBytes hi
  have hbegin : Passed chunks.toNat (fun i => leNat ((input.drop (i * kKeyBytes)).take kKeyBytes)) 0
      (buffersOf chunks.toNat output scratch) := by
    refine ⟨?_, ?_, ?_, ?_, ?_, fun hpos => absurd hpos (Nat.lt_irrefl _)⟩
    · rw [buffersOf, length_take, hout]
      rfl
    · rw [buffersOf, length_drop, hout]
      rfl
    · rw [buffersOf, length_take, Nat.min_eq_left]
      · rfl
      · rw [kSideBytes] at hs
        omega
    · rw [buffersOf, length_take, length_drop, Nat.min_eq_left]
      · rfl
      · rw [kSideBytes] at hs
        omega
    · rw [buffersOf, length_take, length_drop, Nat.min_eq_left]
      omega
  obtain ⟨b, hpasses, hpassed⟩ := foldlM_range_spec (f := runPass chunks.toNat orders input)
    (fun number b => Passed chunks.toNat _ number b) (n := kPasses)
    (fun number _ b hb => runPass_spec (chunks_cover hc).2 hsource ho hb) hbegin
  obtain ⟨key, index, hkeys, hindices, hsorted⟩ := hpassed.sorted (by decide)
  refine ⟨b.out.keys ++ b.out.indices, ?_, isStableSort_of_sorted hsource hkeys hindices hsorted⟩
  rw [compute, hpasses]
  rfl

end LoadForge.Workloads.Sort

import LoadForge.Framework.Cells
import LoadForge.Framework.SingleCycle
import LoadForge.Primitives.Philox

namespace LoadForge.Primitives.Cache

open Framework Rng Equiv Function

def kMinNodes : Nat := 2
def kMaxNodes : Nat := 0xFFFFFFFF
def kBytesPerWord : Nat := 4

structure Config where
  seed : UInt64
  nodes : Nat
  lineBytes : Nat
  steps : Nat

def Config.stride (config : Config) : Nat := config.lineBytes / kBytesPerWord

def u64Of (block : Block) : UInt64 := block.word0.toUInt64 ||| (block.word1.toUInt64 <<< 32)

def other (seed unit : UInt64) (node : Nat) : Nat :=
  (u64Of (blockAt seed unit (UInt64.ofNat node))).toNat % node

def swapCells (cells : List UInt32) (i j : Nat) : Option (List UInt32) := do
  let first ← cells[i]?
  let second ← cells[j]?
  storeCell (← storeCell cells i second) j first

def placeNodes (nodes stride : Nat) (scratch : List UInt32) : Option (List UInt32) :=
  (List.range nodes).foldlM
    (fun scratch node => storeCell scratch (node * stride) (UInt32.ofNat node)) scratch

/-- From the last node down to the second, each is swapped with one before it. -/
def shuffleNodes (nodes stride : Nat) (before : Nat → Nat) (scratch : List UInt32) :
    Option (List UInt32) :=
  (List.range (nodes - 1)).foldlM (fun scratch done =>
    let node := nodes - 1 - done
    swapCells scratch (node * stride) (before node * stride)) scratch

/-- The successors of the nodes, one at the start of each line. -/
def buildTable (config : Config) (unit : UInt64) (scratch : List UInt32) : Option (List UInt32) := do
  let scratch ← placeNodes config.nodes config.stride scratch
  shuffleNodes config.nodes config.stride (other config.seed unit) scratch

def chase (table : List UInt32) (stride steps : Nat) : Option Nat :=
  (List.range steps).foldlM (fun position _ => (table[position * stride]?).map UInt32.toNat) 0

def unitDigest (config : Config) (unit : UInt64) (scratch : List UInt32) : Option Nat := do
  let table ← buildTable config unit scratch
  chase table config.stride config.steps

/-- Room for every node, and the first of them with their successors. -/
structure Table (stride nodes filled : Nat) (next : Nat → Nat) (cells : List UInt32) : Prop where
  room : nodes * stride ≤ cells.length
  get : ∀ i < filled, cells[i * stride]? = some (UInt32.ofNat (next i))

section Chase

variable {stride nodes filled : Nat} {cells : List UInt32}

theorem Table.store {next : Nat → Nat} (h : Table stride nodes filled next cells)
    (hs : 0 < stride) {i : Nat} (hi : i < nodes) (value : Nat) {m : Nat}
    (hm : ∀ j < m, j < filled ∨ j = i) :
    ∃ cells', storeCell cells (i * stride) (UInt32.ofNat value) = some cells' ∧
      Table stride nodes m (update next i value) cells' := by
  have hin : i * stride < cells.length :=
    Nat.lt_of_lt_of_le (Nat.mul_lt_mul_of_pos_right hi hs) h.room
  refine ⟨_, if_pos hin, by rw [List.length_set]; exact h.room, ?_⟩
  intro j hj
  by_cases hji : j = i
  · rw [hji, update_self, List.getElem?_set_self hin]
  · have hother : i * stride ≠ j * stride := fun heq => hji (Nat.eq_of_mul_eq_mul_right hs heq).symm
    rw [update_of_ne hji, List.getElem?_set_ne hother]
    exact h.get j ((hm j hj).resolve_right hji)

variable {next : Perm Nat}

theorem Table.swap (h : Table stride nodes nodes next cells) (hs : 0 < stride) {i j : Nat}
    (hi : i < nodes) (hj : j < nodes) (hne : i ≠ j) :
    ∃ cells', swapCells cells (i * stride) (j * stride) = some cells' ∧
      Table stride nodes nodes (next * Equiv.swap i j : Perm Nat) cells' := by
  obtain ⟨once, hfirst, honce⟩ := h.store hs hi (next j) fun k hk => Or.inl hk
  obtain ⟨twice, hsecond, htwice⟩ := honce.store hs hj (next i) fun k hk => Or.inl hk
  refine ⟨twice, by simp [swapCells, h.get i hi, h.get j hj, hfirst, hsecond], htwice.room, ?_⟩
  intro k hk
  rw [htwice.get k hk, Perm.mul_apply, Equiv.swap_apply_def]
  split_ifs with hki hkj
  · rw [hki, update_of_ne hne, update_self]
  · rw [hkj, update_self]
  · rw [update_of_ne hkj, update_of_ne hki]

theorem placeNodes_table (hs : 0 < stride) (hroom : nodes * stride ≤ cells.length) :
    ∃ cells', placeNodes nodes stride cells = some cells' ∧
      Table stride nodes nodes (1 : Perm Nat) cells' := by
  apply foldlM_range_spec fun k cells' => Table stride nodes k (1 : Perm Nat) cells'
  · intro k hk cells' h
    obtain ⟨cells'', hstore, hnext⟩ := h.store hs hk k (m := k + 1) fun j hj => by omega
    have hsame : update (1 : Perm Nat) k k = (1 : Perm Nat) := update_eq_self k _
    exact ⟨cells'', hstore, hsame ▸ hnext⟩
  · exact ⟨hroom, fun i hi => absurd hi (Nat.not_lt_zero i)⟩

theorem shuffleNodes_table (hs : 0 < stride) {before : Nat → Nat}
    (hbefore : ∀ m, 0 < m → before m < m) (h : Table stride nodes nodes (1 : Perm Nat) cells) :
    ∃ cells', shuffleNodes nodes stride before cells = some cells' ∧
      Table stride nodes nodes (cycleUpTo before (nodes - 1)) cells' := by
  apply foldlM_range_result fun k cells' => ∃ next : Perm Nat,
    Table stride nodes nodes next cells' ∧
      next * cycleUpTo before (nodes - 1 - k) = cycleUpTo before (nodes - 1)
  · intro k hk cells' hinv
    obtain ⟨next, htable, hnext⟩ := hinv
    have hnode : nodes - 1 - k = nodes - 1 - (k + 1) + 1 := by omega
    have hless := hbefore (nodes - 1 - k) (by omega)
    obtain ⟨cells'', hswap, htable'⟩ := htable.swap hs (i := nodes - 1 - k)
      (j := before (nodes - 1 - k)) (by omega) (by omega) (by omega)
    refine ⟨cells'', hswap, _, htable', ?_⟩
    rw [← hnext, hnode, cycleUpTo, mul_assoc]
  · exact ⟨1, h, one_mul _⟩
  · intro cells' hinv
    obtain ⟨next, htable, hnext⟩ := hinv
    rw [Nat.sub_self, cycleUpTo, mul_one] at hnext
    exact hnext ▸ htable

theorem chase_eq (h : Table stride nodes nodes next cells)
    (hcycle : next.IsCycleOn (Finset.range nodes)) (hpos : 0 < nodes) (hmax : nodes ≤ kMaxNodes)
    (steps : Nat) : chase cells stride steps = some ((next ^ steps) 0) := by
  have hloop : ∃ position, chase cells stride steps = some position ∧
      position = (next ^ steps) 0 := by
    apply foldlM_range_spec fun k position => position = (next ^ k) 0
    · intro k hk position hposition
      have hin : position < nodes := by
        rw [hposition]
        exact Finset.mem_range.mp ((hcycle.1.perm_pow k).mapsTo (Finset.mem_range.mpr hpos))
      have hnext : next position < nodes :=
        Finset.mem_range.mp (hcycle.1.mapsTo (Finset.mem_range.mpr hin))
      refine ⟨next position, ?_, by rw [hposition, pow_succ', Perm.mul_apply]⟩
      have hfits : next position < 2 ^ 32 := by
        have hlimit : kMaxNodes = 2 ^ 32 - 1 := rfl
        omega
      rw [h.get _ hin, Option.map_some, UInt32.toNat_ofNat_of_lt' hfits]
    · rfl
  obtain ⟨position, hrun, rfl⟩ := hloop
  exact hrun

end Chase

/-- The table is one cycle through all nodes, which neither the lines nor the scratch decide. -/
theorem chase_visits_every_node (seed unit : UInt64) (nodes : Nat) (hmin : kMinNodes ≤ nodes)
    (hmax : nodes ≤ kMaxNodes) :
    ∃ next : Perm Nat, next.IsCycleOn (Finset.range nodes) ∧
      (∀ (config : Config) (scratch : List UInt32), config.seed = seed → config.nodes = nodes →
        kBytesPerWord ≤ config.lineBytes → nodes * config.stride ≤ scratch.length →
        (∃ table, buildTable config unit scratch = some table ∧ ∀ node < nodes,
          table[node * config.stride]? = some (UInt32.ofNat (next node))) ∧
        unitDigest config unit scratch = some ((next ^ config.steps) 0)) ∧
      (∀ steps steps', (next ^ steps) 0 = (next ^ steps') 0 ↔ steps ≡ steps' [MOD nodes]) ∧
      ∀ steps, (next ^ steps) 0 = 0 ↔ nodes ∣ steps := by
  have hpos : 0 < nodes := Nat.lt_of_lt_of_le (by decide) hmin
  have hbefore : ∀ m, 0 < m → other seed unit m < m := fun m hm => Nat.mod_lt _ hm
  have hcycle := (cycleUpTo_isCycleOn hbefore (nodes - 1)).2
  rw [Nat.sub_add_cancel hpos] at hcycle
  have hzero : 0 ∈ Finset.range nodes := Finset.mem_range.mpr hpos
  refine ⟨cycleUpTo (other seed unit) (nodes - 1), hcycle, ?_, ?_, ?_⟩
  · intro config scratch hseed hnodes hline hroom
    have hs : 0 < config.stride := Nat.div_pos hline (by decide)
    obtain ⟨placed, hplaced, htable⟩ := placeNodes_table hs hroom
    obtain ⟨table, hshuffled, htable'⟩ := shuffleNodes_table hs hbefore htable
    have hbuild : buildTable config unit scratch = some table := by
      simp [buildTable, hseed, hnodes, hplaced, hshuffled]
    refine ⟨⟨table, hbuild, htable'.get⟩, ?_⟩
    rw [unitDigest, hbuild]
    exact chase_eq htable' hcycle hpos hmax config.steps
  · intro steps steps'
    rw [hcycle.pow_apply_eq_pow_apply hzero, Finset.card_range]
  · intro steps
    rw [hcycle.pow_apply_eq hzero, Finset.card_range]

theorem five_nodes_are_visited :
    ∃ next : Perm Nat, next.IsCycleOn (Finset.range 5) ∧
      unitDigest ⟨3, 5, 8, 7⟩ 1 (List.replicate 10 0) = some ((next ^ 7) 0) := by
  obtain ⟨next, hnext, htable, -⟩ := chase_visits_every_node 3 1 5 (by decide) (by decide)
  exact ⟨next, hnext, (htable ⟨3, 5, 8, 7⟩ (List.replicate 10 0) rfl rfl (by decide) (by decide)).2⟩

end LoadForge.Primitives.Cache

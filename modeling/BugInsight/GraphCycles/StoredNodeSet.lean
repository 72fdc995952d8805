import BugInsight.GraphCycles.Vec

/-!
# NodeSet in its storage

`NodeSet` as `graphcycles.cc` stores it: the table is a `Vec`, which begins inside the object and
moves to the arena, and its size a `uint32_t`.

* `StoredNodeSet` has the members of the class, with `findIndex`, `contains`, `insert`, `grow`,
  `erase`, `init` and `next`; `none` is a call that does not return or reads outside the table;
* `Stores s t`: the object `s` stores the table and the counter of `t`;
* `findIndex_stores`, `erase_stores`, `insert_stores`, `elements_stores`: as long as the doubled
  table fits into 32 bits, the stored set does what `NodeSetRep` does;
* `insert_overfull`: doubling a table of `2 ^ 31` cells leaves a table without cells.

`int32_t` and `uint32_t` wrap around.
-/

namespace BugInsight

/-- The members of the class. -/
structure StoredNodeSet where
  table : Vec ℤ
  occupied : ℕ
  deriving DecidableEq

namespace StoredNodeSet

open NodeSetRep (Probe cell Table OnPath occupiedAt)

/-- `Init`, which is also `clear`. -/
def init (s : StoredNodeSet) : Option StoredNodeSet := do
  let table ← s.table.clear.resize kInline
  return ⟨table.fill kEmpty, 0⟩

/-- The object that the constructor leaves. -/
def new : StoredNodeSet := (init ⟨Vec.new, 0⟩).get rfl

/-- `table_.size() - 1`. -/
def mask (s : StoredNodeSet) : ℕ := (s.table.size + (2 ^ 32 - 1)) % 2 ^ 32

/-- One round of the loop of `FindIndex`. -/
def probe (s : StoredNodeSet) (v : ℕ) (p : Probe) : Probe ⊕ Option ℕ :=
  match s.table.get p.i with
  | none => .inr none
  | some e =>
      if (v : ℤ) = e then .inr (some p.i)
      else if e = kEmpty then .inr (some (if p.seenDeletedElement then p.deletedIndex else p.i))
      else
        let next := (p.i + 1) &&& s.mask
        if e = kDel ∧ p.seenDeletedElement = false then .inl ⟨next, p.i, true⟩
        else .inl ⟨next, p.deletedIndex, p.seenDeletedElement⟩

/-- `FindIndex`.  The search comes by `mask + 1` cells, then it is back where it began. -/
def findIndex (s : StoredNodeSet) (v : ℕ) : Option ℕ :=
  (Loop.iterate (s.probe v) (s.mask + 1) ⟨NodeSetRep.hash v &&& s.mask, 0, false⟩).join

/-- `contains`. -/
def contains (s : StoredNodeSet) (v : ℕ) : Option Bool := do
  let i ← s.findIndex v
  let e ← s.table.get i
  return decide (e = v)

/-- `Grow`: the elements of the table move to `copy` and are inserted again. -/
def grow (insert : StoredNodeSet → ℕ → Option (StoredNodeSet × Bool)) (s : StoredNodeSet) :
    Option StoredNodeSet := do
  let (copy, table) ← Vec.new.moveFrom s.table
  let table ← table.resize (copy.size * 2 % 2 ^ 32)
  let elements ← copy.toList
  elements.foldlM (fun t e => if 0 ≤ e then (insert t e.toNat).map Prod.fst else some t)
    ⟨table.fill kEmpty, 0⟩

/-- `insert`; `depth` bounds the nesting as in `NodeSetRep.insertAux`. -/
def insertAux : ℕ → StoredNodeSet → ℕ → Option (StoredNodeSet × Bool)
  | 0, _, _ => none
  | depth + 1, s, v => do
      let i ← s.findIndex v
      let e ← s.table.get i
      if e = v then
        return (s, false)
      let occupied := if e = kEmpty then (s.occupied + 1) % 2 ^ 32 else s.occupied
      let s : StoredNodeSet := ⟨s.table.set i v, occupied⟩
      if s.table.size - s.table.size / 4 ≤ s.occupied then
        let s' ← grow (insertAux depth) s
        return (s', true)
      return (s, true)

/-- `insert`.  An insertion inside `Grow` grows again only if the table has no cells; there is
nothing to insert then. -/
def insert (s : StoredNodeSet) (v : ℕ) : Option (StoredNodeSet × Bool) := insertAux 2 s v

/-- `erase`. -/
def erase (s : StoredNodeSet) (v : ℕ) : Option StoredNodeSet := do
  let i ← s.findIndex v
  let e ← s.table.get i
  if e = v then
    return ⟨s.table.set i kDel, s.occupied⟩
  return s

/-- One round of the loop of `Next`. -/
def pass (s : StoredNodeSet) (cursor : ℕ) : ℕ ⊕ Option (ℕ × Option ℕ) :=
  if cursor < s.table.size then
    match s.table.get cursor with
    | none => .inr none
    | some v =>
        let cursor := (cursor + 1) % 2 ^ 32
        if 0 ≤ v then .inr (some (cursor, some v.toNat)) else .inl cursor
  else .inr (some (cursor, none))

/-- `Next`: the cursor afterwards, and the element unless the end is reached. -/
def next (s : StoredNodeSet) (cursor : ℕ) : Option (ℕ × Option ℕ) :=
  (Loop.iterate s.pass (s.table.size + 1) cursor).join

/-- One round of a loop `HASH_FOR_EACH` that collects the elements. -/
def visit (s : StoredNodeSet) (p : ℕ × List ℕ) : (ℕ × List ℕ) ⊕ Option (List ℕ) :=
  match s.next p.1 with
  | none => .inr none
  | some (_, none) => .inr (some p.2)
  | some (cursor, some v) => .inl (cursor, p.2 ++ [v])

/-- The elements that `HASH_FOR_EACH` visits. -/
def elements (s : StoredNodeSet) : Option (List ℕ) :=
  (Loop.iterate s.visit (s.table.size + 1) (0, [])).join

/-- The set with its table as a list of cells. -/
def rep (s : StoredNodeSet) : NodeSetRep := ⟨s.table.toList.getD [], s.occupied⟩

/-! ### The stored set and the set -/

/-- `s` stores the members of `t`. -/
structure Stores (s : StoredNodeSet) (t : NodeSetRep) : Prop where
  table : s.table.Holds t.table
  occupied : s.occupied = t.occupied

variable {s s' : StoredNodeSet} {t t' : NodeSetRep} {v i n : ℕ}

theorem Stores.rep_eq (h : Stores s t) : s.rep = t := by
  rw [rep, h.table.toList_eq, h.occupied, Option.getD_some]

theorem Stores.size_eq (h : Stores s t) : s.table.size = t.table.length := h.table.length_eq.symm

theorem Stores.length_le (h : Stores s t) : t.table.length ≤ maxVecSize :=
  h.size_eq ▸ h.table.size_le_max

theorem Stores.get_eq (h : Stores s t) (hi : i < t.table.length) :
    s.table.get i = some (cell t.table i) := by
  rw [h.table.get_eq hi, NodeSetRep.cell_eq_getElem hi]

theorem Stores.mask_eq (h : Stores s t) (ht : Table t.table) : s.mask = t.table.length - 1 := by
  have hpos := ht.length_pos
  have hle := h.length_le
  unfold maxVecSize at hle
  rw [mask, h.size_eq]
  omega

/-- Writing a cell. -/
theorem Stores.set (h : Stores s t) (i : ℕ) (e : ℤ) (n : ℕ) :
    Stores ⟨s.table.set i e, n⟩ ⟨t.table.set i e, n⟩ where
  table := Vec.holds_set h.table i e
  occupied := rfl

theorem init_stores (h : s.table.Valid) : ∃ s', s.init = some s' ∧ Stores s' NodeSetRep.init := by
  obtain ⟨a, ha, hv, hsize⟩ := Vec.resize_spec h.init (show kInline ≤ maxVecSize by decide)
  have hfill := Vec.holds_fill hv kEmpty
  rw [hsize] at hfill
  exact ⟨⟨a.fill kEmpty, 0⟩, by simp [init, Vec.clear, ha], hfill, rfl⟩

theorem new_stores : Stores new NodeSetRep.init := by
  obtain ⟨s, hs, h⟩ := init_stores (s := ⟨Vec.new, 0⟩) Vec.valid_new
  simpa only [new, hs, Option.get_some] using h

theorem probe_stores (h : Stores s t) (ht : Table t.table) (v : ℕ) {p : Probe}
    (hp : p.i < t.table.length) : s.probe v p = (NodeSetRep.probe t.table v p).map id some := by
  simp only [probe, NodeSetRep.probe, h.get_eq hp, h.mask_eq ht]
  split_ifs <;> rfl

/-- **`FindIndex`** searches the stored table as it searches the list of its cells. -/
theorem findIndex_stores (h : Stores s t) (ht : Table t.table) (v : ℕ) :
    s.findIndex v = t.findIndex v := by
  obtain ⟨k, hk⟩ := ht.pow
  have hpos := ht.length_pos
  have hmask : ∀ x, x &&& (t.table.length - 1) < t.table.length := fun x => by
    rw [NodeSetRep.and_mask hk]
    exact Nat.mod_lt x hpos
  rw [findIndex, NodeSetRep.findIndex, h.mask_eq ht, Nat.sub_add_cancel hpos]
  rw [Loop.iterate_map (I := fun p : Probe => p.i < t.table.length) ?_
    (fun p hp => probe_stores h ht v hp) _ _ (hmask _)]
  · cases Loop.iterate (NodeSetRep.probe t.table v) t.table.length _ <;> rfl
  · intro p p' _ hb
    simp only [NodeSetRep.probe] at hb
    split_ifs at hb <;> cases hb <;> exact hmask _

theorem contains_stores (h : Stores s t) (ht : t.Valid) (v : ℕ) : s.contains v = t.contains v := by
  obtain ⟨i, hi, hlt, -⟩ := NodeSetRep.findIndex_spec ht.toTable ht.kEmpty_mem v
  simp only [contains, NodeSetRep.contains, findIndex_stores h ht.toTable, hi, Option.bind_eq_bind,
    Option.bind_some, h.get_eq hlt]

/-- **`erase`** erases from the stored set what it erases from the set. -/
theorem erase_stores (h : Stores s t) (ht : t.Valid) (v : ℕ) :
    ∃ s' t', s.erase v = some s' ∧ t.erase v = some t' ∧ Stores s' t' := by
  obtain ⟨i, hi, hlt, -⟩ := NodeSetRep.findIndex_spec ht.toTable ht.kEmpty_mem v
  simp only [erase, NodeSetRep.erase, findIndex_stores h ht.toTable, hi, Option.bind_eq_bind,
    Option.bind_some, h.get_eq hlt, Option.pure_def]
  split_ifs with hc
  · exact ⟨_, _, rfl, rfl, h.occupied ▸ h.set i kDel s.occupied⟩
  · exact ⟨s, t, rfl, rfl, h⟩

/-! ### Insertion -/

/-- One level of `insert`, as long as the counter is below `2 ^ 32`. -/
theorem insertAux_succ (h : Stores s t) (ht : Table t.table) (hi : t.findIndex v = some i)
    (hlt : i < t.table.length) (hocc : t.occupied < maxVecSize) (depth : ℕ) :
    insertAux (depth + 1) s v =
      if cell t.table i = v then some (s, false)
      else if t.table.length - t.table.length / 4 ≤ occupiedAt t i then
        (grow (insertAux depth) ⟨s.table.set i v, occupiedAt t i⟩).map fun s' => (s', true)
      else some (⟨s.table.set i v, occupiedAt t i⟩, true) := by
  have hmod : (t.occupied + 1) % 2 ^ 32 = t.occupied + 1 := by
    apply Nat.mod_eq_of_lt
    unfold maxVecSize at hocc
    omega
  have hsize : ∀ e, (s.table.set i e).size = t.table.length := fun e => by
    rw [Vec.set, Vec.size_write, h.size_eq]
  simp only [insertAux, occupiedAt, findIndex_stores h ht, hi, h.get_eq hlt, h.occupied, hmod, hsize,
    Option.bind_eq_bind, Option.bind_some, Option.pure_def, Option.map_eq_bind]
  rfl

theorem Stores.occupied_lt (h : Stores s t) (ht : t.Valid) : t.occupied < maxVecSize := by
  have hroom := ht.room
  have hle := h.length_le
  omega

/-- An insertion that does not grow the table. -/
theorem insertAux_stores_of_room (double : ℕ → ℕ) (h : Stores s t) (ht : t.Valid)
    (hroom : t.occupied + 1 < t.table.length - t.table.length / 4) (v depth : ℕ) :
    ∃ s' r, insertAux (depth + 1) s v = some (s', r.2) ∧
      NodeSetRep.insertAux double (depth + 1) t v = some r ∧ Stores s' r.1 := by
  obtain ⟨i, hi, hlt, -⟩ := NodeSetRep.findIndex_spec ht.toTable ht.kEmpty_mem v
  have hno : ¬ t.table.length - t.table.length / 4 ≤ occupiedAt t i := by
    have := NodeSetRep.occupiedAt_le t i
    omega
  rw [insertAux_succ h ht.toTable hi hlt (h.occupied_lt ht), NodeSetRep.insertAux_succ hi]
  simp only [if_neg hno]
  split_ifs with hc
  · exact ⟨s, (t, false), rfl, rfl, h⟩
  · exact ⟨_, (⟨t.table.set i v, occupiedAt t i⟩, true), rfl, rfl, h.set i v _⟩

/-- The loop of `Grow`: the table has room for what is still to be inserted. -/
theorem reinsert_stores (double : ℕ → ℕ) (depth : ℕ) :
    ∀ (rest : List ℤ) (s : StoredNodeSet) (t : NodeSetRep), Stores s t → t.Valid → t.occupied + rest.length ≤ t.table.length / 2 →
    ∃ s' t', rest.foldlM (fun t e =>
        if 0 ≤ e then (insertAux (depth + 1) t e.toNat).map Prod.fst else some t) s = some s' ∧
      rest.foldlM (fun t e =>
        if 0 ≤ e then (NodeSetRep.insertAux double (depth + 1) t e.toNat).map Prod.fst
        else some t) t = some t' ∧ Stores s' t' := by
  intro rest
  induction rest with
  | nil => exact fun s t h _ _ => ⟨s, t, rfl, rfl, h⟩
  | cons e rest ih =>
    intro s t h ht hroom
    have hpos := ht.length_pos
    rw [List.length_cons] at hroom
    by_cases he : 0 ≤ e
    · have hroom' : t.occupied + 1 < t.table.length - t.table.length / 4 := by omega
      obtain ⟨s₁, r, hs₁, hr, h₁⟩ := insertAux_stores_of_room double h ht hroom' e.toNat depth
      obtain ⟨r', hr', hins, hlen, hocc⟩ :=
        NodeSetRep.insertAux_of_room double ht e.toNat depth hroom'
      obtain rfl := Option.some.inj (hr.symm.trans hr')
      obtain ⟨s', t', hs', ht', h'⟩ := ih s₁ r.1 h₁ hins.1 (by omega)
      exact ⟨s', t', by simp [he, hs₁, hs'], by simp [he, hr, ht'], h'⟩
    · obtain ⟨s', t', hs', ht', h'⟩ := ih s t h ht (by omega)
      exact ⟨s', t', by simp [he, hs'], by simp [he, ht'], h'⟩

/-- **`Grow`** on a table whose double fits into 32 bits. -/
theorem grow_stores (double : ℕ → ℕ) {copy : List ℤ} (h : s.table.Holds copy) {k : ℕ}
    (hk : copy.length = kInline * 2 ^ k) (hfit : copy.length * 2 ≤ maxVecSize)
    (hdouble : double copy.length = copy.length * 2) (depth : ℕ) :
    ∃ s' t', grow (insertAux (depth + 1)) s = some s' ∧
      NodeSetRep.grow double (NodeSetRep.insertAux double (depth + 1)) copy = some t' ∧
      Stores s' t' := by
  obtain ⟨a, src, hmove, ha, hsrc, -⟩ := Vec.moveFrom_spec Vec.valid_new h
  have hsize : a.size * 2 % 2 ^ 32 = copy.length * 2 := by
    rw [← ha.length_eq]
    apply Nat.mod_eq_of_lt
    unfold maxVecSize at hfit
    omega
  obtain ⟨b, hb, hbv, hbsize⟩ := Vec.resize_spec hsrc hfit
  have hfresh : Stores ⟨b.fill kEmpty, 0⟩ ⟨List.replicate (copy.length * 2) kEmpty, 0⟩ :=
    ⟨hbsize ▸ Vec.holds_fill hbv kEmpty, rfl⟩
  have hvalid := NodeSetRep.valid_replicate (k + 1)
  rw [pow_succ, ← Nat.mul_assoc, ← hk] at hvalid
  obtain ⟨s', t', hs', ht', h'⟩ := reinsert_stores double depth copy _ _ hfresh hvalid (by simp)
  refine ⟨s', t', ?_, by rw [NodeSetRep.grow, hdouble, ht'], h'⟩
  simp only [grow, hmove, hsize, hb, ha.toList_eq, Option.bind_eq_bind, Option.bind_some]
  exact hs'

/-! ### Doubling a table of `2 ^ 31` cells -/

/-- `Grow` leaves no cells if the doubled size is `0` modulo `2 ^ 32`. -/
theorem grow_size {ins : StoredNodeSet → ℕ → Option (StoredNodeSet × Bool)}
    (hins : ∀ s v r, s.table.size = 0 → ins s v = some r → r.1.table.size = 0)
    (hsize : s.table.size * 2 % 2 ^ 32 = 0) (h : grow ins s = some s') : s'.table.size = 0 := by
  unfold grow at h
  obtain ⟨⟨copy, src⟩, hmove, h⟩ := Option.bind_eq_some_iff.1 h
  obtain ⟨table, hres, h⟩ := Option.bind_eq_some_iff.1 h
  obtain ⟨elements, -, h⟩ := Option.bind_eq_some_iff.1 h
  have hzero : (⟨table.fill kEmpty, 0⟩ : StoredNodeSet).table.size = 0 := by
    rw [Vec.fill, Vec.size_write, Vec.size_resize hres, Vec.size_moveFrom hmove, hsize]
  generalize (⟨table.fill kEmpty, 0⟩ : StoredNodeSet) = t at h hzero
  clear hres hmove
  -- induction on the elements still to be inserted
  induction elements generalizing t with
  | nil =>
    cases h
    exact hzero
  | cons e rest ih =>
    rw [List.foldlM_cons] at h
    obtain ⟨t', ht', h⟩ := Option.bind_eq_some_iff.1 h
    refine ih t' h ?_
    split_ifs at ht' with he
    · obtain ⟨r, hr, rfl⟩ := Option.map_eq_some_iff.1 ht'
      exact hins t e.toNat r hzero hr
    · cases ht'
      exact hzero

/-- A table without cells gets none by an insertion. -/
theorem insertAux_size_zero (depth : ℕ) : ∀ s v r, s.table.size = 0 →
    insertAux depth s v = some r → r.1.table.size = 0 := by
  induction depth with
  | zero => exact fun s v r _ h => absurd h (by simp [insertAux])
  | succ depth ih =>
    intro s v r hsize h
    have hset : ∀ i, (s.table.set i v).size = 0 := fun i => by
      rw [Vec.set, Vec.size_write, hsize]
    unfold insertAux at h
    obtain ⟨i, -, h⟩ := Option.bind_eq_some_iff.1 h
    obtain ⟨e, -, h⟩ := Option.bind_eq_some_iff.1 h
    by_cases he : e = v
    · rw [if_pos he] at h
      cases h
      exact hsize
    · rw [if_neg he] at h
      dsimp only at h
      generalize (if e = kEmpty then (s.occupied + 1) % 2 ^ 32 else s.occupied) = occupied at h
      split_ifs at h with hfull
      · obtain ⟨s', hs', h⟩ := Option.bind_eq_some_iff.1 h
        cases h
        exact grow_size ih (by simp [hset]) hs'
      · cases h
        exact hset i

/-- The insertion of `v` brings a table of `2 ^ 31` cells to three quarters: one cell is missing,
`v` is absent, and there is no tombstone to take on the way of its search. -/
def Overfills (s : StoredNodeSet) (v : ℕ) : Prop :=
  s.table.size = maxVecSize ∧ s.occupied + 1 = maxVecSize - maxVecSize / 4 ∧
    (v : ℤ) ∉ s.rep.table ∧ ∀ j, OnPath s.rep.table v j → cell s.rep.table j ≠ kDel

/-- The tables that an insertion has to double. -/
theorem grows_iff (ht : t.Valid) (hi : t.findIndex v = some i) (habs : (v : ℤ) ∉ t.table) :
    t.table.length - t.table.length / 4 ≤ occupiedAt t i ↔
      t.occupied + 1 = t.table.length - t.table.length / 4 ∧
        ∀ j, OnPath t.table v j → cell t.table j ≠ kDel := by
  rw [← NodeSetRep.findIndex_kEmpty_iff ht.toTable ht.kEmpty_mem hi habs]
  have hroom := ht.room
  unfold occupiedAt
  split_ifs with hc
  · simp only [hc, and_true]
    omega
  · simp only [hc, and_false, iff_false]
    omega

/-- The size of a table is a power of two, so it is `2 ^ 31` or can be doubled. -/
theorem Stores.size_cases (h : Stores s t) (ht : t.Valid) :
    t.table.length = maxVecSize ∨ t.table.length * 2 ≤ maxVecSize := by
  obtain ⟨k, hk⟩ := ht.pow
  have hle := h.length_le
  rw [hk] at hle ⊢
  have hk31 : k ≤ 31 := (Nat.pow_le_pow_iff_right (by decide)).1 hle
  rcases hk31.eq_or_lt with rfl | hlt
  · exact Or.inl rfl
  · right
    rw [← pow_succ]
    exact Nat.pow_le_pow_right (by decide) hlt

/-- **`insert`** adds to the stored set what it adds to the set, unless it overfills the table. -/
theorem insert_stores (h : Stores s t) (ht : t.Valid) (hfit : ¬ s.Overfills v) :
    ∃ s' r, s.insert v = some (s', r.2) ∧ t.insert v = some r ∧ Stores s' r.1 := by
  obtain ⟨i, hi, hlt, hf⟩ := NodeSetRep.findIndex_spec ht.toTable ht.kEmpty_mem v
  rw [insert, NodeSetRep.insert, insertAux_succ h ht.toTable hi hlt (h.occupied_lt ht),
    NodeSetRep.insertAux_succ hi]
  by_cases hc : cell t.table i = v
  · simp only [if_pos hc]
    exact ⟨s, (t, false), rfl, rfl, h⟩
  have habs : (v : ℤ) ∉ t.table := (hf.resolve_left hc).1
  simp only [if_neg hc]
  split_ifs with hgrow
  · obtain ⟨hocc, hpath⟩ := (grows_iff ht hi habs).1 hgrow
    have hdouble : t.table.length * 2 ≤ maxVecSize := by
      refine (h.size_cases ht).resolve_left fun hmax => hfit ?_
      rw [Overfills, h.size_eq, h.rep_eq, h.occupied, ← hmax]
      exact ⟨rfl, hocc, habs, hpath⟩
    obtain ⟨k, hk⟩ := ht.size
    obtain ⟨s', t', hs', ht', h'⟩ := grow_stores (fun n => n * 2)
      (h.set i v (occupiedAt t i)).table
      (by rw [List.length_set]; exact hk) (by rw [List.length_set]; exact hdouble) rfl 0
    exact ⟨s', (t', true), by rw [hs']; rfl, by rw [ht']; rfl, h'⟩
  · exact ⟨_, (⟨t.table.set i v, occupiedAt t i⟩, true), rfl, rfl, h.set i v _⟩

/-- After an insertion that overfills the table there are no cells. -/
theorem insert_overfull (h : Stores s t) (ht : t.Valid) (hover : s.Overfills v)
    {r : StoredNodeSet × Bool} (hr : s.insert v = some r) : r.1.table.size = 0 := by
  obtain ⟨i, hi, hlt, -⟩ := NodeSetRep.findIndex_spec ht.toTable ht.kEmpty_mem v
  rw [Overfills, h.size_eq, h.rep_eq, h.occupied] at hover
  obtain ⟨hmax, hocc, habs, hpath⟩ := hover
  have hc : cell t.table i ≠ v := fun hc => habs (hc ▸ NodeSetRep.cell_mem hlt)
  have hgrow := (grows_iff ht hi habs).2 ⟨by rw [hmax]; exact hocc, hpath⟩
  rw [insert, insertAux_succ h ht.toTable hi hlt (h.occupied_lt ht), if_neg hc, if_pos hgrow] at hr
  obtain ⟨s', hs', rfl⟩ := Option.map_eq_some_iff.1 hr
  refine grow_size (insertAux_size_zero 1) ?_ hs'
  rw [Vec.set, Vec.size_write, h.size_eq, hmax]
  rfl

/-! ### Iteration -/

/-- The elements at and behind a cursor. -/
def rest (table : List ℤ) (cursor : ℕ) : List ℕ :=
  ((table.drop cursor).filter fun e => decide (0 ≤ e)).map Int.toNat

theorem rest_of_lt {table : List ℤ} {c : ℕ} (hc : c < table.length) :
    rest table c =
      if 0 ≤ cell table c then (cell table c).toNat :: rest table (c + 1)
      else rest table (c + 1) := by
  unfold rest
  rw [List.drop_eq_getElem_cons hc, NodeSetRep.cell_eq_getElem hc, List.filter_cons]
  split_ifs with h1 h2 h2
  · rfl
  · exact absurd (of_decide_eq_true h1) h2
  · exact absurd (decide_eq_true h2) h1
  · rfl

theorem rest_of_le {table : List ℤ} {c : ℕ} (hc : table.length ≤ c) : rest table c = [] := by
  rw [rest, List.drop_eq_nil_of_le hc]
  rfl

/-- What one round of `Next` does. -/
theorem pass_stores (h : Stores s t) (c : ℕ) :
    s.pass c =
      if c < t.table.length then
        if 0 ≤ cell t.table c then .inr (some (c + 1, some (cell t.table c).toNat)) else .inl (c + 1)
      else .inr (some (c, none)) := by
  rw [pass, h.size_eq]
  by_cases hc : c < t.table.length
  · have hmod : (c + 1) % 2 ^ 32 = c + 1 := by
      have hle := h.length_le
      unfold maxVecSize at hle
      omega
    simp only [if_pos hc, h.get_eq hc, hmod]
  · simp only [if_neg hc]

/-- **`Next`** finds the first element at or behind the cursor and leaves the cursor behind it. -/
theorem next_stores (h : Stores s t) (c : ℕ) :
    ∃ c' e, s.next c = some (c', e) ∧ (e = none → rest t.table c = []) ∧
      ∀ v, e = some v → c < c' ∧ c' ≤ t.table.length ∧ rest t.table c = v :: rest t.table c' := by
  obtain ⟨b, hb⟩ : ∃ b, Loop.iterate s.pass (s.table.size + 1) c = some b := by
    refine Loop.exists_iterate_eq_some (V := fun m c' => m = t.table.length - c') ?_
      (t.table.length - c) c _ rfl (by rw [h.size_eq]; omega)
    rintro m c₁ c₂ rfl hround
    rw [pass_stores h] at hround
    split_ifs at hround with hc hpos
    cases hround
    exact ⟨t.table.length - (c₁ + 1), by omega, rfl⟩
  obtain ⟨c', e, rfl, hq⟩ := Loop.iterate_spec
    (I := fun c' => c ≤ c' ∧ rest t.table c' = rest t.table c)
    (Q := fun b => ∃ c' e, b = some (c', e) ∧ (e = none → rest t.table c = []) ∧
      ∀ v, e = some v → c < c' ∧ c' ≤ t.table.length ∧ rest t.table c = v :: rest t.table c')
    (by
      rintro c₁ c₂ ⟨hle, hrest⟩ hround
      rw [pass_stores h] at hround
      split_ifs at hround with hc hpos
      cases hround
      rw [rest_of_lt hc, if_neg hpos] at hrest
      exact ⟨by omega, hrest⟩)
    (by
      rintro c₁ b ⟨hle, hrest⟩ hround
      rw [pass_stores h] at hround
      split_ifs at hround with hc hpos
      all_goals cases hround
      · rw [rest_of_lt hc, if_pos hpos] at hrest
        refine ⟨_, _, rfl, nofun, ?_⟩
        rintro v hv
        cases hv
        exact ⟨by omega, hc, hrest.symm⟩
      · exact ⟨_, _, rfl, fun _ => by rw [← hrest, rest_of_le (Nat.not_lt.1 hc)], nofun⟩)
    ⟨le_rfl, rfl⟩ hb
  exact ⟨c', e, by rw [next, hb]; rfl, hq⟩

/-- **`HASH_FOR_EACH`** visits the elements in the order of their cells. -/
theorem elements_stores (h : Stores s t) : s.elements = some t.elems := by
  obtain ⟨b, hb⟩ : ∃ b, Loop.iterate s.visit (s.table.size + 1) (0, []) = some b := by
    refine Loop.exists_iterate_eq_some (V := fun m p => m = t.table.length - p.1) ?_
      t.table.length (0, []) _ rfl (by rw [h.size_eq]; omega)
    rintro m ⟨c, acc⟩ p rfl hround
    obtain ⟨c', e, hnext, -, hsome⟩ := next_stores h c
    simp only [visit, hnext] at hround
    cases e with
    | none => cases hround
    | some v =>
      cases hround
      obtain ⟨hlt, hle, -⟩ := hsome v rfl
      exact ⟨t.table.length - c', by dsimp only; omega, rfl⟩
  have hq : b = some t.elems := by
    refine Loop.iterate_spec (I := fun p => p.2 ++ rest t.table p.1 = t.elems)
      (Q := fun b => b = some t.elems) ?_ ?_ (by rfl) hb
    all_goals
      rintro ⟨c, acc⟩ p hI hround
      obtain ⟨c', e, hnext, hnone, hsome⟩ := next_stores h c
      simp only [visit, hnext] at hround
      rcases e with _ | v
      all_goals cases hround
    · rw [List.append_assoc, List.singleton_append, ← (hsome v rfl).2.2]
      exact hI
    · rw [← hI, hnone rfl, List.append_nil]
  rw [elements, hb, hq]
  rfl

end StoredNodeSet

end BugInsight

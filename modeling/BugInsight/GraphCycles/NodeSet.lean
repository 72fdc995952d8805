import BugInsight.Loop

/-!
# The hash set of node indices

`NodeSet` of `graphcycles.cc`: an open-addressing table of 32-bit cells with linear probing,
tombstones (`kDel`) and doubling at three quarters.  The stored values are node indices, which
are not negative, so a cell is an integer and a value a natural number.

* `NodeSetRep` is the class as written, with `findIndex`, `contains`, `insert32`, `grow` and
  `erase`; `none` is a call that does not return or reads outside the table;
* `NodeSetRep.insert` is `insert32` for a table whose size has no limit;
* `NodeSetRep.Valid` is the class invariant, kept by every operation;
* `NodeSet` is a representation together with its invariant; on it every operation returns.

`insert` and `insert32` differ when a table of `2 ^ 31` cells has to be doubled: the size has 32
bits.  `StoredNodeSet` has the table in its `Vec`.
-/

namespace BugInsight

/-- The content of a cell that was never used. -/
def kEmpty : ℤ := -1

/-- The content of a cell whose element was erased. -/
def kDel : ℤ := -2

/-- The number of cells of a new table. -/
def kInline : ℕ := 8

/-- The members of the class: the cells and the number of cells in use, tombstones included. -/
structure NodeSetRep where
  table : List ℤ
  occupied : ℕ
  deriving DecidableEq

namespace NodeSetRep

/-- The cell at an index. -/
def cell (table : List ℤ) (i : ℕ) : ℤ := table.getD i kEmpty

/-- `Hash`: multiplication in 32 bits. -/
def hash (a : ℕ) : ℕ := (a * 41) % 2 ^ 32

/-- `Init`, which is also `clear`. -/
def init : NodeSetRep := ⟨List.replicate kInline kEmpty, 0⟩

/-- The local variables of `FindIndex`. -/
structure Probe where
  i : ℕ
  deletedIndex : ℕ
  seenDeletedElement : Bool

/-- One round of the loop of `FindIndex`. -/
def probe (table : List ℤ) (v : ℕ) (p : Probe) : Probe ⊕ ℕ :=
  let e := cell table p.i
  if (v : ℤ) = e then .inr p.i
  else if e = kEmpty then .inr (if p.seenDeletedElement then p.deletedIndex else p.i)
  else
    let next := (p.i + 1) &&& (table.length - 1)
    if e = kDel ∧ p.seenDeletedElement = false then .inl ⟨next, p.i, true⟩
    else .inl ⟨next, p.deletedIndex, p.seenDeletedElement⟩

/-- `FindIndex`.  After as many rounds as there are cells the search is back where it began, so
if it has not returned by then it never does. -/
def findIndex (s : NodeSetRep) (v : ℕ) : Option ℕ :=
  Loop.iterate (probe s.table v) s.table.length
    ⟨hash v &&& (s.table.length - 1), 0, false⟩

/-- `contains`. -/
def contains (s : NodeSetRep) (v : ℕ) : Option Bool := do
  let i ← s.findIndex v
  return decide (cell s.table i = v)

/-- `Grow`: reinsert the elements of `copy` into an empty table of twice the size.  How sizes are
doubled is a parameter. -/
def grow (double : ℕ → ℕ) (insert : NodeSetRep → ℕ → Option (NodeSetRep × Bool))
    (copy : List ℤ) : Option NodeSetRep :=
  copy.foldlM (fun t e => if 0 ≤ e then (insert t e.toNat).map Prod.fst else some t)
    ⟨List.replicate (double copy.length) kEmpty, 0⟩

/-- `insert`.  It calls `Grow`, which calls `insert` again; `depth` bounds the nesting. -/
def insertAux (double : ℕ → ℕ) : ℕ → NodeSetRep → ℕ → Option (NodeSetRep × Bool)
  | 0, _, _ => none
  | depth + 1, s, v => do
      let i ← s.findIndex v
      if cell s.table i = v then
        return (s, false)
      let occupied := if cell s.table i = kEmpty then s.occupied + 1 else s.occupied
      let table := s.table.set i v
      if table.length - table.length / 4 ≤ occupied then
        let s' ← grow double (insertAux double depth) table
        return (s', true)
      return (⟨table, occupied⟩, true)

/-- `insert`: a nesting of two is enough, the insertions inside `Grow` do not grow again.  The size
of the table is a `uint32_t`, which is `0` when `2 ^ 31` is doubled. -/
def insert32 (s : NodeSetRep) (v : ℕ) : Option (NodeSetRep × Bool) :=
  insertAux (fun n => n * 2 % 2 ^ 32) 2 s v

/-- `insert`, on a table whose size has no limit. -/
def insert (s : NodeSetRep) (v : ℕ) : Option (NodeSetRep × Bool) := insertAux (fun n => n * 2) 2 s v

/-- `erase`. -/
def erase (s : NodeSetRep) (v : ℕ) : Option NodeSetRep := do
  let i ← s.findIndex v
  if cell s.table i = v then
    return ⟨s.table.set i kDel, s.occupied⟩
  return s

/-- The elements in the order in which `HASH_FOR_EACH` visits them. -/
def elems (s : NodeSetRep) : List ℕ := (s.table.filter (fun e => decide (0 ≤ e))).map Int.toNat

/-! ### The class invariant -/

/-- `j` lies on the probe sequence of `v`, behind cells that are in use only. -/
def OnPath (table : List ℤ) (v j : ℕ) : Prop :=
  ∃ k, j = (hash v + k) % table.length ∧
    ∀ k' < k, cell table ((hash v + k') % table.length) ≠ kEmpty

/-- A table on which a search ends: its length is a power of two and a cell is empty; each value
is stored once, where a search for it comes by. -/
structure Table (table : List ℤ) : Prop where
  pow : ∃ k, table.length = 2 ^ k
  cells : ∀ e ∈ table, e = kEmpty ∨ e = kDel ∨ 0 ≤ e
  path : ∀ (v : ℕ) (j : ℕ), j < table.length → cell table j = v → OnPath table v j
  uniq : ∀ (v i j : ℕ), i < table.length → j < table.length → cell table i = v →
    cell table j = v → i = j

/-- The class invariant. -/
structure Valid (s : NodeSetRep) : Prop extends Table s.table where
  size : ∃ k, s.table.length = kInline * 2 ^ k
  occupied_eq : s.occupied = s.table.countP (fun e => decide (e ≠ kEmpty))
  room : s.occupied < s.table.length - s.table.length / 4

/-! ### Cells -/

theorem cell_eq_getElem {table : List ℤ} {i : ℕ} (h : i < table.length) :
    cell table i = table[i] := by
  simp [cell, h]

theorem cell_mem {table : List ℤ} {i : ℕ} (h : i < table.length) : cell table i ∈ table := by
  rw [cell_eq_getElem h]; exact List.getElem_mem h

theorem mem_iff_cell {table : List ℤ} {e : ℤ} :
    e ∈ table ↔ ∃ i < table.length, cell table i = e := by
  constructor
  · intro h
    obtain ⟨i, hi, rfl⟩ := List.mem_iff_getElem.1 h
    exact ⟨i, hi, cell_eq_getElem hi⟩
  · rintro ⟨i, hi, rfl⟩
    exact cell_mem hi

theorem cell_set {table : List ℤ} {i j : ℕ} {e : ℤ} (hi : i < table.length) :
    cell (table.set i e) j = if i = j then e else cell table j := by
  by_cases hij : i = j
  · subst hij; simp [cell, hi]
  · simp [cell, List.getElem?_set_ne hij, hij]

theorem natCast_ne_kEmpty (v : ℕ) : (v : ℤ) ≠ kEmpty := by unfold kEmpty; omega

theorem natCast_ne_kDel (v : ℕ) : (v : ℤ) ≠ kDel := by unfold kDel; omega

theorem kDel_ne_kEmpty : kDel ≠ kEmpty := by decide

theorem and_mask {k n x : ℕ} (h : n = 2 ^ k) : x &&& (n - 1) = x % n := by
  rw [h, Nat.and_two_pow_sub_one_eq_mod]

theorem Table.length_pos {table : List ℤ} (h : Table table) : 0 < table.length := by
  obtain ⟨k, hk⟩ := h.pow
  rw [hk]; exact Nat.two_pow_pos k

/-! ### Searching -/

/-- The variant of the search: the empty cell `(hash v + k + m) % length` is `m` rounds ahead. -/
def Ahead (table : List ℤ) (v m : ℕ) (p : Probe) : Prop :=
  ∃ k, p.i = (hash v + k) % table.length ∧ cell table ((hash v + k + m) % table.length) = kEmpty

/-- The invariant of the search: the cells passed are in use and do not hold `v`. -/
def Passed (table : List ℤ) (v : ℕ) (p : Probe) : Prop :=
  ∃ k, p.i = (hash v + k) % table.length ∧
    (∀ k' < k, cell table ((hash v + k') % table.length) ≠ kEmpty ∧
      cell table ((hash v + k') % table.length) ≠ v) ∧
    (p.seenDeletedElement = true →
      cell table p.deletedIndex = kDel ∧ p.deletedIndex < table.length ∧
        OnPath table v p.deletedIndex)

/-- What a search returns: the cell of `v`, or a free cell for it. -/
def Found (table : List ℤ) (v i : ℕ) : Prop :=
  i < table.length ∧ (cell table i = v ∨
    (v : ℤ) ∉ table ∧ (cell table i = kEmpty ∨ cell table i = kDel) ∧ OnPath table v i)

theorem next_index {table : List ℤ} (h : Table table) {x : ℕ} :
    (x % table.length + 1) &&& (table.length - 1) = (x + 1) % table.length := by
  obtain ⟨k, hk⟩ := h.pow
  rw [and_mask hk, Nat.mod_add_mod]

theorem probe_ahead {table : List ℤ} (h : Table table) (v n : ℕ) (p p' : Probe)
    (hp : Ahead table v n p) (hb : probe table v p = .inl p') : ∃ m < n, Ahead table v m p' := by
  obtain ⟨k, hi, he⟩ := hp
  have hne : cell table p.i ≠ kEmpty := by
    intro hc
    simp only [probe, hc] at hb
    split_ifs at hb
  have hpos : n ≠ 0 := by
    rintro rfl
    exact hne (by rw [hi]; exact he)
  have hi' : p'.i = (hash v + (k + 1)) % table.length := by
    have : p'.i = (p.i + 1) &&& (table.length - 1) := by
      simp only [probe] at hb
      split_ifs at hb <;> cases hb <;> rfl
    rw [this, hi, next_index h, Nat.add_assoc]
  exact ⟨n - 1, by omega, k + 1, hi', by
    rwa [show hash v + (k + 1) + (n - 1) = hash v + k + n by omega]⟩

theorem probe_passed {table : List ℤ} (h : Table table) (v : ℕ) (p p' : Probe)
    (hp : Passed table v p) (hb : probe table v p = .inl p') : Passed table v p' := by
  obtain ⟨k, hi, hk, hdel⟩ := hp
  have hlt : p.i < table.length := by rw [hi]; exact Nat.mod_lt _ h.length_pos
  have honpath : OnPath table v p.i := ⟨k, hi, fun k' hk' => (hk k' hk').1⟩
  simp only [probe] at hb
  split_ifs at hb with h1 h2 h3
  all_goals
    cases hb
    refine ⟨k + 1, by dsimp only; rw [hi, next_index h, Nat.add_assoc], ?_, ?_⟩
    · intro k' hk'
      rcases Nat.lt_succ_iff_lt_or_eq.1 hk' with hlt' | rfl
      · exact hk k' hlt'
      · rw [← hi]; exact ⟨h2, fun hc => h1 hc.symm⟩
  · exact fun _ => ⟨h3.1, hlt, honpath⟩
  · exact hdel

theorem probe_found {table : List ℤ} (h : Table table) (v : ℕ) (p : Probe) (i : ℕ)
    (hp : Passed table v p) (hb : probe table v p = .inr i) : Found table v i := by
  obtain ⟨k, hi, hk, hdel⟩ := hp
  have hlt : p.i < table.length := by rw [hi]; exact Nat.mod_lt _ h.length_pos
  have honpath : OnPath table v p.i := ⟨k, hi, fun k' hk' => (hk k' hk').1⟩
  simp only [probe] at hb
  split_ifs at hb with h1 h2 h3
  · cases hb
    exact ⟨hlt, Or.inl h1.symm⟩
  all_goals
    -- the search met an empty cell before any cell that holds `v`
    have habs : (v : ℤ) ∉ table := by
      intro hmem
      obtain ⟨j, hj, hjv⟩ := mem_iff_cell.1 hmem
      obtain ⟨kv, hkv, hpath⟩ := h.path v j hj hjv
      rcases lt_trichotomy kv k with hlt | rfl | hgt
      · exact (hk kv hlt).2 (by rw [← hkv]; exact hjv)
      · exact h1 (by rw [hi, ← hkv]; exact hjv.symm)
      · exact hpath k hgt (by rw [← hi]; exact h2)
    cases hb
  · obtain ⟨hd, hdlt, hdpath⟩ := hdel h3
    exact ⟨hdlt, Or.inr ⟨habs, Or.inr hd, hdpath⟩⟩
  · exact ⟨hlt, Or.inr ⟨habs, Or.inl h2, honpath⟩⟩

/-- From any start, each cell is fewer rounds ahead than there are cells. -/
theorem exists_rounds {n a j : ℕ} (hj : j < n) : ∃ m < n, (a + m) % n = j := by
  have ha : a % n < n := Nat.mod_lt _ (by omega)
  have hmod : ∀ m, (a + m) % n = (a % n + m) % n := fun m => (Nat.mod_add_mod a n m).symm
  by_cases hle : a % n ≤ j
  · refine ⟨j - a % n, by omega, ?_⟩
    rw [hmod, show a % n + (j - a % n) = j by omega, Nat.mod_eq_of_lt hj]
  · refine ⟨j + n - a % n, by omega, ?_⟩
    rw [hmod, show a % n + (j + n - a % n) = j + n by omega, Nat.add_mod_right,
      Nat.mod_eq_of_lt hj]

/-- **A search ends** as soon as one cell is empty, and finds `v` or a free cell for it. -/
theorem findIndex_spec {s : NodeSetRep} (h : Table s.table) (hempty : kEmpty ∈ s.table) (v : ℕ) :
    ∃ i, s.findIndex v = some i ∧ Found s.table v i := by
  obtain ⟨j, hj, hje⟩ := mem_iff_cell.1 hempty
  obtain ⟨m, hm, hmj⟩ := exists_rounds (a := hash v) hj
  obtain ⟨k, hk⟩ := h.pow
  have hstart : hash v &&& (s.table.length - 1) = (hash v + 0) % s.table.length := by
    rw [and_mask hk, Nat.add_zero]
  obtain ⟨i, hi⟩ := Loop.exists_iterate_eq_some (V := Ahead s.table v)
    (fun n p p' => probe_ahead h v n p p') m
    ⟨hash v &&& (s.table.length - 1), 0, false⟩ s.table.length
    ⟨0, hstart, by rw [Nat.add_zero, hmj]; exact hje⟩ hm
  refine ⟨i, hi, Loop.iterate_spec (I := Passed s.table v) (Q := Found s.table v)
    (fun p p' => probe_passed h v p p') (fun p b => probe_found h v p b) ?_ hi⟩
  exact ⟨0, hstart, fun k' hk' => absurd hk' (Nat.not_lt_zero _), by simp⟩

/-- The invariant that tells the two kinds of free cells apart: without a deleted cell seen, none
was passed. -/
def Unerased (table : List ℤ) (v : ℕ) (p : Probe) : Prop :=
  ∃ k, p.i = (hash v + k) % table.length ∧
    (p.seenDeletedElement = true → cell table p.deletedIndex = kDel) ∧
    (p.seenDeletedElement = false →
      ∀ k' < k, cell table ((hash v + k') % table.length) ≠ kDel)

theorem probe_unerased {table : List ℤ} (h : Table table) (v : ℕ) (p p' : Probe)
    (hp : Unerased table v p) (hb : probe table v p = .inl p') : Unerased table v p' := by
  obtain ⟨k, hi, hseen, hclean⟩ := hp
  simp only [probe] at hb
  split_ifs at hb with h1 h2 h3
  all_goals
    cases hb
    refine ⟨k + 1, by dsimp only; rw [hi, next_index h, Nat.add_assoc], ?_, ?_⟩
  · exact fun _ => h3.1
  · nofun
  · exact hseen
  · intro hno k' hk'
    rcases Nat.lt_succ_iff_lt_or_eq.1 hk' with hlt' | rfl
    · exact hclean hno k' hlt'
    · rw [← hi]
      exact fun hc => h3 ⟨hc, hno⟩

/-- The search for an absent value ends at a cell that was never used exactly if there is no
tombstone on its way. -/
theorem findIndex_kEmpty_iff {s : NodeSetRep} (h : Table s.table) (hempty : kEmpty ∈ s.table)
    {v i : ℕ} (hi : s.findIndex v = some i) (habs : (v : ℤ) ∉ s.table) :
    cell s.table i = kEmpty ↔ ∀ j, OnPath s.table v j → cell s.table j ≠ kDel := by
  obtain ⟨k, hk⟩ := h.pow
  have hstart : hash v &&& (s.table.length - 1) = (hash v + 0) % s.table.length := by
    rw [and_mask hk, Nat.add_zero]
  constructor
  · refine Loop.iterate_spec (I := Unerased s.table v)
      (Q := fun i => cell s.table i = kEmpty → ∀ j, OnPath s.table v j → cell s.table j ≠ kDel)
      (fun p p' => probe_unerased h v p p') ?_ ⟨0, hstart, by simp⟩ hi
    rintro p i ⟨k, hpi, hseen, hclean⟩ hb hie j ⟨kj, hj, hpath⟩
    simp only [probe] at hb
    split_ifs at hb with h1 h2 h3
    all_goals cases hb
    · exact absurd (h1.trans hie) (natCast_ne_kEmpty v)
    · exact absurd ((hseen h3).symm.trans hie) kDel_ne_kEmpty
    · -- the way of the search ends at the cell `p.i`
      rcases lt_trichotomy kj k with hlt | rfl | hgt
      · exact hj ▸ hclean (by simpa using h3) kj hlt
      · rw [hj, ← hpi, h2]
        exact kDel_ne_kEmpty.symm
      · exact absurd (hpi ▸ h2) (hpath k hgt)
  · intro hclean
    obtain ⟨i', hi', hlt, hf⟩ := findIndex_spec h hempty v
    obtain rfl := Option.some.inj (hi.symm.trans hi')
    rcases hf with hv | ⟨-, hfree, hpath⟩
    · exact absurd (hv ▸ cell_mem hlt) habs
    · exact hfree.resolve_right (hclean i hpath)

/-! ### Writing a cell -/

theorem OnPath.set {table : List ℤ} {v i j : ℕ} {e : ℤ} (h : OnPath table v j) (he : e ≠ kEmpty)
    (hi : i < table.length) : OnPath (table.set i e) v j := by
  obtain ⟨k, hj, hk⟩ := h
  refine ⟨k, by rw [List.length_set]; exact hj, fun k' hk' => ?_⟩
  rw [List.length_set, cell_set hi]
  split_ifs
  · exact he
  · exact hk k' hk'

theorem mem_set_iff {table : List ℤ} {i : ℕ} {e x : ℤ} (hi : i < table.length)
    (hx : cell table i ≠ x) : x ∈ table.set i e ↔ x = e ∨ x ∈ table := by
  simp only [mem_iff_cell, List.length_set, cell_set hi]
  constructor
  · rintro ⟨j, hj, hjx⟩
    split_ifs at hjx with hij
    · exact Or.inl hjx.symm
    · exact Or.inr ⟨j, hj, hjx⟩
  · rintro (rfl | ⟨j, hj, hjx⟩)
    · exact ⟨i, hi, if_pos rfl⟩
    · have hij : i ≠ j := by rintro rfl; exact hx hjx
      exact ⟨j, hj, by rw [if_neg hij]; exact hjx⟩

/-- Storing an absent value in a free cell on its path keeps the table searchable. -/
theorem Table.set_free {table : List ℤ} (h : Table table) {v i : ℕ} (hi : i < table.length)
    (habs : (v : ℤ) ∉ table) (hpath : OnPath table v i) : Table (table.set i v) where
  pow := by rw [List.length_set]; exact h.pow
  cells := by
    intro e he
    rcases List.mem_or_eq_of_mem_set he with he | rfl
    · exact h.cells e he
    · exact Or.inr (Or.inr (Int.natCast_nonneg v))
  path := by
    intro u j hj hju
    rw [List.length_set] at hj
    rw [cell_set hi] at hju
    split_ifs at hju with hij
    · obtain rfl : v = u := by exact_mod_cast hju
      exact hij ▸ hpath.set (natCast_ne_kEmpty v) hi
    · exact (h.path u j hj hju).set (natCast_ne_kEmpty v) hi
  uniq := by
    intro u a b ha hb hau hbu
    rw [List.length_set] at ha hb
    have hv : ∀ j < table.length, cell table j ≠ v := fun j hj hc =>
      habs (hc ▸ cell_mem hj)
    rw [cell_set hi] at hau hbu
    split_ifs at hau hbu with h1 h2 h2
    · exact h1.symm.trans h2
    · exact absurd (hbu.trans hau.symm) (hv b hb)
    · exact absurd (hau.trans hbu.symm) (hv a ha)
    · exact h.uniq u a b ha hb hau hbu

/-- Erasing a value keeps the table searchable: the tombstone counts as in use. -/
theorem Table.set_kDel {table : List ℤ} (h : Table table) {i : ℕ} (hi : i < table.length) :
    Table (table.set i kDel) where
  pow := by rw [List.length_set]; exact h.pow
  cells := by
    intro e he
    rcases List.mem_or_eq_of_mem_set he with he | rfl
    · exact h.cells e he
    · exact Or.inr (Or.inl rfl)
  path := by
    intro u j hj hju
    rw [List.length_set] at hj
    rw [cell_set hi] at hju
    split_ifs at hju
    · exact absurd hju.symm (natCast_ne_kDel u)
    · exact (h.path u j hj hju).set kDel_ne_kEmpty hi
  uniq := by
    intro u a b ha hb hau hbu
    rw [List.length_set] at ha hb
    rw [cell_set hi] at hau hbu
    split_ifs at hau hbu with h1 h2
    · exact absurd hau.symm (natCast_ne_kDel u)
    · exact absurd hau.symm (natCast_ne_kDel u)
    · exact absurd hbu.symm (natCast_ne_kDel u)
    · exact h.uniq u a b ha hb hau hbu

/-- The number of cells in use after a cell was written. -/
theorem countP_set_cell {table : List ℤ} {i : ℕ} {e : ℤ} (hi : i < table.length)
    (he : e ≠ kEmpty) :
    (table.set i e).countP (fun x => decide (x ≠ kEmpty)) =
      if cell table i = kEmpty then table.countP (fun x => decide (x ≠ kEmpty)) + 1
      else table.countP (fun x => decide (x ≠ kEmpty)) := by
  rw [List.countP_set hi, cell_eq_getElem hi]
  by_cases hc : table[i] = kEmpty
  · simp [hc, he]
  · have hpos : 0 < table.countP (fun x => decide (x ≠ kEmpty)) :=
      List.countP_pos_iff.2 ⟨table[i], List.getElem_mem hi, by simpa using hc⟩
    rw [if_pos (by simpa using hc), if_pos (by simpa using he), if_neg hc]
    omega

/-- The elements are among the cells in use. -/
theorem countP_nonneg_le (table : List ℤ) :
    table.countP (fun e => decide (0 ≤ e)) ≤ table.countP fun e => decide (e ≠ kEmpty) := by
  apply List.countP_mono_left
  intro e _ he
  have hpos : 0 ≤ e := of_decide_eq_true he
  exact decide_eq_true (by unfold kEmpty; omega)

theorem exists_kEmpty {table : List ℤ}
    (h : table.countP (fun x => decide (x ≠ kEmpty)) < table.length) : kEmpty ∈ table := by
  by_contra hno
  have hall : table.countP (fun x => decide (x ≠ kEmpty)) = table.length :=
    List.countP_eq_length.2 fun e he => by
      have : e ≠ kEmpty := fun hc => hno (hc ▸ he)
      simpa using this
  omega

theorem Valid.kEmpty_mem {s : NodeSetRep} (h : Valid s) : kEmpty ∈ s.table :=
  exists_kEmpty (by have := h.room; have := h.occupied_eq; omega)

theorem Table.replicate (k : ℕ) : Table (List.replicate (2 ^ k) kEmpty) where
  pow := ⟨k, List.length_replicate⟩
  cells := fun e he => Or.inl (List.eq_of_mem_replicate he)
  path := fun v j hj hjv => by
    have := List.eq_of_mem_replicate (hjv ▸ cell_mem hj)
    exact absurd this (natCast_ne_kEmpty v)
  uniq := fun v i _ hi _ hiv _ => by
    have := List.eq_of_mem_replicate (hiv ▸ cell_mem hi)
    exact absurd this (natCast_ne_kEmpty v)

theorem valid_replicate (k : ℕ) :
    Valid ⟨List.replicate (kInline * 2 ^ k) kEmpty, 0⟩ where
  toTable := by
    rw [show kInline * 2 ^ k = 2 ^ (k + 3) by rw [kInline, pow_add]; ring]
    exact Table.replicate (k + 3)
  size := ⟨k, List.length_replicate⟩
  occupied_eq := by
    symm
    rw [List.countP_eq_zero]
    intro e he
    simp [List.eq_of_mem_replicate he]
  room := by
    have : 0 < 2 ^ k := Nat.two_pow_pos k
    simp only [List.length_replicate, kInline]
    omega

/-! ### The operations -/

/-- **`contains`** decides membership. -/
theorem contains_spec {s : NodeSetRep} (h : Valid s) (v : ℕ) :
    s.contains v = some (decide ((v : ℤ) ∈ s.table)) := by
  obtain ⟨i, hi, hlt, hf⟩ := findIndex_spec h.toTable h.kEmpty_mem v
  simp only [contains, hi, Option.bind_eq_bind, Option.bind_some, Option.pure_def,
    Option.some.injEq, decide_eq_decide]
  constructor
  · intro hc; exact hc ▸ cell_mem hlt
  · intro hm; exact hf.resolve_right (fun hr => hr.1 hm)

/-- **`erase`** removes exactly `v`. -/
theorem erase_spec {s : NodeSetRep} (h : Valid s) (v : ℕ) :
    ∃ s', s.erase v = some s' ∧ Valid s' ∧
      ∀ u : ℕ, (u : ℤ) ∈ s'.table ↔ u ≠ v ∧ (u : ℤ) ∈ s.table := by
  obtain ⟨i, hi, hlt, hf⟩ := findIndex_spec h.toTable h.kEmpty_mem v
  by_cases hc : cell s.table i = v
  · refine ⟨⟨s.table.set i kDel, s.occupied⟩, by simp [erase, hi, hc], ?_, fun u => ?_⟩
    · exact
        { toTable := h.toTable.set_kDel hlt
          size := by simpa using h.size
          occupied_eq := by
            rw [countP_set_cell hlt kDel_ne_kEmpty, if_neg (by rw [hc]; exact natCast_ne_kEmpty v)]
            exact h.occupied_eq
          room := by simpa using h.room }
    · simp only [mem_iff_cell, List.length_set, cell_set hlt]
      constructor
      · rintro ⟨j, hj, hju⟩
        split_ifs at hju with hij
        · exact absurd hju.symm (natCast_ne_kDel u)
        · refine ⟨?_, j, hj, hju⟩
          rintro rfl
          exact hij (h.uniq u i j hlt hj hc hju)
      · rintro ⟨hne, j, hj, hju⟩
        have hij : i ≠ j := by
          rintro rfl
          exact hne (by exact_mod_cast hju.symm.trans hc)
        exact ⟨j, hj, by rw [if_neg hij]; exact hju⟩
  · have habs : (v : ℤ) ∉ s.table := (hf.resolve_left hc).1
    refine ⟨s, by simp [erase, hi, hc], h, fun u => ⟨fun hu => ⟨?_, hu⟩, fun hu => hu.2⟩⟩
    rintro rfl
    exact habs hu

theorem occupied_erase {s s' : NodeSetRep} {v : ℕ} (h : s.erase v = some s') :
    s'.occupied = s.occupied := by
  obtain ⟨i, -, h⟩ := Option.bind_eq_some_iff.1 h
  split_ifs at h <;> cases h <;> rfl

/-- What `insert` establishes. -/
def Inserted (s : NodeSetRep) (v : ℕ) (r : NodeSetRep × Bool) : Prop :=
  Valid r.1 ∧ (r.2 = true ↔ (v : ℤ) ∉ s.table) ∧
    ∀ u : ℕ, (u : ℤ) ∈ r.1.table ↔ u = v ∨ (u : ℤ) ∈ s.table

theorem inserted_present {s : NodeSetRep} (h : Valid s) {v : ℕ} (hv : (v : ℤ) ∈ s.table) :
    Inserted s v (s, false) :=
  ⟨h, by simpa using hv, fun u => ⟨Or.inr, fun hu => hu.elim (fun e => e ▸ hv) id⟩⟩

/-- The counter of `insert` after it wrote the cell at `i`. -/
def occupiedAt (s : NodeSetRep) (i : ℕ) : ℕ :=
  if cell s.table i = kEmpty then s.occupied + 1 else s.occupied

theorem occupiedAt_le (s : NodeSetRep) (i : ℕ) : s.occupiedAt i ≤ s.occupied + 1 := by
  unfold occupiedAt
  split_ifs <;> omega

/-- One level of `insert`, once the search has found a cell. -/
theorem insertAux_succ {double : ℕ → ℕ} {s : NodeSetRep} {v i : ℕ} (hi : s.findIndex v = some i)
    (depth : ℕ) : insertAux double (depth + 1) s v =
      if cell s.table i = v then some (s, false)
      else if s.table.length - s.table.length / 4 ≤ s.occupiedAt i then
        (grow double (insertAux double depth) (s.table.set i v)).map fun s' => (s', true)
      else some (⟨s.table.set i v, s.occupiedAt i⟩, true) := by
  simp only [insertAux, occupiedAt, hi, List.length_set, Option.bind_eq_bind, Option.bind_some,
    Option.pure_def, Option.map_eq_bind]
  rfl

/-- Storing an absent value in the free cell that the search found keeps the set valid as long as it
leaves the table below three quarters. -/
theorem Valid.set_free {s : NodeSetRep} (h : Valid s) {v i : ℕ} (hi : i < s.table.length)
    (habs : (v : ℤ) ∉ s.table) (hpath : OnPath s.table v i)
    (hroom : s.occupiedAt i < s.table.length - s.table.length / 4) :
    Valid ⟨s.table.set i v, s.occupiedAt i⟩ where
  toTable := h.toTable.set_free hi habs hpath
  size := by simpa using h.size
  occupied_eq := by
    rw [countP_set_cell hi (natCast_ne_kEmpty v), ← h.occupied_eq]
    rfl
  room := by simpa using hroom

/-- The elements after a value was stored in a free cell. -/
theorem mem_set_free {table : List ℤ} {v i : ℕ} (hi : i < table.length)
    (hfree : cell table i = kEmpty ∨ cell table i = kDel) (u : ℕ) :
    (u : ℤ) ∈ table.set i v ↔ u = v ∨ (u : ℤ) ∈ table := by
  have hu : cell table i ≠ u := by
    rintro hcu
    rw [hcu] at hfree
    exact hfree.elim (natCast_ne_kEmpty u) (natCast_ne_kDel u)
  rw [mem_set_iff hi hu, Nat.cast_inj]

/-- `insert` when one more cell in use leaves the table below three quarters: it does not grow. -/
theorem insertAux_of_room (double : ℕ → ℕ) {s : NodeSetRep} (h : Valid s) (v depth : ℕ)
    (hroom : s.occupied + 1 < s.table.length - s.table.length / 4) :
    ∃ r, insertAux double (depth + 1) s v = some r ∧ Inserted s v r ∧
      r.1.table.length = s.table.length ∧ r.1.occupied ≤ s.occupied + 1 := by
  obtain ⟨i, hi, hlt, hf⟩ := findIndex_spec h.toTable h.kEmpty_mem v
  rw [insertAux_succ hi]
  by_cases hc : cell s.table i = v
  · rw [if_pos hc]
    exact ⟨(s, false), rfl, inserted_present h (hc ▸ cell_mem hlt), rfl, Nat.le_succ _⟩
  · obtain ⟨habs, hfree, hpath⟩ := hf.resolve_left hc
    have hle := s.occupiedAt_le i
    rw [if_neg hc, if_neg (by omega)]
    refine ⟨_, rfl, ⟨?_, by simpa using habs, mem_set_free hlt hfree⟩, List.length_set, hle⟩
    exact h.set_free hlt habs hpath (by omega)

/-- `Grow` returns a valid table of twice the size with the same elements and no other cells in
use. -/
theorem grow_spec (double : ℕ → ℕ) (copy : List ℤ) (depth k : ℕ)
    (hk : copy.length = kInline * 2 ^ k) (hdouble : double copy.length = copy.length * 2) :
    ∃ s, grow double (insertAux double (depth + 1)) copy = some s ∧ Valid s ∧
      s.table.length = copy.length * 2 ∧
      s.occupied ≤ copy.countP (fun e => decide (0 ≤ e)) ∧
      ∀ u : ℕ, (u : ℤ) ∈ s.table ↔ (u : ℤ) ∈ copy := by
  have hpos : 0 < copy.length := by rw [hk]; exact Nat.mul_pos (by decide) (Nat.two_pow_pos k)
  -- induction on the entries still to be reinserted
  suffices H : ∀ (rest : List ℤ) (t : NodeSetRep), Valid t → t.table.length = copy.length * 2 →
      t.occupied + rest.length ≤ copy.length →
      ∃ s, rest.foldlM (fun t e =>
          if 0 ≤ e then (insertAux double (depth + 1) t e.toNat).map Prod.fst else some t) t =
            some s ∧ Valid s ∧ s.table.length = copy.length * 2 ∧
        s.occupied ≤ t.occupied + rest.countP (fun e => decide (0 ≤ e)) ∧
        ∀ u : ℕ, (u : ℤ) ∈ s.table ↔ (u : ℤ) ∈ t.table ∨ (u : ℤ) ∈ rest by
    have hfresh := valid_replicate (k + 1)
    rw [show kInline * 2 ^ (k + 1) = copy.length * 2 by rw [hk, pow_succ]; ring] at hfresh
    obtain ⟨s, hs, hv, hlen, hocc, hmem⟩ := H copy _ hfresh List.length_replicate (by simp)
    refine ⟨s, by rw [grow, hdouble, hs], hv, hlen, hocc.trans_eq (Nat.zero_add _),
      fun u => (hmem u).trans ?_⟩
    refine ⟨fun hu => hu.resolve_left fun hu => ?_, Or.inr⟩
    exact natCast_ne_kEmpty u (List.eq_of_mem_replicate hu)
  intro rest
  induction rest with
  | nil => exact fun t ht hlen _ => ⟨t, rfl, ht, hlen, Nat.le_add_right _ _, by simp⟩
  | cons e rest ih =>
    intro t ht hlen hocc
    rw [List.length_cons] at hocc
    by_cases he : 0 ≤ e
    · obtain ⟨r, hr, ⟨hrv, -, hrm⟩, hrl, hro⟩ := insertAux_of_room double ht e.toNat depth
        (by rw [hlen]; omega)
      obtain ⟨s, hs, hsv, hsl, hso, hsm⟩ := ih r.1 hrv (hrl.trans hlen) (by omega)
      refine ⟨s, by simp [he, hr, hs], hsv, hsl, ?_, fun u => ?_⟩
      · rw [List.countP_cons, if_pos (decide_eq_true he)]
        omega
      · rw [hsm, hrm, List.mem_cons, show (u : ℤ) = e ↔ u = e.toNat by omega]
        tauto
    · obtain ⟨s, hs, hsv, hsl, hso, hsm⟩ := ih t ht hlen (by omega)
      refine ⟨s, by simp [he, hs], hsv, hsl, ?_, fun u => ?_⟩
      · rwa [List.countP_cons, if_neg (by simpa using he)]
      · have hue : (u : ℤ) ≠ e := by omega
        rw [hsm, List.mem_cons]
        tauto

/-- **`insert`** adds exactly `v` and reports whether it was absent. -/
theorem insert_spec {s : NodeSetRep} (h : Valid s) (v : ℕ) :
    ∃ r, s.insert v = some r ∧ Inserted s v r := by
  obtain ⟨i, hi, hlt, hf⟩ := findIndex_spec h.toTable h.kEmpty_mem v
  rw [insert, insertAux_succ hi]
  by_cases hc : cell s.table i = v
  · rw [if_pos hc]
    exact ⟨(s, false), rfl, inserted_present h (hc ▸ cell_mem hlt)⟩
  obtain ⟨habs, hfree, hpath⟩ := hf.resolve_left hc
  rw [if_neg hc]
  by_cases hgrow : s.table.length - s.table.length / 4 ≤ s.occupiedAt i
  · obtain ⟨k, hk⟩ := h.size
    obtain ⟨g, hg, hgv, -, -, hgm⟩ :=
      grow_spec (fun n => n * 2) (s.table.set i v) 0 k (by simpa using hk) rfl
    rw [if_pos hgrow, hg]
    exact ⟨(g, true), rfl, hgv, by simpa using habs,
      fun u => (hgm u).trans (mem_set_free hlt hfree u)⟩
  · rw [if_neg hgrow]
    exact ⟨_, rfl, h.set_free hlt habs hpath (Nat.not_le.1 hgrow), by simpa using habs,
      mem_set_free hlt hfree⟩

/-- An insertion brings at most one more cell into use. -/
theorem occupied_insert_le {s : NodeSetRep} (h : Valid s) {v : ℕ} {r : NodeSetRep × Bool}
    (hr : s.insert v = some r) : r.1.occupied ≤ s.occupied + 1 := by
  obtain ⟨i, hi, hlt, -⟩ := findIndex_spec h.toTable h.kEmpty_mem v
  have hle := s.occupiedAt_le i
  rw [insert, insertAux_succ hi] at hr
  split_ifs at hr with hc hgrow
  · cases hr
    exact Nat.le_succ _
  · obtain ⟨k, hk⟩ := h.size
    obtain ⟨g, hg, -, -, hocc, -⟩ :=
      grow_spec (fun n => n * 2) (s.table.set i v) 0 k (by simpa using hk) rfl
    rw [hg] at hr
    cases hr
    have hcount := countP_set_cell hlt (natCast_ne_kEmpty v)
    rw [← h.occupied_eq] at hcount
    calc g.occupied ≤ _ := hocc
      _ ≤ _ := countP_nonneg_le _
      _ = s.occupiedAt i := hcount
      _ ≤ s.occupied + 1 := hle
  · cases hr
    exact hle

theorem valid_init : Valid init := by simpa [init] using valid_replicate 0

/-- Each element is visited once. -/
theorem nodup_elems {s : NodeSetRep} (h : Valid s) : s.elems.Nodup := by
  refine List.Nodup.map_on ?_ ?_
  · intro a ha b hb hab
    simp only [List.mem_filter, decide_eq_true_eq] at ha hb
    omega
  · rw [List.Nodup, List.pairwise_filter, List.pairwise_iff_getElem]
    intro i j hi hj hij hpi _ heq
    obtain ⟨v, hv⟩ := Int.eq_ofNat_of_zero_le (of_decide_eq_true hpi)
    have hiv : cell s.table i = v := (cell_eq_getElem hi).trans hv
    have hjv : cell s.table j = v := (cell_eq_getElem hj).trans (heq ▸ hv)
    exact absurd (h.uniq v i j hi hj hiv hjv) (by omega)

theorem length_elems_le {s : NodeSetRep} (h : Valid s) : s.elems.length ≤ s.occupied := by
  rw [elems, List.length_map, ← List.countP_eq_length_filter, h.occupied_eq]
  exact countP_nonneg_le s.table

theorem mem_elems {s : NodeSetRep} {v : ℕ} : v ∈ s.elems ↔ (v : ℤ) ∈ s.table := by
  simp only [elems, List.mem_map, List.mem_filter, decide_eq_true_eq]
  constructor
  · rintro ⟨e, ⟨he, hpos⟩, rfl⟩
    rwa [Int.toNat_of_nonneg hpos]
  · exact fun h => ⟨v, ⟨h, Int.natCast_nonneg v⟩, Int.toNat_natCast v⟩

end NodeSetRep

/-! ### The set as a type of its own -/

/-- A `NodeSet` object: the members together with the class invariant. -/
structure NodeSet where
  rep : NodeSetRep
  valid : rep.Valid

namespace NodeSet

/-- A new set. -/
def empty : NodeSet := ⟨NodeSetRep.init, NodeSetRep.valid_init⟩

instance : Inhabited NodeSet := ⟨empty⟩

/-- `contains`. -/
def contains (s : NodeSet) (v : ℕ) : Bool :=
  (s.rep.contains v).get (by rw [NodeSetRep.contains_spec s.valid]; rfl)

/-- `insert`. -/
def insert (s : NodeSet) (v : ℕ) : NodeSet × Bool :=
  let r := (s.rep.insert v).get (by
    obtain ⟨r, hr, -⟩ := NodeSetRep.insert_spec s.valid v
    rw [hr]; rfl)
  (⟨r.1, by
    obtain ⟨r', hr', h⟩ := NodeSetRep.insert_spec s.valid v
    simpa only [r, hr', Option.get_some] using h.1⟩, r.2)

/-- `erase`. -/
def erase (s : NodeSet) (v : ℕ) : NodeSet :=
  ⟨(s.rep.erase v).get (by
    obtain ⟨s', hs', -⟩ := NodeSetRep.erase_spec s.valid v
    rw [hs']; rfl), by
    obtain ⟨s', hs', h⟩ := NodeSetRep.erase_spec s.valid v
    simpa only [hs', Option.get_some] using h.1⟩

/-- `clear`. -/
def clear (_ : NodeSet) : NodeSet := empty

/-- The elements in the order in which `HASH_FOR_EACH` visits them. -/
def elems (s : NodeSet) : List ℕ := s.rep.elems

instance : Membership ℕ NodeSet := ⟨fun s v => v ∈ s.elems⟩

instance (s : NodeSet) (v : ℕ) : Decidable (v ∈ s) := inferInstanceAs (Decidable (v ∈ s.elems))

theorem mem_def {s : NodeSet} {v : ℕ} : v ∈ s ↔ (v : ℤ) ∈ s.rep.table := NodeSetRep.mem_elems

@[simp] theorem mem_elems {s : NodeSet} {v : ℕ} : v ∈ s.elems ↔ v ∈ s := Iff.rfl

theorem nodup_elems (s : NodeSet) : s.elems.Nodup := NodeSetRep.nodup_elems s.valid

@[simp] theorem contains_iff {s : NodeSet} {v : ℕ} : s.contains v = true ↔ v ∈ s := by
  simp [contains, NodeSetRep.contains_spec s.valid, mem_def]

theorem insert_inserted (s : NodeSet) (v : ℕ) :
    NodeSetRep.Inserted s.rep v ((s.insert v).1.rep, (s.insert v).2) := by
  obtain ⟨r, hr, h⟩ := NodeSetRep.insert_spec s.valid v
  simpa only [insert, hr, Option.get_some] using h

@[simp] theorem mem_insert {s : NodeSet} {u v : ℕ} : u ∈ (s.insert v).1 ↔ u = v ∨ u ∈ s := by
  rw [mem_def, mem_def]; exact (s.insert_inserted v).2.2 u

theorem insert_snd {s : NodeSet} {v : ℕ} : (s.insert v).2 = true ↔ v ∉ s := by
  rw [mem_def]; exact (s.insert_inserted v).2.1

@[simp] theorem mem_erase {s : NodeSet} {u v : ℕ} : u ∈ s.erase v ↔ u ≠ v ∧ u ∈ s := by
  obtain ⟨s', hs', -, h⟩ := NodeSetRep.erase_spec s.valid v
  rw [mem_def, mem_def]
  simpa only [erase, hs', Option.get_some] using h u

@[simp] theorem not_mem_empty (v : ℕ) : v ∉ empty := by
  rw [mem_def]
  exact fun h => NodeSetRep.natCast_ne_kEmpty v (List.eq_of_mem_replicate h)

@[simp] theorem not_mem_clear {s : NodeSet} {v : ℕ} : v ∉ s.clear := not_mem_empty v

end NodeSet

end BugInsight

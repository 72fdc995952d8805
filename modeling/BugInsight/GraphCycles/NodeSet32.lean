import BugInsight.GraphCycles.StoredNodeSet

/-!
# The limit of NodeSet

`NodeSetRep.insert32` differs from `NodeSetRep.insert` in one case.

* `NodeSetRep.Overfills`: the insertion has to double a table of `2 ^ 31` cells;
* `insert32_of_fits`, `insert32_overfills`: otherwise the size of the table does not matter, and
  then the elements are inserted into a table without cells;
* `StoredNodeSet.insert32_stores`: this is what happens to the stored set;
* `NodeSet.insert32`: the same on sets with their invariant;
* `NodeSet.Grown.overfills_iff`: how large a set is that cannot grow.
-/

namespace BugInsight

namespace NodeSetRep

/-- The insertion of `v` brings a table of `2 ^ 31` cells to three quarters: one cell is missing,
`v` is absent, and there is no tombstone to take on the way of its search. -/
def Overfills (s : NodeSetRep) (v : ℕ) : Prop :=
  maxVecSize ≤ s.table.length ∧ s.occupied + 1 = s.table.length - s.table.length / 4 ∧
    (v : ℤ) ∉ s.table ∧ ∀ j, OnPath s.table v j → cell s.table j ≠ kDel

variable {double : ℕ → ℕ} {s t : NodeSetRep} {v i : ℕ}

/-- With room in the table it does not matter how sizes are doubled. -/
theorem insertAux_congr_of_room (double double' : ℕ → ℕ) (h : Valid s) (v depth : ℕ)
    (hroom : s.occupied + 1 < s.table.length - s.table.length / 4) :
    insertAux double (depth + 1) s v = insertAux double' (depth + 1) s v := by
  obtain ⟨i, hi, -, -⟩ := findIndex_spec h.toTable h.kEmpty_mem v
  have hle := s.occupiedAt_le i
  have hno : ¬ s.table.length - s.table.length / 4 ≤ s.occupiedAt i := by omega
  rw [insertAux_succ hi, insertAux_succ hi, if_neg hno, if_neg hno]

/-- Nor in the loop of `Grow`. -/
theorem grow_congr (double double' : ℕ → ℕ) (copy : List ℤ) (depth k : ℕ)
    (hk : copy.length = kInline * 2 ^ k)
    (hdouble : double copy.length = copy.length * 2)
    (hdouble' : double' copy.length = copy.length * 2) :
    grow double (insertAux double (depth + 1)) copy =
      grow double' (insertAux double' (depth + 1)) copy := by
  have hpos : 0 < copy.length := by rw [hk]; exact Nat.mul_pos (by decide) (Nat.two_pow_pos k)
  -- induction on the entries still to be reinserted
  suffices H : ∀ (rest : List ℤ) (t : NodeSetRep), Valid t → t.table.length = copy.length * 2 →
      t.occupied + rest.length ≤ copy.length →
      rest.foldlM (fun t e =>
        if 0 ≤ e then (insertAux double (depth + 1) t e.toNat).map Prod.fst else some t) t =
      rest.foldlM (fun t e =>
        if 0 ≤ e then (insertAux double' (depth + 1) t e.toNat).map Prod.fst else some t) t by
    have hfresh := valid_replicate (k + 1)
    rw [show kInline * 2 ^ (k + 1) = copy.length * 2 by rw [hk, pow_succ]; ring] at hfresh
    rw [grow, grow, hdouble, hdouble']
    exact H copy _ hfresh List.length_replicate (by simp)
  intro rest
  induction rest with
  | nil => exact fun t _ _ _ => rfl
  | cons e rest ih =>
    intro t ht hlen hocc
    rw [List.length_cons] at hocc
    have hroom : t.occupied + 1 < t.table.length - t.table.length / 4 := by rw [hlen]; omega
    rw [List.foldlM_cons, List.foldlM_cons]
    split_ifs with he
    · obtain ⟨r, hr, hins, hrl, hro⟩ := insertAux_of_room double' ht e.toNat depth hroom
      rw [insertAux_congr_of_room double double' ht e.toNat depth hroom, hr]
      exact ih r.1 hins.1 (hrl.trans hlen) (by omega)
    · exact ih t ht hlen (by omega)

/-- There is nothing to find in a table without cells. -/
theorem insertAux_nil (h : t.table = []) (v depth : ℕ) : insertAux double depth t v = none := by
  cases depth with
  | zero => rfl
  | succ depth => simp [insertAux, findIndex, h, Loop.iterate]

/-- Nothing can be inserted again if the doubled size is `0`. -/
theorem grow_eq_none {copy : List ℤ} {e : ℤ} (hdouble : double copy.length = 0) (he : e ∈ copy)
    (hpos : 0 ≤ e) (depth : ℕ) : grow double (insertAux double depth) copy = none := by
  rw [grow, hdouble]
  generalize ht : (⟨List.replicate 0 kEmpty, 0⟩ : NodeSetRep) = t
  have hnil : t.table = [] := by rw [← ht, List.replicate_zero]
  clear ht hdouble
  induction copy with
  | nil => cases he
  | cons a copy ih =>
    rw [List.foldlM_cons]
    split_ifs with ha
    · rw [insertAux_nil hnil]
      rfl
    · refine ih ((List.mem_cons.1 he).resolve_left ?_)
      rintro rfl
      exact ha hpos

/-- **An insertion that fits** does not depend on the width of the sizes. -/
theorem insert32_of_fits (h : Valid s) (hfit : ¬ s.Overfills v) : s.insert32 v = s.insert v := by
  obtain ⟨i, hi, hlt, hf⟩ := findIndex_spec h.toTable h.kEmpty_mem v
  rw [insert32, insert, insertAux_succ hi, insertAux_succ hi]
  split_ifs with hc hgrow
  · rfl
  · have habs : (v : ℤ) ∉ s.table := (hf.resolve_left hc).1
    obtain ⟨hocc, hpath⟩ := (StoredNodeSet.grows_iff h hi habs).1 hgrow
    have hlen : s.table.length < maxVecSize :=
      Nat.not_le.1 fun hle => hfit ⟨hle, hocc, habs, hpath⟩
    unfold maxVecSize at hlen
    obtain ⟨k, hk⟩ := h.size
    rw [grow_congr (fun n => n * 2 % 2 ^ 32) (fun n => n * 2) (s.table.set i v) 0 k
      (by rw [List.length_set, hk]) (by rw [List.length_set]; omega) rfl]
  · rfl

/-- The table then keeps to `2 ^ 31` cells. -/
theorem length_insert_le (h : Valid s) (hfit : ¬ s.Overfills v)
    (hle : s.table.length ≤ maxVecSize) {r : NodeSetRep × Bool} (hr : s.insert v = some r) :
    r.1.table.length ≤ maxVecSize := by
  obtain ⟨i, hi, hlt, hf⟩ := findIndex_spec h.toTable h.kEmpty_mem v
  rw [insert, insertAux_succ hi] at hr
  split_ifs at hr with hc hgrow
  · cases hr
    exact hle
  · have habs : (v : ℤ) ∉ s.table := (hf.resolve_left hc).1
    obtain ⟨hocc, hpath⟩ := (StoredNodeSet.grows_iff h hi habs).1 hgrow
    have hlen : s.table.length < maxVecSize :=
      Nat.not_le.1 fun hle => hfit ⟨hle, hocc, habs, hpath⟩
    obtain ⟨k, hk⟩ := h.pow
    obtain ⟨j, hj⟩ := h.size
    obtain ⟨g, hg, -, hglen, -⟩ := grow_spec (fun n => n * 2) (s.table.set i v) 0 j
      (by rw [List.length_set, hj]) rfl
    rw [hg] at hr
    cases hr
    rw [hk, maxVecSize, Nat.pow_lt_pow_iff_right (by decide)] at hlen
    rw [hglen, List.length_set, hk, ← pow_succ]
    exact Nat.pow_le_pow_right (by decide) hlen
  · cases hr
    rw [List.length_set]
    exact hle

/-- **An insertion that overfills the table** does not find a cell for the elements. -/
theorem insert32_overfills (h : Valid s) (hover : s.Overfills v) : s.insert32 v = none := by
  obtain ⟨hlen, hocc, habs, hpath⟩ := hover
  obtain ⟨i, hi, hlt, -⟩ := findIndex_spec h.toTable h.kEmpty_mem v
  have hc : cell s.table i ≠ v := fun hc => habs (hc ▸ cell_mem hlt)
  have hgrow := (StoredNodeSet.grows_iff h hi habs).2 ⟨hocc, hpath⟩
  have hzero : (s.table.set i v).length * 2 % 2 ^ 32 = 0 := by
    obtain ⟨k, hk⟩ := h.pow
    rw [List.length_set, hk, ← pow_succ]
    rw [hk, maxVecSize, Nat.pow_le_pow_iff_right (by decide)] at hlen
    exact Nat.mod_eq_zero_of_dvd (pow_dvd_pow 2 (by omega))
  rw [insert32, insertAux_succ hi, if_neg hc, if_pos hgrow,
    grow_eq_none hzero (List.mem_set hlt v) (Int.natCast_nonneg v)]
  rfl

/-- A tombstone takes a cell. -/
theorem length_elems_lt (h : Valid s) (hdel : kDel ∈ s.table) : s.elems.length < s.occupied := by
  obtain ⟨l₁, l₂, htable⟩ := List.append_of_mem hdel
  have h₁ := countP_nonneg_le l₁
  have h₂ := countP_nonneg_le l₂
  rw [elems, List.length_map, ← List.countP_eq_length_filter, h.occupied_eq, htable,
    List.countP_append, List.countP_append, List.countP_cons, List.countP_cons]
  have hno : decide (0 ≤ kDel) = false := rfl
  have hyes : decide (kDel ≠ kEmpty) = true := rfl
  rw [hno, hyes, if_neg Bool.false_ne_true, if_pos rfl]
  omega

/-- A table of `2 ^ 31` cells at most with `3 * 2 ^ 29 - 1` elements and no tombstones is full. -/
theorem overfills_of_length (h : Valid s) (hle : s.table.length ≤ maxVecSize)
    (hocc : s.occupied < maxVecSize - maxVecSize / 4)
    (helems : maxVecSize - maxVecSize / 4 ≤ s.elems.length + 1) (habs : (v : ℤ) ∉ s.table) :
    s.Overfills v := by
  have hcount := length_elems_le h
  have hroom := h.room
  obtain ⟨k, hk⟩ := h.size
  have hlen : s.table.length = maxVecSize := by
    rw [hk] at hroom hle ⊢
    unfold kInline maxVecSize at *
    omega
  refine ⟨hlen.ge, by omega, habs, fun j hpath hdel => ?_⟩
  have hlt : j < s.table.length := by
    obtain ⟨k, rfl, -⟩ := hpath
    exact Nat.mod_lt _ h.length_pos
  have := length_elems_lt h (hdel ▸ cell_mem hlt)
  omega

end NodeSetRep

namespace StoredNodeSet

variable {s : StoredNodeSet} {t : NodeSetRep} {v : ℕ}

theorem Stores.overfills_iff (h : Stores s t) : s.Overfills v ↔ t.Overfills v := by
  have hle := h.length_le
  rw [Overfills, NodeSetRep.Overfills, h.size_eq, h.rep_eq, h.occupied]
  constructor
  · rintro ⟨hmax, hocc, hrest⟩
    exact ⟨hmax.ge, by rw [hmax]; exact hocc, hrest⟩
  · rintro ⟨hge, hocc, hrest⟩
    have hmax := le_antisymm hle hge
    exact ⟨hmax, by rw [← hmax]; exact hocc, hrest⟩

/-- **The stored set** does what `insert32` does.  Where this does not return, no call returns with
cells in its table. -/
theorem insert32_stores (h : Stores s t) (ht : t.Valid) :
    (∀ r, t.insert32 v = some r → ∃ s', s.insert v = some (s', r.2) ∧ Stores s' r.1) ∧
      (t.insert32 v = none → ∀ r, s.insert v = some r → r.1.table.size = 0) := by
  by_cases hover : t.Overfills v
  · refine ⟨fun r hr => ?_, fun _ r hr => insert_overfull h ht (h.overfills_iff.2 hover) hr⟩
    rw [NodeSetRep.insert32_overfills ht hover] at hr
    cases hr
  · obtain ⟨s', r, hs', hr, h'⟩ := insert_stores h ht (mt h.overfills_iff.1 hover)
    rw [NodeSetRep.insert32_of_fits ht hover, hr]
    refine ⟨fun r' hr' => ?_, nofun⟩
    cases hr'
    exact ⟨s', hs', h'⟩

end StoredNodeSet

namespace NodeSet

/-- The insertion has to double a table of `2 ^ 31` cells. -/
def Overfills (s : NodeSet) (v : ℕ) : Prop := s.rep.Overfills v

/-- `insert`. -/
def insert32 (s : NodeSet) (v : ℕ) : Option (NodeSet × Bool) :=
  (s.rep.insert32 v).pmap (fun r hr => (⟨r.1, hr⟩, r.2)) (by
    intro r hr
    have hfit : ¬ s.rep.Overfills v := fun hover => by
      rw [NodeSetRep.insert32_overfills s.valid hover] at hr
      cases hr
    rw [NodeSetRep.insert32_of_fits s.valid hfit] at hr
    obtain ⟨r', hr', hins⟩ := NodeSetRep.insert_spec s.valid v
    rw [hr] at hr'
    cases hr'
    exact hins.1)

variable {s : NodeSet} {v : ℕ}

theorem insert32_of_fits (h : ¬ s.Overfills v) : s.insert32 v = some (s.insert v) := by
  obtain ⟨r, hr, -⟩ := NodeSetRep.insert_spec s.valid v
  have hr32 := (NodeSetRep.insert32_of_fits s.valid h).trans hr
  simp only [insert32, insert, hr, hr32, Option.pmap_some, Option.get_some]

theorem insert32_overfills (h : s.Overfills v) : s.insert32 v = none := by
  simp only [insert32, NodeSetRep.insert32_overfills s.valid h, Option.pmap_none]

theorem insert32_eq_none_iff : s.insert32 v = none ↔ s.Overfills v := by
  refine ⟨fun h => ?_, insert32_overfills⟩
  by_contra hfit
  rw [insert32_of_fits hfit] at h
  cases h

instance (s : NodeSet) (v : ℕ) : Decidable (s.Overfills v) :=
  decidable_of_iff ((s.insert32 v).isNone = true) (by
    rw [Option.isNone_iff_eq_none, insert32_eq_none_iff])

/-- Fewer than `3 * 2 ^ 29 - 1` cells are in use. -/
theorem not_overfills_of_lt (h : s.rep.occupied + 1 < 3 * 2 ^ 29) : ¬ s.Overfills v := by
  rintro ⟨hlen, hocc, -⟩
  unfold maxVecSize at *
  omega

/-! ### Sets that only grow -/

/-- The set has no tombstones, and a table that `2 ^ 31` cells are enough for. -/
structure Grown (s : NodeSet) : Prop where
  occupied : s.rep.occupied ≤ s.elems.length
  size : s.rep.table.length ≤ maxVecSize

theorem grown_empty : empty.Grown := ⟨by decide, by decide⟩

theorem insert_rep (s : NodeSet) (v : ℕ) :
    s.rep.insert v = some ((s.insert v).1.rep, (s.insert v).2) := by
  obtain ⟨r, hr, -⟩ := NodeSetRep.insert_spec s.valid v
  simp only [insert, hr, Option.get_some]

/-- An element that is there is not inserted again. -/
theorem insert_of_mem (h : v ∈ s) : s.insert v = (s, false) := by
  obtain ⟨i, hi, -, hf⟩ := NodeSetRep.findIndex_spec s.valid.toTable s.valid.kEmpty_mem v
  have hc : NodeSetRep.cell s.rep.table i = v := by
    by_contra hc
    exact (hf.resolve_left hc).1 (mem_def.1 h)
  have hrep : s.rep.insert v = some (s.rep, false) := by
    rw [NodeSetRep.insert, NodeSetRep.insertAux_succ hi, if_pos hc]
  simp only [insert, hrep, Option.get_some]

theorem length_elems_insert (h : v ∉ s) :
    (s.insert v).1.elems.length = s.elems.length + 1 := by
  have hperm : (s.insert v).1.elems.Perm (v :: s.elems) := by
    rw [List.perm_ext_iff_of_nodup (nodup_elems _) (List.nodup_cons.2 ⟨h, s.nodup_elems⟩)]
    intro u
    rw [mem_elems, mem_insert, List.mem_cons, mem_elems]
  exact hperm.length_eq

theorem Grown.insert (hs : s.Grown) (hfit : ¬ s.Overfills v) : (s.insert v).1.Grown := by
  by_cases hv : v ∈ s
  · rw [insert_of_mem hv]
    exact hs
  · refine ⟨?_, NodeSetRep.length_insert_le s.valid hfit hs.size (s.insert_rep v)⟩
    rw [length_elems_insert hv]
    exact (NodeSetRep.occupied_insert_le s.valid (s.insert_rep v)).trans
      (Nat.succ_le_succ hs.occupied)

theorem Grown.length_lt (hs : s.Grown) : s.elems.length < 3 * 2 ^ 29 := by
  have hle := NodeSetRep.length_elems_le s.valid
  have hsize := hs.size
  have hroom := s.valid.room
  unfold elems
  unfold maxVecSize at hsize
  omega

/-- **The largest set** has `3 * 2 ^ 29 - 1` elements. -/
theorem Grown.overfills_iff (hs : s.Grown) :
    s.Overfills v ↔ v ∉ s ∧ s.elems.length + 1 = 3 * 2 ^ 29 := by
  have hle := NodeSetRep.length_elems_le s.valid
  have hocc := hs.occupied
  have hsize := hs.size
  have hroom := s.valid.room
  constructor
  · rintro ⟨hlen, hfull, habs, -⟩
    refine ⟨mt mem_def.1 habs, ?_⟩
    unfold elems at *
    unfold maxVecSize at *
    omega
  · rintro ⟨habs, hlen⟩
    refine NodeSetRep.overfills_of_length s.valid hsize ?_ ?_ (mt mem_def.2 habs)
    · unfold maxVecSize at *
      omega
    · unfold elems at hlen
      rw [hlen]
      decide

end NodeSet

end BugInsight

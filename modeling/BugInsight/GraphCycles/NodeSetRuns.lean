import BugInsight.GraphCycles.StoredNodeSet
import BugInsight.Runs

/-!
# Sequences of calls on a NodeSet

What a `NodeSet` is for: after any calls of `insert`, `erase` and `clear` it holds the values that
were inserted and neither erased nor cleared since.

* `Present`: the set that the calls describe;
* `Sound`: the table is searchable and shows exactly that set;
* `Refines`: the object is sound after every part of the calls, and every `insert` tells whether its
  value was absent;
* `refines_iff`: this is so exactly if no call overfills a table of `2 ^ 31` cells;
* `refines_of_few`: fewer than `3 * 2 ^ 29` insertions never do.
-/

namespace BugInsight

/-- A call that changes a set.  The values are node indices, below `2 ^ 31`. -/
inductive NodeSetCall
  | insert (v : ℕ)
  | erase (v : ℕ)
  | clear
  deriving DecidableEq

/-- An insertion. -/
def NodeSetCall.isInsert : NodeSetCall → Bool
  | .insert _ => true
  | .erase _ => false
  | .clear => false

/-- The value was inserted and not erased or cleared since. -/
def Present (calls : List NodeSetCall) (v : ℕ) : Prop :=
  ∃ pre post, calls = pre ++ .insert v :: post ∧ .erase v ∉ post ∧ .clear ∉ post

theorem not_present_nil (v : ℕ) : ¬ Present [] v := by
  rintro ⟨pre, post, h, -⟩
  simp at h

theorem present_concat {calls : List NodeSetCall} {c : NodeSetCall} {v : ℕ} :
    Present (calls ++ [c]) v ↔
      c = .insert v ∨ Present calls v ∧ c ≠ .erase v ∧ c ≠ .clear := by
  constructor
  · rintro ⟨pre, post, heq, herase, hclear⟩
    rcases List.eq_nil_or_concat post with rfl | ⟨post', d, rfl⟩
    · obtain ⟨-, hc⟩ := List.append_inj' heq rfl
      exact Or.inl (List.cons.inj hc).1
    · rw [List.concat_eq_append] at heq herase hclear
      rw [← List.cons_append, ← List.append_assoc] at heq
      obtain ⟨rfl, hc⟩ := List.append_inj' heq rfl
      obtain rfl := (List.cons.inj hc).1
      simp only [List.mem_append, List.mem_singleton, not_or] at herase hclear
      exact Or.inr ⟨⟨pre, post', rfl, herase.1, hclear.1⟩, Ne.symm herase.2, Ne.symm hclear.2⟩
  · rintro (rfl | ⟨⟨pre, post, rfl, herase, hclear⟩, he, hc⟩)
    · exact ⟨calls, [], rfl, List.not_mem_nil, List.not_mem_nil⟩
    · refine ⟨pre, post ++ [c], by simp, ?_, ?_⟩
      · simpa using ⟨herase, he.symm⟩
      · simpa using ⟨hclear, hc.symm⟩

namespace StoredNodeSet

/-- The object after a call. -/
def step (s : StoredNodeSet) : NodeSetCall → Option StoredNodeSet
  | .insert v => (s.insert v).map Prod.fst
  | .erase v => s.erase v
  | .clear => s.init

/-- The call does not overfill the table. -/
def Fits (s : StoredNodeSet) (c : NodeSetCall) : Prop := ∀ v, c = .insert v → ¬ s.Overfills v

/-- What the class promises of the object after `calls`. -/
structure Sound (calls : List NodeSetCall) (s : StoredNodeSet) : Prop where
  pow : ∃ k, s.table.size = 2 ^ k
  room : 4 * (s.table.block.take s.table.size).countP (fun e => decide (e ≠ some kEmpty)) <
    3 * s.table.size
  search : ∀ v, ∃ i < s.table.size, s.findIndex v = some i
  contains : ∀ v, ∃ b, s.contains v = some b ∧ (b = true ↔ Present calls v)
  unique : ∀ (v : ℕ) (i j : ℕ), i < s.table.size → j < s.table.size →
    s.table.get i = some (v : ℤ) → s.table.get j = some (v : ℤ) → i = j
  visited : ∃ l, s.elements = some l ∧ l.Nodup ∧ ∀ v, v ∈ l ↔ Present calls v

/-- The object is sound after every part of the calls, and every `insert` among them returns whether
its value was absent. -/
def Refines (calls : List NodeSetCall) : Prop :=
  ∀ pre post, calls = pre ++ post → ∃ s, Runs.run step new pre = some s ∧ s.Sound pre ∧
    ∀ v, post.head? = some (.insert v) → ∃ r, s.insert v = some r ∧ (r.2 = true ↔ ¬ Present pre v)

/-! ### The invariant -/

/-- The object stores a valid set of the values present, with at most one cell in use for each
insertion. -/
structure Tracks (calls : List NodeSetCall) (s : StoredNodeSet) (t : NodeSetRep) : Prop where
  stores : Stores s t
  valid : t.Valid
  mem : ∀ v : ℕ, (v : ℤ) ∈ t.table ↔ Present calls v
  occupied : t.occupied ≤ calls.countP NodeSetCall.isInsert

variable {calls : List NodeSetCall} {c : NodeSetCall} {s s' : StoredNodeSet} {t : NodeSetRep} {v : ℕ}

theorem tracks_new : Tracks [] new NodeSetRep.init where
  stores := new_stores
  valid := NodeSetRep.valid_init
  mem := fun v => iff_of_false
    (fun h => NodeSetRep.natCast_ne_kEmpty v (List.eq_of_mem_replicate h)) (not_present_nil v)
  occupied := le_rfl

/-- An insertion that fits returns whether the value was absent. -/
theorem Tracks.insert (h : Tracks calls s t) (hfit : ¬ s.Overfills v) :
    ∃ s' t' b, s.insert v = some (s', b) ∧ (b = true ↔ ¬ Present calls v) ∧
      Tracks (calls ++ [.insert v]) s' t' := by
  obtain ⟨s', r, hs', hr, hstores⟩ := insert_stores h.stores h.valid hfit
  obtain ⟨r', hr', hvalid, hnew, hmem⟩ := NodeSetRep.insert_spec h.valid v
  obtain rfl := Option.some.inj (hr.symm.trans hr')
  refine ⟨s', r.1, r.2, hs', hnew.trans (not_congr (h.mem v)), hstores, hvalid, fun u => ?_, ?_⟩
  · rw [hmem, h.mem, present_concat]
    simp [eq_comm]
  · have hocc := NodeSetRep.occupied_insert_le h.valid hr
    have hcalls := h.occupied
    rw [List.countP_append]
    exact hocc.trans (Nat.add_le_add_right hcalls 1)

theorem Tracks.erase (h : Tracks calls s t) (v : ℕ) :
    ∃ s' t', s.erase v = some s' ∧ Tracks (calls ++ [.erase v]) s' t' := by
  obtain ⟨s', t', hs', ht', hstores⟩ := erase_stores h.stores h.valid v
  obtain ⟨t'', ht'', hvalid, hmem⟩ := NodeSetRep.erase_spec h.valid v
  obtain rfl := Option.some.inj (ht'.symm.trans ht'')
  refine ⟨s', t', hs', hstores, hvalid, fun u => ?_, ?_⟩
  · rw [hmem, h.mem, present_concat]
    simp [eq_comm, and_comm]
  · rw [List.countP_append, NodeSetRep.occupied_erase ht']
    exact h.occupied.trans (Nat.le_add_right _ _)

theorem Tracks.init (h : Tracks calls s t) :
    ∃ s', s.init = some s' ∧ Tracks (calls ++ [.clear]) s' NodeSetRep.init := by
  obtain ⟨s', hs', hstores⟩ := init_stores h.stores.table.toValid
  refine ⟨s', hs', hstores, NodeSetRep.valid_init, fun u => ?_, Nat.zero_le _⟩
  rw [present_concat]
  refine iff_of_false (fun hu => ?_) (by simp)
  exact NodeSetRep.natCast_ne_kEmpty u (List.eq_of_mem_replicate hu)

/-- A call that fits returns and keeps the invariant. -/
theorem Tracks.step (h : Tracks calls s t) (hfit : s.Fits c) :
    ∃ s' t', s.step c = some s' ∧ Tracks (calls ++ [c]) s' t' := by
  cases c with
  | insert v =>
    obtain ⟨s', t', b, hs', -, h'⟩ := h.insert (hfit v rfl)
    exact ⟨s', t', by rw [StoredNodeSet.step, hs']; rfl, h'⟩
  | erase v => exact h.erase v
  | clear =>
    obtain ⟨s', hs', h'⟩ := h.init
    exact ⟨s', _, hs', h'⟩

/-- Calls that all fit return and keep the invariant. -/
theorem tracks_of_steps (h : Runs.Steps step Fits new calls) :
    ∃ s t, Runs.run step new calls = some s ∧ Tracks calls s t := by
  induction calls using List.reverseRecOn with
  | nil => exact ⟨new, _, rfl, tracks_new⟩
  | append_singleton calls c ih =>
    obtain ⟨hcalls, hc⟩ := Runs.steps_concat.1 h
    obtain ⟨s, t, hs, htracks⟩ := ih hcalls
    obtain ⟨s', t', hs', htracks'⟩ := htracks.step (hc s hs)
    exact ⟨s', t', Runs.run_concat_eq_some.2 ⟨s, hs, hs'⟩, htracks'⟩

/-- What the invariant says about the class. -/
theorem Tracks.sound (h : Tracks calls s t) : s.Sound calls where
  pow := by
    rw [h.stores.size_eq]
    exact h.valid.pow
  room := by
    obtain ⟨k, hk⟩ := h.valid.size
    have hroom := h.valid.room
    rw [h.valid.occupied_eq] at hroom
    rw [h.stores.table.cells, List.countP_map, h.stores.size_eq]
    have hcells : ((fun e : Option ℤ => decide (e ≠ some kEmpty)) ∘ some) =
        fun e => decide (e ≠ kEmpty) := by
      funext e
      simp
    rw [hcells]
    unfold kInline at hk
    omega
  search := fun v => by
    obtain ⟨i, hi, hlt, -⟩ := NodeSetRep.findIndex_spec h.valid.toTable h.valid.kEmpty_mem v
    rw [h.stores.size_eq, findIndex_stores h.stores h.valid.toTable]
    exact ⟨i, hlt, hi⟩
  contains := fun v => by
    rw [contains_stores h.stores h.valid, NodeSetRep.contains_spec h.valid]
    exact ⟨_, rfl, decide_eq_true_iff.trans (h.mem v)⟩
  unique := fun v i j hi hj hiv hjv => by
    rw [h.stores.size_eq] at hi hj
    rw [h.stores.get_eq hi] at hiv
    rw [h.stores.get_eq hj] at hjv
    exact h.valid.uniq v i j hi hj (Option.some.inj hiv) (Option.some.inj hjv)
  visited := by
    refine ⟨_, elements_stores h.stores, NodeSetRep.nodup_elems h.valid, fun v => ?_⟩
    rw [NodeSetRep.mem_elems, h.mem]

/-! ### The whole sequence -/

theorem Refines.of_concat (h : Refines (calls ++ [c])) : Refines calls := by
  intro pre post heq
  obtain ⟨s, hs, hsound, hins⟩ := h pre (post ++ [c]) (by rw [heq, List.append_assoc])
  refine ⟨s, hs, hsound, fun v hv => hins v ?_⟩
  rw [List.head?_append, hv]
  rfl

/-- An overfilled table has no cells, and their number is not a power of two. -/
theorem fits_of_refines (h : Refines (calls ++ [c])) (hs : Runs.run step new calls = some s)
    (htracks : Tracks calls s t) : s.Fits c := by
  rintro v rfl hover
  obtain ⟨s', hs', hsound, -⟩ := h (calls ++ [.insert v]) [] (by simp)
  rw [Runs.run_concat, hs, Option.bind_some] at hs'
  obtain ⟨r, hr, rfl⟩ := Option.map_eq_some_iff.1 hs'
  obtain ⟨k, hk⟩ := hsound.pow
  rw [insert_overfull htracks.stores htracks.valid hover hr] at hk
  exact (Nat.two_pow_pos k).ne hk

theorem steps_of_refines (h : Refines calls) : Runs.Steps step Fits new calls := by
  induction calls using List.reverseRecOn with
  | nil => exact Runs.steps_nil
  | append_singleton calls c ih =>
    have hcalls := ih h.of_concat
    obtain ⟨s, t, hs, htracks⟩ := tracks_of_steps hcalls
    refine Runs.steps_concat.2 ⟨hcalls, fun s' hs' => ?_⟩
    obtain rfl := Option.some.inj (hs.symm.trans hs')
    exact fits_of_refines h hs htracks

theorem refines_of_steps (h : Runs.Steps step Fits new calls) : Refines calls := by
  intro pre post heq
  have hpre : Runs.Steps step Fits new pre := fun l c l' s hl =>
    h l c (l' ++ post) s (by simp [heq, hl])
  obtain ⟨s, t, hs, htracks⟩ := tracks_of_steps hpre
  refine ⟨s, hs, htracks.sound, fun v hv => ?_⟩
  obtain ⟨rest, rfl⟩ : ∃ rest, post = .insert v :: rest := by
    cases post with
    | nil => cases hv
    | cons c rest => exact ⟨rest, by rw [Option.some.inj hv]⟩
  obtain ⟨s', t', b, hr, hnew, -⟩ := htracks.insert (h pre _ rest s heq hs v rfl)
  exact ⟨_, hr, hnew⟩

/-- **A `NodeSet` is the set that its calls describe** exactly if none of them overfills a table of
`2 ^ 31` cells. -/
theorem refines_iff (calls : List NodeSetCall) :
    Refines calls ↔ Runs.Steps step Fits new calls := ⟨steps_of_refines, refines_of_steps⟩

-- an erased cell on the way of a search is used again
example : (Runs.run step new [.insert 1, .insert 9, .erase 1, .insert 17]).bind elements =
    some [17, 9] := by decide

/-- Fewer than `3 * 2 ^ 29` insertions never overfill a table. -/
theorem refines_of_few (h : calls.countP NodeSetCall.isInsert < maxVecSize - maxVecSize / 4) :
    Refines calls := by
  apply refines_of_steps
  induction calls using List.reverseRecOn with
  | nil => exact Runs.steps_nil
  | append_singleton calls c ih =>
    rw [List.countP_append] at h
    have hcalls := ih (by omega)
    refine Runs.steps_concat.2 ⟨hcalls, ?_⟩
    rintro s hs v rfl ⟨-, hocc, -⟩
    obtain ⟨s', t, hs', htracks⟩ := tracks_of_steps hcalls
    obtain rfl := Option.some.inj (hs.symm.trans hs')
    have hle := htracks.occupied
    rw [← htracks.stores.occupied] at hle
    have hone : [NodeSetCall.insert v].countP NodeSetCall.isInsert = 1 := rfl
    omega

/-- As many different values as three quarters of `2 ^ 31` overfill one. -/
theorem not_refines_of_nodup {l : List ℕ} (hl : l.Nodup)
    (hlen : maxVecSize - maxVecSize / 4 ≤ l.length) : ¬ Refines (l.map .insert) := by
  intro h
  obtain ⟨s, t, hs, htracks⟩ := tracks_of_steps (steps_of_refines h)
  have hsub : l ⊆ t.elems := by
    intro v hv
    obtain ⟨pre, post, rfl⟩ := List.append_of_mem hv
    rw [NodeSetRep.mem_elems, htracks.mem]
    exact ⟨pre.map .insert, post.map .insert, by simp, by simp, by simp⟩
  have hcount := (hl.subperm hsub).length_le.trans (NodeSetRep.length_elems_le htracks.valid)
  have hroom := htracks.valid.room
  have hmax := htracks.stores.length_le
  unfold maxVecSize at hlen hmax
  omega

/-- The last of them leaves a table without cells, if it returns. -/
theorem size_of_nodup {l : List ℕ} (hl : l.Nodup) (hlen : l.length = maxVecSize - maxVecSize / 4)
    (hrun : Runs.run step new (l.map .insert) = some s) : s.table.size = 0 := by
  rcases List.eq_nil_or_concat l with rfl | ⟨l', v, rfl⟩
  · exact absurd hlen (by decide)
  rw [List.concat_eq_append] at hl hlen hrun
  have hfew : (l'.map NodeSetCall.insert).countP NodeSetCall.isInsert <
      maxVecSize - maxVecSize / 4 := by
    rw [← hlen, List.length_append, ← List.length_map NodeSetCall.insert]
    exact Nat.lt_succ_of_le List.countP_le_length
  have hsteps := steps_of_refines (refines_of_few hfew)
  obtain ⟨s₁, t, hs₁, htracks⟩ := tracks_of_steps hsteps
  rw [List.map_append, List.map_singleton, Runs.run_concat, hs₁, Option.bind_some] at hrun
  by_cases hover : s₁.Overfills v
  · obtain ⟨r, hr, rfl⟩ := Option.map_eq_some_iff.1 hrun
    exact insert_overfull htracks.stores htracks.valid hover hr
  · refine absurd (refines_of_steps ?_) (not_refines_of_nodup hl hlen.ge)
    rw [List.map_append, List.map_singleton, Runs.steps_concat]
    refine ⟨hsteps, ?_⟩
    rintro s₂ hs₂ u hu
    obtain rfl := Option.some.inj (hs₁.symm.trans hs₂)
    obtain rfl := NodeSetCall.insert.inj hu
    exact hover

/-- The values `0`, `1`, ..., `3 * 2 ^ 29 - 1`. -/
theorem doubled_table_without_cells :
    ¬ Refines ((List.range (3 * 2 ^ 29)).map .insert) ∧
      ∀ s, Runs.run step new ((List.range (3 * 2 ^ 29)).map .insert) = some s → s.table.size = 0 := by
  have hlen : (List.range (3 * 2 ^ 29)).length = maxVecSize - maxVecSize / 4 := by
    rw [List.length_range]
    decide
  exact ⟨not_refines_of_nodup List.nodup_range hlen.ge, fun s => size_of_nodup List.nodup_range hlen⟩

end StoredNodeSet

end BugInsight

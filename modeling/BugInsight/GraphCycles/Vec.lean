import BugInsight.GraphCycles.Graph

/-!
# Vec

The vector of `graphcycles.cc`: `kInline` cells inside the object, a block of the arena once more
are needed, and 32-bit counters for the elements and for the cells.

* `Vec` has the members of the class; a cell that was never written is `none`;
* `Vec.Valid` is the class invariant, `Vec.Holds` says which elements a vector holds;
* `holds_fill`, `holds_set`, `moveFrom_spec`, `pushBack_spec`: what the operations do to them.

`none` is an operation that does not return: `Grow` never ends for more than `2 ^ 31` elements.  The
arena always has room.
-/

namespace BugInsight

/-- The members of `Vec`: `space_`, the block that `ptr_` points to if it is not `space_`, `size_`
and `capacity_`. -/
structure Vec (α : Type) where
  space : List (Option α)
  heap : Option (List (Option α))
  size : ℕ
  capacity : ℕ
  deriving DecidableEq

namespace Vec

variable {α : Type}

/-- The cells that `ptr_` points to. -/
def block (a : Vec α) : List (Option α) := a.heap.getD a.space

/-- The cells at `ptr_` are overwritten. -/
def write (a : Vec α) (cells : List (Option α)) : Vec α :=
  match a.heap with
  | none => { a with space := cells }
  | some _ => { a with heap := some cells }

/-- `Init`. -/
def init (a : Vec α) : Vec α := { a with heap := none, size := 0, capacity := kInline }

/-- The constructor. -/
def new : Vec α := ⟨List.replicate kInline none, none, 0, kInline⟩

/-- `clear`. -/
def clear (a : Vec α) : Vec α := a.init

/-- Reading `operator[]`; `none` outside the block and for a cell that was never written. -/
def get (a : Vec α) (i : ℕ) : Option α := a.block[i]?.join

/-- Assigning to `operator[]`. -/
def set (a : Vec α) (i : ℕ) (x : α) : Vec α := a.write (a.block.set i (some x))

/-- The elements from `begin()` to `end()`. -/
def toList (a : Vec α) : Option (List α) := (a.block.take a.size).mapM id

/-- The loop of `Grow`. -/
def double (n capacity : ℕ) : ℕ ⊕ ℕ :=
  if capacity < n then .inl (capacity * 2 % 2 ^ 32) else .inr capacity

/-- `Grow`.  After 32 doublings the capacity is `0` and stays so. -/
def grow (a : Vec α) (n : ℕ) : Option (Vec α) := do
  let capacity ← Loop.iterate (double n) 33 a.capacity
  let copy := a.block.take a.size ++ List.replicate (capacity - a.size) none
  return { a with heap := some copy, capacity := capacity }

/-- `push_back`. -/
def pushBack (a : Vec α) (x : α) : Option (Vec α) := do
  let a ← if a.size = a.capacity then a.grow ((a.size + 1) % 2 ^ 32) else some a
  return { a.set a.size x with size := (a.size + 1) % 2 ^ 32 }

/-- `resize`. -/
def resize (a : Vec α) (n : ℕ) : Option (Vec α) := do
  let a ← if a.capacity < n then a.grow n else some a
  return { a with size := n }

/-- `fill`. -/
def fill (a : Vec α) (x : α) : Vec α :=
  a.write (List.replicate a.size (some x) ++ a.block.drop a.size)

/-- `MoveFrom`: this vector and `src` afterwards.  Inline cells are copied, a block changes
hands. -/
def moveFrom (a src : Vec α) : Option (Vec α × Vec α) :=
  match src.heap with
  | none => do
      let a ← a.resize src.size
      return (a.write (src.space.take src.size ++ a.block.drop src.size), { src with size := 0 })
  | some cells =>
      some ({ a with heap := some cells, size := src.size, capacity := src.capacity }, src.init)

/-! ### The class invariant -/

/-- The class invariant: the cells that `ptr_` points to are as many as `capacity_` says, a power of
two that fits into 32 bits. -/
structure Valid (a : Vec α) : Prop where
  space_length : a.space.length = kInline
  block_length : a.block.length = a.capacity
  pow : ∃ k ≤ 28, a.capacity = kInline * 2 ^ k
  size_le : a.size ≤ a.capacity

/-- The vector holds the elements of `l`. -/
structure Holds (a : Vec α) (l : List α) : Prop extends Valid a where
  cells : a.block.take a.size = l.map some

@[simp] theorem block_write (a : Vec α) (cells : List (Option α)) :
    (a.write cells).block = cells := by
  unfold block write
  cases a.heap <;> rfl

@[simp] theorem size_write (a : Vec α) (cells : List (Option α)) :
    (a.write cells).size = a.size := by
  unfold write
  cases a.heap <;> rfl

@[simp] theorem capacity_write (a : Vec α) (cells : List (Option α)) :
    (a.write cells).capacity = a.capacity := by
  unfold write
  cases a.heap <;> rfl

variable {a a' src : Vec α} {l : List α} {x : α} {i n : ℕ}

theorem Valid.capacity_le (h : a.Valid) : a.capacity ≤ maxVecSize := by
  obtain ⟨k, hk, hc⟩ := h.pow
  calc a.capacity = 2 ^ (k + 3) := by rw [hc, kInline, pow_add]; omega
    _ ≤ maxVecSize := Nat.pow_le_pow_right (by decide) (by omega)

theorem Valid.size_le_max (h : a.Valid) : a.size ≤ maxVecSize := h.size_le.trans h.capacity_le

/-- Overwriting the cells keeps the invariant. -/
theorem Valid.write (h : a.Valid) {cells : List (Option α)} (hc : cells.length = a.capacity) :
    (a.write cells).Valid where
  space_length := by
    have hb := h.block_length
    unfold Vec.write
    unfold block at hb
    cases hheap : a.heap with
    | none =>
      rw [hheap, Option.getD_none, h.space_length] at hb
      exact hc.trans hb.symm
    | some _ => exact h.space_length
  block_length := by rw [block_write, capacity_write, hc]
  pow := by rw [capacity_write]; exact h.pow
  size_le := by rw [size_write, capacity_write]; exact h.size_le

theorem Valid.init (h : a.Valid) : a.init.Valid where
  space_length := h.space_length
  block_length := h.space_length
  pow := ⟨0, by decide, rfl⟩
  size_le := Nat.zero_le _

theorem valid_new : (new : Vec α).Valid where
  space_length := List.length_replicate
  block_length := List.length_replicate
  pow := ⟨0, by decide, rfl⟩
  size_le := Nat.zero_le _

theorem Holds.length_eq (h : a.Holds l) : l.length = a.size := by
  have hlen := congrArg List.length h.cells
  rw [List.length_take, List.length_map, h.block_length, min_eq_left h.size_le] at hlen
  exact hlen.symm

theorem Holds.get_eq (h : a.Holds l) (hi : i < l.length) : a.get i = some l[i] := by
  have hcell : (a.block.take a.size)[i]? = (l.map some)[i]? := by rw [h.cells]
  rw [List.getElem?_take_of_lt (h.length_eq ▸ hi)] at hcell
  simp [get, hcell, hi]

theorem Holds.toList_eq (h : a.Holds l) : a.toList = some l := by
  unfold toList
  rw [h.cells]
  clear h
  induction l with
  | nil => rfl
  | cons x l ih => simp [ih]

/-! ### Growing -/

theorem double_pow {k : ℕ} (hk : k ≤ 28) (hn : n ≤ maxVecSize) {c : ℕ}
    (h : double n (kInline * 2 ^ k) = .inl c) : k < 28 ∧ c = kInline * 2 ^ (k + 1) := by
  unfold double at h
  split_ifs at h with hlt
  obtain rfl := Sum.inl.inj h
  have hk' : k < 28 := by
    by_contra hge
    obtain rfl : k = 28 := by omega
    unfold kInline at hlt
    unfold maxVecSize at hn
    omega
  have hle : 2 ^ (k + 1) ≤ 2 ^ 28 := Nat.pow_le_pow_right (by decide) hk'
  refine ⟨hk', ?_⟩
  rw [Nat.mul_assoc, ← pow_succ]
  apply Nat.mod_eq_of_lt
  unfold kInline
  omega

/-- The capacity that `Grow` finds. -/
theorem exists_capacity (h : a.Valid) (hn : n ≤ maxVecSize) :
    ∃ c, Loop.iterate (double n) 33 a.capacity = some c ∧ n ≤ c ∧ a.capacity ≤ c ∧
      ∃ k ≤ 28, c = kInline * 2 ^ k := by
  obtain ⟨k, hk, hc⟩ := h.pow
  obtain ⟨c, hit⟩ : ∃ c, Loop.iterate (double n) 33 a.capacity = some c := by
    refine Loop.exists_iterate_eq_some (V := fun m c => ∃ k, k + m = 28 ∧ c = kInline * 2 ^ k) ?_
      (28 - k) a.capacity 33 ⟨k, by omega, hc⟩ (by omega)
    rintro m c c' ⟨j, hj, rfl⟩ hround
    obtain ⟨hlt, rfl⟩ := double_pow (by omega) hn hround
    exact ⟨m - 1, by omega, j + 1, by omega, rfl⟩
  refine ⟨c, hit, ?_⟩
  refine Loop.iterate_spec (I := fun c => a.capacity ≤ c ∧ ∃ k ≤ 28, c = kInline * 2 ^ k)
    (Q := fun c => n ≤ c ∧ a.capacity ≤ c ∧ ∃ k ≤ 28, c = kInline * 2 ^ k) ?_ ?_
    ⟨le_rfl, k, hk, hc⟩ hit
  · rintro c c' ⟨hle, j, hj, rfl⟩ hround
    obtain ⟨hlt, rfl⟩ := double_pow hj hn hround
    refine ⟨hle.trans ?_, j + 1, hlt, rfl⟩
    exact Nat.mul_le_mul_left _ (Nat.pow_le_pow_right (by decide) (Nat.le_succ j))
  · rintro c c' ⟨hle, hpow⟩ hexit
    unfold double at hexit
    split_ifs at hexit with hlt
    obtain rfl := Sum.inr.inj hexit
    exact ⟨Nat.not_lt.1 hlt, hle, hpow⟩

/-- `Grow` keeps the elements. -/
theorem grow_spec (h : a.Valid) (hn : n ≤ maxVecSize) :
    ∃ a', a.grow n = some a' ∧ a'.Valid ∧ n ≤ a'.capacity ∧ a'.size = a.size ∧
      a'.block.take a.size = a.block.take a.size := by
  obtain ⟨c, hit, hnc, hle, hpow⟩ := exists_capacity h hn
  have hlen : (a.block.take a.size).length = a.size := by
    rw [List.length_take, h.block_length, min_eq_left h.size_le]
  have hgrow : a.grow n = some { a with
      heap := some (a.block.take a.size ++ List.replicate (c - a.size) none)
      capacity := c } := by
    simp only [grow, hit, Option.bind_eq_bind, Option.bind_some, Option.pure_def]
  refine ⟨_, hgrow, ⟨h.space_length, ?_, hpow, h.size_le.trans hle⟩, hnc, rfl, ?_⟩
  · change (a.block.take a.size ++ List.replicate (c - a.size) none).length = c
    rw [List.length_append, hlen, List.length_replicate]
    exact Nat.add_sub_cancel' (h.size_le.trans hle)
  · change (a.block.take a.size ++ List.replicate (c - a.size) none).take a.size = _
    rw [List.take_append_of_le_length hlen.ge, List.take_of_length_le hlen.le]

/-- For more than `2 ^ 31` elements `Grow` never ends. -/
theorem grow_eq_none (h : a.Valid) (hn : maxVecSize < n) : a.grow n = none := by
  suffices hit : Loop.iterate (double n) 33 a.capacity = none by
    simp only [grow, hit, Option.bind_eq_bind, Option.bind_none]
  rw [Option.eq_none_iff_forall_ne_some]
  intro c hit
  obtain ⟨k, hk, hc⟩ := h.pow
  refine Loop.iterate_spec (I := fun c => c = 0 ∨ ∃ k ≤ 28, c = kInline * 2 ^ k)
    (Q := fun _ => False) ?_ ?_ (Or.inr ⟨k, hk, hc⟩) hit
  all_goals
    unfold double
    rintro c c' hI hb
    split_ifs at hb with hlt
  · obtain rfl := Sum.inl.inj hb
    rcases hI with rfl | ⟨j, hj, rfl⟩
    · exact Or.inl rfl
    rw [Nat.mul_assoc, ← pow_succ]
    rcases Nat.lt_or_ge j 28 with hlt' | hge
    · have hle : 2 ^ (j + 1) ≤ 2 ^ 28 := Nat.pow_le_pow_right (by decide) hlt'
      refine Or.inr ⟨j + 1, hlt', Nat.mod_eq_of_lt ?_⟩
      unfold kInline
      omega
    · obtain rfl : j = 28 := by omega
      exact Or.inl rfl
  · rcases hI with rfl | ⟨j, hj, rfl⟩
    · omega
    · have hle : 2 ^ j ≤ 2 ^ 28 := Nat.pow_le_pow_right (by decide) hj
      unfold kInline at hlt
      unfold maxVecSize at hn
      omega

/-! ### The operations -/

/-- The elements of a vector whose cells at `ptr_` were overwritten. -/
theorem Holds.of_write (h : a.Valid) {cells : List (Option α)} (hc : cells.length = a.capacity)
    (hl : cells.take a.size = l.map some) : (a.write cells).Holds l where
  toValid := h.write hc
  cells := by rw [block_write, size_write]; exact hl

theorem size_resize (h : a.resize n = some a') : a'.size = n := by
  simp only [resize, Option.bind_eq_bind, Option.pure_def] at h
  split_ifs at h
  all_goals
    obtain ⟨b, -, hb⟩ := Option.bind_eq_some_iff.1 h
    cases hb
    rfl

theorem size_moveFrom {src' : Vec α} (h : a.moveFrom src = some (a', src')) :
    a'.size = src.size := by
  unfold moveFrom at h
  cases hheap : src.heap with
  | none =>
    simp only [hheap] at h
    obtain ⟨b, hb, h⟩ := Option.bind_eq_some_iff.1 h
    cases h
    rw [size_write, size_resize hb]
  | some cells =>
    simp only [hheap] at h
    cases h
    rfl

/-- `resize` to a size that fits. -/
theorem resize_spec (h : a.Valid) (hn : n ≤ maxVecSize) :
    ∃ a', a.resize n = some a' ∧ a'.Valid ∧ a'.size = n := by
  by_cases hlt : a.capacity < n
  · obtain ⟨a', hg, hv, hcap, -⟩ := grow_spec h hn
    refine ⟨{ a' with size := n }, by simp [resize, hlt, hg], ?_, rfl⟩
    exact ⟨hv.space_length, hv.block_length, hv.pow, hcap⟩
  · refine ⟨{ a with size := n }, by simp [resize, hlt], ?_, rfl⟩
    exact ⟨h.space_length, h.block_length, h.pow, Nat.not_lt.1 hlt⟩

theorem holds_fill (h : a.Valid) (x : α) : (a.fill x).Holds (List.replicate a.size x) := by
  refine Holds.of_write h ?_ ?_
  · rw [List.length_append, List.length_replicate, List.length_drop, h.block_length]
    exact Nat.add_sub_cancel' h.size_le
  · rw [List.take_left' List.length_replicate, List.map_replicate]

theorem holds_set (h : a.Holds l) (i : ℕ) (x : α) : (a.set i x).Holds (l.set i x) := by
  refine Holds.of_write h.toValid (by rw [List.length_set, h.block_length]) ?_
  rw [List.take_set, h.cells, List.map_set]

/-- **`MoveFrom`** leaves `src` empty and its elements in a vector that was empty before. -/
theorem moveFrom_spec (h : a.Valid) (hsrc : src.Holds l) :
    ∃ a' src', a.moveFrom src = some (a', src') ∧ a'.Holds l ∧ src'.Valid ∧ src'.size = 0 := by
  cases hheap : src.heap with
  | none =>
    obtain ⟨b, hb, hv, hsize⟩ := resize_spec h hsrc.size_le_max
    have hblock : src.block = src.space := by rw [block, hheap, Option.getD_none]
    have hlen : (src.space.take src.size).length = src.size := by
      rw [← hblock, List.length_take, hsrc.block_length, min_eq_left hsrc.size_le]
    refine ⟨_, { src with size := 0 }, by simp [moveFrom, hheap, hb]; rfl, ?_, ?_, rfl⟩
    · refine Holds.of_write hv ?_ ?_
      · rw [List.length_append, hlen, List.length_drop, hv.block_length, ← hsize]
        exact Nat.add_sub_cancel' hv.size_le
      · rw [hsize, List.take_left' hlen, ← hblock, hsrc.cells]
    · exact ⟨hsrc.space_length, hsrc.block_length, hsrc.pow, Nat.zero_le _⟩
  | some cells =>
    have hblock : src.block = cells := by rw [block, hheap, Option.getD_some]
    have hmove : a.moveFrom src = some
        ({ a with heap := some cells, size := src.size, capacity := src.capacity }, src.init) := by
      simp only [moveFrom, hheap]
    refine ⟨_, _, hmove, ⟨⟨h.space_length, ?_, hsrc.pow, hsrc.size_le⟩, ?_⟩, hsrc.toValid.init, rfl⟩
    · exact hblock ▸ hsrc.block_length
    · exact hblock ▸ hsrc.cells

/-- **`push_back`** appends an element, unless there are `2 ^ 31` already. -/
theorem pushBack_spec (h : a.Holds l) (x : α) :
    (∀ l', BugInsight.pushBack l x = some l' → ∃ a', a.pushBack x = some a' ∧ a'.Holds l') ∧
      (BugInsight.pushBack l x = none → a.pushBack x = none) := by
  unfold BugInsight.pushBack
  have hlen := h.length_eq
  have hmax := h.size_le_max
  have hsucc : (a.size + 1) % 2 ^ 32 = a.size + 1 := by
    apply Nat.mod_eq_of_lt
    unfold maxVecSize at hmax
    omega
  split_ifs with hlt
  · refine ⟨?_, nofun⟩
    rintro l' hl'
    obtain rfl := Option.some.inj hl'
    -- `b` is the vector after `Grow`, with room for the element
    obtain ⟨b, hb, hv, hroom, hsize, hcells⟩ : ∃ b,
        (if a.size = a.capacity then a.grow (a.size + 1) else some a) = some b ∧ b.Valid ∧
        a.size + 1 ≤ b.capacity ∧ b.size = a.size ∧ b.block.take a.size = a.block.take a.size := by
      split_ifs with hfull
      · exact grow_spec h.toValid (by omega)
      · exact ⟨a, rfl, h.toValid, Nat.lt_of_le_of_ne h.size_le hfull, rfl, rfl⟩
    refine ⟨{ b.set a.size x with size := a.size + 1 }, ?_, ?_⟩
    · simp only [pushBack, hsucc, Option.bind_eq_bind, Option.pure_def]
      split_ifs at hb ⊢ with hfull
      all_goals rw [hb, Option.bind_some, hsize, hsucc]
    · have hset : (b.write (b.block.set a.size (some x))).Valid :=
        hv.write (by rw [List.length_set, hv.block_length])
      refine ⟨⟨hset.space_length, hset.block_length, hset.pow, ?_⟩, ?_⟩
      · exact hroom.trans_eq (capacity_write _ _).symm
      change (b.write (b.block.set a.size (some x))).block.take (a.size + 1) = _
      have hlt' : a.size < b.block.length := by rw [hv.block_length]; exact hroom
      rw [block_write, List.take_add_one, List.take_set_of_le le_rfl, hcells, h.cells,
        List.getElem?_set_self hlt']
      simp
  · refine ⟨nofun, fun _ => ?_⟩
    have hfull : a.size = a.capacity := by
      have := h.size_le
      have := h.capacity_le
      omega
    have hgrow := grow_eq_none h.toValid (show maxVecSize < a.size + 1 by omega)
    simp only [pushBack, hsucc, if_pos hfull, hgrow, Option.bind_eq_bind, Option.bind_none]

end Vec

end BugInsight

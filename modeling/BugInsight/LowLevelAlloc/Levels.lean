import BugInsight.Loop
import BugInsight.LinearCongruential

/-!
# Sizes and levels of the blocks of an arena

* `CheckedAdd`, `RoundUp`: sums of addresses and sizes, with the assertion against overflow;
* `IntLog2`, `Random`: the two parts of the number of levels of a block.  The loop of `Random` ends
  because its generator does not keep bit 30 at zero (`randomRound_exits`);
* `LLA_SkiplistLevels`: how many levels a block of a given size takes part in.  A failed assertion
  is `none`.
-/

namespace BugInsight.LowLevelAlloc

/-- The bytes of `AllocList::Header`: four fields of eight bytes. -/
def sizeofHeader : ℕ := 32

/-- Where `AllocList::next` starts: after the header, `levels` and its padding. -/
def offsetofNext : ℕ := 40

/-- The bytes of a pointer. -/
def sizeofPointer : ℕ := 8

def kMaxLevel : ℕ := 30

/-! ### Sizes -/

/-- Fails if the sum of two 64-bit numbers wraps around. -/
def CheckedAdd (a b : ℕ) : Option ℕ :=
  let sum := (a + b) % 2 ^ 64
  if a ≤ sum then some sum else none

/-- `addr` rounded up to a multiple of `align`, a power of two. -/
def RoundUp (addr align : ℕ) : Option ℕ :=
  (CheckedAdd addr (align - 1)).map fun sum => sum &&& (2 ^ 64 - 1 - (align - 1))

theorem CheckedAdd_eq {a b : ℕ} (h : a + b < 2 ^ 64) : CheckedAdd a b = some (a + b) := by
  rw [CheckedAdd, Nat.mod_eq_of_lt h, if_pos (Nat.le_add_right a b)]

/-- The assertion of `CheckedAdd` finds every overflow. -/
theorem CheckedAdd_eq_none {a b : ℕ} (hb : b < 2 ^ 64) (ha : a < 2 ^ 64) (h : 2 ^ 64 ≤ a + b) :
    CheckedAdd a b = none := by
  have hsum : (a + b) % 2 ^ 64 = a + b - 2 ^ 64 := by omega
  rw [CheckedAdd, hsum, if_neg (by omega)]

theorem land_two_pow_sub {x k : ℕ} (hx : x < 2 ^ 64) (hk : k ≤ 64) :
    x &&& (2 ^ 64 - 2 ^ k) = x / 2 ^ k * 2 ^ k := by
  have hmask : 2 ^ 64 - 2 ^ k = (2 ^ (64 - k) - 1) <<< k := by
    rw [Nat.shiftLeft_eq, Nat.sub_mul, one_mul, ← pow_add, Nat.sub_add_cancel hk]
  rw [hmask, ← Nat.shiftRight_eq_div_pow, ← Nat.shiftLeft_eq]
  refine Nat.eq_of_testBit_eq fun i => ?_
  rw [Nat.testBit_and, Nat.testBit_shiftLeft, Nat.testBit_shiftLeft, Nat.testBit_two_pow_sub_one,
    Nat.testBit_shiftRight]
  rcases lt_or_ge i k with hik | hik
  · simp [hik.not_ge]
  · rw [show k + (i - k) = i by omega]
    rcases lt_or_ge i 64 with hi | hi
    · simp [hik, show i - k < 64 - k by omega]
    · have hzero : x.testBit i = false :=
        Nat.testBit_lt_two_pow (hx.trans_le (Nat.pow_le_pow_right (by norm_num) hi))
      simp [hzero]

/-- The least multiple of `k` that is not below `x`. -/
def roundUp (x k : ℕ) : ℕ := (x + (k - 1)) / k * k

theorem le_roundUp {x k : ℕ} (hk : 0 < k) : x ≤ roundUp x k := by
  have hdiv := Nat.div_add_mod (x + (k - 1)) k
  have hmod := Nat.mod_lt (x + (k - 1)) hk
  rw [mul_comm] at hdiv
  rw [roundUp]
  omega

theorem roundUp_lt {x k : ℕ} (hk : 0 < k) : roundUp x k < x + k := by
  have hle := Nat.div_mul_le_self (x + (k - 1)) k
  rw [roundUp]
  omega

theorem dvd_roundUp (x k : ℕ) : k ∣ roundUp x k := Dvd.intro_left _ rfl

/-- The mask rounds up to a power of two. -/
theorem RoundUp_eq {addr align k : ℕ} (hk : k ≤ 64) (halign : align = 2 ^ k)
    (h : addr + align ≤ 2 ^ 64) : RoundUp addr align = some (roundUp addr align) := by
  have hpos : 0 < align := halign ▸ Nat.two_pow_pos k
  have hmask : 2 ^ 64 - 1 - (align - 1) = 2 ^ 64 - 2 ^ k := by omega
  rw [RoundUp, CheckedAdd_eq (by omega), Option.map_some, hmask, land_two_pow_sub (by omega) hk,
    roundUp, halign]

/-- Block sizes are multiples of a power of two that the header fits in. -/
def RoundedUpBlockSize : ℕ :=
  Loop.run (fun round_up => if round_up < sizeofHeader then .inl (round_up + round_up)
    else .inr round_up) 2 16 ⟨32, by decide⟩

theorem RoundedUpBlockSize_eq : RoundedUpBlockSize = 32 := by decide

/-- The smallest block. -/
def min_size : ℕ := 2 * RoundedUpBlockSize

theorem min_size_eq : min_size = 64 := by rw [min_size, RoundedUpBlockSize_eq]

/-! ### Levels -/

/-- A round of the loop of `IntLog2`, on `i` and `result`. -/
def intLog2Round (base : ℕ) : ℕ × ℕ → (ℕ × ℕ) ⊕ ℕ
  | (i, result) => if base < i then .inl (i >>> 1, result + 1) else .inr result

theorem intLog2Round_exits (base size : ℕ) :
    ∃ b, Loop.iterate (intLog2Round base) (size + 1) (size, 0) = some b := by
  refine Loop.exists_iterate_of_measure (μ := Prod.fst) (fun s s' h => ?_) (size, 0)
  rw [intLog2Round] at h
  split_ifs at h with hlt
  cases h
  show s.1 >>> 1 < s.1
  rw [Nat.shiftRight_eq_div_pow]
  omega

/-- An integer approximation of `log2(size / base)`. -/
def IntLog2 (size base : ℕ) : ℕ :=
  Loop.run (intLog2Round base) (size + 1) (size, 0) (intLog2Round_exits base size)

/-- `IntLog2` is the number of halvings that bring `size` down to `base`. -/
theorem IntLog2_le_iff {size base k : ℕ} : IntLog2 size base ≤ k ↔ size / 2 ^ k ≤ base := by
  have h := @Loop.iterate_induct _ _ (intLog2Round base)
    (fun s b => s.2 ≤ b ∧ ∀ k, b ≤ s.2 + k ↔ s.1 / 2 ^ k ≤ base) ?_ ?_ _ _ _
    (Loop.iterate_eq_some_run (intLog2Round_exits base size))
  · simpa [IntLog2] using h.2 k
  · rintro ⟨i, result⟩ b hb
    rw [intLog2Round] at hb
    split_ifs at hb with hlt
    cases hb
    refine ⟨le_rfl, fun k => iff_of_true (Nat.le_add_right _ k) ?_⟩
    exact (Nat.div_le_self i _).trans (not_lt.1 hlt)
  · rintro ⟨i, result⟩ s' b hb ⟨hle, ih⟩
    rw [intLog2Round] at hb
    split_ifs at hb with hlt
    cases hb
    refine ⟨(Nat.le_succ _).trans hle, fun k => ?_⟩
    cases k with
    | zero =>
      simp only [add_zero, pow_zero, Nat.div_one] at *
      omega
    | succ k =>
      have hk := ih k
      rw [Nat.shiftRight_eq_div_pow, Nat.div_div_eq_div_mul, ← pow_add, add_comm 1 k] at hk
      rw [← hk]
      omega

theorem IntLog2_mono {size size' : ℕ} (base : ℕ) (h : size ≤ size') :
    IntLog2 size base ≤ IntLog2 size' base :=
  IntLog2_le_iff.2 ((Nat.div_le_div_right h).trans (IntLog2_le_iff.1 le_rfl))

/-- The generator of `Random`. -/
def nextRandom : ℕ → ℕ := LinearCongruential.step 1103515245 12345 32

/-- A round of the loop of `Random`, on `r` and `result`. -/
def randomRound : ℕ × ℕ → (ℕ × ℕ) ⊕ (ℕ × ℕ)
  | (r, result) =>
      if (nextRandom r >>> 30) &&& 1 = 0 then .inl (nextRandom r, result + 1)
      else .inr (result, nextRandom r)

/-- After `n` more rounds the generator has bit 30 set. -/
def Stops (n : ℕ) (s : ℕ × ℕ) : Prop := (nextRandom^[n] (nextRandom s.1)).testBit 30 = true

theorem exists_testBit_nextRandom (r : ℕ) : ∃ n ≤ 2 ^ 30, (nextRandom^[n] r).testBit 30 = true :=
  LinearCongruential.exists_testBit_iterate (by norm_num) (by norm_num) (by norm_num) r

theorem exists_stops (r result : ℕ) : ∃ n ≤ 2 ^ 30, Stops n (r, result) :=
  exists_testBit_nextRandom (nextRandom r)

theorem Stops.round {n : ℕ} {s s' : ℕ × ℕ} (hn : Stops n s) (hs : randomRound s = .inl s') :
    ∃ m < n, Stops m s' := by
  obtain ⟨r, result⟩ := s
  rw [randomRound] at hs
  split_ifs at hs with h0
  obtain rfl := Sum.inl.inj hs
  cases n with
  | zero =>
    rw [Stops, Function.iterate_zero, id_eq, Nat.testBit_eq_decide_div_mod_eq] at hn
    rw [Nat.and_one_is_mod, Nat.shiftRight_eq_div_pow] at h0
    simp [h0] at hn
  | succ n =>
    rw [Stops, Function.iterate_succ_apply] at hn
    exact ⟨n, Nat.lt_succ_self n, hn⟩

/-- Rounds that are enough for the loop of `Random`. -/
def randomRounds : ℕ := 2 ^ 30 + 1

theorem randomRound_exits (state : ℕ) :
    ∃ b, Loop.iterate randomRound randomRounds (state, 1) = some b := by
  obtain ⟨n, hn, hstops⟩ := exists_stops state 1
  have hlt : n < randomRounds := by
    rw [randomRounds]
    omega
  exact Loop.exists_iterate_eq_some (fun n s s' hn hs => hn.round hs) n (state, 1) _ hstops hlt

/-- A random number of levels, at least one, and the next state of the generator. -/
def Random (state : ℕ) : ℕ × ℕ :=
  Loop.run randomRound randomRounds (state, 1) (randomRound_exits state)

theorem one_le_Random (state : ℕ) : 1 ≤ (Random state).1 := by
  have hround : ∀ s s', 1 ≤ s.2 → randomRound s = .inl s' → 1 ≤ s'.2 := by
    rintro ⟨r, result⟩ s' hs h
    rw [randomRound] at h
    split_ifs at h
    obtain rfl := Sum.inl.inj h
    exact Nat.le_succ_of_le hs
  have hexit : ∀ s b, 1 ≤ s.2 → randomRound s = .inr b → 1 ≤ b.1 := by
    rintro ⟨r, result⟩ b hs h
    rw [randomRound] at h
    split_ifs at h
    obtain rfl := Sum.inr.inj h
    exact hs
  have hrun := Loop.iterate_eq_some_run (randomRound_exits state)
  exact Loop.iterate_spec (Q := fun b => 1 ≤ b.1) hround hexit (Nat.le_refl 1) hrun

/-- The pointers that fit in a block of `size` bytes. -/
def max_fit (size : ℕ) : ℕ := (size + 2 ^ 64 - offsetofNext) % 2 ^ 64 / sizeofPointer

/-- `if(level > bound) level=bound;` -/
def atMost (bound level : ℕ) : ℕ := if bound < level then bound else level

/-- The number of levels of a block of `size` bytes: `level = log2(size / base) + n`, where `n` is
one without `random`, as far as the pointers fit in the block. -/
def LLA_SkiplistLevels (size base : ℕ) (random : Option ℕ) : Option (ℕ × Option ℕ) :=
  let level := IntLog2 size base + (random.elim 1 fun state => (Random state).1)
  let level := atMost (kMaxLevel - 1) (atMost (max_fit size) level)
  if 1 ≤ level then some (level, random.map fun state => (Random state).2) else none

/-- The levels of a block of `size` bytes, of which it asks for `level`. -/
def clip (size level : ℕ) : ℕ :=
  min (min level ((size - offsetofNext) / sizeofPointer)) (kMaxLevel - 1)

/-- The levels that a block of `size` bytes has at least. -/
def minLevels (size : ℕ) : ℕ := clip size (IntLog2 size min_size + 1)

section Clip

variable {size level level' : ℕ}

theorem clip_lt (size level : ℕ) : clip size level < kMaxLevel :=
  Nat.lt_of_le_pred (by decide) (min_le_right _ _)

theorem clip_pos (hsize : offsetofNext + sizeofPointer ≤ size) (hlevel : 1 ≤ level) :
    1 ≤ clip size level := by
  simp only [clip, offsetofNext, sizeofPointer, kMaxLevel] at *
  omega

/-- The pointers of all levels of a block fit in it. -/
theorem clip_fits (hsize : offsetofNext ≤ size) :
    offsetofNext + sizeofPointer * clip size level ≤ size := by
  simp only [clip, offsetofNext, sizeofPointer, kMaxLevel] at *
  omega

theorem clip_mono {size' : ℕ} (hsize : size ≤ size') (hlevel : level ≤ level') :
    clip size level ≤ clip size' level' := by
  simp only [clip, offsetofNext, sizeofPointer, kMaxLevel] at *
  omega

end Clip

theorem minLevels_mono {size size' : ℕ} (h : size ≤ size') : minLevels size ≤ minLevels size' :=
  clip_mono h (Nat.succ_le_succ (IntLog2_mono _ h))

theorem atMost_eq_min (bound level : ℕ) : atMost bound level = min level bound := by
  rw [atMost]
  split_ifs <;> omega

theorem max_fit_eq {size : ℕ} (hsize : offsetofNext + sizeofPointer ≤ size)
    (h64 : size < 2 ^ 64) : max_fit size = (size - offsetofNext) / sizeofPointer := by
  have hle : offsetofNext ≤ size := (Nat.le_add_right _ _).trans hsize
  rw [max_fit, Nat.sub_add_comm hle, Nat.add_mod_right, Nat.mod_eq_of_lt (by omega)]

/-- What `LLA_SkiplistLevels` computes for a block with room for a pointer. -/
theorem LLA_SkiplistLevels_eq {size : ℕ} (hsize : offsetofNext + sizeofPointer ≤ size)
    (h64 : size < 2 ^ 64) (base : ℕ) (random : Option ℕ) :
    LLA_SkiplistLevels size base random
      = some (clip size (IntLog2 size base + (random.elim 1 fun state => (Random state).1)),
          random.map fun state => (Random state).2) := by
  have hn : 1 ≤ random.elim 1 fun state => (Random state).1 := by
    cases random with
    | none => exact le_rfl
    | some state =>
      rw [Option.elim_some]
      exact one_le_Random state
  have hlevel := clip_pos hsize (hn.trans (Nat.le_add_left _ (IntLog2 size base)))
  have hclip (level : ℕ) :
      atMost (kMaxLevel - 1) (atMost (max_fit size) level) = clip size level := by
    rw [max_fit_eq hsize h64, atMost_eq_min, atMost_eq_min, clip]
  rw [LLA_SkiplistLevels, hclip, if_pos hlevel]

end BugInsight.LowLevelAlloc

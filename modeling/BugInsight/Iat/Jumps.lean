import Mathlib.Tactic
import Mathlib.Data.PNat.Basic

/-!
# Chains of jumps

`find_real_code` follows the jumps at an address.  An indirect jump goes through a cell of memory,
which is read at that moment; the cell of an import stub is a slot of an import table.

* `Code.findRealCode`: where a chain of jumps ends;
* `Code.meets`, `Code.cells`: the addresses that it meets and the cells that it reads;
* `Code.findRealCode_congr`: only these cells matter;
* `Code.findRealCode_of_changed`: cells that hold other addresses lead to what these addresses lead
  to;
* `Code.findRealCode_mem_of_cells`: what a chain reads, it follows.
-/

namespace BugInsight

/-- An address.  `NULL` is not one. -/
abbrev Address := ℕ+

/-- The contents of the cells that jumps go through, the slots of the import tables among them. -/
abbrev Memory := ℕ → Address

/-- What `find_real_code` finds at an address. -/
inductive Instruction
  /-- `JMP r/m32`, with the cell that holds the target -/
  | jmpIndirect (cell : ℕ)
  /-- `JMP rel32`, with the target -/
  | jmpRelative (target : Address)
  | other
  deriving DecidableEq

/-- The code in memory.  No chain of jumps has more than `maxJumps` of them. -/
structure Code where
  /-- `_WIN64` -/
  win64 : Bool
  instruction : Address → Instruction
  maxJumps : ℕ

/-- Some cells hold other addresses, which are among `T`. -/
def Rewritten (T : List Address) (memory memory' : Memory) : Prop :=
  ∀ k, memory' k = memory k ∨ memory' k ∈ T

theorem Rewritten.refl (T : List Address) (memory : Memory) : Rewritten T memory memory :=
  fun _ => Or.inl rfl

theorem Rewritten.trans {T : List Address} {memory memory' memory'' : Memory}
    (h : Rewritten T memory memory') (h' : Rewritten T memory' memory'') :
    Rewritten T memory memory'' := fun k =>
  (h' k).elim (fun heq => (h k).imp heq.trans fun hmem => heq.symm ▸ hmem) Or.inr

namespace Code

variable (c : Code) (memory : Memory)

/-- `find_real_code`, for a chain of at most `n` jumps. -/
def findRealCodeFrom : ℕ → Address → Address
  | 0, pCode => pCode
  | n + 1, pCode =>
      match c.instruction pCode with
      | .jmpIndirect cell => if c.win64 then memory cell else findRealCodeFrom n (memory cell)
      | .jmpRelative target => findRealCodeFrom n target
      | .other => pCode

/-- The addresses that `find_real_code` meets. -/
def meetsFrom : ℕ → Address → List Address
  | 0, pCode => [pCode]
  | n + 1, pCode =>
      pCode :: match c.instruction pCode with
        | .jmpIndirect cell => if c.win64 then [memory cell] else meetsFrom n (memory cell)
        | .jmpRelative target => meetsFrom n target
        | .other => []

/-- The cells that `find_real_code` reads. -/
def cellsFrom : ℕ → Address → List ℕ
  | 0, _ => []
  | n + 1, pCode =>
      match c.instruction pCode with
      | .jmpIndirect cell => cell :: if c.win64 then [] else cellsFrom n (memory cell)
      | .jmpRelative target => cellsFrom n target
      | .other => []

/-- `find_real_code`. -/
def findRealCode (pCode : Address) : Address := c.findRealCodeFrom memory c.maxJumps pCode

def meets (pCode : Address) : List Address := c.meetsFrom memory c.maxJumps pCode

def cells (pCode : Address) : List ℕ := c.cellsFrom memory c.maxJumps pCode

/-- The target of a jump that is followed. -/
def target (pCode : Address) : Option Address :=
  match c.instruction pCode with
  | .jmpIndirect cell => if c.win64 then none else some (memory cell)
  | .jmpRelative target => some target
  | .other => none

variable {c memory} {memory' : Memory} {a b x : Address} {n m k : ℕ}

/-- The bound does not matter for chains without cycles. -/
theorem findRealCodeFrom_eq {depth : Address → ℕ}
    (hdepth : ∀ a b, c.target memory a = some b → depth b < depth a) (hn : depth a < n)
    (hm : depth a < m) : c.findRealCodeFrom memory n a = c.findRealCodeFrom memory m a := by
  induction n generalizing m a with
  | zero => omega
  | succ n ih =>
    obtain ⟨m, rfl⟩ := Nat.exists_eq_add_one_of_ne_zero (by omega : m ≠ 0)
    have hih : ∀ b, c.target memory a = some b →
        c.findRealCodeFrom memory n b = c.findRealCodeFrom memory m b := fun b hb =>
      ih (by have := hdepth a b hb; omega) (by have := hdepth a b hb; omega)
    unfold target at hih
    rw [findRealCodeFrom, findRealCodeFrom]
    cases hi : c.instruction a with
    | other => rfl
    | jmpRelative b => exact hih b (by rw [hi])
    | jmpIndirect cell =>
      dsimp only
      split_ifs with hw
      · rfl
      · exact hih _ (by rw [hi]; exact if_neg hw)

/-! ### What a chain meets -/

theorem self_mem_meetsFrom : a ∈ c.meetsFrom memory n a := by
  cases n with
  | zero => exact List.mem_singleton_self a
  | succ n => exact List.mem_cons_self

theorem self_mem_meets : a ∈ c.meets memory a := self_mem_meetsFrom

/-- A chain meets its end. -/
theorem findRealCodeFrom_mem_meetsFrom :
    c.findRealCodeFrom memory n a ∈ c.meetsFrom memory n a := by
  induction n generalizing a with
  | zero => exact List.mem_singleton_self a
  | succ n ih =>
    rw [findRealCodeFrom, meetsFrom]
    cases c.instruction a with
    | other => exact List.mem_cons_self
    | jmpRelative b => exact List.mem_cons_of_mem a ih
    | jmpIndirect cell =>
      dsimp only
      split_ifs
      · exact List.mem_cons_of_mem a (List.mem_singleton_self _)
      · exact List.mem_cons_of_mem a ih

theorem findRealCode_mem_meets : c.findRealCode memory a ∈ c.meets memory a :=
  findRealCodeFrom_mem_meetsFrom

theorem meetsFrom_subset (h : n ≤ m) : c.meetsFrom memory n a ⊆ c.meetsFrom memory m a := by
  induction n generalizing m a with
  | zero => exact List.cons_subset.2 ⟨self_mem_meetsFrom, List.nil_subset _⟩
  | succ n ih =>
    obtain ⟨m, rfl⟩ := Nat.exists_eq_add_one_of_ne_zero (by omega : m ≠ 0)
    rw [meetsFrom, meetsFrom]
    refine List.cons_subset_cons a ?_
    cases c.instruction a with
    | other => exact List.Subset.refl _
    | jmpRelative b => exact ih (by omega)
    | jmpIndirect cell =>
      dsimp only
      split_ifs
      · exact List.Subset.refl _
      · exact ih (by omega)

theorem cellsFrom_subset (h : n ≤ m) : c.cellsFrom memory n a ⊆ c.cellsFrom memory m a := by
  induction n generalizing m a with
  | zero => exact List.nil_subset _
  | succ n ih =>
    obtain ⟨m, rfl⟩ := Nat.exists_eq_add_one_of_ne_zero (by omega : m ≠ 0)
    rw [cellsFrom, cellsFrom]
    cases c.instruction a with
    | other => exact List.Subset.refl _
    | jmpRelative b => exact ih (by omega)
    | jmpIndirect cell =>
      refine List.cons_subset_cons cell ?_
      split_ifs
      · exact List.Subset.refl _
      · exact ih (by omega)

/-! ### Other contents -/

/-- Only the cells that a chain reads matter. -/
theorem findRealCodeFrom_congr (h : ∀ k ∈ c.cellsFrom memory n a, memory' k = memory k) :
    c.findRealCodeFrom memory' n a = c.findRealCodeFrom memory n a ∧
      c.cellsFrom memory' n a = c.cellsFrom memory n a ∧
      c.meetsFrom memory' n a = c.meetsFrom memory n a := by
  induction n generalizing a with
  | zero => exact ⟨rfl, rfl, rfl⟩
  | succ n ih =>
    simp only [findRealCodeFrom, cellsFrom, meetsFrom] at h ⊢
    cases hi : c.instruction a with
    | other => exact ⟨rfl, rfl, rfl⟩
    | jmpRelative b =>
      rw [hi] at h
      obtain ⟨hreal, hcells, hmeets⟩ := ih h
      exact ⟨hreal, hcells, congrArg _ hmeets⟩
    | jmpIndirect cell =>
      rw [hi] at h
      dsimp only at h ⊢
      rw [h cell List.mem_cons_self]
      split_ifs at h ⊢
      · exact ⟨rfl, rfl, rfl⟩
      · obtain ⟨hreal, hcells, hmeets⟩ := ih fun k hk => h k (List.mem_cons_of_mem cell hk)
        exact ⟨hreal, congrArg _ hcells, congrArg _ hmeets⟩

theorem findRealCode_congr (h : ∀ k ∈ c.cells memory a, memory' k = memory k) :
    c.findRealCode memory' a = c.findRealCode memory a := (findRealCodeFrom_congr h).1

theorem meets_congr (h : ∀ k ∈ c.cells memory a, memory' k = memory k) :
    c.meets memory' a = c.meets memory a := (findRealCodeFrom_congr h).2.2

/-- What a chain reads, it follows. -/
theorem findRealCodeFrom_mem_of_cells (h : k ∈ c.cellsFrom memory n a) :
    c.findRealCodeFrom memory n a ∈ c.meetsFrom memory n (memory k) := by
  induction n generalizing a with
  | zero => cases h
  | succ n ih =>
    have hsucc : c.meetsFrom memory n (memory k) ⊆ c.meetsFrom memory (n + 1) (memory k) :=
      meetsFrom_subset n.le_succ
    rw [cellsFrom] at h
    rw [findRealCodeFrom]
    cases hi : c.instruction a with
    | other =>
      rw [hi] at h
      cases h
    | jmpRelative b =>
      rw [hi] at h
      exact hsucc (ih h)
    | jmpIndirect cell =>
      rw [hi] at h
      dsimp only at h ⊢
      rcases List.mem_cons.1 h with rfl | h
      · split_ifs
        · exact self_mem_meetsFrom
        · exact hsucc findRealCodeFrom_mem_meetsFrom
      · split_ifs at h ⊢
        · cases h
        · exact hsucc (ih h)

theorem findRealCode_mem_of_cells (h : k ∈ c.cells memory a) :
    c.findRealCode memory a ∈ c.meets memory (memory k) := findRealCodeFrom_mem_of_cells h

variable {T : List Address}

/-- Where some cells hold other addresses, a chain goes on from one of these. -/
theorem findRealCodeFrom_of_changed (h : Rewritten T memory memory') :
    c.findRealCodeFrom memory' n a = c.findRealCodeFrom memory n a ∨
      ∃ r ∈ T, c.findRealCodeFrom memory' n a ∈ c.meetsFrom memory n r := by
  induction n generalizing a with
  | zero => exact Or.inl rfl
  | succ n ih =>
    have hih : ∀ b, c.findRealCodeFrom memory' n b = c.findRealCodeFrom memory n b ∨
        ∃ r ∈ T, c.findRealCodeFrom memory' n b ∈ c.meetsFrom memory (n + 1) r := fun b =>
      ih.imp_right fun ⟨r, hr, hmem⟩ => ⟨r, hr, meetsFrom_subset n.le_succ hmem⟩
    rw [findRealCodeFrom, findRealCodeFrom]
    cases c.instruction a with
    | other => exact Or.inl rfl
    | jmpRelative b => exact hih b
    | jmpIndirect cell =>
      dsimp only
      rcases h cell with hcell | hcell
      · rw [hcell]
        split_ifs
        · exact Or.inl rfl
        · exact hih _
      · refine Or.inr ?_
        split_ifs
        · exact ⟨_, hcell, self_mem_meetsFrom⟩
        · rcases hih (memory' cell) with hreal | hmem
          · refine ⟨_, hcell, meetsFrom_subset n.le_succ ?_⟩
            rw [hreal]
            exact findRealCodeFrom_mem_meetsFrom
          · exact hmem

theorem findRealCode_of_changed (h : Rewritten T memory memory') :
    c.findRealCode memory' a = c.findRealCode memory a ∨
      ∃ r ∈ T, c.findRealCode memory' a ∈ c.meets memory r := findRealCodeFrom_of_changed h

theorem meetsFrom_of_changed (h : Rewritten T memory memory')
    (hx : x ∈ c.meetsFrom memory' n a) :
    x ∈ c.meetsFrom memory n a ∨ ∃ r ∈ T, x ∈ c.meetsFrom memory n r := by
  induction n generalizing a with
  | zero => exact Or.inl hx
  | succ n ih =>
    have hsucc : (∃ r ∈ T, x ∈ c.meetsFrom memory n r) →
        ∃ r ∈ T, x ∈ c.meetsFrom memory (n + 1) r := fun ⟨r, hr, hmem⟩ =>
      ⟨r, hr, meetsFrom_subset n.le_succ hmem⟩
    rw [meetsFrom] at hx ⊢
    rcases List.mem_cons.1 hx with rfl | hx
    · exact Or.inl List.mem_cons_self
    cases hi : c.instruction a with
    | other =>
      rw [hi] at hx
      cases hx
    | jmpRelative b =>
      rw [hi] at hx
      exact (ih hx).imp (List.mem_cons_of_mem a) hsucc
    | jmpIndirect cell =>
      rw [hi] at hx
      dsimp only at hx ⊢
      rcases h cell with hcell | hcell
      · rw [hcell] at hx
        split_ifs at hx ⊢
        · exact Or.inl (List.mem_cons_of_mem a hx)
        · exact (ih hx).imp (List.mem_cons_of_mem a) hsucc
      · refine Or.inr ?_
        split_ifs at hx
        · rw [List.mem_singleton.1 hx]
          exact ⟨_, hcell, self_mem_meetsFrom⟩
        · exact (ih hx).elim (fun hmem => hsucc ⟨_, hcell, hmem⟩) hsucc

theorem meets_of_changed (h : Rewritten T memory memory')
    (hx : x ∈ c.meets memory' a) : x ∈ c.meets memory a ∨ ∃ r ∈ T, x ∈ c.meets memory r :=
  meetsFrom_of_changed h hx

theorem cellsFrom_of_changed (h : Rewritten T memory memory')
    (hk : k ∈ c.cellsFrom memory' n a) :
    k ∈ c.cellsFrom memory n a ∨ ∃ r ∈ T, k ∈ c.cellsFrom memory n r := by
  induction n generalizing a with
  | zero => cases hk
  | succ n ih =>
    have hsucc : (∃ r ∈ T, k ∈ c.cellsFrom memory n r) →
        ∃ r ∈ T, k ∈ c.cellsFrom memory (n + 1) r := fun ⟨r, hr, hmem⟩ =>
      ⟨r, hr, cellsFrom_subset n.le_succ hmem⟩
    rw [cellsFrom] at hk ⊢
    cases hi : c.instruction a with
    | other =>
      rw [hi] at hk
      cases hk
    | jmpRelative b =>
      rw [hi] at hk
      exact (ih hk).imp_right hsucc
    | jmpIndirect cell =>
      rw [hi] at hk
      dsimp only at hk ⊢
      rcases List.mem_cons.1 hk with rfl | hk
      · exact Or.inl List.mem_cons_self
      split_ifs at hk ⊢
      · cases hk
      · rcases h cell with hcell | hcell
        · rw [hcell] at hk
          exact (ih hk).imp (List.mem_cons_of_mem cell) hsucc
        · exact Or.inr ((ih hk).elim (fun hmem => hsucc ⟨_, hcell, hmem⟩) hsucc)

theorem cells_of_changed (h : Rewritten T memory memory')
    (hk : k ∈ c.cells memory' a) : k ∈ c.cells memory a ∨ ∃ r ∈ T, k ∈ c.cells memory r :=
  cellsFrom_of_changed h hk

end Code

end BugInsight

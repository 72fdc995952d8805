import Mathlib.Tactic

/-!
# Locks, call stacks and held-lock lists

The data types of `synch_locks_held.hpp` and the call stack of `leak_types.hpp`.  Addresses,
thread ids and graph ids are natural numbers; `nullptr` is `0`, and `0` is also the thread id of
no thread and the graph id that is never issued.

`SynchLocksHeld N` carries its own well-formedness: `N` is `MAX_LOCKS_PER_THREAD`, the array has
`N` entries and at most `N` of them are valid.
-/

namespace BugInsight

/-- The null pointer. -/
def nullptr : ℕ := 0

/-- `callstack_t`: return addresses and their number. -/
structure Callstack where
  ptr : List ℕ := []
  size : ℕ := 0
  deriving DecidableEq

/-- `lock_t`: one acquired lock. -/
structure Lock where
  /-- lock acquired -/
  mu : ℕ := nullptr
  /-- times acquired -/
  count : ℤ := 0
  /-- deadlock graph id of the acquired lock -/
  id : ℕ := 0
  deriving DecidableEq, Inhabited

/-- `InvalidGraphId`. -/
def invalidGraphId : ℕ := 0

/-- The value of `m_lock_start_time_point` during a condition wait. -/
def condWaitMark : ℕ := 2 ^ 64 - 1

/-- `SynchLocksHeld`. -/
structure SynchLocksHeld (N : ℕ) where
  id : ℕ
  /-- number of valid entries in `locks` -/
  n : ℕ
  locks : List Lock
  lockStartTimePoint : ℕ
  threadMonitorActive : Bool
  length_locks : locks.length = N
  n_le : n ≤ N

/-- An entry of a list overwritten by the last one, which is dropped: up to the order, the entry
is erased. -/
theorem dropLast_set_perm {α : Type*} (l : List α) (x : α) {i : ℕ} (hi : i < l.length) :
    (l.set i (l.getLastD x)).dropLast.Perm (l.eraseIdx i) := by
  rcases List.eq_nil_or_concat l with rfl | ⟨init, last, rfl⟩
  · simp at hi
  · rw [List.concat_eq_append] at hi ⊢
    rw [List.length_append, List.length_singleton] at hi
    have hlast : (init ++ [last]).getLastD x = last := by simp
    rw [hlast]
    by_cases hlt : i < init.length
    · rw [List.set_append_left i last hlt, List.dropLast_concat,
        List.eraseIdx_append_of_lt_length hlt]
      refine (List.set_perm_cons_eraseIdx hlt _).trans ?_
      exact (List.perm_append_singleton _ _).symm
    · obtain rfl : i = init.length := by omega
      rw [List.set_append_right _ _ le_rfl, List.eraseIdx_append_of_length_le le_rfl]
      simp

/-- Counting an entry up or down changes its counter only. -/
theorem map_set_count {α : Type*} (f : Lock → α) (hf : ∀ l c, f { l with count := c } = f l)
    {ls : List Lock} {i : ℕ} {l : Lock} (hi : ls[i]? = some l) (c : ℤ) :
    (ls.set i { l with count := c }).map f = ls.map f := by
  obtain ⟨hlt, rfl⟩ := List.getElem?_eq_some_iff.1 hi
  rw [List.map_set, hf, ← List.getElem_map f (h := by rwa [List.length_map]), List.set_getElem_self]

namespace SynchLocksHeld

variable {N : ℕ}

/-- The list of a thread that has not locked anything yet. -/
def new (N threadId : ℕ) : SynchLocksHeld N where
  id := threadId
  n := 0
  locks := List.replicate N {}
  lockStartTimePoint := 0
  threadMonitorActive := false
  length_locks := List.length_replicate
  n_le := Nat.zero_le N

/-- `locks[i]`. -/
def lock (h : SynchLocksHeld N) (i : ℕ) : Lock := h.locks.getD i default

/-- The valid entries. -/
def entries (h : SynchLocksHeld N) : List Lock := h.locks.take h.n

/-- Assignment to `m_lock_start_time_point`. -/
def setStart (h : SynchLocksHeld N) (ticks : ℕ) : SynchLocksHeld N :=
  { h with lockStartTimePoint := ticks }

/-- `m_lock_start_time_point` is cleared when no entry is left. -/
def clearStart (h : SynchLocksHeld N) : SynchLocksHeld N := if h.n = 0 then h.setStart 0 else h

/-- Assignment to `m_thread_monitor_active`. -/
def activate (h : SynchLocksHeld N) : SynchLocksHeld N := { h with threadMonitorActive := true }

/-- The index of the first valid entry with a property, `n` if there is none: the loop
`while(i != n && !p(locks[i])) i++`. -/
def findEntry (h : SynchLocksHeld N) (p : Lock → Bool) : ℕ := h.entries.findIdx p

/-- Assignment to `locks[i]`. -/
def setLock (h : SynchLocksHeld N) (i : ℕ) (l : Lock) : SynchLocksHeld N where
  __ := h
  locks := h.locks.set i l
  length_locks := by rw [List.length_set]; exact h.length_locks

/-- A new entry behind the valid ones. -/
def push (h : SynchLocksHeld N) (l : Lock) (hn : h.n < N) : SynchLocksHeld N where
  __ := h.setLock h.n l
  n := h.n + 1
  n_le := hn

/-- Entry `i` is overwritten by the last valid one, which is cleared. -/
def remove (h : SynchLocksHeld N) (i : ℕ) : SynchLocksHeld N where
  __ := (h.setLock i (h.lock (h.n - 1))).setLock (h.n - 1) default
  n := h.n - 1
  n_le := (Nat.sub_le _ _).trans h.n_le

/-! ### The valid entries -/

variable (h : SynchLocksHeld N)

@[simp] theorem length_entries : h.entries.length = h.n := by
  unfold entries
  rw [List.length_take, h.length_locks, Nat.min_eq_left h.n_le]

/-- A valid entry, as one of the list. -/
theorem getElem?_entries {i : ℕ} (hi : i < h.n) : h.entries[i]? = some (h.lock i) := by
  have hlocks : i < h.locks.length := by rw [h.length_locks]; exact hi.trans_le h.n_le
  unfold entries lock
  rw [List.getElem?_take_of_lt hi, List.getD_eq_getElem?_getD, List.getElem?_eq_getElem hlocks]
  rfl

/-- Two lists of the same entries. -/
structure SameLocks (h h' : SynchLocksHeld N) : Prop where
  n : h'.n = h.n
  locks : h'.locks = h.locks

theorem SameLocks.rfl : h.SameLocks h := ⟨Eq.refl _, Eq.refl _⟩

theorem SameLocks.trans {h h' h'' : SynchLocksHeld N} (hs : h.SameLocks h')
    (hs' : h'.SameLocks h'') : h.SameLocks h'' := ⟨hs'.n.trans hs.n, hs'.locks.trans hs.locks⟩

theorem SameLocks.entries {h h' : SynchLocksHeld N} (hs : h.SameLocks h') :
    h'.entries = h.entries := by
  unfold SynchLocksHeld.entries
  rw [hs.n, hs.locks]

theorem sameLocks_clearStart : h.SameLocks h.clearStart := by
  unfold clearStart
  split_ifs
  · exact ⟨Eq.refl _, Eq.refl _⟩
  · exact .rfl h

theorem start_clearStart :
    h.clearStart.lockStartTimePoint = if h.n = 0 then 0 else h.lockStartTimePoint := by
  unfold clearStart
  split_ifs <;> rfl

theorem n_eq_zero_iff : h.n = 0 ↔ h.entries = [] := by
  rw [← List.length_eq_zero_iff, length_entries]

theorem findEntry_le (p : Lock → Bool) : h.findEntry p ≤ h.n := by
  have : h.entries.findIdx p ≤ h.entries.length := List.findIdx_le_length
  rwa [length_entries] at this

/-- An entry that the search comes to is valid and has the property. -/
theorem findEntry_spec {p : Lock → Bool} (hi : h.findEntry p ≠ h.n) :
    h.findEntry p < h.n ∧ p (h.lock (h.findEntry p)) = true ∧
      h.lock (h.findEntry p) ∈ h.entries := by
  have hlt : h.findEntry p < h.n := lt_of_le_of_ne (h.findEntry_le p) hi
  have hlt' : h.entries.findIdx p < h.entries.length := by rwa [length_entries]
  have hget : h.entries[h.entries.findIdx p] = h.lock (h.findEntry p) := by
    have := h.getElem?_entries hlt
    rw [findEntry, List.getElem?_eq_getElem hlt'] at this
    exact Option.some_inj.1 this
  rw [← hget]
  exact ⟨hlt, List.findIdx_getElem, List.getElem_mem hlt'⟩

/-- The search comes to the end exactly if no valid entry has the property. -/
theorem findEntry_eq_n_iff {p : Lock → Bool} :
    h.findEntry p = h.n ↔ ∀ l ∈ h.entries, p l = false := by
  have : h.entries.findIdx p = h.entries.length ↔ ∀ l ∈ h.entries, p l = false :=
    List.findIdx_eq_length
  rwa [length_entries] at this

/-- Adding an entry. -/
theorem entries_push (l : Lock) (hn : h.n < N) : (h.push l hn).entries = h.entries ++ [l] := by
  show (h.locks.set h.n l).take (h.n + 1) = h.locks.take h.n ++ [l]
  have hlt : h.n < (h.locks.set h.n l).length := by rw [List.length_set, h.length_locks]; exact hn
  rw [List.take_add_one, List.getElem?_eq_getElem hlt, List.getElem_set_self,
    List.take_set_of_le (le_refl _)]
  rfl

/-- Overwriting a valid entry. -/
theorem entries_setLock (i : ℕ) (l : Lock) : (h.setLock i l).entries = h.entries.set i l := by
  show (h.locks.set i l).take h.n = (h.locks.take h.n).set i l
  rw [List.take_set]

/-- The entries of the array after an assignment. -/
theorem lock_setLock (i j : ℕ) (l : Lock) :
    (h.setLock i l).lock j = if i = j ∧ j < N then l else h.lock j := by
  show (h.locks.set i l).getD j default = if i = j ∧ j < N then l else h.locks.getD j default
  rw [List.getD_eq_getElem?_getD, List.getElem?_set, h.length_locks]
  split_ifs with hij hj hc hc hc
  · rfl
  · omega
  · omega
  · have hlen : h.locks.length ≤ j := by rw [h.length_locks]; omega
    rw [List.getD_eq_getElem?_getD, List.getElem?_eq_none hlen]
  · exact absurd hc.1 hij
  · rw [List.getD_eq_getElem?_getD]

/-- Removing a valid entry. -/
theorem entries_remove {i : ℕ} (hi : i < h.n) :
    (h.remove i).entries.Perm (h.entries.eraseIdx i) := by
  have hlast : h.lock (h.n - 1) = h.entries.getLastD default := by
    have hget := h.getElem?_entries (show h.n - 1 < h.n by omega)
    rw [List.getLastD_eq_getLast?, List.getLast?_eq_getElem?, length_entries, hget]
    rfl
  have hremove : (h.remove i).entries =
      (h.entries.set i (h.entries.getLastD default)).dropLast := by
    rw [← hlast, List.dropLast_eq_take, List.length_set, length_entries]
    show ((h.locks.set i (h.lock (h.n - 1))).set (h.n - 1) default).take (h.n - 1) =
      ((h.locks.take h.n).set i (h.lock (h.n - 1))).take (h.n - 1)
    rw [List.take_set_of_le le_rfl, List.take_set, List.take_set, List.take_take,
      Nat.min_eq_left (Nat.sub_le _ _)]
  rw [hremove]
  exact dropLast_set_perm _ _ (by rwa [length_entries])

end SynchLocksHeld

end BugInsight

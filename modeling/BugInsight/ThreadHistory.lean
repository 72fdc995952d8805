import BugInsight.Report

/-!
# The held-lock list of a thread

`update_lock_history_in_lock` and `update_lock_history_after_lock` of
`thread_history_helper.cpp`: the list when a lock was acquired and when one is released.  Entries
are found by their graph id.

* `inLock_cases`, `afterLock_cases` say once what the two functions can do.
-/

namespace BugInsight

variable {N : ℕ}

/-- `update_lock_history_in_lock`. -/
def updateLockHistoryInLock (mu id : ℕ) (h : SynchLocksHeld N) : SynchLocksHeld N :=
  let i := h.findEntry (·.id = id)
  if i = h.n then
    if hn : h.n < N then h.push ⟨mu, 1, id⟩ hn
    else h
  else h.setLock i { h.lock i with count := (h.lock i).count + 1 }

/-- `update_lock_history_after_lock`, with the error it reports when it returns false. -/
def updateLockHistoryAfterLock (threadId mu id : ℕ) (h : SynchLocksHeld N) :
    SynchLocksHeld N × Bool × Option Report :=
  let i := h.findEntry (·.id = id)
  if i = h.n then
    -- the id may have been reassigned since the lock was acquired, but `mu` is still there then
    if h.findEntry (·.mu = mu) = h.n then (h, false, some (.releaseLockNotHeld threadId mu))
    else (h, false, some (.releaseLockDeletedByOtherThread threadId mu))
  else if (h.lock i).count = 1 then (h.remove i, true, none)
  else (h.setLock i { h.lock i with count := (h.lock i).count - 1 }, true, none)

/-! ### What the two functions do -/

variable (threadId mu id : ℕ) (h : SynchLocksHeld N)

theorem SynchLocksHeld.findEntry_id_eq_n_iff :
    h.findEntry (·.id = id) = h.n ↔ ∀ l ∈ h.entries, l.id ≠ id := by
  rw [h.findEntry_eq_n_iff]
  simp

/-- The entry that a search for an id comes to. -/
theorem SynchLocksHeld.findEntry_id_spec (hi : h.findEntry (·.id = id) ≠ h.n) :
    h.entries[h.findEntry (·.id = id)]? = some (h.lock (h.findEntry (·.id = id))) ∧
      (h.lock (h.findEntry (·.id = id))).id = id := by
  obtain ⟨hlt, hp, -⟩ := h.findEntry_spec hi
  exact ⟨h.getElem?_entries hlt, of_decide_eq_true hp⟩

/-- **`update_lock_history_in_lock`** adds an entry, unless the list is full, or counts up. -/
theorem inLock_cases :
    (∀ l ∈ h.entries, l.id ≠ id) ∧
        ((∃ hn : h.n < N, updateLockHistoryInLock mu id h = h.push ⟨mu, 1, id⟩ hn) ∨
          h.n = N ∧ updateLockHistoryInLock mu id h = h) ∨
      ∃ i l, h.entries[i]? = some l ∧ l.id = id ∧
        updateLockHistoryInLock mu id h = h.setLock i { l with count := l.count + 1 } := by
  unfold updateLockHistoryInLock
  by_cases hi : h.findEntry (·.id = id) = h.n
  · refine Or.inl ⟨(h.findEntry_id_eq_n_iff id).1 hi, ?_⟩
    simp only [hi, if_true]
    by_cases hn : h.n < N
    · exact Or.inl ⟨hn, by rw [dif_pos hn]⟩
    · exact Or.inr ⟨le_antisymm h.n_le (not_lt.1 hn), by rw [dif_neg hn]⟩
  · obtain ⟨hget, hid⟩ := h.findEntry_id_spec id hi
    refine Or.inr ⟨_, _, hget, hid, ?_⟩
    simp only [hi, if_false]

/-- **`update_lock_history_after_lock`** reports an error if no entry has the id, and otherwise
counts down or removes the entry. -/
theorem afterLock_cases :
    (∀ l ∈ h.entries, l.id ≠ id) ∧
        (∃ report, updateLockHistoryAfterLock threadId mu id h = (h, false, some report) ∧
          (report = .releaseLockNotHeld threadId mu ∨
            report = .releaseLockDeletedByOtherThread threadId mu)) ∨
      ∃ i l, h.entries[i]? = some l ∧ l.id = id ∧
        (l.count = 1 ∧ updateLockHistoryAfterLock threadId mu id h = (h.remove i, true, none) ∨
          l.count ≠ 1 ∧ updateLockHistoryAfterLock threadId mu id h =
            (h.setLock i { l with count := l.count - 1 }, true, none)) := by
  unfold updateLockHistoryAfterLock
  by_cases hi : h.findEntry (·.id = id) = h.n
  · refine Or.inl ⟨(h.findEntry_id_eq_n_iff id).1 hi, ?_⟩
    simp only [hi, if_true]
    split_ifs
    · exact ⟨_, rfl, Or.inl rfl⟩
    · exact ⟨_, rfl, Or.inr rfl⟩
  · obtain ⟨hget, hid⟩ := h.findEntry_id_spec id hi
    refine Or.inr ⟨_, _, hget, hid, ?_⟩
    simp only [hi, if_false]
    by_cases hc : (h.lock (h.findEntry (·.id = id))).count = 1
    · exact Or.inl ⟨hc, by rw [if_pos hc]⟩
    · exact Or.inr ⟨hc, by rw [if_neg hc]⟩

/-! ### The start time and the number of entries -/

theorem start_inLock :
    (updateLockHistoryInLock mu id h).lockStartTimePoint = h.lockStartTimePoint := by
  rcases inLock_cases mu id h with ⟨-, ⟨hn, heq⟩ | ⟨-, heq⟩⟩ | ⟨i, l, -, -, heq⟩ <;> rw [heq] <;> rfl

theorem start_afterLock :
    (updateLockHistoryAfterLock threadId mu id h).1.lockStartTimePoint =
      h.lockStartTimePoint := by
  rcases afterLock_cases threadId mu id h with
    ⟨-, report, heq, -⟩ | ⟨i, l, -, -, ⟨-, heq⟩ | ⟨-, heq⟩⟩ <;> rw [heq] <;> rfl

/-- A lock that was acquired is in the list, or the list is full. -/
theorem n_inLock_pos (hN : 0 < N) : 0 < (updateLockHistoryInLock mu id h).n := by
  rcases inLock_cases mu id h with ⟨-, ⟨hn, heq⟩ | ⟨hn, heq⟩⟩ | ⟨i, l, hi, -, heq⟩
  · rw [heq]
    exact Nat.succ_pos h.n
  · rw [heq, hn]
    exact hN
  · rw [heq]
    have := (List.getElem?_eq_some_iff.1 hi).1
    rw [h.length_entries] at this
    exact Nat.zero_lt_of_lt this

theorem n_afterLock_le : (updateLockHistoryAfterLock threadId mu id h).1.n ≤ h.n := by
  rcases afterLock_cases threadId mu id h with
    ⟨-, report, heq, -⟩ | ⟨i, l, -, -, ⟨-, heq⟩ | ⟨-, heq⟩⟩
  · rw [heq]
  · rw [heq]
    exact Nat.sub_le _ _
  · rw [heq]
    exact le_rfl

end BugInsight

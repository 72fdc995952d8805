import BugInsight.Monitor.Invariant
import BugInsight.Monitor.Threads

/-!
# Balanced locking

`heldCount` is the sum of the counters of a list.  An acquisition adds one, and so does a blocking
call that fails.  A release takes one away if some entry has the current id of the lock.  If another
thread deleted the lock since, none has: the release is reported, and the entry stays.

* `heldCount_step`: what a call does to the sum;
* `drained_iff`: a thread that releases every lock as often as it acquires it has an empty list in
  the end exactly if each of its releases finds an entry and none of its blocking calls fails.
-/

namespace BugInsight

open BugInsight.Rep

variable {N : ℕ} {o : UserOptions} {dbg : Bool} {h : SynchLocksHeld N}

/-! ### The sum of the counters -/

/-- The sum of the counters of a list. -/
def heldCount (h : SynchLocksHeld N) : ℤ := (h.entries.map Lock.count).sum

theorem heldCount_congr {h' : SynchLocksHeld N} (hs : h.SameLocks h') :
    heldCount h' = heldCount h := by
  rw [heldCount, heldCount, hs.entries]

/-- The sum without one entry. -/
theorem heldCount_eraseIdx {ls : List Lock} {i : ℕ} {l : Lock} (hi : ls[i]? = some l) :
    ((ls.eraseIdx i).map Lock.count).sum = (ls.map Lock.count).sum - l.count := by
  obtain ⟨hlt, rfl⟩ := List.getElem?_eq_some_iff.1 hi
  have hsum := ((List.getElem_cons_eraseIdx_perm hlt).map Lock.count).sum_eq
  rw [List.map_cons, List.sum_cons] at hsum
  omega

theorem heldCount_setLock {i : ℕ} {l : Lock} (hi : h.entries[i]? = some l) (c : ℤ) :
    heldCount (h.setLock i { l with count := c }) = heldCount h - l.count + c := by
  have hlt := (List.getElem?_eq_some_iff.1 hi).1
  unfold heldCount
  rw [h.entries_setLock, ((List.set_perm_cons_eraseIdx hlt _).map Lock.count).sum_eq,
    List.map_cons, List.sum_cons, heldCount_eraseIdx hi]
  ring

/-- The sum is zero only for the empty list. -/
theorem heldCount_eq_zero (hpos : ∀ l ∈ h.entries, 0 < l.count) : heldCount h = 0 ↔ h.n = 0 := by
  rw [h.n_eq_zero_iff]
  constructor
  · intro hsum
    by_contra hne
    have hlt : 0 < (h.entries.map Lock.count).sum := by
      refine List.sum_pos _ (fun x hx => ?_) (by simpa using hne)
      obtain ⟨l, hl, rfl⟩ := List.mem_map.1 hx
      exact hpos l hl
    exact hlt.ne' hsum
  · intro hnil
    rw [heldCount, hnil]
    rfl

/-- **An acquisition** adds one if there is room. -/
theorem heldCount_inLock (mu id : ℕ) (hn : h.n < N) :
    heldCount (updateLockHistoryInLock mu id h) = heldCount h + 1 := by
  rcases inLock_cases mu id h with ⟨-, ⟨hn', heq⟩ | ⟨hfull, -⟩⟩ | ⟨i, l, hi, -, heq⟩
  · rw [heq, heldCount, h.entries_push]
    simp [heldCount]
  · omega
  · rw [heq, heldCount_setLock hi]
    ring

/-- **A release** takes one away if an entry has the id. -/
theorem heldCount_afterLock (t mu id : ℕ) :
    heldCount (updateLockHistoryAfterLock t mu id h).1 =
      heldCount h - if ∃ l ∈ h.entries, l.id = id then 1 else 0 := by
  rcases afterLock_cases t mu id h with ⟨hne, report, heq, -⟩ | ⟨i, l, hi, hl, hcases⟩
  · rw [heq, if_neg (by rintro ⟨l, hl, hid⟩; exact hne l hl hid), sub_zero]
  · rw [if_pos ⟨l, List.mem_of_getElem? hi, hl⟩]
    rcases hcases with ⟨hone, heq⟩ | ⟨-, heq⟩
    · have hlt := (List.getElem?_eq_some_iff.1 hi).1
      rw [h.length_entries] at hlt
      rw [heq, heldCount, ((h.entries_remove hlt).map Lock.count).sum_eq, heldCount_eraseIdx hi,
        hone, heldCount]
    · rw [heq, heldCount_setLock hi]
      ring

/-! ### One call -/

/-- The locks that a thread acquires, in order. -/
def acquired (t : ℕ) (calls : List Call) : List ℕ :=
  calls.filterMap fun
    | .lockAcquired s mu => if s = t then some mu else none
    | _ => none

/-- The locks that blocking calls of a thread do not get. -/
def failed (t : ℕ) (calls : List Call) : List ℕ :=
  calls.filterMap fun
    | .lockFailed s mu => if s = t then some mu else none
    | _ => none

/-- The locks that a thread releases, in order. -/
def released (t : ℕ) (calls : List Call) : List ℕ :=
  calls.filterMap fun
    | .afterLock s mu => if s = t then some mu else none
    | _ => none

theorem acquired_append (t : ℕ) (l l' : List Call) :
    acquired t (l ++ l') = acquired t l ++ acquired t l' := List.filterMap_append

theorem failed_append (t : ℕ) (l l' : List Call) :
    failed t (l ++ l') = failed t l ++ failed t l' := List.filterMap_append

theorem failed_eq_nil_iff {t : ℕ} {calls : List Call} :
    failed t calls = [] ↔ ∀ mu, Call.lockFailed t mu ∉ calls := by
  rw [failed, List.filterMap_eq_nil_iff]
  constructor
  · intro h mu hmem
    simpa using h _ hmem
  · intro h c hc
    cases c with
    | lockFailed s mu =>
      refine if_neg ?_
      rintro rfl
      exact h mu hc
    | _ => rfl

theorem released_append (t : ℕ) (l l' : List Call) :
    released t (l ++ l') = released t l ++ released t l' := List.filterMap_append

namespace World

variable {w w' : World N} {c : Call} {t : ℕ} {m : ℕ → Option ℕ}

/-- A release finds an entry whose id still belongs to the lock. -/
def Finds (t : ℕ) (w : World N) : Call → Prop
  | .afterLock s mu => s = t → ∃ l ∈ (w.monitor.held t).entries, w.monitor.graph.ptr l.id = mu
  | _ => True

instance (t : ℕ) (w : World N) : ∀ c, Decidable (Finds t w c)
  | .afterLock s _ => inferInstanceAs (Decidable (s = t → _))
  | .beforeLock _ _ _ | .beforeTryLock _ _ _ | .lockAcquired _ _ | .lockFailed _ _
  | .tryLockFailed _ _ | .deleteLock _ _ | .cndWait _ _ | .increaseIgnoreCounter _ _ _
  | .threadExit _ | .timerExpired _ | .watchdogScan _ | .callbackEnd => isTrue trivial

/-- The calls of a thread were not refused. -/
def Accepted (w : World N) (t : ℕ) : Prop :=
  ∀ p, w.pending t = some p → p.id ≠ invalidGraphId

theorem SameThread.accepted (h : SameThread w w' t) (ha : Accepted w t) : Accepted w' t := by
  unfold Accepted
  rw [h.pending]
  exact ha

theorem accepted_of_idle (hidle : w.Idle t) : Accepted w t := fun p hp => by
  cases hidle.symm.trans hp

theorem accepted_wait {p : Pending} {M : Monitor N} (hid : p.id ≠ invalidGraphId) :
    Accepted (w.wait t p M) t := by
  intro q hq
  have hpending : (w.wait t p M).pending t = some p := Function.update_self ..
  cases hpending.symm.trans hq
  exact hid

/-- While the list is not full and nothing is ignored, no call is refused. -/
theorem accepted_step (hinv : Inv ∅ w m) (hign : NothingIgnored w t) (hacc : Accepted w t)
    (hn : (w.monitor.held t).n < N) (hstep : w.step o dbg c = some w') : Accepted w' t := by
  by_cases ht : c.thread = some t
  · cases stepped hstep with
    | @beforeLock s mu id e M' hidle hmu hcall =>
      cases ht
      obtain ⟨-, ⟨-, hrefused, -⟩ | ⟨-, -, ⟨g, hg⟩, -⟩⟩ := Monitor.beforeLock_held hcall
      · rw [hign.1] at hrefused
        omega
      · exact accepted_wait (getId_ne_invalid hinv.graph hg)
    | @beforeTryLock s mu id e M' hidle hmu hcall =>
      cases ht
      have hg := Monitor.beforeTryLock_graph hcall
      exact accepted_wait (getId_ne_invalid hinv.graph hg)
    | lockAcquired | lockFailed | tryLockFailed =>
      cases ht
      exact accepted_of_idle (Function.update_self ..)
    | afterLock hidle | cndWait hidle | increaseIgnoreCounter hidle | threadExit hidle =>
      cases ht
      exact accepted_of_idle hidle
    | deleteLock | timerExpired | watchdogScan | callbackEnd => cases ht
  · exact (step_sameThread hstep ht).accepted hacc

/-- What a call does to the sum of a thread: it adds one for an acquisition and for a call that
fails, and takes one away for a release that finds an entry. -/
def Counts (t : ℕ) (w w' : World N) (c : Call) : Prop :=
  ∃ k : ℕ, heldCount (w'.monitor.held t) =
      heldCount (w.monitor.held t) + (acquired t [c]).length + (failed t [c]).length - k ∧
    k ≤ (released t [c]).length ∧ (k = (released t [c]).length ↔ Finds t w c)

/-- A call that is neither an acquisition nor a release. -/
theorem counts_quiet (hacq : acquired t [c] = []) (hfail : failed t [c] = [])
    (hrel : released t [c] = []) (hfinds : Finds t w c)
    (hs : (w.monitor.held t).SameLocks (w'.monitor.held t)) : Counts t w w' c := by
  refine ⟨0, ?_, Nat.zero_le _, ?_⟩
  · rw [heldCount_congr hs, hacq, hfail]
    simp
  · rw [hrel]
    exact iff_of_true rfl hfinds

/-- **A call** changes the sum by what it acquires and releases. -/
theorem heldCount_step (hinv : Inv ∅ w m) (hign : NothingIgnored w t) (hacc : Accepted w t)
    (hn : (w.monitor.held t).n < N) (hexit : c ≠ .threadExit t)
    (hstep : w.step o dbg c = some w') : Counts t w w' c := by
  by_cases ht : c.thread = some t
  · cases stepped hstep with
    | beforeLock _ _ hcall =>
      cases ht
      exact counts_quiet rfl rfl rfl trivial ((Monitor.beforeLock_held hcall).1 t)
    | beforeTryLock _ _ hcall =>
      cases ht
      exact counts_quiet rfl rfl rfl trivial ((Monitor.beforeTryLock_held hcall).1 t)
    | tryLockFailed | increaseIgnoreCounter =>
      exact counts_quiet rfl rfl rfl trivial (.rfl _)
    | cndWait =>
      cases ht
      exact counts_quiet rfl rfl rfl trivial
        (Monitor.held_setStart w.monitor.held t condWaitMark t).1
    | threadExit =>
      cases ht
      exact absurd rfl hexit
    | @lockAcquired s p hp =>
      cases ht
      refine ⟨0, ?_, Nat.zero_le _, iff_of_true rfl trivial⟩
      rw [held_acquire (hacc p hp), heldCount_inLock p.mu p.id hn]
      simp [acquired, failed]
    | @lockFailed s p hp hblock =>
      cases ht
      refine ⟨0, ?_, Nat.zero_le _, iff_of_true rfl trivial⟩
      rw [held_enter (hacc p hp), heldCount_inLock p.mu p.id hn]
      simp [acquired, failed]
    | @afterLock s mu M' hidle hmu hcall =>
      cases ht
      rcases Monitor.afterLock_eq hcall with ⟨hpos, -⟩ | ⟨-, g, id, hg, l, ok, error, hl, rfl⟩
      · exact absurd hign.2 hpos.ne'
      have hfinds : Finds t w (.afterLock t mu) ↔ ∃ x ∈ (w.monitor.held t).entries, x.id = id := by
        refine ⟨fun hf => ?_, fun hf _ => ?_⟩
        · obtain ⟨x, hx, hptr⟩ := hf rfl
          have hissued := ((hinv.held t).entry x hx).2.2.issued
          exact ⟨x, hx, (ptr_eq_iff_getId hinv.graph hg hmu hissued).1 hptr⟩
        · obtain ⟨x, hx, hid⟩ := hf
          have hissued := ((hinv.held t).entry x hx).2.2.issued
          exact ⟨x, hx, (ptr_eq_iff_getId hinv.graph hg hmu hissued).2 hid⟩
      have hheld : Function.update w.monitor.held t l.clearStart t = l.clearStart :=
        Function.update_self ..
      have hcount := heldCount_afterLock (h := w.monitor.held t) t mu id
      rw [hl] at hcount
      show ∃ k : ℕ, heldCount (Function.update w.monitor.held t l.clearStart t) = _ ∧ _
      rw [hheld, heldCount_congr l.sameLocks_clearStart, hfinds]
      by_cases hid : ∃ x ∈ (w.monitor.held t).entries, x.id = id
      · rw [if_pos hid] at hcount
        refine ⟨1, ?_, by simp [released], iff_of_true (by simp [released]) hid⟩
        simpa [acquired, failed] using hcount
      · rw [if_neg hid] at hcount
        refine ⟨0, ?_, Nat.zero_le _, iff_of_false (by simp [released]) hid⟩
        simpa [acquired, failed] using hcount
    | deleteLock | timerExpired | watchdogScan | callbackEnd => cases ht
  · have hsame := step_sameThread hstep ht
    refine counts_quiet ?_ ?_ ?_ ?_ hsame.locks
    · cases c <;> simp_all [acquired, Call.thread]
    · cases c <;> simp_all [failed, Call.thread]
    · cases c <;> simp_all [released, Call.thread]
    · cases c <;> simp_all [Finds, Call.thread]

/-- **The sum after a run**: the acquisitions and the calls that failed, without the releases that
found an entry. -/
theorem heldCount_run {calls : List Call}
    (hrun : Runs.run (step o dbg) (init N) calls = some w)
    (hign : ∀ a b, Call.increaseIgnoreCounter t a b ∉ calls)
    (hexit : Call.threadExit t ∉ calls)
    (hroom : Runs.Always (step o dbg) (fun w => (w.monitor.held t).n < N) (init N) calls) :
    (∃ m, Inv ∅ w m) ∧ NothingIgnored w t ∧ Accepted w t ∧
      ∃ k : ℕ, heldCount (w.monitor.held t) =
          (acquired t calls).length + (failed t calls).length - k ∧
        k ≤ (released t calls).length ∧
        (k = (released t calls).length ↔ Runs.Steps (step o dbg) (Finds t) (init N) calls) := by
  revert hign hexit hroom
  refine Runs.run_induct (motive := fun calls w =>
    (∀ a b, Call.increaseIgnoreCounter t a b ∉ calls) → Call.threadExit t ∉ calls →
    Runs.Always (step o dbg) (fun w => (w.monitor.held t).n < N) (init N) calls →
    (∃ m, Inv ∅ w m) ∧ NothingIgnored w t ∧ Accepted w t ∧
      ∃ k : ℕ, heldCount (w.monitor.held t) =
          (acquired t calls).length + (failed t calls).length - k ∧
        k ≤ (released t calls).length ∧
        (k = (released t calls).length ↔ Runs.Steps (step o dbg) (Finds t) (init N) calls))
    ?_ ?_ calls w hrun
  · refine fun _ _ _ => ⟨⟨_, inv_init⟩, ⟨rfl, rfl⟩, accepted_of_idle rfl, 0, rfl, le_rfl, ?_⟩
    exact iff_of_true rfl Runs.steps_nil
  · intro l w₁ c w₂ hl ih hstep hign hexit hroom
    rw [Runs.always_concat] at hroom
    simp only [List.mem_append, List.mem_singleton, not_or] at hign hexit
    obtain ⟨⟨m, hinv⟩, hno, hacc, k, hcount, hle, hiff⟩ :=
      ih (fun a b => (hign a b).1) hexit.1 hroom.1
    have hn := hroom.1.last hl
    obtain ⟨m', hinv', -⟩ := inv_step hinv (Set.empty_subset _) hstep
    obtain ⟨k', hcount', hle', hiff'⟩ :=
      heldCount_step hinv hno hacc hn (Ne.symm hexit.2) hstep
    refine ⟨⟨m', hinv'⟩, nothingIgnored_step hno (fun a b => Ne.symm (hign a b).2) hstep,
      accepted_step hinv hno hacc hn hstep, k + k', ?_, ?_, ?_⟩
    · rw [acquired_append, failed_append, List.length_append, List.length_append, hcount', hcount]
      push_cast
      ring
    · rw [released_append, List.length_append]
      omega
    · rw [released_append, List.length_append, Runs.steps_concat, ← hiff]
      simp only [hl, Option.some_inj, forall_eq', ← hiff']
      omega

end World

/-- **Balanced locking drains the list**: if a thread releases every lock as often as it acquires
it, then after its last release its list is empty and its start time is zero, exactly if each of its
releases finds an entry whose id still belongs to the lock and none of its blocking calls fails. -/
theorem drained_iff (N : ℕ) (o : UserOptions) (dbg : Bool) (t mu : ℕ) (calls : List Call)
    (w : World N)
    (hrun : Runs.run (World.step o dbg) (.init N) (calls ++ [.afterLock t mu]) = some w)
    (hbalanced : ∀ p, (acquired t (calls ++ [.afterLock t mu])).count p =
      (released t (calls ++ [.afterLock t mu])).count p)
    (hign : ∀ a b, Call.increaseIgnoreCounter t a b ∉ calls)
    (hexit : Call.threadExit t ∉ calls)
    (hroom : Runs.Always (World.step o dbg) (fun w => (w.monitor.held t).n < N) (.init N)
      (calls ++ [.afterLock t mu])) :
    (w.monitor.held t).n = 0 ∧ w.monitor.starts t = 0 ↔
      Runs.Steps (World.step o dbg) (World.Finds t) (.init N) (calls ++ [.afterLock t mu]) ∧
        ∀ p, Call.lockFailed t p ∉ calls := by
  obtain ⟨⟨m, hinv⟩, -, -, k, hcount, hle, hiff⟩ :=
    World.heldCount_run hrun (by simpa using hign) (by simpa using hexit) hroom
  have hlength := (List.perm_iff_count.2 hbalanced).length_eq
  have hzero := heldCount_eq_zero fun l hl => ((hinv.held t).entry l hl).2.1
  have hstart : (w.monitor.held t).n = 0 → w.monitor.starts t = 0 := by
    obtain ⟨w₁, h₁, hstep⟩ := Runs.run_concat_eq_some.1 hrun
    have hno := (World.heldCount_run h₁ hign hexit (Runs.always_concat.1 hroom).1).2.1
    cases World.stepped hstep with
    | @afterLock _ _ M' hidle hmu hcall =>
      rcases Monitor.afterLock_eq hcall with ⟨hpos, -⟩ | ⟨-, g, id, -, l, ok, error, -, rfl⟩
      · exact absurd hno.2 hpos.ne'
      · intro hn
        have hheld : Function.update w₁.monitor.held t l.clearStart t = l.clearStart :=
          Function.update_self ..
        have hn' : (Function.update w₁.monitor.held t l.clearStart t).n = 0 := hn
        show (Function.update w₁.monitor.held t l.clearStart t).lockStartTimePoint = 0
        rw [hheld, l.sameLocks_clearStart.n] at hn'
        rw [hheld, l.start_clearStart, if_pos hn']
  have hfailed : (failed t (calls ++ [.afterLock t mu])).length = 0 ↔
      ∀ p, Call.lockFailed t p ∉ calls := by
    rw [List.length_eq_zero_iff, failed_append, List.append_eq_nil_iff, failed_eq_nil_iff]
    exact and_iff_left rfl
  rw [← hiff, ← hfailed, and_iff_left_of_imp hstart, ← hzero, hcount]
  omega

/-- A thread that locks and unlocks while another one deletes a different lock. -/
theorem drained_iff_other :
    ∃ w, Runs.run (World.step {} false) (.init 20)
        [.beforeLock 1 16 ⟨1, [], Nat.one_pos⟩, .lockAcquired 1 16, .deleteLock 2 32,
          .afterLock 1 16] = some w ∧
      (w.monitor.held 1).n = 0 ∧ w.monitor.starts 1 = 0 := by
  obtain ⟨w, hw⟩ := Option.isSome_iff_exists.1 (show (Runs.run (World.step {} false) (.init 20)
    [.beforeLock 1 16 ⟨1, [], Nat.one_pos⟩, .lockAcquired 1 16, .deleteLock 2 32,
      .afterLock 1 16]).isSome = true by decide +kernel)
  refine ⟨w, hw, (drained_iff 20 {} false 1 16
    [.beforeLock 1 16 ⟨1, [], Nat.one_pos⟩, .lockAcquired 1 16, .deleteLock 2 32] w hw
    (fun p => rfl) (by simp) (by simp) ?_).2 ⟨?_, by simp⟩⟩
  · decide +kernel
  · decide +kernel

/-- A thread locks `16`, another thread deletes it, and the first thread unlocks it. -/
def deletedWhileHeld : List Call :=
  [.beforeLock 1 16 ⟨1, [], Nat.one_pos⟩, .lockAcquired 1 16, .deleteLock 2 16, .afterLock 1 16]

/-- The entry stays. -/
theorem drained_not_deleted :
    (∀ p, (acquired 1 deletedWhileHeld).count p = (released 1 deletedWhileHeld).count p) ∧
      Runs.Always (World.step {} false) (fun w => (w.monitor.held 1).n < 20) (.init 20)
        deletedWhileHeld ∧
      ∃ w, Runs.run (World.step {} false) (.init 20) deletedWhileHeld = some w ∧
        (w.monitor.held 1).n = 1 ∧ w.monitor.starts 1 ≠ 0 := by
  refine ⟨fun p => rfl, by decide +kernel, ?_⟩
  have heval : (Runs.run (World.step {} false) (.init 20) deletedWhileHeld).any (fun w =>
      decide ((w.monitor.held 1).n = 1 ∧ w.monitor.starts 1 ≠ 0)) = true := by
    decide +kernel
  obtain ⟨w, hw, heval⟩ := (Option.any_eq_true _ _).1 heval
  exact ⟨w, hw, of_decide_eq_true heval⟩

/-- The owner of a mutex locks it again, which fails, and unlocks it once: the entry stays. -/
example : (Runs.run (World.step {} false) (.init 20)
    [.beforeLock 1 16 ⟨1, [], Nat.one_pos⟩, .lockAcquired 1 16,
      .beforeLock 1 16 ⟨1, [], Nat.one_pos⟩, .lockFailed 1 16, .afterLock 1 16]).any (fun w =>
        decide ((w.monitor.held 1).n = 1 ∧ w.owned 1 16 = 0)) = true := by decide +kernel

end BugInsight

import BugInsight.Monitor.Invariant
import BugInsight.Monitor.Threads

/-!
# The held-lock list mirrors the locks held

`Mirrors h own` says that the entries of a list are the locks that a thread holds, `own mu` times
each.

* `Mirrors.inLock`, `Mirrors.afterLock`: an acquisition and a release keep this, if the id they are
  called with belongs to the lock and there is room;
* `held_list_mirrors`: the result for whole runs.  `before_lock` refuses every call while the list
  is full, also for a lock that is in it, and the acquisition is not counted then.  The hook does
  not look at what `_Mtx_lock` returns, and a call that fails is counted.
-/

namespace BugInsight

variable {N : ℕ} {o : UserOptions} {dbg : Bool} {h : SynchLocksHeld N} {own : ℕ → ℕ} {mu id : ℕ}

/-! ### Lists with different keys -/

section Keys

variable {α : Type*} {ls : List Lock} {i : ℕ} {l x : Lock} {f : Lock → α}

/-- The other entries have other keys. -/
theorem mem_eraseIdx_of_nodup (hnd : (ls.map f).Nodup) (hi : ls[i]? = some l) :
    x ∈ ls.eraseIdx i ↔ x ∈ ls ∧ f x ≠ f l := by
  obtain ⟨hlt, rfl⟩ := List.getElem?_eq_some_iff.1 hi
  have hperm := List.getElem_cons_eraseIdx_perm hlt
  have hnd' := (hperm.map f).nodup_iff.2 hnd
  rw [List.map_cons, List.nodup_cons] at hnd'
  constructor
  · intro hx
    refine ⟨List.mem_of_mem_eraseIdx hx, fun hc => hnd'.1 ?_⟩
    exact hc ▸ List.mem_map_of_mem hx
  · rintro ⟨hx, hne⟩
    rcases List.mem_cons.1 (hperm.mem_iff.2 hx) with rfl | hx
    · exact absurd rfl hne
    · exact hx

theorem mem_set_of_nodup (hnd : (ls.map f).Nodup) (hi : ls[i]? = some l) (y : Lock) :
    x ∈ ls.set i y ↔ x = y ∨ x ∈ ls ∧ f x ≠ f l := by
  have hlt := (List.getElem?_eq_some_iff.1 hi).1
  rw [(List.set_perm_cons_eraseIdx hlt y).mem_iff, List.mem_cons, mem_eraseIdx_of_nodup hnd hi]

end Keys

/-! ### Acquisitions and releases -/

/-- The valid entries are the locks that are held, `own` says how often, and the others are
cleared. -/
structure Mirrors (h : SynchLocksHeld N) (own : ℕ → ℕ) : Prop where
  nodup_id : (h.entries.map Lock.id).Nodup
  nodup_mu : (h.entries.map Lock.mu).Nodup
  count : ∀ l ∈ h.entries, 0 < l.count ∧ l.count = own l.mu
  complete : ∀ mu, 0 < own mu → ∃ l ∈ h.entries, l.mu = mu
  cleared : ∀ i, h.n ≤ i → h.lock i = {}

theorem mirrors_new (N t : ℕ) : Mirrors (.new N t) fun _ => 0 where
  nodup_id := List.nodup_nil
  nodup_mu := List.nodup_nil
  count := List.forall_mem_nil _
  complete := fun _ hc => absurd hc (lt_irrefl 0)
  cleared := fun i _ => by
    show (List.replicate N ({} : Lock)).getD i default = {}
    rw [List.getD_eq_getElem?_getD, List.getElem?_replicate]
    split_ifs <;> rfl

theorem Mirrors.congr {h' : SynchLocksHeld N} (hm : Mirrors h own) (hs : h.SameLocks h') :
    Mirrors h' own where
  nodup_id := hs.entries ▸ hm.nodup_id
  nodup_mu := hs.entries ▸ hm.nodup_mu
  count := hs.entries ▸ hm.count
  complete := hs.entries ▸ hm.complete
  cleared := fun i hi => by
    have := hm.cleared i (hs.n ▸ hi)
    unfold SynchLocksHeld.lock at this ⊢
    rwa [hs.locks]

namespace Mirrors

/-- A lock that is not held has no entry. -/
theorem own_eq_zero (hm : Mirrors h own) : own mu = 0 ↔ ∀ l ∈ h.entries, l.mu ≠ mu := by
  constructor
  · rintro hzero l hl rfl
    obtain ⟨hpos, hcount⟩ := hm.count l hl
    omega
  · intro hne
    by_contra hc
    obtain ⟨l, hl, hmu⟩ := hm.complete mu (Nat.pos_of_ne_zero hc)
    exact hne l hl hmu

/-- Counting an entry up or down. -/
theorem setCount (hm : Mirrors h own) {i : ℕ} {l : Lock} (hi : h.entries[i]? = some l)
    (hmu : l.mu = mu) {c : ℤ} {k : ℕ} (hpos : 0 < c) (hc : c = k) :
    Mirrors (h.setLock i { l with count := c }) (Function.update own mu k) := by
  subst hmu
  have hentries := h.entries_setLock i { l with count := c }
  have hmem := fun x => mem_set_of_nodup (x := x) hm.nodup_mu hi { l with count := c }
  refine ⟨?_, ?_, fun x hx => ?_, fun nu hnu => ?_, fun j hj => ?_⟩
  · rw [hentries, map_set_count Lock.id (fun _ _ => rfl) hi]
    exact hm.nodup_id
  · rw [hentries, map_set_count Lock.mu (fun _ _ => rfl) hi]
    exact hm.nodup_mu
  · rw [hentries, hmem] at hx
    rcases hx with rfl | ⟨hx, hne⟩
    · exact ⟨hpos, by rw [Function.update_self, hc]⟩
    · rw [Function.update_of_ne hne]
      exact hm.count x hx
  · rw [hentries]
    by_cases hne : nu = l.mu
    · exact ⟨{ l with count := c }, (hmem _).2 (Or.inl rfl), hne.symm⟩
    · rw [Function.update_of_ne hne] at hnu
      obtain ⟨x, hx, rfl⟩ := hm.complete nu hnu
      exact ⟨x, (hmem x).2 (Or.inr ⟨hx, hne⟩), rfl⟩
  · have hlt := (List.getElem?_eq_some_iff.1 hi).1
    rw [h.length_entries] at hlt
    have hij : ¬ (i = j ∧ j < N) := fun hc => absurd hj (not_le.2 (hc.1 ▸ hlt))
    rw [h.lock_setLock, if_neg hij]
    exact hm.cleared j hj

/-- A new entry. -/
theorem push (hm : Mirrors h own) (hn : h.n < N) (hid : ∀ l ∈ h.entries, l.id ≠ id)
    (hmu : ∀ l ∈ h.entries, l.mu ≠ mu) :
    Mirrors (h.push ⟨mu, 1, id⟩ hn) (Function.update own mu (own mu + 1)) := by
  have hentries := h.entries_push ⟨mu, 1, id⟩ hn
  have hnodup : ∀ {f : Lock → ℕ}, (h.entries.map f).Nodup →
      (∀ l ∈ h.entries, f l ≠ f ⟨mu, 1, id⟩) →
      ((h.entries ++ [(⟨mu, 1, id⟩ : Lock)]).map f).Nodup := by
    intro f hnd hne
    rw [List.map_append, List.map_singleton, ← List.concat_eq_append, List.nodup_concat]
    refine ⟨fun hc => ?_, hnd⟩
    obtain ⟨l, hl, heq⟩ := List.mem_map.1 hc
    exact hne l hl heq
  refine ⟨?_, ?_, fun x hx => ?_, fun nu hnu => ?_, fun j hj => ?_⟩
  · rw [hentries]
    exact hnodup hm.nodup_id hid
  · rw [hentries]
    exact hnodup hm.nodup_mu hmu
  · rw [hentries, List.mem_append, List.mem_singleton] at hx
    rcases hx with hx | rfl
    · rw [Function.update_of_ne (hmu x hx)]
      exact hm.count x hx
    · simp [hm.own_eq_zero.2 hmu]
  · rw [hentries]
    by_cases hne : nu = mu
    · exact ⟨⟨mu, 1, id⟩, by simp, hne.symm⟩
    · rw [Function.update_of_ne hne] at hnu
      obtain ⟨x, hx, hxmu⟩ := hm.complete nu hnu
      exact ⟨x, List.mem_append_left _ hx, hxmu⟩
  · have hj : h.n + 1 ≤ j := hj
    show (h.setLock h.n ⟨mu, 1, id⟩).lock j = {}
    rw [h.lock_setLock, if_neg (by omega)]
    exact hm.cleared j (by omega)

/-- Removing an entry. -/
theorem remove (hm : Mirrors h own) {i : ℕ} {l : Lock} (hi : h.entries[i]? = some l)
    (hmu : l.mu = mu) : Mirrors (h.remove i) (Function.update own mu 0) := by
  subst hmu
  have hlt := (List.getElem?_eq_some_iff.1 hi).1
  rw [h.length_entries] at hlt
  have hperm := h.entries_remove hlt
  have hmem : ∀ x, x ∈ (h.remove i).entries ↔ x ∈ h.entries ∧ x.mu ≠ l.mu := fun x => by
    rw [hperm.mem_iff, mem_eraseIdx_of_nodup hm.nodup_mu hi]
  have hnodup : ∀ {f : Lock → ℕ}, (h.entries.map f).Nodup →
      ((h.remove i).entries.map f).Nodup := fun hnd =>
    (hperm.map _).nodup_iff.2 (hnd.sublist ((List.eraseIdx_sublist _ _).map _))
  refine ⟨hnodup hm.nodup_id, hnodup hm.nodup_mu, fun x hx => ?_, fun nu hnu => ?_, fun j hj => ?_⟩
  · obtain ⟨hx, hne⟩ := (hmem x).1 hx
    rw [Function.update_of_ne hne]
    exact hm.count x hx
  · have hne : nu ≠ l.mu := by
      rintro rfl
      rw [Function.update_self] at hnu
      exact lt_irrefl 0 hnu
    rw [Function.update_of_ne hne] at hnu
    obtain ⟨x, hx, rfl⟩ := hm.complete nu hnu
    exact ⟨x, (hmem x).2 ⟨hx, hne⟩, rfl⟩
  · have hj : h.n - 1 ≤ j := hj
    show ((h.setLock i (h.lock (h.n - 1))).setLock (h.n - 1) default).lock j = {}
    rw [SynchLocksHeld.lock_setLock, SynchLocksHeld.lock_setLock]
    have hn := h.n_le
    split_ifs with hlast hhole
    · rfl
    · omega
    · by_cases hjN : h.n ≤ j
      · exact hm.cleared j hjN
      · omega

/-- **An acquisition** is counted, if its id belongs to the lock and there is room for an entry or
the lock has one. -/
theorem inLock (hm : Mirrors h own) (hid : ∀ l ∈ h.entries, l.id = id ↔ l.mu = mu)
    (hroom : h.n < N ∨ 0 < own mu) :
    Mirrors (updateLockHistoryInLock mu id h) (Function.update own mu (own mu + 1)) := by
  rcases inLock_cases mu id h with ⟨hne, ⟨hn, heq⟩ | ⟨hn, -⟩⟩ | ⟨i, l, hi, hl, heq⟩
  · rw [heq]
    exact hm.push hn hne fun l hl hc => hne l hl ((hid l hl).2 hc)
  · obtain ⟨l, hl, hmu⟩ := hm.complete mu (hroom.resolve_left (by omega))
    exact absurd ((hid l hl).2 hmu) (hne l hl)
  · rw [heq]
    have hmem := List.mem_of_getElem? hi
    have hmu := (hid l hmem).1 hl
    obtain ⟨hpos, hcount⟩ := hm.count l hmem
    exact hm.setCount hi hmu (by omega) (by rw [hcount, hmu]; push_cast; rfl)

/-- **A release** is counted and returns true if the lock is held, and otherwise it returns false
and leaves the list alone. -/
theorem afterLock (t : ℕ) (hm : Mirrors h own) (hid : ∀ l ∈ h.entries, l.id = id ↔ l.mu = mu) :
    Mirrors (updateLockHistoryAfterLock t mu id h).1 (Function.update own mu (own mu - 1)) ∧
      ((updateLockHistoryAfterLock t mu id h).2.1 = true ↔ 0 < own mu) ∧
      (own mu = 0 → (updateLockHistoryAfterLock t mu id h).1 = h) := by
  rcases afterLock_cases t mu id h with ⟨hne, report, heq, -⟩ | ⟨i, l, hi, hl, hcases⟩
  · have hzero : own mu = 0 := hm.own_eq_zero.2 fun l hl hc => hne l hl ((hid l hl).2 hc)
    have hsame : Function.update own mu (own mu - 1) = own := by
      rw [hzero, Nat.zero_sub, ← hzero, Function.update_eq_self]
    rw [heq, hsame, hzero]
    exact ⟨hm, by simp, fun _ => rfl⟩
  · have hmem := List.mem_of_getElem? hi
    have hmu := (hid l hmem).1 hl
    obtain ⟨hpos, hcount⟩ := hm.count l hmem
    rw [hmu] at hcount
    have hown : 0 < own mu := by omega
    rcases hcases with ⟨hone, heq⟩ | ⟨hone, heq⟩
    · rw [heq, show own mu - 1 = 0 by omega]
      exact ⟨hm.remove hi hmu, iff_of_true rfl hown, fun hzero => absurd hzero hown.ne'⟩
    · rw [heq]
      exact ⟨hm.setCount hi hmu (by omega) (by omega), iff_of_true rfl hown,
        fun hzero => absurd hzero hown.ne'⟩

/-- A list mirrors one way of holding locks only. -/
theorem unique {own' : ℕ → ℕ} (hm : Mirrors h own) (hm' : Mirrors h own') : own = own' := by
  funext mu
  by_cases hmem : ∃ l ∈ h.entries, l.mu = mu
  · obtain ⟨l, hl, rfl⟩ := hmem
    have hcount := (hm.count l hl).2
    have hcount' := (hm'.count l hl).2
    omega
  · have hne : ∀ l ∈ h.entries, l.mu ≠ mu := fun l hl hmu => hmem ⟨l, hl, hmu⟩
    rw [hm.own_eq_zero.2 hne, hm'.own_eq_zero.2 hne]

end Mirrors

/-! ### Runs -/

/-- If the thread holds at most `N` different locks after an acquisition, there was room for it. -/
theorem Mirrors.room (hm : Mirrors h own)
    (hmax : ∀ S : Finset ℕ, (∀ nu ∈ S, 0 < Function.update own mu (own mu + 1) nu) → S.card ≤ N) :
    h.n < N ∨ 0 < own mu := by
  by_contra hc
  obtain ⟨hfull, hown⟩ := not_or.1 hc
  have hzero := Nat.eq_zero_of_not_pos hown
  have hnew : mu ∉ (h.entries.map Lock.mu).toFinset := by
    rw [List.mem_toFinset]
    intro hmem
    obtain ⟨l, hl, hlmu⟩ := List.mem_map.1 hmem
    exact hm.own_eq_zero.1 hzero l hl hlmu
  have hcard := hmax (insert mu (h.entries.map Lock.mu).toFinset) fun nu hnu => by
    by_cases hne : nu = mu
    · rw [hne, Function.update_self]
      exact Nat.succ_pos _
    · rw [Function.update_of_ne hne]
      obtain ⟨l, hl, rfl⟩ :=
        List.mem_map.1 (List.mem_toFinset.1 (Finset.mem_of_mem_insert_of_ne hnu hne))
      obtain ⟨hpos, hcount⟩ := hm.count l hl
      omega
  rw [Finset.card_insert_of_notMem hnew, List.toFinset_card_of_nodup hm.nodup_mu, List.length_map,
    h.length_entries] at hcard
  omega

/-- The entries with an id that belongs to a lock now are those of the lock. -/
theorem EntriesInv.id_iff {r : Rep} {m : ℕ → Option ℕ} (he : EntriesInv Set.univ r m h)
    (hr : Rep.NodesInv r m) (hid : Rep.Current r m id mu) :
    ∀ l ∈ h.entries, l.id = id ↔ l.mu = mu := by
  intro l hl
  have hknown := (he.entry l hl).2.2
  constructor
  · rintro rfl
    exact hknown.issued.eq_of_current hr hid
  · rintro rfl
    exact Rep.Current.unique (hknown.current (Set.mem_univ _)) hid

namespace World

variable {w w' : World N} {c : Call} {t : ℕ} {m : ℕ → Option ℕ}

/-- The thread holds at most `MAX_LOCKS_PER_THREAD` different locks. -/
def AtMostHeld (w : World N) (t : ℕ) : Prop :=
  ∀ S : Finset ℕ, (∀ mu ∈ S, 0 < w.owned t mu) → S.card ≤ N

/-- A blocking call of the thread gets the lock exactly if its list is not full. -/
def LockedIfRoom (t : ℕ) (w : World N) : Call → Prop
  | .lockAcquired s _ =>
      s = t → ∀ p, w.pending t = some p → p.tryLock = false → (w.monitor.held t).n < N
  | .lockFailed s _ => s = t → N ≤ (w.monitor.held t).n
  | _ => True

instance (t : ℕ) (w : World N) : ∀ c, Decidable (LockedIfRoom t w c)
  | .lockAcquired s _ =>
      have := Runs.decidableForallEqSome (w.pending t) fun p =>
        p.tryLock = false → (w.monitor.held t).n < N
      inferInstanceAs (Decidable (s = t → _))
  | .lockFailed s _ => inferInstanceAs (Decidable (s = t → _))
  | .beforeLock _ _ _ | .beforeTryLock _ _ _ | .tryLockFailed _ _ | .afterLock _ _
  | .deleteLock _ _ | .cndWait _ _ | .increaseIgnoreCounter _ _ _ | .threadExit _
  | .timerExpired _ | .watchdogScan _ | .callbackEnd => isTrue trivial

/-- The list of a thread is right: it mirrors the locks held, and a release returns true exactly if
the lock is held and leaves the list alone if it is not. -/
structure ListRight (w : World N) (t : ℕ) : Prop where
  mirrors : Mirrors (w.monitor.held t) (w.owned t)
  release : ∀ mu g id, w.monitor.graph.getId t mu = some (g, id) →
    ((updateLockHistoryAfterLock t mu id (w.monitor.held t)).2.1 = true ↔ 0 < w.owned t mu) ∧
      (w.owned t mu = 0 →
        (updateLockHistoryAfterLock t mu id (w.monitor.held t)).1 = w.monitor.held t)

/-- The calls that are refused are the blocking ones made while the list is full. -/
def RefusedIfFull (w : World N) (t : ℕ) : Prop :=
  ∀ p, w.pending t = some p →
    (p.id = invalidGraphId ↔ p.tryLock = false ∧ N ≤ (w.monitor.held t).n)

theorem SameThread.refusedIfFull (h : SameThread w w' t) (hr : RefusedIfFull w t) :
    RefusedIfFull w' t := by
  unfold RefusedIfFull
  rw [h.pending, h.locks.n]
  exact hr

theorem refusedIfFull_of_idle (hidle : w.Idle t) : RefusedIfFull w t := fun p hp => by
  cases hidle.symm.trans hp

/-- A thread enters a hook. -/
theorem refusedIfFull_wait {p : Pending} {M : Monitor N}
    (hp : p.id = invalidGraphId ↔ p.tryLock = false ∧ N ≤ (M.held t).n) :
    RefusedIfFull (w.wait t p M) t := by
  have hpending : (w.wait t p M).pending t = some p := Function.update_self ..
  intro q hq
  cases hpending.symm.trans hq
  exact hp

/-- **What is refused**: if nothing is ignored, a call says so with the id. -/
theorem refusedIfFull_step (hinv : Inv Set.univ w m) (hign : NothingIgnored w t)
    (h : RefusedIfFull w t) (hstep : w.step o dbg c = some w') : RefusedIfFull w' t := by
  by_cases ht : c.thread = some t
  · cases stepped hstep with
    | @beforeLock s mu id e M' hidle hmu hcall =>
      cases ht
      obtain ⟨hlocks, hcases⟩ := Monitor.beforeLock_held hcall
      refine refusedIfFull_wait ?_
      rw [(hlocks t).n]
      rcases hcases with ⟨hid, hrefused, -⟩ | ⟨-, hn, ⟨g, hg⟩, -⟩
      · have hfull := hrefused.resolve_left (by rw [hign.1]; exact lt_irrefl 0)
        exact iff_of_true hid ⟨rfl, hfull⟩
      · exact iff_of_false (Rep.getId_ne_invalid hinv.graph hg) fun hc => absurd hc.2 (not_le.2 hn)
    | @beforeTryLock s mu id e M' hidle hmu hcall =>
      cases ht
      have hg := Monitor.beforeTryLock_graph hcall
      exact refusedIfFull_wait
        (iff_of_false (Rep.getId_ne_invalid hinv.graph hg) fun hc => by cases hc.1)
    | lockAcquired | lockFailed | tryLockFailed =>
      cases ht
      exact refusedIfFull_of_idle (Function.update_self ..)
    | afterLock hidle | cndWait hidle | increaseIgnoreCounter hidle | threadExit hidle =>
      cases ht
      exact refusedIfFull_of_idle hidle
    | deleteLock | timerExpired | watchdogScan | callbackEnd => cases ht
  · exact (step_sameThread hstep ht).refusedIfFull h

/-- A lock that is entered into the list has one acquisition more. -/
theorem mirrors_enter {p : Pending} (hinv : Inv Set.univ w m) (hp : w.pending t = some p)
    (hid : p.id ≠ invalidGraphId) (hm : Mirrors (w.monitor.held t) own)
    (hroom : (w.monitor.held t).n < N ∨ 0 < own p.mu) :
    Mirrors ((w.enter t p).monitor.held t) (Function.update own p.mu (own p.mu + 1)) := by
  have hcur := ((hinv.pending t p hp).2 hid).current (Set.mem_univ _)
  rw [held_enter hid]
  exact hm.inLock ((hinv.held t).id_iff hinv.graph.toNodesInv hcur) hroom

/-- A lock that the thread has acquired is counted, unless the call was refused. -/
theorem mirrors_acquire_iff {p : Pending} (hinv : Inv Set.univ w m) (hp : w.pending t = some p)
    (hm : Mirrors (w.monitor.held t) (w.owned t))
    (hroom : (w.monitor.held t).n < N ∨ 0 < w.owned t p.mu)
    (hown : p.id = invalidGraphId → 0 < w.owned t p.mu) :
    Mirrors ((w.acquire t p).monitor.held t) ((w.acquire t p).owned t) ↔
      p.id ≠ invalidGraphId := by
  rw [owned_acquire]
  constructor
  · intro hm' hid
    obtain ⟨l, hl, hmu⟩ := hm.complete p.mu (hown hid)
    rw [monitor_acquire_refused hid] at hm'
    have hcount := (hm.count l hl).2
    have hcount' := (hm'.count l hl).2
    rw [hmu] at hcount hcount'
    rw [Function.update_self] at hcount'
    omega
  · exact fun hid => mirrors_enter hinv hp hid hm hroom

/-- A call that fails is counted, unless it was refused. -/
theorem mirrors_failed_iff {p : Pending} (hinv : Inv Set.univ w m) (hp : w.pending t = some p)
    (hm : Mirrors (w.monitor.held t) (w.owned t))
    (hroom : p.id ≠ invalidGraphId → (w.monitor.held t).n < N) :
    Mirrors ((w.enter t p).monitor.held t) ((w.enter t p).owned t) ↔ p.id = invalidGraphId := by
  constructor
  · intro hm'
    by_contra hid
    have hmu := congrFun ((mirrors_enter hinv hp hid hm (Or.inl (hroom hid))).unique hm') p.mu
    rw [Function.update_self] at hmu
    have howned : (w.enter t p).owned t p.mu = w.owned t p.mu := rfl
    omega
  · intro hid
    rw [monitor_enter_refused hid]
    exact hm

/-- **A call of the thread** keeps its list right exactly if it is no blocking call that gets a lock
while the list is full, or fails while it is not. -/
theorem mirrors_step_iff (hinv : Inv Set.univ w m) (hign : NothingIgnored w t)
    (hm : Mirrors (w.monitor.held t) (w.owned t)) (hr : RefusedIfFull w t)
    (ht : c.thread = some t) (hstep : w.step o dbg c = some w') (hmax : AtMostHeld w' t) :
    Mirrors (w'.monitor.held t) (w'.owned t) ↔ LockedIfRoom t w c := by
  cases stepped hstep with
  | beforeLock _ _ hcall =>
    cases ht
    exact iff_of_true (hm.congr ((Monitor.beforeLock_held hcall).1 t)) trivial
  | beforeTryLock _ _ hcall =>
    cases ht
    exact iff_of_true (hm.congr ((Monitor.beforeTryLock_held hcall).1 t)) trivial
  | @lockAcquired s p hp =>
    cases ht
    unfold AtMostHeld at hmax
    rw [owned_acquire] at hmax
    have hroom := hm.room hmax
    rw [mirrors_acquire_iff hinv hp hm hroom fun hid =>
      hroom.resolve_left (not_lt.2 ((hr p hp).1 hid).2), ne_eq, hr p hp]
    constructor
    · rintro h - q hq htry
      cases hp.symm.trans hq
      exact not_le.1 fun hfull => h ⟨htry, hfull⟩
    · exact fun h hc => absurd hc.2 (not_le.2 (h rfl p hp hc.1))
  | @lockFailed s p hp hblock =>
    cases ht
    rw [mirrors_failed_iff hinv hp hm fun hid =>
      not_le.1 fun hfull => hid ((hr p hp).2 ⟨hblock, hfull⟩), hr p hp]
    exact ⟨fun h _ => h.2, fun h => ⟨hblock, h rfl⟩⟩
  | tryLockFailed | increaseIgnoreCounter => exact iff_of_true hm trivial
  | @afterLock s mu M' hidle hmu hcall =>
    cases ht
    have howned : Function.update w.owned t
        (Function.update (w.owned t) mu (w.owned t mu - 1)) t =
        Function.update (w.owned t) mu (w.owned t mu - 1) := Function.update_self ..
    refine iff_of_true ?_ trivial
    show Mirrors (M'.held t) (Function.update w.owned t
        (Function.update (w.owned t) mu (w.owned t mu - 1)) t)
    rw [howned]
    rcases Monitor.afterLock_eq hcall with ⟨hpos, -⟩ | ⟨-, g, id, hg, l, ok, error, hl, rfl⟩
    · exact absurd hign.2 hpos.ne'
    · obtain ⟨m', hev, hcur⟩ := Rep.getId_evolves (K := Set.univ) hinv.graph hg
      have hentries := (hinv.held t).congr (fun _ _ => hev.known) rfl
      obtain ⟨hm, -⟩ := hm.afterLock t (hentries.id_iff hev.inv.toNodesInv hcur)
      rw [hl] at hm
      show Mirrors (Function.update w.monitor.held t l.clearStart t) _
      rw [Function.update_self]
      exact hm.congr l.sameLocks_clearStart
  | cndWait =>
    cases ht
    exact iff_of_true (hm.congr (Monitor.held_setStart w.monitor.held t condWaitMark t).1) trivial
  | @threadExit s hidle =>
    cases ht
    refine iff_of_true ?_ trivial
    show Mirrors (Function.update w.monitor.held t (.new N t) t)
      (Function.update w.owned t (fun _ => 0) t)
    rw [Function.update_self, Function.update_self]
    exact mirrors_new N t
  | deleteLock | timerExpired | watchdogScan | callbackEnd => cases ht

/-- Calls of other threads are no calls of this thread. -/
theorem lockedIfRoom_of_ne (ht : c.thread ≠ some t) : LockedIfRoom t w c := by
  cases c with
  | lockAcquired s mu | lockFailed s mu => exact fun hs => absurd (congrArg some hs) ht
  | beforeLock | beforeTryLock | tryLockFailed | afterLock | deleteLock | cndWait
  | increaseIgnoreCounter | threadExit | timerExpired | watchdogScan | callbackEnd => trivial

/-- A list that mirrors the locks held is right. -/
theorem listRight_iff (hinv : Inv Set.univ w m) :
    ListRight w t ↔ Mirrors (w.monitor.held t) (w.owned t) := by
  refine ⟨fun h => h.mirrors, fun h => ⟨h, fun mu g id hg => ?_⟩⟩
  obtain ⟨m', hev, hcur⟩ := Rep.getId_evolves (K := Set.univ) hinv.graph hg
  have hentries := (hinv.held t).congr (fun _ _ => hev.known) rfl
  exact (h.afterLock t (hentries.id_iff hev.inv.toNodesInv hcur)).2

/-- What holds beside the list. -/
structure ListInv (w : World N) (t : ℕ) : Prop where
  inv : ∃ m, Inv Set.univ w m
  ignored : NothingIgnored w t
  refused : RefusedIfFull w t
  right : ListRight w t

/-- **Every call** keeps the list right exactly under the condition, and then the invariant. -/
theorem listInv_step (h : ListInv w t) (hkept : ∀ s p, c ≠ .deleteLock s p)
    (hign : ∀ a b, c ≠ .increaseIgnoreCounter t a b) (hstep : w.step o dbg c = some w')
    (hmax : AtMostHeld w' t) :
    (ListRight w' t ↔ LockedIfRoom t w c) ∧ (ListRight w' t → ListInv w' t) := by
  obtain ⟨⟨m, hinv⟩, hno, hr, hright⟩ := h
  obtain ⟨m', hinv', -⟩ := inv_step hinv (fun p _ s heq => hkept s p heq) hstep
  refine ⟨?_, fun hright' => ⟨⟨m', hinv'⟩, nothingIgnored_step hno hign hstep,
    refusedIfFull_step hinv hno hr hstep, hright'⟩⟩
  rw [listRight_iff hinv']
  by_cases ht : c.thread = some t
  · exact mirrors_step_iff hinv hno hright.mirrors hr ht hstep hmax
  · have hsame := step_sameThread hstep ht
    exact iff_of_true (hsame.owned ▸ hright.mirrors.congr hsame.locks) (lockedIfRoom_of_ne ht)

end World

/-- **The held-lock list mirrors what the thread holds**, in every state of a run in which no lock
is deleted, nothing is ignored and the thread never holds more than `MAX_LOCKS_PER_THREAD` different
locks, exactly if its blocking calls get their locks while the list has room, and fail while it is
full. -/
theorem held_list_mirrors (N : ℕ) (o : UserOptions) (dbg : Bool) (t : ℕ) (calls : List Call)
    (w : World N) (hrun : Runs.run (World.step o dbg) (.init N) calls = some w)
    (hkept : ∀ s p, Call.deleteLock s p ∉ calls)
    (hign : ∀ a b, Call.increaseIgnoreCounter t a b ∉ calls)
    (hmax : Runs.Always (World.step o dbg) (World.AtMostHeld · t) (.init N) calls) :
    Runs.Always (World.step o dbg) (World.ListRight · t) (.init N) calls ↔
      Runs.Steps (World.step o dbg) (World.LockedIfRoom t) (.init N) calls := by
  refine Runs.always_iff_steps (I := (World.ListInv · t)) ⟨⟨_, World.inv_init⟩, ⟨rfl, rfl⟩,
    World.refusedIfFull_of_idle rfl, (World.listRight_iff World.inv_init).2 (mirrors_new N t)⟩
    (fun _ h => h.right) (fun w₁ c w₂ h hc hstep => ?_) (hmax.steps.and Runs.steps_mem) hrun
  obtain ⟨⟨-, hmax⟩, hc⟩ := hc
  exact World.listInv_step h (fun s p heq => hkept s p (heq ▸ hc))
    (fun a b heq => hign a b (heq ▸ hc)) hstep (hmax w₂ hstep)

/-- A thread owns a lock only after it acquired it. -/
theorem World.acquired_of_owned {calls : List Call} {w : World N} {t mu : ℕ}
    (hrun : Runs.run (World.step o dbg) (.init N) calls = some w) (hown : 0 < w.owned t mu) :
    Call.lockAcquired t mu ∈ calls := by
  refine Runs.run_induct
    (motive := fun calls w => 0 < w.owned t mu → Call.lockAcquired t mu ∈ calls)
    (fun h => absurd h (lt_irrefl 0)) (fun l w₁ c w₂ _ ih hstep hown => ?_) calls w hrun hown
  by_cases hold : 0 < w₁.owned t mu
  · exact List.mem_append_left _ (ih hold)
  refine List.mem_append_right _ (List.mem_singleton.2 ?_)
  by_cases ht : c.thread = some t
  · cases World.stepped hstep with
    | @lockAcquired s p hp =>
      cases ht
      by_cases hmu : mu = p.mu
      · rw [hmu]
      · refine absurd ?_ hold
        rwa [World.owned_acquire, Function.update_of_ne hmu] at hown
    | @afterLock s nu M' =>
      cases ht
      refine absurd (hown.trans_le ?_) hold
      have howned : Function.update w₁.owned t
          (Function.update (w₁.owned t) nu (w₁.owned t nu - 1)) t =
          Function.update (w₁.owned t) nu (w₁.owned t nu - 1) := Function.update_self ..
      show Function.update w₁.owned t _ t mu ≤ w₁.owned t mu
      rw [howned]
      by_cases hmu : mu = nu
      · rw [hmu, Function.update_self]
        exact Nat.sub_le _ _
      · rw [Function.update_of_ne hmu]
    | @threadExit s =>
      cases ht
      have hzero : Function.update w₁.owned t (fun _ => 0) t mu = 0 := by
        rw [Function.update_self]
      exact absurd hzero hown.ne'
    | beforeLock | beforeTryLock | lockFailed | tryLockFailed | cndWait | increaseIgnoreCounter =>
      exact absurd hown hold
    | deleteLock | timerExpired | watchdogScan | callbackEnd => cases ht
  · rw [(World.step_sameThread hstep ht).owned] at hown
    exact absurd hown hold

/-- A thread that acquires locks of a list only. -/
theorem World.atMostHeld_of_acquired {calls : List Call} {t : ℕ} (locks : List ℕ)
    (hN : locks.length ≤ N) (hcalls : ∀ mu, Call.lockAcquired t mu ∈ calls → mu ∈ locks) :
    Runs.Always (World.step o dbg) (World.AtMostHeld · t) (.init N) calls := by
  intro pre post w hl hpre S hS
  have hsub : S ⊆ locks.toFinset := fun mu hmu => by
    have hmem := World.acquired_of_owned hpre (hS mu hmu)
    exact List.mem_toFinset.2 (hcalls mu (hl ▸ List.mem_append_left _ hmem))
  exact (Finset.card_le_card hsub).trans (locks.toFinset_card_le.trans hN)

/-- A thread locks a mutex, tries to lock it again, and unlocks it; the call of another thread
fails. -/
theorem held_list_mirrors_once :
    Runs.Always (World.step {} false) (World.ListRight · 1) (.init 20)
      [.beforeLock 1 16 ⟨1, [], Nat.one_pos⟩, .lockAcquired 1 16,
        .beforeLock 2 32 ⟨1, [], Nat.one_pos⟩, .lockFailed 2 32,
        .beforeTryLock 1 16 ⟨1, [], Nat.one_pos⟩, .tryLockFailed 1 16, .afterLock 1 16] := by
  obtain ⟨w, hw⟩ := Option.isSome_iff_exists.1 (show (Runs.run (World.step {} false) (.init 20)
      [.beforeLock 1 16 ⟨1, [], Nat.one_pos⟩, .lockAcquired 1 16,
        .beforeLock 2 32 ⟨1, [], Nat.one_pos⟩, .lockFailed 2 32,
        .beforeTryLock 1 16 ⟨1, [], Nat.one_pos⟩, .tryLockFailed 1 16,
        .afterLock 1 16]).isSome = true by decide +kernel)
  refine (held_list_mirrors 20 {} false 1 _ w hw (by simp) (by simp)
    (World.atMostHeld_of_acquired [16] (by decide) (by simp))).2 ?_
  decide +kernel

/-- A thread fills its list with 20 locks and locks the first one again. -/
def lockedTwice : List Call :=
  ((List.range 20).flatMap fun i =>
      [.beforeLock 1 (16 * (i + 1)) ⟨1, [], Nat.one_pos⟩, .lockAcquired 1 (16 * (i + 1))]) ++
    [.beforeLock 1 16 ⟨1, [], Nat.one_pos⟩, .lockAcquired 1 16]

/-- The second acquisition is not counted. -/
theorem held_list_not_counted :
    (∀ s p, Call.deleteLock s p ∉ lockedTwice) ∧
      (∀ a b, Call.increaseIgnoreCounter 1 a b ∉ lockedTwice) ∧
      Runs.Always (World.step {} false) (World.AtMostHeld · 1) (.init 20) lockedTwice ∧
      ∃ w, Runs.run (World.step {} false) (.init 20) lockedTwice = some w ∧ w.Idle 1 ∧
        ¬ World.ListRight w 1 := by
  refine ⟨by simp [lockedTwice], by simp [lockedTwice],
    World.atMostHeld_of_acquired ((List.range 20).map fun i => 16 * (i + 1)) (by simp) ?_, ?_⟩
  · intro mu hmu
    simp only [lockedTwice, List.mem_append, List.mem_flatMap, List.mem_cons, List.not_mem_nil,
      or_false, reduceCtorEq, false_or, Call.lockAcquired.injEq, true_and] at hmu
    rw [List.mem_map]
    rcases hmu with ⟨i, hi, rfl⟩ | rfl
    · exact ⟨i, hi, rfl⟩
    · exact ⟨0, by simp, rfl⟩
  · have heval : (Runs.run (World.step {} false) (.init 20) lockedTwice).any (fun w =>
        decide (w.Idle 1 ∧ ∃ l ∈ (w.monitor.held 1).entries, l.count ≠ w.owned 1 l.mu)) = true := by
      decide +kernel
    obtain ⟨w, hw, heval⟩ := (Option.any_eq_true _ _).1 heval
    obtain ⟨hidle, l, hl, hne⟩ := of_decide_eq_true heval
    exact ⟨w, hw, hidle, fun h => hne (h.mirrors.count l hl).2⟩

end BugInsight

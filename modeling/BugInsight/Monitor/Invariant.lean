import BugInsight.GraphCycles.Evolution
import BugInsight.Monitor.Calls
import BugInsight.Runs

/-!
# The invariant of the lock monitor

`World.Inv` says that the graph is well formed, that every id in a held-lock list or in a hook was
issued for the lock beside it, that the entries of a list have different ids, and that their
counters are positive.  It is stated for a set `K` of locks that are not deleted: their ids are
current.

* `checkHeld_spec`: the loop of `before_lock` adds the edges from the locks held, unless it meets
  the lock itself or reports a deadlock;
* `inv_step`: every call keeps the invariant, and the locks that it does not delete keep their
  nodes and edges.
-/

open Relation

namespace BugInsight

open BugInsight.Rep

variable {N : ℕ} {o : UserOptions} {dbg : Bool} {K : Set ℕ} {r r' : Rep} {m m' : ℕ → Option ℕ}

/-! ### The entries of a list -/

/-- The entries of a list are for locks whose ids were issued. -/
structure EntriesInv (K : Set ℕ) (r : Rep) (m : ℕ → Option ℕ) (h : SynchLocksHeld N) : Prop where
  entry : ∀ l ∈ h.entries, l.mu ≠ nullptr ∧ 0 < l.count ∧ Known K r m l.id l.mu
  nodup : (h.entries.map Lock.id).Nodup

theorem entriesInv_new (t : ℕ) : EntriesInv K r m (SynchLocksHeld.new N t) :=
  ⟨List.forall_mem_nil _, List.nodup_nil⟩

theorem EntriesInv.congr {h h' : SynchLocksHeld N} (hinv : EntriesInv K r m h)
    (hknown : ∀ id p, Known K r m id p → Known K r' m' id p) (heq : h'.entries = h.entries) :
    EntriesInv K r' m' h' where
  entry := fun l hl => by
    obtain ⟨hmu, hcount, hid⟩ := hinv.entry l (heq ▸ hl)
    exact ⟨hmu, hcount, hknown _ _ hid⟩
  nodup := heq ▸ hinv.nodup

theorem entriesInv_set {h : SynchLocksHeld N} (hinv : EntriesInv K r m h) {i : ℕ} {l : Lock}
    (hi : h.entries[i]? = some l) {c : ℤ} (hc : 0 < c) :
    EntriesInv K r m (h.setLock i { l with count := c }) where
  entry := fun x hx => by
    rw [h.entries_setLock] at hx
    rcases List.mem_or_eq_of_mem_set hx with hx | rfl
    · exact hinv.entry x hx
    · obtain ⟨hmu, -, hid⟩ := hinv.entry l (List.mem_of_getElem? hi)
      exact ⟨hmu, hc, hid⟩
  nodup := by
    rw [h.entries_setLock, map_set_count Lock.id (fun _ _ => rfl) hi]
    exact hinv.nodup

theorem entriesInv_inLock {h : SynchLocksHeld N} {mu id : ℕ} (hinv : EntriesInv K r m h)
    (hmu : mu ≠ nullptr) (hid : Known K r m id mu) :
    EntriesInv K r m (updateLockHistoryInLock mu id h) := by
  rcases inLock_cases mu id h with ⟨hne, ⟨hn, heq⟩ | ⟨-, heq⟩⟩ | ⟨i, l, hi, -, heq⟩
  · rw [heq]
    refine ⟨fun l hl => ?_, ?_⟩
    · rw [h.entries_push] at hl
      rcases List.mem_append.1 hl with hl | hl
      · exact hinv.entry l hl
      · rw [List.mem_singleton.1 hl]
        exact ⟨hmu, Int.zero_lt_one, hid⟩
    · rw [h.entries_push, List.map_append, List.map_singleton, List.nodup_append]
      refine ⟨hinv.nodup, List.nodup_singleton _, ?_⟩
      rintro a ha _ hb rfl
      obtain ⟨l, hl, rfl⟩ := List.mem_map.1 ha
      exact hne l hl (List.mem_singleton.1 hb)
  · rw [heq]
    exact hinv
  · rw [heq]
    have := (hinv.entry l (List.mem_of_getElem? hi)).2.1
    exact entriesInv_set hinv hi (by omega)

theorem entriesInv_afterLock {h : SynchLocksHeld N} (t mu id : ℕ) (hinv : EntriesInv K r m h) :
    EntriesInv K r m (updateLockHistoryAfterLock t mu id h).1 := by
  rcases afterLock_cases t mu id h with ⟨-, report, heq, -⟩ | ⟨i, l, hi, -, ⟨-, heq⟩ | ⟨hc, heq⟩⟩
  · rw [heq]
    exact hinv
  · rw [heq]
    have hlt : i < h.n := by
      rw [← h.length_entries]
      exact (List.getElem?_eq_some_iff.1 hi).1
    have hperm := h.entries_remove hlt
    refine ⟨fun x hx => hinv.entry x (List.mem_of_mem_eraseIdx (hperm.mem_iff.1 hx)), ?_⟩
    refine (hperm.map Lock.id).nodup_iff.2 ?_
    exact hinv.nodup.sublist ((List.eraseIdx_sublist _ _).map _)
  · rw [heq]
    have := (hinv.entry l (List.mem_of_getElem? hi)).2.1
    exact entriesInv_set hinv hi (by omega)

/-! ### The loop over the locks held -/

/-- **The loop of `before_lock`** adds an edge from every lock held, unless it meets the lock itself
or reports a deadlock. -/
theorem checkHeld_spec {t mu id : ℕ} {ls : List Lock} {M M' : Monitor N}
    (hinv : Rep.Inv M.graph m) (hid : Current M.graph m id mu)
    (hls : ∀ l ∈ ls, l.mu ≠ nullptr ∧ 0 < l.count ∧ Issued M.graph m l.id l.mu)
    (h : Monitor.checkHeld o t mu id ls M = some M') :
    Evolves Set.univ M.graph m M'.graph m ∧
      (M'.potentialDeadlocksFound = true ∨ (∃ l ∈ ls, l.mu = mu) ∨
        ∀ l ∈ ls, Current M.graph m l.id l.mu → LockEdge M'.graph m l.mu mu) := by
  induction ls generalizing M with
  | nil =>
    cases h
    exact ⟨Evolves.refl hinv, Or.inr (Or.inr (List.forall_mem_nil _))⟩
  | cons l ls ih =>
    obtain ⟨hmu, -, hissued⟩ := hls l List.mem_cons_self
    obtain ⟨hcur, hstale⟩ := hissued.ptr hinv.toNodesInv
    have hls' := fun x hx => hls x (List.mem_cons_of_mem l hx)
    unfold Monitor.checkHeld at h
    dsimp only at h
    split_ifs at h with hptr hself hinserted
    · obtain ⟨hev, hedges⟩ := ih hinv hid hls' h
      refine ⟨hev, hedges.imp_right (Or.imp ?_ fun hall x hx hc => ?_)⟩
      · rintro ⟨x, hx, hxmu⟩
        exact ⟨x, List.mem_cons_of_mem _ hx, hxmu⟩
      · rcases List.mem_cons.1 hx with rfl | hx
        · exact absurd ((hcur hc).symm.trans hptr) hmu
        · exact hall x hx hc
    · cases h
      refine ⟨Evolves.refl hinv, Or.inr (Or.inl ⟨l, List.mem_cons_self, ?_⟩)⟩
      exact hissued.eq_of_current hinv.toNodesInv (hself ▸ hid)
    all_goals
      have hlc : Current M.graph m l.id l.mu := not_not.1 fun hc => hptr (hstale hc)
      obtain ⟨hev₁, hedge⟩ := insertEdge_evolves (K := Set.univ) hinv hlc hid
    · generalize hg : (M.graph.insertEdge l.id id).1 = g at h hev₁ hedge
      have hls₁ : ∀ x ∈ ls, x.mu ≠ nullptr ∧ 0 < x.count ∧ Issued g m x.id x.mu := fun x hx => by
        obtain ⟨hx₁, hx₂, hx₃⟩ := hls' x hx
        exact ⟨hx₁, hx₂, hev₁.issued _ _ hx₃⟩
      have hid₁ : Current g m id mu := hev₁.current (Set.mem_univ _) hid
      obtain ⟨hev, hedges⟩ := ih
        (M := { M with graph := g, insertCalls := M.insertCalls ++ [(l.id, id)] }) hev₁.inv hid₁
        hls₁ h
      refine ⟨hev₁.trans hev, hedges.imp_right (Or.imp ?_ fun hall x hx hc => ?_)⟩
      · rintro ⟨x, hx, hxmu⟩
        exact ⟨x, List.mem_cons_of_mem _ hx, hxmu⟩
      · rcases List.mem_cons.1 hx with rfl | hx
        · exact hev.edge _ (Set.mem_univ _) _ (Set.mem_univ _) (hedge hinserted)
        · exact hall x hx (hev₁.current (Set.mem_univ _) hc)
    · obtain ⟨M₁, hM₁, rfl⟩ := Option.map_eq_some_iff.1 h
      obtain ⟨-, rfl⟩ := Monitor.report_eq_some.1 hM₁
      exact ⟨hev₁, Or.inl rfl⟩

/-! ### The calls that look up an id -/

/-- **`before_lock`** changes the graph by the operations above.  If it is neither skipped nor
refused and the lock is not held, it adds the edges from the locks held or reports a deadlock. -/
theorem beforeLock_evolves {e : Env} {t mu id : ℕ} {M M' : Monitor N}
    (hinv : Rep.Inv M.graph m) (hheld : EntriesInv K M.graph m (M.held t))
    (h : M.dlcDeadlockCheckBeforeLock o e t mu = some (M', id)) :
    ∃ m', Evolves Set.univ M.graph m M'.graph m' ∧
      (id = invalidGraphId ∨ Current M'.graph m' id mu) ∧
      (M.ignoreLock t = 0 → (M.held t).n < N → (∀ l ∈ (M.held t).entries, l.mu ≠ mu) →
        M'.potentialDeadlocksFound = true ∨
          ∀ l ∈ (M.held t).entries, Current M.graph m l.id l.mu →
            LockEdge M'.graph m' l.mu mu) := by
  obtain ⟨watchdog, held, heq, -⟩ := Monitor.synchGetAllLocks_eq o t M true
  rcases Monitor.beforeLock_cases h with ⟨hign, rfl, rfl⟩ | ⟨-, M₁, hM₁, hcases⟩
  · exact ⟨m, Evolves.refl hinv, Or.inl rfl, fun hc => absurd hc hign.ne'⟩
  rw [heq] at hM₁
  subst hM₁
  rcases hcases with ⟨hfull, rfl, rfl⟩ | ⟨-, g, hg, M₂, hM₂, hcases⟩
  · exact ⟨m, Evolves.refl hinv, Or.inl rfl, fun _ hc => absurd hc (not_lt.2 hfull)⟩
  obtain ⟨m', hev₁, hcur₁⟩ := getId_evolves (K := Set.univ) hinv hg
  have hev₂ : Evolves Set.univ g m' M₂.graph m' := by
    rw [hM₂]
    exact updateStackTrace_evolves hev₁.inv _ _ _ _ _ _
  have hcur₂ := hev₂.current (Set.mem_univ mu) hcur₁
  have hev := hev₁.trans hev₂
  refine ⟨m', ?_⟩
  rcases hcases with ⟨hzero, rfl⟩ | ⟨-, hcheck⟩
  · refine ⟨hev, Or.inr hcur₂, fun _ _ _ => Or.inr ?_⟩
    rw [((M.held t).n_eq_zero_iff).1 hzero]
    exact List.forall_mem_nil _
  · obtain ⟨hev₃, hedges⟩ := checkHeld_spec hev.inv hcur₂ (fun l hl => by
      obtain ⟨hmu, hcount, hid⟩ := hheld.entry l hl
      exact ⟨hmu, hcount, hev.issued _ _ hid.issued⟩) hcheck
    refine ⟨hev.trans hev₃, Or.inr (hev₃.current (Set.mem_univ mu) hcur₂), fun _ _ hne => ?_⟩
    rcases hedges with hfound | ⟨l, hl, hlmu⟩ | hall
    · exact Or.inl hfound
    · exact absurd hlmu (hne l hl)
    · exact Or.inr fun l hl hc => hall l hl (hev.current (Set.mem_univ _) hc)

/-- **`before_try_lock`** adds no edge. -/
theorem beforeTryLock_evolves {e : Env} {t mu id : ℕ} {M M' : Monitor N}
    (hinv : Rep.Inv M.graph m)
    (h : M.dlcDeadlockCheckBeforeTryLock o e t mu = some (M', id)) :
    ∃ m', Evolves Set.univ M.graph m M'.graph m' ∧ Current M'.graph m' id mu :=
  getId_evolves hinv (Monitor.beforeTryLock_graph h)

/-! ### One call -/

/-- The locks that a call does not delete. -/
def Call.kept (c : Call) : Set ℕ := {p | ∀ t, c ≠ .deleteLock t p}

namespace World

/-- **The invariant.** -/
structure Inv (K : Set ℕ) (w : World N) (m : ℕ → Option ℕ) : Prop where
  graph : Rep.Inv w.monitor.graph m
  held : ∀ t, EntriesInv K w.monitor.graph m (w.monitor.held t)
  pending : ∀ t p, w.pending t = some p → p.mu ≠ nullptr ∧
    (p.id ≠ invalidGraphId → Known K w.monitor.graph m p.id p.mu)

theorem inv_init : Inv K (init N) fun _ => none where
  graph := inv_empty
  held := fun t => entriesInv_new t
  pending := fun t p hp => by cases hp

variable {w w' : World N} {c : Call} {t mu : ℕ}

/-- The invariant after a change of the graph and of one list. -/
theorem Inv.of_evolves (h : Inv K w m)
    (hev : Evolves K w.monitor.graph m w'.monitor.graph m')
    (hheld : ∀ s, s ≠ t → (w'.monitor.held s).entries = (w.monitor.held s).entries)
    (ht : EntriesInv K w'.monitor.graph m' (w'.monitor.held t))
    (hpending : ∀ s p, w'.pending s = some p → w.pending s = some p ∨
      p.mu ≠ nullptr ∧ (p.id ≠ invalidGraphId → Known K w'.monitor.graph m' p.id p.mu)) :
    Inv K w' m' where
  graph := hev.inv
  held := fun s => by
    by_cases hs : s = t
    · rw [hs]
      exact ht
    · exact (h.held s).congr (fun _ _ => hev.known) (hheld s hs)
  pending := fun s p hp => by
    rcases hpending s p hp with hp | hp
    · obtain ⟨hmu, hid⟩ := h.pending s p hp
      exact ⟨hmu, fun hne => hev.known (hid hne)⟩
    · exact hp

/-- The invariant after a change of the graph. -/
theorem Inv.of_same_entries (h : Inv K w m)
    (hev : Evolves K w.monitor.graph m w'.monitor.graph m')
    (hheld : ∀ s, (w'.monitor.held s).entries = (w.monitor.held s).entries)
    (hpending : ∀ s p, w'.pending s = some p → w.pending s = some p ∨
      p.mu ≠ nullptr ∧ (p.id ≠ invalidGraphId → Known K w'.monitor.graph m' p.id p.mu)) :
    Inv K w' m' :=
  h.of_evolves hev (fun s _ => hheld s) ((h.held 0).congr (fun _ _ => hev.known) (hheld 0)) hpending

/-- The invariant after a call that leaves the graph and the entries alone. -/
theorem Inv.of_same_graph (h : Inv K w m)
    (hgraph : w'.monitor.graph = w.monitor.graph)
    (hheld : ∀ s, (w'.monitor.held s).entries = (w.monitor.held s).entries)
    (hpending : ∀ s p, w'.pending s = some p → w.pending s = some p) :
    ∃ m', Inv K w' m' ∧ Evolves K w.monitor.graph m w'.monitor.graph m' := by
  have hev : Evolves K w.monitor.graph m w'.monitor.graph m := by
    rw [hgraph]
    exact Evolves.refl h.graph
  exact ⟨m, h.of_same_entries hev hheld fun s p hp => Or.inl (hpending s p hp), hev⟩

theorem pending_wait {M : Monitor N} {s : ℕ} {p q : Pending}
    (hp : (w.wait t q M).pending s = some p) : w.pending s = some p ∨ p = q := by
  unfold wait at hp
  dsimp only at hp
  by_cases hs : s = t
  · rw [hs, Function.update_self] at hp
    exact Or.inr (Option.some_inj.1 hp).symm
  · rw [Function.update_of_ne hs] at hp
    exact Or.inl hp

theorem pending_done {s : ℕ} {p : Pending} (hp : Function.update w.pending t none s = some p) :
    s ≠ t ∧ w.pending s = some p := by
  by_cases hs : s = t
  · rw [hs, Function.update_self] at hp
    cases hp
  · rw [Function.update_of_ne hs] at hp
    exact ⟨hs, hp⟩

/-- A call of `before_lock` keeps the invariant, and it adds the edges from the locks held. -/
theorem inv_beforeLock {e : Env} {id : ℕ} {M' : Monitor N} (h : Inv K w m) (hmu : mu ≠ nullptr)
    (hcall : w.monitor.dlcDeadlockCheckBeforeLock o e t mu = some (M', id)) :
    ∃ m', Inv K (w.wait t ⟨mu, id, false⟩ M') m' ∧
      Evolves K w.monitor.graph m M'.graph m' ∧
      (w.monitor.ignoreLock t = 0 → (w.monitor.held t).n < N →
        (∀ l ∈ (w.monitor.held t).entries, l.mu ≠ mu) →
        M'.potentialDeadlocksFound = true ∨
          ∀ l ∈ (w.monitor.held t).entries, Current w.monitor.graph m l.id l.mu →
            LockEdge M'.graph m' l.mu mu) := by
  obtain ⟨m', hev, hid, hedges⟩ := beforeLock_evolves h.graph (h.held t) hcall
  replace hev := hev.mono (Set.subset_univ K)
  refine ⟨m', h.of_same_entries hev (fun s => ?_) fun s p hp => (pending_wait hp).imp_right ?_, hev,
    hedges⟩
  · exact ((Monitor.beforeLock_held hcall).1 s).entries
  · rintro rfl
    exact ⟨hmu, fun hne => (hid.resolve_left hne).known hev.inv.toNodesInv⟩

/-- The end of a hook. -/
theorem inv_enter {p : Pending} (h : Inv K w m) (hp : w.pending t = some p) :
    ∃ m', Inv K (w.enter t p) m' ∧ Evolves K w.monitor.graph m (w.enter t p).monitor.graph m' := by
  unfold enter
  split_ifs with hid
  · exact h.of_same_graph rfl (fun _ => rfl) fun s q hq => (pending_done hq).2
  · refine ⟨m, h.of_evolves (t := t) (Evolves.refl h.graph) (fun s hs => ?_) ?_
      fun s q hq => Or.inl (pending_done hq).2, Evolves.refl h.graph⟩
    · exact congrArg _ (Function.update_of_ne hs _ _)
    · obtain ⟨hmu, hknown⟩ := h.pending t p hp
      have hself : (w.monitor.dlcDeadlockCheckInLock t p.mu p.id).held t =
          updateLockHistoryInLock p.mu p.id (w.monitor.held t) := Function.update_self ..
      show EntriesInv K w.monitor.graph m ((w.monitor.dlcDeadlockCheckInLock t p.mu p.id).held t)
      rw [hself]
      exact entriesInv_inLock (h.held t) hmu (hknown hid)

/-- **Every call** keeps the invariant, and the nodes and edges of the locks it does not delete. -/
theorem inv_step (h : Inv K w m) (hK : K ⊆ c.kept) (hstep : w.step o dbg c = some w') :
    ∃ m', Inv K w' m' ∧ Evolves K w.monitor.graph m w'.monitor.graph m' := by
  cases stepped hstep with
  | beforeLock _ hmu hcall =>
    obtain ⟨m', h', hev, -⟩ := inv_beforeLock h hmu hcall
    exact ⟨m', h', hev⟩
  | @beforeTryLock t mu id e M' hidle hmu hcall =>
    obtain ⟨m', hev, hid⟩ := beforeTryLock_evolves h.graph hcall
    replace hev := hev.mono (Set.subset_univ K)
    refine ⟨m', h.of_same_entries hev (fun s => ?_) fun s p hp => (pending_wait hp).imp_right ?_,
      hev⟩
    · exact ((Monitor.beforeTryLock_held hcall).1 s).entries
    · rintro rfl
      exact ⟨hmu, fun _ => hid.known hev.inv.toNodesInv⟩
  | lockAcquired hp =>
    obtain ⟨m', h', hev⟩ := inv_enter h hp
    exact ⟨m', ⟨h'.graph, h'.held, h'.pending⟩, hev⟩
  | lockFailed hp => exact inv_enter h hp
  | @tryLockFailed t p hp htry =>
    exact h.of_same_graph rfl (fun _ => rfl) fun s q hq => (pending_done hq).2
  | @afterLock t mu M' hidle hmu hcall =>
    rcases Monitor.afterLock_eq hcall with ⟨-, rfl⟩ | ⟨-, g, id, hg, l, ok, error, hl, rfl⟩
    · exact h.of_same_graph rfl (fun _ => rfl) fun _ _ => id
    · obtain ⟨m', hev, -⟩ := getId_evolves (K := K) h.graph hg
      refine ⟨m', h.of_evolves (t := t) hev (fun s hs => ?_) ?_ fun _ _ => Or.inl, hev⟩
      · exact congrArg _ (Function.update_of_ne hs _ _)
      · have hl' : EntriesInv K g m' l := by
          have := entriesInv_afterLock t mu id (h.held t)
          rw [hl] at this
          exact this.congr (fun _ _ => hev.known) rfl
        have hself : Function.update w.monitor.held t l.clearStart t = l.clearStart :=
          Function.update_self ..
        show EntriesInv K g m' (Function.update w.monitor.held t l.clearStart t)
        rw [hself]
        exact hl'.congr (fun _ _ hid => hid) l.sameLocks_clearStart.entries
  | @deleteLock t mu M' hidle hmu hcall =>
    obtain ⟨g, hg, hcases⟩ := Monitor.deleteLock_cases hcall
    have hkept : mu ∉ K := fun hc => hK hc t rfl
    obtain ⟨m', hev⟩ := removeNode_evolves h.graph hg hkept
    refine ⟨m', ?_⟩
    rcases hcases with ⟨-, rfl⟩ | ⟨-, rfl⟩
    · exact ⟨h.of_same_entries hev (fun _ => rfl) fun _ _ => Or.inl, hev⟩
    · exact ⟨h.of_same_entries hev (fun _ => rfl) fun _ _ => Or.inl, hev⟩
  | @cndWait t mu hidle hmu =>
    refine h.of_same_graph rfl (fun s => ?_) fun _ _ => id
    exact (Monitor.held_setStart w.monitor.held t condWaitMark s).1.entries
  | @threadExit t hidle =>
    refine ⟨m, h.of_evolves (t := t) (Evolves.refl h.graph) (fun s hs => ?_) ?_
      fun _ _ => Or.inl, Evolves.refl h.graph⟩
    · exact congrArg _ (Function.update_of_ne hs _ _)
    · unfold Monitor.onThreadDelete
      dsimp only
      rw [Function.update_self]
      exact entriesInv_new t
  | watchdogScan hentered hcall =>
    obtain ⟨found, -, ⟨-, rfl⟩ | ⟨t, ms, -, rfl⟩⟩ := Monitor.watchdogScan_cases hcall
    · exact h.of_same_graph rfl (fun _ => rfl) fun _ _ => id
    · exact h.of_same_graph rfl (fun _ => rfl) fun _ _ => id
  | increaseIgnoreCounter | timerExpired | callbackEnd =>
    exact h.of_same_graph rfl (fun _ => rfl) fun _ _ => id

/-- The locks that no call of a run deletes. -/
def kept (calls : List Call) : Set ℕ := {p | ∀ c ∈ calls, p ∈ c.kept}

theorem kept_concat {calls : List Call} : kept (calls ++ [c]) = kept calls ∩ c.kept := by
  ext p
  simp [kept, or_imp, forall_and]

/-- **The invariant** holds after every run. -/
theorem inv_run {calls : List Call} (hrun : Runs.run (step o dbg) (init N) calls = some w) :
    ∃ m, Inv (kept calls) w m := by
  suffices H : ∀ K ⊆ kept calls, ∃ m, Inv K w m from H _ subset_rfl
  refine Runs.run_induct (motive := fun calls w => ∀ K ⊆ kept calls, ∃ m, Inv K w m)
    (fun K _ => ⟨_, inv_init⟩) ?_ calls w hrun
  intro l w₁ c w₂ _ ih hstep K hK
  rw [kept_concat, Set.subset_inter_iff] at hK
  obtain ⟨m, h⟩ := ih K hK.1
  obtain ⟨m', h', -⟩ := inv_step h hK.2 hstep
  exact ⟨m', h'⟩

end World

end BugInsight

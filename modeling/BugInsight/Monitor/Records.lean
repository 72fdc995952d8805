import BugInsight.GraphCycles.Recorded
import BugInsight.Monitor.DeadlockPath

/-!
# The acquisitions in a deadlock report

A deadlock report shows an acquisition for each lock on the cycle: the thread, the locks it held,
and its call stack.  They come from the records in the graph.

* `World.acquisitions`: for each lock, the acquisitions in a run since the lock was last deleted;
* `recorded_step`: every call keeps the records those of these acquisitions;
* `recorded_acquisition`: what `extra_infos` and `GetStackTrace` return after any run;
* `reported_acquisitions`: every entry of a report shows such an acquisition, made with a held list
  that was not empty.
-/

namespace BugInsight

open BugInsight.Rep

variable {N : ℕ} {o : UserOptions} {dbg : Bool} {collect : Bool} {r : Rep} {m : ℕ → Option ℕ}
  {A : ℕ → List Acquisition}

/-! ### The acquisitions of a run -/

/-- The acquisition that a call of `before_lock` asks for. -/
def Monitor.acquisition (m : Monitor N) (threadId : ℕ) (e : Env) : Acquisition :=
  ⟨threadId, (m.held threadId).n, (m.held threadId).locks, e.frames⟩

/-- The acquisitions of the locks after a further call: a call that is neither skipped nor refused
adds one, and a lock that is deleted has none. -/
def World.wanted (w : World N) (A : ℕ → List Acquisition) : Call → ℕ → List Acquisition
  | .beforeLock t mu e =>
      if w.monitor.ignoreLock t = 0 ∧ (w.monitor.held t).n < N then
        Function.update A mu (A mu ++ [w.monitor.acquisition t e])
      else A
  | .deleteLock _ mu => Function.update A mu []
  | _ => A

/-- The acquisitions of each lock since it was last deleted, the oldest one first. -/
def World.acquisitions (o : UserOptions) (debuggerPresent : Bool) :
    List Call → World N → (ℕ → List Acquisition) → ℕ → List Acquisition
  | [], _, A => A
  | c :: calls, w, A =>
      match w.step o debuggerPresent c with
      | some w' => acquisitions o debuggerPresent calls w' (w.wanted A c)
      | none => A

theorem World.acquisitions_concat {calls : List Call} {w₀ w w' : World N} {c : Call}
    (hrun : Runs.run (World.step o dbg) w₀ calls = some w) (hstep : w.step o dbg c = some w')
    (A : ℕ → List Acquisition) : World.acquisitions o dbg (calls ++ [c]) w₀ A =
      w.wanted (World.acquisitions o dbg calls w₀ A) c := by
  induction calls generalizing w₀ A with
  | nil =>
    cases hrun
    simp [World.acquisitions, hstep]
  | cons b calls ih =>
    rw [Runs.run_cons] at hrun
    obtain ⟨w₁, hw₁, hrun⟩ := Option.bind_eq_some_iff.1 hrun
    simp only [List.cons_append, World.acquisitions, hw₁]
    exact ih hrun _

/-! ### The calls -/

/-- The loop of `before_lock` over the locks held. -/
theorem Rep.Remembered.insertHeld {mu id : ℕ} {ls : List Lock} (h : Remembered collect r A)
    (hr : Rep.Inv r m) (hid : Current r m id mu) (hls : ∀ l ∈ ls, Issued r m l.id l.mu)
    (hpriority : 2 ≤ (r.node (nodeIndex id)).record.priority) :
    Remembered collect (insertHeld id ls r).1 A ∧
      ∀ i, ((BugInsight.insertHeld id ls r).1.node i).record = (r.node i).record := by
  induction ls generalizing r with
  | nil => exact ⟨h, fun _ => rfl⟩
  | cons l ls ih =>
    obtain ⟨hissued, hls'⟩ := List.forall_mem_cons.1 hls
    unfold BugInsight.insertHeld
    dsimp only
    split_ifs with hptr hself hinserted
    · exact ih h hr hid hls' hpriority
    · exact ⟨h, fun _ => rfl⟩
    all_goals
      have hlc : Current r m l.id l.mu :=
        not_not.1 fun hc => hptr ((hissued.ptr hr.toNodesInv).2 hc)
      have hev := (insertEdge_evolves (K := Set.univ) hr hlc hid).1
      have hrec := h.insertEdge hr hlc hid hpriority
    · obtain ⟨hrest, hsame⟩ := ih hrec hev.inv (hev.current (Set.mem_univ _) hid)
        (fun x hx => hev.issued _ _ (hls' x hx)) (by rw [record_insertEdge]; exact hpriority)
      exact ⟨hrest, fun i => (hsame i).trans (record_insertEdge ..)⟩
    · exact ⟨hrec, record_insertEdge r l.id id⟩

namespace Monitor

variable {e : Env} {t mu id : ℕ} {M M' : Monitor N} {K : Set ℕ} {g : Rep}

/-- The graph in front of the loop over the locks held. -/
theorem recorded_prepared (h : Remembered o.collectCallstacks M.graph A) (hr : Rep.Inv M.graph m)
    (hheld : EntriesInv K M.graph m (M.held t)) (hg : M.graph.getId t mu = some (g, id)) :
    ∃ m' g', g' = g.updateStackTrace o.collectCallstacks id t (M.held t).n (M.held t).locks
        e.frames ∧ Rep.Inv g' m' ∧ Current g' m' id mu ∧
      (∀ l ∈ (M.held t).entries, Issued g' m' l.id l.mu) ∧
      Remembered o.collectCallstacks g'
        (Function.update A mu (A mu ++ [M.acquisition t e])) ∧
      ((M.held t).n : ℤ) + 1 ≤ (g'.node (nodeIndex id)).record.priority := by
  obtain ⟨m', hev₁, hcur₁⟩ := getId_evolves (K := Set.univ) hr hg
  have hev₂ := updateStackTrace_evolves (K := Set.univ) hev₁.inv o.collectCallstacks id t
    (M.held t).n (M.held t).locks e.frames
  obtain ⟨hrec, hpriority⟩ := (h.getId hr hg).updateStackTrace hev₁.inv hcur₁ (M.acquisition t e)
  exact ⟨m', _, rfl, hev₂.inv, hev₂.current (Set.mem_univ _) hcur₁,
    fun l hl => (hev₁.trans hev₂).issued _ _ (hheld.entry l hl).2.2.issued, hrec, hpriority⟩

/-- **`before_lock`** records the acquisition. -/
theorem recorded_beforeLock (h : Remembered o.collectCallstacks M.graph A) (hr : Rep.Inv M.graph m)
    (hheld : EntriesInv K M.graph m (M.held t))
    (hcall : M.dlcDeadlockCheckBeforeLock o e t mu = some (M', id)) :
    Remembered o.collectCallstacks M'.graph
      (if M.ignoreLock t = 0 ∧ (M.held t).n < N then
        Function.update A mu (A mu ++ [M.acquisition t e]) else A) := by
  obtain ⟨watchdog, held, heq, hsame⟩ := synchGetAllLocks_eq o t M true
  rcases beforeLock_cases hcall with ⟨hign, -, rfl⟩ | ⟨hign, M₁, hM₁, hcases⟩
  · rw [if_neg fun hc => hign.ne' hc.1]
    exact h
  rw [heq] at hM₁
  subst hM₁
  rcases hcases with ⟨hfull, -, rfl⟩ | ⟨hlt, g, hg, M₂, rfl, hcases⟩
  · rw [if_neg fun hc => absurd hc.2 (not_lt.2 hfull)]
    exact h
  rw [if_pos ⟨hign, hlt⟩]
  obtain ⟨m', g', hg', hr', hcur, hissued, hrec, hpriority⟩ :=
    recorded_prepared (o := o) (e := e) h hr hheld hg
  rw [← (hsame t).1.n, ← (hsame t).1.locks] at hg'
  rcases hcases with ⟨-, rfl⟩ | ⟨hpos, hcheck⟩
  · exact hg' ▸ hrec
  · rw [(checkHeld_insertHeld hcheck).1]
    subst hg'
    exact (hrec.insertHeld hr' hcur hissued (by omega)).1

/-- The graph when an edge is rejected. -/
theorem recorded_rejectedEdge {other : ℕ} (h : Remembered o.collectCallstacks M.graph A)
    (hr : Rep.Inv M.graph m) (hheld : EntriesInv K M.graph m (M.held t))
    (hrej : M.rejectedEdge o e t mu = some (id, other, g)) :
    M.ignoreLock t = 0 ∧ (M.held t).n < N ∧
      Remembered o.collectCallstacks g (Function.update A mu (A mu ++ [M.acquisition t e])) ∧
      2 ≤ (g.node (nodeIndex id)).record.priority := by
  obtain ⟨watchdog, held, heq, hsame⟩ := synchGetAllLocks_eq o t M true
  unfold rejectedEdge at hrej
  rw [heq] at hrej
  dsimp only at hrej
  split_ifs at hrej with hign hfull
  obtain ⟨⟨g₁, id'⟩, hg, hrej⟩ := Option.bind_eq_some_iff.1 hrej
  dsimp only at hrej
  obtain ⟨other', hother, heq'⟩ := Option.map_eq_some_iff.1 hrej
  cases heq'
  rw [(hsame t).1.entries] at hother ⊢
  rw [(hsame t).1.n] at hfull
  -- a thread that holds nothing has no edge rejected
  have hpos : (M.held t).n ≠ 0 := fun hc => by
    rw [((M.held t).n_eq_zero_iff).1 hc] at hother
    cases hother
  obtain ⟨m', g', hg', hr', hcur, hissued, hrec, hpriority⟩ :=
    recorded_prepared (o := o) (e := e) h hr hheld hg
  rw [← (hsame t).1.n, ← (hsame t).1.locks] at hg'
  subst hg'
  obtain ⟨hrec', hrecord⟩ := hrec.insertHeld hr' hcur hissued (by omega)
  refine ⟨Nat.eq_zero_of_not_pos hign, not_le.1 hfull, hrec', ?_⟩
  rw [hrecord]
  omega

end Monitor

namespace World

variable {w w' : World N} {c : Call} {K : Set ℕ} {calls : List Call}

/-- **Every call** keeps the records those of the acquisitions. -/
theorem recorded_step (h : Remembered o.collectCallstacks w.monitor.graph A) (hinv : Inv K w m)
    (hstep : w.step o dbg c = some w') :
    Remembered o.collectCallstacks w'.monitor.graph (w.wanted A c) := by
  cases stepped hstep with
  | beforeLock _ hmu hcall => exact Monitor.recorded_beforeLock h hinv.graph (hinv.held _) hcall
  | beforeTryLock _ hmu hcall => exact h.getId hinv.graph (Monitor.beforeTryLock_graph hcall)
  | lockAcquired hp =>
    rw [graph_acquire]
    exact h
  | lockFailed =>
    rw [graph_enter]
    exact h
  | afterLock _ hmu hcall =>
    rcases Monitor.afterLock_eq hcall with ⟨-, rfl⟩ | ⟨-, g, id, hg, l, ok, error, -, rfl⟩
    · exact h
    · exact h.getId hinv.graph hg
  | deleteLock _ _ hcall =>
    obtain ⟨g, hg, ⟨-, rfl⟩ | ⟨-, rfl⟩⟩ := Monitor.deleteLock_cases hcall
    · exact h.removeNode hinv.graph hg
    · exact h.removeNode hinv.graph hg
  | watchdogScan _ hcall =>
    obtain ⟨found, -, ⟨-, rfl⟩ | ⟨t, ms, -, rfl⟩⟩ := Monitor.watchdogScan_cases hcall
    · exact h
    · exact h
  | tryLockFailed | cndWait | increaseIgnoreCounter | threadExit | timerExpired | callbackEnd =>
    exact h

/-- An acquisition is by a thread whose list has room. -/
def Fits (N : ℕ) (A : ℕ → List Acquisition) : Prop :=
  ∀ p, ∀ a ∈ A p, a.n < N ∧ a.locks.length = N

theorem fits_wanted (h : Fits N A) (w : World N) (c : Call) : Fits N (w.wanted A c) := by
  intro p a ha
  cases c with
  | beforeLock t mu e =>
    unfold wanted at ha
    dsimp only at ha
    split_ifs at ha with hroom
    · by_cases hp : p = mu
      · rw [hp, Function.update_self] at ha
        rcases List.mem_append.1 ha with ha | ha
        · exact h mu a ha
        · rw [List.mem_singleton.1 ha]
          exact ⟨hroom.2, (w.monitor.held t).length_locks⟩
      · rw [Function.update_of_ne hp] at ha
        exact h p a ha
    · exact h p a ha
  | deleteLock t mu =>
    by_cases hp : p = mu
    · rw [wanted, hp, Function.update_self] at ha
      cases ha
    · rw [wanted, Function.update_of_ne hp] at ha
      exact h p a ha
  | _ => exact h p a ha

/-- **The records after a run** are those of its acquisitions. -/
theorem recorded_run (hrun : Runs.run (step o dbg) (init N) calls = some w) :
    Remembered o.collectCallstacks w.monitor.graph (acquisitions o dbg calls (init N) fun _ => []) ∧
      Fits N (acquisitions o dbg calls (init N) fun _ => []) := by
  refine Runs.run_induct (motive := fun calls w =>
    Remembered o.collectCallstacks w.monitor.graph (acquisitions o dbg calls (init N) fun _ => []) ∧
      Fits N (acquisitions o dbg calls (init N) fun _ => [])) ⟨.empty, fun p a ha => by cases ha⟩ ?_
    calls w hrun
  intro l w₁ c w₂ hl ih hstep
  obtain ⟨m, hinv⟩ := inv_run hl
  rw [acquisitions_concat hl hstep]
  exact ⟨recorded_step ih.1 hinv hstep, fits_wanted ih.2 w₁ c⟩

end World

/-! ### What is printed -/

/-- What is printed of an acquisition of the lock `mu`. -/
def Acquisition.printed (mu : ℕ) (a : Acquisition) : PathEntry :=
  ⟨a.threadId, a.held.map Lock.mu, mu, some ⟨a.frames, a.frames.length⟩⟩

/-- The record of a live node. -/
theorem Rep.Remembered.record_node {v : ℕ} (h : Remembered collect r A) (hr : Rep.Inv r m)
    (hv : r.LiveNode v) :
    (r.node v).record.IsOf collect ((A (r.node v).maskedPtr).argmax Acquisition.n) := by
  obtain ⟨p, hp⟩ := hr.toNodesInv.liveNode_iff.1 hv
  rw [hr.map.maskedPtr hp]
  exact h.record p v (by rw [hr.map.find, hp])

/-- What is returned for an id that has a pointer is in its node. -/
theorem LiveGraph.findNode_of_ptr {id : ℕ} (hr : Rep.Inv r m) (hid : r.ptr id ≠ nullptr) :
    r.findNode id = some (r.node (nodeIndex id)) ∧ r.LiveNode (nodeIndex id) ∧
      r.ptr id = (r.node (nodeIndex id)).maskedPtr := by
  obtain ⟨hfound, hlive⟩ := LiveGraph.live_of_ptr hr hid
  obtain ⟨nd, hnd⟩ := Option.isSome_iff_exists.1 hfound
  obtain ⟨-, rfl⟩ := Remembered.findNode_eq_some hnd
  refine ⟨hnd, hlive, ?_⟩
  unfold Rep.ptr
  rw [hnd]

/-- An entry of a report about the node of a live lock. -/
theorem Rep.mem_printPath {vs : List ℕ} (hr : Rep.Inv r m) (hl : LiveGraph r)
    (hvs : ∀ v ∈ vs, r.LiveNode v) {entry : PathEntry}
    (hentry : entry ∈ r.printPath (vs.map r.idOf)) :
    ∃ v ∈ vs, entry = ⟨(r.node v).threadId,
      constructHoldLocks (r.node v).holdLocks (r.node v).holdLocksCount, (r.node v).maskedPtr,
      some (r.node v).callstack⟩ := by
  induction vs with
  | nil => cases hentry
  | cons v vs ih =>
    obtain ⟨hv, hvs'⟩ := List.forall_mem_cons.1 hvs
    obtain ⟨hptr, hne⟩ := hl.ptr_idOf hr hv
    rw [← hptr] at hne
    obtain ⟨hfind, -, -⟩ := LiveGraph.findNode_of_ptr hr hne
    have hindex : nodeIndex (r.idOf v) = v := by
      obtain ⟨p, hp⟩ := hr.toNodesInv.liveNode_iff.1 hv
      exact nodeIndex_makeId (hr.toNodesInv.lt_maxVecSize (hr.toNodesInv.lt hp))
    rw [hindex] at hfind
    rw [List.map_cons, printPath, if_neg hne, extraInfos, getStackTrace, hfind, hptr] at hentry
    rcases List.mem_cons.1 hentry with rfl | hentry
    · exact ⟨v, List.mem_cons_self, rfl⟩
    · obtain ⟨u, hu, heq⟩ := ih hvs' hentry
      exact ⟨u, List.mem_cons_of_mem v hu, heq⟩

/-- The record of an acquisition: the number of locks fits into its field. -/
theorem Record.IsOf.fields {s : Record} {a : Acquisition} (h : s.IsOf collect (some a))
    (ha : a.n < 256) :
    s.threadId = a.threadId ∧ s.holdLocksCount = a.n ∧ s.holdLocks = a.locks ∧
      (collect = true → s.callstack = ⟨a.frames, a.frames.length⟩) := by
  obtain ⟨-, hthread, hlocks, hcount, hsize, hframes⟩ := h
  refine ⟨hthread, hcount.trans (Nat.mod_eq_of_lt ha), hlocks, fun hcollect => ?_⟩
  rw [if_pos hcollect] at hsize
  cases hs : s.callstack with
  | mk ptr size =>
    rw [hs] at hsize hframes
    exact congrArg₂ Callstack.mk (hframes hcollect) hsize

/-- Every node on a path that starts at a node with a predecessor has one. -/
theorem Rep.IsPath.priority {x y v : ℕ} {vs : List ℕ} (hvs : r.IsPath x y vs)
    (h : Remembered collect r A) (hx : 2 ≤ (r.node x).record.priority) (hv : v ∈ vs) :
    2 ≤ (r.node v).record.priority := by
  obtain ⟨pre, post, rfl⟩ := List.append_of_mem hv
  rcases List.eq_nil_or_concat pre with rfl | ⟨pre', u, rfl⟩
  · obtain rfl : v = x := Option.some_inj.1 hvs.head
    exact hx
  · have hedge := hvs.edge
    rw [List.concat_eq_append, List.append_assoc, List.isChain_append] at hedge
    exact h.edge u v (List.isChain_cons_cons.1 hedge.2.1).1

/-- **The record of a lock** is that of the first one of its acquisitions with the most locks held,
of those since the lock was last deleted. -/
theorem recorded_acquisition {calls : List Call} {w : World N} (hN : N ≤ 256)
    (hrun : Runs.run (World.step o dbg) (.init N) calls = some w) {id : ℕ}
    (hid : w.monitor.graph.ptr id ≠ nullptr) :
    (∀ a, (World.acquisitions o dbg calls (.init N) (fun _ => [])
        (w.monitor.graph.ptr id)).argmax Acquisition.n = some a →
      w.monitor.graph.extraInfos id = (a.threadId, a.n, a.locks) ∧
        (o.collectCallstacks = true →
          w.monitor.graph.getStackTrace id = some ⟨a.frames, a.frames.length⟩)) ∧
      (World.acquisitions o dbg calls (.init N) (fun _ => []) (w.monitor.graph.ptr id) = [] →
        (w.monitor.graph.extraInfos id).2.1 = 0 ∧
          ∃ callstack, w.monitor.graph.getStackTrace id = some callstack ∧ callstack.size = 0) := by
  obtain ⟨m, hinv⟩ := World.inv_run hrun
  obtain ⟨hrec, hfits⟩ := World.recorded_run hrun
  obtain ⟨hfind, hlive, hptr⟩ := LiveGraph.findNode_of_ptr hinv.graph hid
  have hof := hrec.record_node hinv.graph hlive
  rw [← hptr] at hof
  unfold Rep.extraInfos Rep.getStackTrace
  rw [hfind]
  refine ⟨fun a ha => ?_, fun hnone => ?_⟩
  · rw [ha] at hof
    have hlt := (hfits _ a (List.argmax_mem ha)).1
    obtain ⟨hthread, hcount, hlocks, hcallstack⟩ := hof.fields (by omega)
    exact ⟨congrArg₂ Prod.mk hthread (congrArg₂ Prod.mk hcount hlocks),
      fun hcollect => congrArg some (hcallstack hcollect)⟩
  · rw [hnone, List.argmax_nil] at hof
    exact ⟨hof.2.2, _, rfl, hof.2.1⟩

/-- A lock that is wanted twice, the second time by a thread that holds another one. -/
theorem recorded_acquisition_twice : ∃ w,
    Runs.run (World.step {} false) (.init 20) (Call.lock 2 32 ++ Call.lock 1 16 ++
      [.afterLock 1 16] ++ Call.lock 2 16) = some w ∧
    w.monitor.graph.extraInfos (makeId 1 1) =
      (2, 1, ⟨32, 1, makeId 0 1⟩ :: List.replicate 19 {}) := by
  have heval : (Runs.run (World.step {} false) (.init 20) (Call.lock 2 32 ++ Call.lock 1 16 ++
      [.afterLock 1 16] ++ Call.lock 2 16)).any (fun w =>
        decide (w.monitor.graph.ptr (makeId 1 1) = 16)) = true := by decide +kernel
  obtain ⟨w, hw, h⟩ := (Option.any_eq_true _ _).1 heval
  have hptr : w.monitor.graph.ptr (makeId 1 1) = 16 := of_decide_eq_true h
  refine ⟨w, hw, ?_⟩
  refine ((recorded_acquisition (by decide) hw (by rw [hptr]; decide)).1
    ⟨2, 1, ⟨32, 1, makeId 0 1⟩ :: List.replicate 19 {}, []⟩ ?_).1
  rw [hptr]
  rfl

/-- **Every entry of a report** shows an acquisition of its lock in this run, since the lock was
last deleted: the first one of those with the most locks held.  The held list of the thread was not
empty then (it may have held this lock only). -/
theorem reported_acquisitions {calls : List Call} {w : World N} {t mu id other : ℕ} {e : Env}
    {g : Rep} (hN : N ≤ 256) (hrun : Runs.run (World.step o dbg) (.init N) calls = some w)
    (hmu : mu ≠ nullptr) (hrej : w.monitor.rejectedEdge o e t mu = some (id, other, g))
    {entries : List PathEntry}
    (hprint : buildDeadlockCircleLogText o.collectCallstacks g id other = some entries)
    {entry : PathEntry} (hentry : entry ∈ entries) :
    ∃ a, (w.wanted (World.acquisitions o dbg calls (.init N) fun _ => []) (.beforeLock t mu e)
        entry.waitForLock).argmax Acquisition.n = some a ∧
      a.held ≠ [] ∧ entry = a.printed entry.waitForLock := by
  obtain ⟨m, hinv⟩ := World.inv_run hrun
  obtain ⟨hrec, hfits⟩ := World.recorded_run hrun
  obtain ⟨m', hrejected⟩ := Monitor.rejectedEdge_spec hinv.graph (World.liveGraph_run hrun)
    (hinv.held t) hmu hrej
  obtain ⟨hign, hlt, hrec', hpriority⟩ :=
    Monitor.recorded_rejectedEdge hrec hinv.graph (hinv.held t) hrej
  have hwanted : w.wanted (World.acquisitions o dbg calls (.init N) fun _ => [])
      (.beforeLock t mu e) = _ := if_pos ⟨hign, hlt⟩
  have hfits' := World.fits_wanted hfits w (.beforeLock t mu e)
  rw [← hwanted] at hrec'
  -- only a path is printed, and only with call stacks
  have hcollect : o.collectCallstacks = true := by
    by_contra hc
    rw [buildDeadlockCircleLogText, if_neg hc] at hprint
    cases hprint
    cases hentry
  obtain ⟨vs, hvs, -, hprinted⟩ := hrejected.printPath_eq
  rw [hcollect] at hprint
  rw [hprinted entries hprint] at hentry
  rw [hcollect] at hrec'
  obtain ⟨v, hv, rfl⟩ := Rep.mem_printPath hrejected.inv hrejected.live
    (fun v hv => hvs.live v (List.mem_of_mem_take hv)) hentry
  have hv' := List.mem_of_mem_take hv
  have hof := hrec'.record_node hrejected.inv (hvs.live v hv')
  have htwo := hvs.priority hrec' hpriority hv'
  -- a record of none has priority 0
  cases hmax : (w.wanted (World.acquisitions o dbg calls (.init N) fun _ => [])
      (.beforeLock t mu e) (g.node v).maskedPtr).argmax Acquisition.n with
  | none =>
    rw [hmax] at hof
    have := hof.1
    omega
  | some a =>
    rw [hmax] at hof
    have hn : (g.node v).record.priority = a.n + 1 := hof.1
    obtain ⟨hroom, hlocks⟩ := hfits' _ a (List.argmax_mem hmax)
    refine ⟨a, rfl, fun hnil => ?_, ?_⟩
    · have := congrArg List.length hnil
      rw [Acquisition.held, List.length_take, hlocks, List.length_nil] at this
      omega
    · obtain ⟨hthread, hcount, hlocks', hcallstack⟩ := hof.fields (by omega)
      have hthread' : (g.node v).threadId = a.threadId := hthread
      have hcount' : (g.node v).holdLocksCount = a.n := hcount
      have hheld : (g.node v).holdLocks = a.locks := hlocks'
      have hcallstack' : (g.node v).callstack = ⟨a.frames, a.frames.length⟩ := hcallstack rfl
      rw [hthread', hcount', hheld, hcallstack']
      rfl

/-- The report about a thread that wants the first of two locks again while it holds the second
one. -/
theorem reported_acquisitions_two : ∃ w id other g entries entry a,
    Runs.run (World.step {} false) (.init 20) (Call.handOverHand 1 1) = some w ∧
      w.monitor.rejectedEdge {} ⟨1, [], Nat.one_pos⟩ 1 16 = some (id, other, g) ∧
      buildDeadlockCircleLogText true g id other = some entries ∧ entry ∈ entries ∧
      a.held ≠ [] ∧ entry = Acquisition.printed entry.waitForLock a := by
  have heval : (Runs.run (World.step {} false) (.init 20) (Call.handOverHand 1 1)).any (fun w =>
      (w.monitor.rejectedEdge {} ⟨1, [], Nat.one_pos⟩ 1 16).any fun edge =>
        (buildDeadlockCircleLogText true edge.2.2 edge.1 edge.2.1).any fun entries =>
          !entries.isEmpty) = true := by
    decide +kernel
  obtain ⟨w, hw, h⟩ := (Option.any_eq_true _ _).1 heval
  obtain ⟨⟨id, other, g⟩, hrej, h⟩ := (Option.any_eq_true _ _).1 h
  obtain ⟨entries, hprint, h⟩ := (Option.any_eq_true _ _).1 h
  obtain ⟨entry, hentry⟩ : ∃ entry, entry ∈ entries := by
    cases entries with
    | nil => simp at h
    | cons entry entries => exact ⟨entry, List.mem_cons_self⟩
  obtain ⟨a, -, hheld, heq⟩ := reported_acquisitions (by decide) hw (by decide) hrej hprint hentry
  exact ⟨w, id, other, g, entries, entry, a, hw, hrej, hprint, hentry, hheld, heq⟩

end BugInsight

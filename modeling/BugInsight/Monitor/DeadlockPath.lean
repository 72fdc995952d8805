import BugInsight.GraphCycles.FindPath
import BugInsight.Monitor.Invariant
import BugInsight.Monitor.Reports

/-!
# The cycle in a deadlock report

`before_lock` reports a potential deadlock when `InsertEdge` rejects the edge from a lock held to
the lock that is wanted.  The report lists locks on a path between the two: with the edge that was
rejected, the path is a cycle.

* `liveGraph_run`: in a run, all edges of the graph are between locks that are not deleted;
* `rejectedEdge_spec`: what holds of the graph when an edge is rejected;
* `reported_cycle`: the path that is found, and what is printed of it.
-/

open Relation

namespace BugInsight

open BugInsight.Rep

variable {N : ℕ} {o : UserOptions} {dbg : Bool} {r r' : Rep} {m : ℕ → Option ℕ}

/-! ### What is printed -/

/-- `extra_infos`: the thread that recorded the acquisition, and the locks it held. -/
def Rep.extraInfos (r : Rep) (id : ℕ) : ℕ × ℕ × List Lock :=
  match r.findNode id with
  | some n => (n.threadId, n.holdLocksCount, n.holdLocks)
  | none => (0, 0, [])

/-- `GetStackTrace`. -/
def Rep.getStackTrace (r : Rep) (id : ℕ) : Option Callstack := (r.findNode id).map Node.callstack

/-- The locks in `construct_hold_locks_string`. -/
def constructHoldLocks (holdLocks : List Lock) (holdLocksCount : ℕ) : List ℕ :=
  (holdLocks.take holdLocksCount).map Lock.mu

/-- What is printed of a lock on the path. -/
structure PathEntry where
  threadId : ℕ
  holdingLock : List ℕ
  waitForLock : ℕ
  /-- `none` is printed as "not available" -/
  callstack : Option Callstack

/-- The loop of `build_deadlock_circle_log_text` over the ids of the path. -/
def Rep.printPath (r : Rep) : List ℕ → List PathEntry
  | [] => []
  | id :: ids =>
      if r.ptr id = nullptr then printPath r ids
      else
        let (threadId, holdLocksCount, holdLocks) := r.extraInfos id
        let entry := PathEntry.mk threadId (constructHoldLocks holdLocks holdLocksCount) (r.ptr id)
        match r.getStackTrace id with
        | none => [entry none]
        | some callstack => entry (some callstack) :: printPath r ids

/-- `build_deadlock_circle_log_text`: the part of the text about the cycle. -/
def buildDeadlockCircleLogText (collectCallstacks : Bool) (r : Rep) (muId otherNodeId : ℕ) :
    Option (List PathEntry) :=
  if collectCallstacks then do
    let (pathLen, path) ← r.findPath32 muId otherNodeId 10 (List.replicate 10 0)
    return r.printPath (path.take pathLen)
  else some []

/-- The loop of `before_lock` over the locks held, as far as the graph goes: the graph after it, and
the lock that the rejected edge comes from. -/
def insertHeld (id : ℕ) : List Lock → Rep → Rep × Option ℕ
  | [], r => (r, none)
  | l :: ls, r =>
      if r.ptr l.id = nullptr then insertHeld id ls r
      else if l.id = id then (r, none)
      else
        let inserted := r.insertEdge l.id id
        if inserted.2 then insertHeld id ls inserted.1 else (inserted.1, some l.id)

/-- The edge that `InsertEdge` rejects in `dlc_deadlock_check_before_lock`: the id of the lock that
is wanted, the id of a lock held, and the graph then. -/
def Monitor.rejectedEdge (o : UserOptions) (e : Env) (threadId mu : ℕ) (m : Monitor N) :
    Option (ℕ × ℕ × Rep) :=
  if 0 < m.ignoreLock threadId then none
  else
    let m := m.synchGetAllLocks o threadId true
    let h := m.held threadId
    if N ≤ h.n then none
    else
      (m.graph.getId threadId mu).bind fun (graph, id) =>
        let inserted := insertHeld id h.entries
          (graph.updateStackTrace o.collectCallstacks id threadId h.n h.locks e.frames)
        inserted.2.map fun other => (id, other, inserted.1)

/-! ### Graphs of live locks -/

/-- The edges are between live nodes, and these have pointers. -/
structure LiveGraph (r : Rep) : Prop where
  edges : LiveEdges r
  null : r.find nullptr = some none

namespace LiveGraph

variable {p id : ℕ}

theorem empty : LiveGraph Rep.empty := ⟨liveEdges_empty, (inv_empty.map.find nullptr)⟩

theorem getId {tid : ℕ} (hl : LiveGraph r) (hr : Rep.Inv r m) (hp : p ≠ nullptr)
    (hg : r.getId tid p = some (r', id)) : LiveGraph r' := by
  refine ⟨liveEdges_getId hr hl.edges hg, ?_⟩
  have hnull : m nullptr = none := Option.some_inj.1 ((hr.map.find nullptr).symm.trans hl.null)
  cases hm : m p with
  | some i =>
    rw [getId_known hr hm] at hg
    cases hg
    exact hl.null
  | none =>
    obtain ⟨i, hreg, -⟩ := getId_new hr hm hg
    rw [hreg.inv.map.find, Function.update_of_ne hp.symm, hnull]

theorem removeNode (hl : LiveGraph r) (hr : Rep.Inv r m) (hg : r.removeNode p = some r') :
    LiveGraph r' := by
  refine ⟨liveEdges_removeNode hr hl.edges hg, ?_⟩
  have hnull : m nullptr = none := Option.some_inj.1 ((hr.map.find nullptr).symm.trans hl.null)
  cases hm : m p with
  | none =>
    rw [removeNode_unmapped hr hm] at hg
    cases hg
    exact hl.null
  | some i =>
    obtain ⟨r'', hr'', hrem⟩ := removeNode_mapped hr hm
    cases hg.symm.trans hr''
    have hp : p ≠ nullptr := by
      rintro rfl
      rw [hnull] at hm
      cases hm
    rw [hrem.inv.map.find, Function.update_of_ne hp.symm, hnull]

theorem insertEdge {q id' : ℕ} (hl : LiveGraph r) (hr : Rep.Inv r m) (hid : Current r m id p)
    (hid' : Current r m id' q) : LiveGraph (r.insertEdge id id').1 := by
  have hev := (insertEdge_evolves (K := ∅) hr hid hid').1
  refine ⟨liveEdges_insertEdge hr hl.edges ⟨p, hid.issued hr.toNodesInv⟩
    ⟨q, hid'.issued hr.toNodesInv⟩ fun _ _ _ => ?_, ?_⟩
  · exact ⟨hid.liveNode hr.toNodesInv, hid'.liveNode hr.toNodesInv⟩
  · rw [hev.inv.map.find, ← hr.map.find, hl.null]

theorem updateStackTrace (hl : LiveGraph r) (hr : Rep.Inv r m) (collect : Bool) (id tid n : ℕ)
    (locks : List Lock) (frames : List ℕ) :
    LiveGraph (r.updateStackTrace collect id tid n locks frames) := by
  have hev := updateStackTrace_evolves (K := ∅) hr collect id tid n locks frames
  refine ⟨hl.edges.transfer hr.toNodesInv hev.inv.toNodesInv fun v w hvw => ?_, ?_⟩
  · exact ⟨(edge_updateStackTrace r collect id tid n locks frames v w).1 hvw, fun _ hv => hv,
      fun _ hw => hw⟩
  · rw [hev.inv.map.find, ← hr.map.find, hl.null]

/-- An id with a pointer is found, and its node is live. -/
theorem live_of_ptr (hr : Rep.Inv r m) (hp : r.ptr id ≠ nullptr) :
    (r.findNode id).isSome = true ∧ r.LiveNode (nodeIndex id) := by
  unfold Rep.ptr at hp
  cases hfind : r.findNode id with
  | none =>
    rw [hfind] at hp
    exact absurd rfl hp
  | some n =>
    rw [hfind] at hp
    refine ⟨rfl, not_not.1 fun hdead => ?_⟩
    have hlt : nodeIndex id < r.nodes.length := by
      by_contra hlen
      simp [findNode, List.getElem?_eq_none (Nat.not_lt.1 hlen)] at hfind
    rw [findNode_of_lt hlt] at hfind
    split_ifs at hfind
    cases hfind
    exact hp (hr.null _ fun p hm => hdead (hr.toNodesInv.liveNode_iff.2 ⟨p, hm⟩))

/-- Live nodes have pointers. -/
theorem ptr_idOf {v : ℕ} (hl : LiveGraph r) (hr : Rep.Inv r m) (hv : r.LiveNode v) :
    r.ptr (r.idOf v) = (r.node v).maskedPtr ∧ (r.node v).maskedPtr ≠ nullptr := by
  obtain ⟨p, hp⟩ := hr.toNodesInv.liveNode_iff.1 hv
  have hc : Current r m (r.idOf v) p := ⟨v, hp, rfl⟩
  have hnull : m nullptr = none := Option.some_inj.1 ((hr.map.find nullptr).symm.trans hl.null)
  rw [((hc.issued hr.toNodesInv).ptr hr.toNodesInv).1 hc, hr.map.maskedPtr hp]
  refine ⟨rfl, ?_⟩
  rintro rfl
  rw [hnull] at hp
  cases hp

end LiveGraph

/-! ### The loop over the locks held -/

/-- The report of the loop, and the graph then. -/
theorem Monitor.checkHeld_insertHeld {t mu id : ℕ} {ls : List Lock} {M M' : Monitor N}
    (h : Monitor.checkHeld o t mu id ls M = some M') :
    M'.graph = (insertHeld id ls M.graph).1 ∧
      M'.log = M.log ++ ((insertHeld id ls M.graph).2.map fun other =>
        Report.deadlockCircle mu t (M'.deadlockPath o id other)).toList := by
  induction ls generalizing M with
  | nil =>
    cases h
    exact ⟨rfl, (List.append_nil _).symm⟩
  | cons l ls ih =>
    unfold Monitor.checkHeld at h
    unfold insertHeld
    dsimp only at h ⊢
    split_ifs at h ⊢ with hptr hid hinserted
    · exact ih h
    · cases h
      exact ⟨rfl, (List.append_nil _).symm⟩
    · exact ih h
    · obtain ⟨M₁, hM₁, rfl⟩ := Option.map_eq_some_iff.1 h
      obtain ⟨-, rfl⟩ := Monitor.report_eq_some.1 hM₁
      exact ⟨rfl, rfl⟩

/-- What holds of the graph `r` when the edge from `other` to `id` was rejected. -/
structure Rejected (r : Rep) (m : ℕ → Option ℕ) (id other : ℕ) : Prop where
  inv : Rep.Inv r m
  live : LiveGraph r
  found : (r.findNode id).isSome = true ∧ r.LiveNode (nodeIndex id)
  found' : (r.findNode other).isSome = true ∧ r.LiveNode (nodeIndex other)
  ne : nodeIndex id ≠ nodeIndex other
  reachable : ReflTransGen r.Edge (nodeIndex id) (nodeIndex other)

/-- **The loop of `before_lock`** keeps edges between live locks, and if it ends with a rejected
edge, there is a path that this edge closes. -/
theorem insertHeld_spec {mu id : ℕ} {ls : List Lock} (hr : Rep.Inv r m) (hl : LiveGraph r)
    (hid : Current r m id mu) (hls : ∀ l ∈ ls, Issued r m l.id l.mu) :
    LiveGraph (insertHeld id ls r).1 ∧ ∀ other, (insertHeld id ls r).2 = some other →
      Rejected (insertHeld id ls r).1 m id other := by
  induction ls generalizing r with
  | nil => exact ⟨hl, fun other h => by cases h⟩
  | cons l ls ih =>
    obtain ⟨hissued, hls'⟩ := List.forall_mem_cons.1 hls
    unfold insertHeld
    dsimp only
    split_ifs with hptr hself hinserted
    · exact ih hr hl hid hls'
    · exact ⟨hl, fun other h => by cases h⟩
    all_goals
      have hlc : Current r m l.id l.mu :=
        not_not.1 fun hc => hptr ((hissued.ptr hr.toNodesInv).2 hc)
      have hev := (insertEdge_evolves (K := Set.univ) hr hlc hid).1
      have hl' := hl.insertEdge hr hlc hid
    · exact ih hev.inv hl' (hev.current (Set.mem_univ _) hid)
        fun x hx => hev.issued _ _ (hls' x hx)
    · refine ⟨hl', fun other hother => ?_⟩
      cases hother
      have hid' := hev.current (Set.mem_univ _) hid
      have hlc' := hev.current (Set.mem_univ _) hlc
      have hlive : ∀ {i p}, Current (r.insertEdge l.id id).1 m i p →
          ((r.insertEdge l.id id).1.findNode i).isSome = true ∧
            (r.insertEdge l.id id).1.LiveNode (nodeIndex i) := fun hc =>
        ⟨((hc.issued hev.inv.toNodesInv).findNode hev.inv.toNodesInv).2 (Or.inl hc),
          hc.liveNode hev.inv.toNodesInv⟩
      have hne : nodeIndex id ≠ nodeIndex l.id := fun heq => by
        -- the two ids would be for the same pointer
        have hmu := hr.map.inj (hid.index hr.toNodesInv).1 (heq ▸ (hlc.index hr.toNodesInv).1)
        exact hself ((hmu ▸ hlc).unique hid)
      have hins := insertEdge_spec hr
        (((hlc.issued hr.toNodesInv).findNode hr.toNodesInv).2 (Or.inl hlc))
        (((hid.issued hr.toNodesInv).findNode hr.toNodesInv).2 (Or.inl hid))
        (hr.used_of_mapped (hlc.index hr.toNodesInv).1)
        (hr.used_of_mapped (hid.index hr.toNodesInv).1)
      have hreach := (hins.rejected.1 (Bool.eq_false_iff.2 hinserted)).resolve_left hne.symm
      exact ⟨hev.inv, hl', hlive hid', hlive hlc', hne,
        ReflTransGen.mono (fun v w hvw => (hins.edge v w).2 (Or.inl hvw)) _ _ hreach⟩

/-! ### Runs -/

namespace Monitor

variable {e : Env} {t mu : ℕ} {M M' : Monitor N} {K : Set ℕ} {id : ℕ}

/-- The graph in front of the loop over the locks held. -/
theorem liveGraph_prepared (hr : Rep.Inv M.graph m) (hl : LiveGraph M.graph)
    (hheld : EntriesInv K M.graph m (M.held t)) (hmu : mu ≠ nullptr) {g : Rep}
    (hg : M.graph.getId t mu = some (g, id)) (n : ℕ) (locks : List Lock) :
    ∃ m', Rep.Inv (g.updateStackTrace o.collectCallstacks id t n locks e.frames) m' ∧
      LiveGraph (g.updateStackTrace o.collectCallstacks id t n locks e.frames) ∧
      Current (g.updateStackTrace o.collectCallstacks id t n locks e.frames) m' id mu ∧
      ∀ l ∈ (M.held t).entries,
        Issued (g.updateStackTrace o.collectCallstacks id t n locks e.frames) m' l.id l.mu := by
  obtain ⟨m', hev₁, hcur₁⟩ := getId_evolves (K := Set.univ) hr hg
  have hev₂ := updateStackTrace_evolves (K := Set.univ) hev₁.inv o.collectCallstacks id t n locks
    e.frames
  have hl₁ := hl.getId hr hmu hg
  refine ⟨m', hev₂.inv, hl₁.updateStackTrace hev₁.inv .., hev₂.current (Set.mem_univ _) hcur₁,
    fun l hl => ?_⟩
  exact (hev₁.trans hev₂).issued _ _ (hheld.entry l hl).2.2.issued

/-- **`before_lock`** keeps edges between live locks. -/
theorem liveGraph_beforeLock (hr : Rep.Inv M.graph m) (hl : LiveGraph M.graph)
    (hheld : EntriesInv K M.graph m (M.held t)) (hmu : mu ≠ nullptr)
    (h : M.dlcDeadlockCheckBeforeLock o e t mu = some (M', id)) : LiveGraph M'.graph := by
  obtain ⟨watchdog, held, heq, -⟩ := synchGetAllLocks_eq o t M true
  rcases beforeLock_cases h with ⟨-, -, rfl⟩ | ⟨-, M₁, hM₁, hcases⟩
  · exact hl
  rw [heq] at hM₁
  subst hM₁
  rcases hcases with ⟨-, -, rfl⟩ | ⟨-, g, hg, M₂, rfl, hcases⟩
  · exact hl
  obtain ⟨m', hr', hl', hcur, hissued⟩ := liveGraph_prepared (o := o) (e := e) hr hl hheld hmu hg
    (held t).n (held t).locks
  rcases hcases with ⟨-, rfl⟩ | ⟨-, hcheck⟩
  · exact hl'
  · rw [(checkHeld_insertHeld hcheck).1]
    exact (insertHeld_spec hr' hl' hcur hissued).1

/-- The edge that is rejected closes a path. -/
theorem rejectedEdge_spec {other : ℕ} {g : Rep} (hr : Rep.Inv M.graph m) (hl : LiveGraph M.graph)
    (hheld : EntriesInv K M.graph m (M.held t)) (hmu : mu ≠ nullptr)
    (h : M.rejectedEdge o e t mu = some (id, other, g)) : ∃ m', Rejected g m' id other := by
  obtain ⟨watchdog, held, heq, hsame⟩ := synchGetAllLocks_eq o t M true
  unfold rejectedEdge at h
  rw [heq] at h
  dsimp only at h
  split_ifs at h
  obtain ⟨⟨g₁, id'⟩, hg, h⟩ := Option.bind_eq_some_iff.1 h
  obtain ⟨other', hother, heq'⟩ := Option.map_eq_some_iff.1 h
  cases heq'
  rw [(hsame t).1.entries] at hother ⊢
  obtain ⟨m', hr', hl', hcur, hissued⟩ := liveGraph_prepared (o := o) (e := e) hr hl hheld hmu hg
    (held t).n (held t).locks
  exact ⟨m', (insertHeld_spec hr' hl' hcur hissued).2 other hother⟩

/-- `before_lock` reports a deadlock exactly if an edge is rejected. -/
theorem beforeLock_rejectedEdge (h : M.dlcDeadlockCheckBeforeLock o e t mu = some (M', id)) :
    (∀ id' other g, M.rejectedEdge o e t mu = some (id', other, g) → id' = id ∧ g = M'.graph) ∧
      ∃ reports, M'.log = M.log ++ reports ∧
        reports.filter Report.isDeadlock = ((M.rejectedEdge o e t mu).map fun edge =>
          Report.deadlockCircle mu t (M'.deadlockPath o edge.1 edge.2.1)).toList := by
  obtain ⟨watchdog, held, heq, hsame⟩ := synchGetAllLocks_eq o t M true
  have hn := (hsame t).1.n
  have hentries := (hsame t).1.entries
  unfold rejectedEdge
  rw [heq]
  dsimp only
  rw [hn, hentries]
  rcases beforeLock_cases h with ⟨hign, rfl, rfl⟩ | ⟨hign, M₁, hM₁, hcases⟩
  · rw [if_pos hign]
    exact ⟨fun _ _ _ hc => (by cases hc), [], (List.append_nil _).symm, rfl⟩
  rw [heq] at hM₁
  subst hM₁
  rw [if_neg (by omega)]
  rcases hcases with ⟨hfull, rfl, rfl⟩ | ⟨hlt, g, hg, M₂, rfl, hcases⟩
  · rw [if_pos hfull]
    exact ⟨fun _ _ _ hc => (by cases hc), _, rfl, rfl⟩
  rw [if_neg (not_le.2 hlt), hg, Option.bind_some]
  dsimp only at hcases ⊢
  rw [hn] at hcases
  rcases hcases with ⟨hzero, rfl⟩ | ⟨-, hcheck⟩
  · rw [((M.held t).n_eq_zero_iff).1 hzero]
    exact ⟨fun _ _ _ hc => (by cases hc), [], (List.append_nil _).symm, rfl⟩
  · obtain ⟨hgraph, hlog⟩ := checkHeld_insertHeld hcheck
    refine ⟨fun id' other g' hc => ?_, _, hlog, ?_⟩
    · obtain ⟨other', -, heq'⟩ := Option.map_eq_some_iff.1 hc
      cases heq'
      exact ⟨rfl, hgraph.symm⟩
    · cases (insertHeld id (M.held t).entries (g.updateStackTrace o.collectCallstacks id t
        (M.held t).n (held t).locks e.frames)).2 with
      | none => rfl
      | some other => rfl

end Monitor

namespace World

variable {w w' : World N} {c : Call} {K : Set ℕ}

/-- A call keeps edges between live locks. -/
theorem liveGraph_step (h : Inv K w m) (hl : LiveGraph w.monitor.graph)
    (hstep : w.step o dbg c = some w') : LiveGraph w'.monitor.graph := by
  cases stepped hstep with
  | beforeLock _ hmu hcall => exact Monitor.liveGraph_beforeLock h.graph hl (h.held _) hmu hcall
  | @beforeTryLock t mu id e M' hidle hmu hcall =>
    exact hl.getId h.graph hmu (Monitor.beforeTryLock_graph hcall)
  | @lockAcquired t p hp =>
    rw [graph_acquire]
    exact hl
  | lockFailed =>
    rw [graph_enter]
    exact hl
  | afterLock _ hmu hcall =>
    rcases Monitor.afterLock_eq hcall with ⟨-, rfl⟩ | ⟨-, g, id, hg, l, ok, error, -, rfl⟩
    · exact hl
    · exact hl.getId h.graph hmu hg
  | deleteLock _ _ hcall =>
    obtain ⟨g, hg, ⟨-, rfl⟩ | ⟨-, rfl⟩⟩ := Monitor.deleteLock_cases hcall
    · exact hl.removeNode h.graph hg
    · exact hl.removeNode h.graph hg
  | watchdogScan _ hcall =>
    obtain ⟨found, -, ⟨-, rfl⟩ | ⟨t, ms, -, rfl⟩⟩ := Monitor.watchdogScan_cases hcall
    · exact hl
    · exact hl
  | tryLockFailed | cndWait | increaseIgnoreCounter | threadExit | timerExpired | callbackEnd =>
    exact hl

/-- In every run the edges are between live locks. -/
theorem liveGraph_run {calls : List Call} (hrun : Runs.run (step o dbg) (init N) calls = some w) :
    LiveGraph w.monitor.graph := by
  refine Runs.run_induct (motive := fun _ w => LiveGraph w.monitor.graph) .empty ?_ calls w hrun
  intro l w₁ c w₂ hl ih hstep
  obtain ⟨m, hinv⟩ := inv_run hl
  exact liveGraph_step hinv ih hstep

end World

/-! ### The report -/

/-- Every live lock is printed. -/
theorem Rep.waitForLock_printPath {vs : List ℕ} (hr : Rep.Inv r m) (hl : LiveGraph r)
    (hvs : ∀ v ∈ vs, r.LiveNode v) :
    (r.printPath (vs.map r.idOf)).map PathEntry.waitForLock =
      vs.map fun v => (r.node v).maskedPtr := by
  induction vs with
  | nil => rfl
  | cons v vs ih =>
    obtain ⟨hv, hvs'⟩ := List.forall_mem_cons.1 hvs
    obtain ⟨hptr, hne⟩ := hl.ptr_idOf hr hv
    rw [← hptr] at hne
    obtain ⟨n, hn⟩ := Option.isSome_iff_exists.1 (LiveGraph.live_of_ptr hr hne).1
    have htrace : r.getStackTrace (r.idOf v) = some n.callstack := by
      rw [getStackTrace, hn]
      rfl
    rw [List.map_cons, printPath, if_neg hne, htrace]
    dsimp only
    rw [List.map_cons, ih hvs', List.map_cons, hptr]

/-- The path when an edge is rejected, and the part of it that is printed. -/
theorem Rejected.printPath_eq {id other : ℕ} (h : Rejected r m id other) :
    ∃ vs, r.IsPath (nodeIndex id) (nodeIndex other) vs ∧ 2 ≤ vs.length ∧
      ∀ entries, buildDeadlockCircleLogText true r id other = some entries →
        entries = r.printPath ((vs.take 10).map r.idOf) := by
  have hlen : 10 ≤ (List.replicate 10 0).length := le_rfl
  have hspec := findPath_spec h.inv h.live.edges h.found.2 h.found.1 h.found'.1 hlen
  obtain ⟨⟨len, path⟩, hpath⟩ : ∃ res, r.findPath id other 10 (List.replicate 10 0) = res :=
    ⟨_, rfl⟩
  rw [hpath] at hspec
  dsimp only at hspec
  obtain ⟨vs, hvs, rfl, htake⟩ := hspec.found fun hc => hspec.zero_iff.1 hc h.reachable
  refine ⟨vs, hvs, hvs.two_le h.ne, fun entries hentries => ?_⟩
  rw [buildDeadlockCircleLogText, if_pos rfl] at hentries
  obtain ⟨res, hres, heq⟩ := Option.bind_eq_some_iff.1 hentries
  cases (findPath_of_findPath32 hres).symm.trans hpath
  cases heq
  rw [List.map_take, ← htake]
  refine congrArg r.printPath (List.take_eq_take_iff.2 ?_)
  rw [hspec.length, List.length_replicate]
  omega

/-- What is printed when an edge is rejected. -/
theorem Rejected.printed {id other : ℕ} (h : Rejected r m id other) (collectCallstacks : Bool) :
    ∃ vs, r.IsPath (nodeIndex id) (nodeIndex other) vs ∧ 2 ≤ vs.length ∧
      ({v | TransGen r.Edge (nodeIndex id) v}.encard < (3 * 2 ^ 29 : ℕ) →
        ∃ entries, buildDeadlockCircleLogText collectCallstacks r id other = some entries ∧
          entries.map PathEntry.waitForLock =
            if collectCallstacks then (vs.take 10).map fun v => (r.node v).maskedPtr else []) := by
  obtain ⟨vs, hvs, hle, heq⟩ := h.printPath_eq
  refine ⟨vs, hvs, hle, fun hfew => ?_⟩
  cases collectCallstacks with
  | false => exact ⟨[], rfl, rfl⟩
  | true =>
    obtain ⟨entries, hentries⟩ : ∃ entries,
        buildDeadlockCircleLogText true r id other = some entries := by
      rw [buildDeadlockCircleLogText, if_pos rfl, findPath32_of_fits (findPathFits_of_few hfew)]
      exact ⟨_, rfl⟩
    refine ⟨entries, hentries, ?_⟩
    rw [heq entries hentries, if_pos rfl]
    exact waitForLock_printPath h.inv h.live fun v hv => hvs.live v (List.mem_of_mem_take hv)

/-- **A cycle is reported for a path that the rejected edge closes**: `FindPath` finds it, unless
the set of the seen nodes gets too large for its table. -/
theorem reported_cycle {calls : List Call} {w : World N}
    (hrun : Runs.run (World.step o dbg) (.init N) calls = some w) :
    (∀ idx idy maxPathLen path, w.monitor.graph.ptr idx ≠ nullptr →
      w.monitor.graph.ptr idy ≠ nullptr → maxPathLen ≤ path.length →
      {v | TransGen w.monitor.graph.Edge (nodeIndex idx) v}.encard < (3 * 2 ^ 29 : ℕ) →
      ∃ len path', w.monitor.graph.findPath32 idx idy maxPathLen path = some (len, path') ∧
        PathFound w.monitor.graph (nodeIndex idx) (nodeIndex idy) maxPathLen path len path') ∧
      ∀ t mu e id other g, mu ≠ nullptr →
        w.monitor.rejectedEdge o e t mu = some (id, other, g) →
        (∃ vs, g.IsPath (nodeIndex id) (nodeIndex other) vs ∧ 2 ≤ vs.length ∧
          ({v | TransGen g.Edge (nodeIndex id) v}.encard < (3 * 2 ^ 29 : ℕ) →
            ∃ entries, buildDeadlockCircleLogText o.collectCallstacks g id other = some entries ∧
              entries.map PathEntry.waitForLock = if o.collectCallstacks then
                (vs.take 10).map fun v => (g.node v).maskedPtr else [])) ∧
        ∀ M' id', w.monitor.dlcDeadlockCheckBeforeLock o e t mu = some (M', id') →
          M'.graph = g ∧
            Report.deadlockCircle mu t (M'.deadlockPath o id other) ∈ M'.log := by
  have hl := World.liveGraph_run hrun
  obtain ⟨m, hinv⟩ := World.inv_run hrun
  refine ⟨fun idx idy maxPathLen path hx hy hlen hfew => ?_,
    fun t mu e id other g hmu hrej => ⟨?_, ?_⟩⟩
  · obtain ⟨hfx, hlive⟩ := LiveGraph.live_of_ptr hinv.graph hx
    exact findPath32_spec hinv.graph hl.edges hlive hfx (LiveGraph.live_of_ptr hinv.graph hy).1 hlen
      hfew
  · obtain ⟨m', hrejected⟩ := Monitor.rejectedEdge_spec hinv.graph hl (hinv.held t) hmu hrej
    exact hrejected.printed o.collectCallstacks
  · intro M' id' hcall
    obtain ⟨hedge, reports, hlog, hreports⟩ := Monitor.beforeLock_rejectedEdge hcall
    refine ⟨(hedge id other g hrej).2.symm, ?_⟩
    rw [hrej] at hreports
    have hmem : Report.deadlockCircle mu t (M'.deadlockPath o id other) ∈
        reports.filter Report.isDeadlock := by
      rw [hreports]
      exact List.mem_singleton_self _
    rw [hlog]
    exact List.mem_append_right _ (List.mem_filter.1 hmem).1

/-- A thread acquires a lock. -/
def Call.lock (threadId mu : ℕ) : List Call :=
  [.beforeLock threadId mu ⟨1, [], Nat.one_pos⟩, .lockAcquired threadId mu]

/-- A thread goes along `n + 1` locks; it holds two of them at a time, and the last one at the
end. -/
def Call.handOverHand (threadId : ℕ) : ℕ → List Call
  | 0 => lock threadId 16
  | n + 1 => handOverHand threadId n ++ lock threadId (16 * (n + 2)) ++
      [.afterLock threadId (16 * (n + 1))]

/-- A thread that wants the first of two locks again while it holds the second one. -/
theorem reported_cycle_two : ∃ w id other g vs entries,
    Runs.run (World.step {} false) (.init 20) (Call.handOverHand 1 1) = some w ∧
      w.monitor.rejectedEdge {} ⟨1, [], Nat.one_pos⟩ 1 16 = some (id, other, g) ∧
      g.IsPath (nodeIndex id) (nodeIndex other) vs ∧
      buildDeadlockCircleLogText true g id other = some entries ∧
      entries.map PathEntry.waitForLock = (vs.take 10).map fun v => (g.node v).maskedPtr := by
  have heval : (Runs.run (World.step {} false) (.init 20) (Call.handOverHand 1 1)).any (fun w =>
      (w.monitor.rejectedEdge {} ⟨1, [], Nat.one_pos⟩ 1 16).any fun edge =>
        edge.2.2.nodes.length = 2) = true := by decide +kernel
  obtain ⟨w, hw, h⟩ := (Option.any_eq_true _ _).1 heval
  obtain ⟨⟨id, other, g⟩, hrej, hlen⟩ := (Option.any_eq_true _ _).1 h
  obtain ⟨m, hinv⟩ := World.inv_run hw
  obtain ⟨m', hrejected⟩ := Monitor.rejectedEdge_spec hinv.graph (World.liveGraph_run hw)
    (hinv.held 1) (by decide) hrej
  have hfew : {v | TransGen g.Edge (nodeIndex id) v}.encard < (3 * 2 ^ 29 : ℕ) := by
    refine (hrejected.inv.encard_reachable_le _).trans_lt ?_
    rw [of_decide_eq_true hlen]
    decide
  obtain ⟨vs, hvs, -, hprinted⟩ := ((reported_cycle hw).2 1 16 _ id other g (by decide) hrej).1
  obtain ⟨entries, hprinted, hentries⟩ := hprinted hfew
  exact ⟨w, id, other, g, vs, entries, hw, hrej, hvs, hprinted, hentries⟩

/-- A dead end before the path is found: its last node stays in the array.  A path of eleven locks:
the last one is not printed.  And without call stacks nothing is printed. -/
theorem path_not_printed :
    (∃ w, Runs.run (World.step {} false) (.init 20)
        (Call.lock 1 16 ++ Call.lock 1 64 ++ [.afterLock 1 64] ++ Call.lock 1 32 ++
          [.afterLock 1 16] ++ Call.lock 1 48) = some w ∧
      w.monitor.graph.ptr (makeId 0 1) = 16 ∧ w.monitor.graph.ptr (makeId 1 1) = 64 ∧
      w.monitor.graph.findPath32 (makeId 0 1) (makeId 1 1) 3 [0, 0, 0] =
        some (2, [makeId 0 1, makeId 1 1, makeId 3 1])) ∧
    (∃ w id other g, Runs.run (World.step {} false) (.init 20) (Call.handOverHand 1 10) = some w ∧
      w.monitor.rejectedEdge {} ⟨1, [], Nat.one_pos⟩ 1 16 = some (id, other, g) ∧
      g.ptr other = 176 ∧
      (buildDeadlockCircleLogText true g id other).map (List.map PathEntry.waitForLock) =
        some [16, 32, 48, 64, 80, 96, 112, 128, 144, 160]) ∧
    ∃ w id other g, Runs.run (World.step { collectCallstacks := false } false) (.init 20)
        (Call.handOverHand 1 1) = some w ∧
      w.monitor.rejectedEdge { collectCallstacks := false } ⟨1, [], Nat.one_pos⟩ 1 16 =
        some (id, other, g) ∧
      buildDeadlockCircleLogText false g id other = some [] := by
  have hdead : (Runs.run (World.step {} false) (.init 20)
      (Call.lock 1 16 ++ Call.lock 1 64 ++ [.afterLock 1 64] ++ Call.lock 1 32 ++
        [.afterLock 1 16] ++ Call.lock 1 48)).any (fun w => decide (
          w.monitor.graph.ptr (makeId 0 1) = 16 ∧ w.monitor.graph.ptr (makeId 1 1) = 64 ∧
          w.monitor.graph.findPath32 (makeId 0 1) (makeId 1 1) 3 [0, 0, 0] =
            some (2, [makeId 0 1, makeId 1 1, makeId 3 1]))) = true := by decide +kernel
  have hlong : (Runs.run (World.step {} false) (.init 20) (Call.handOverHand 1 10)).any (fun w =>
      (w.monitor.rejectedEdge {} ⟨1, [], Nat.one_pos⟩ 1 16).any fun edge => decide (
        edge.2.2.ptr edge.2.1 = 176 ∧
        (buildDeadlockCircleLogText true edge.2.2 edge.1 edge.2.1).map
          (List.map PathEntry.waitForLock) =
            some [16, 32, 48, 64, 80, 96, 112, 128, 144, 160])) = true := by decide +kernel
  have hoff : (Runs.run (World.step { collectCallstacks := false } false) (.init 20)
      (Call.handOverHand 1 1)).any (fun w =>
        (w.monitor.rejectedEdge { collectCallstacks := false } ⟨1, [], Nat.one_pos⟩ 1 16).isSome) =
          true := by decide +kernel
  refine ⟨?_, ?_, ?_⟩
  · obtain ⟨w, hw, h⟩ := (Option.any_eq_true _ _).1 hdead
    exact ⟨w, hw, of_decide_eq_true h⟩
  · obtain ⟨w, hw, h⟩ := (Option.any_eq_true _ _).1 hlong
    obtain ⟨⟨id, other, g⟩, hrej, h⟩ := (Option.any_eq_true _ _).1 h
    exact ⟨w, id, other, g, hw, hrej, of_decide_eq_true h⟩
  · obtain ⟨w, hw, h⟩ := (Option.any_eq_true _ _).1 hoff
    obtain ⟨⟨id, other, g⟩, hrej⟩ := Option.isSome_iff_exists.1 h
    exact ⟨w, id, other, g, hw, hrej, rfl⟩

end BugInsight

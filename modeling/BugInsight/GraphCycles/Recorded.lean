import BugInsight.GraphCycles.Evolution

/-!
# Recorded acquisitions

The node of a lock has a record of one acquisition: the thread that wanted the lock, the locks that
this thread held, and its call stack.  `UpdateStackTrace` replaces the record by one with more locks
held; the other operations leave it alone, and a node that is assigned to a lock starts without one.

* `Record.IsOf`: the record is that of an acquisition, or of none;
* `Remembered`: for lists of acquisitions of all locks, the records are those of the first ones with
  the most locks held, and a lock that an edge leads to was wanted by a thread that held another
  one;
* `Remembered.getId`, `Remembered.removeNode`, `Remembered.insertEdge` and
  `Remembered.updateStackTrace`: the operations of a monitor.
-/

namespace BugInsight

/-- What `UpdateStackTrace` is called with. -/
structure Acquisition where
  threadId : ℕ
  /-- the number of locks that the thread holds -/
  n : ℕ
  /-- the array of its list; the locks that it holds are in front -/
  locks : List Lock
  /-- the return addresses that `GetStackFrames` finds -/
  frames : List ℕ

/-- The locks that the thread held. -/
def Acquisition.held (a : Acquisition) : List Lock := a.locks.take a.n

/-- The fields of a node that `UpdateStackTrace` writes. -/
structure Record where
  priority : ℤ
  threadId : ℕ
  callstack : Callstack
  holdLocks : List Lock
  holdLocksCount : ℕ

/-- The record in a node. -/
def Node.record (n : Node) : Record :=
  ⟨n.priority, n.threadId, n.callstack, n.holdLocks, n.holdLocksCount⟩

/-- The record is that of an acquisition, or of none. -/
def Record.IsOf (collectCallstacks : Bool) (s : Record) : Option Acquisition → Prop
  | none => s.priority = 0 ∧ s.callstack.size = 0 ∧ s.holdLocksCount = 0
  | some a => s.priority = a.n + 1 ∧ s.threadId = a.threadId ∧ s.holdLocks = a.locks ∧
      s.holdLocksCount = a.n % 256 ∧ s.callstack.size = (if collectCallstacks then a.frames.length
        else 0) ∧ (collectCallstacks = true → s.callstack.ptr = a.frames)

/-- What becomes of the record at a further acquisition. -/
def Record.update (collectCallstacks : Bool) (a : Acquisition) (s : Record) : Record :=
  if s.priority < a.n + 1 then
    ⟨a.n + 1, a.threadId, if collectCallstacks then ⟨a.frames, a.frames.length⟩ else s.callstack,
      a.locks, a.n % 256⟩
  else s

theorem Record.le_priority_update (collect : Bool) (a : Acquisition) (s : Record) :
    s.priority ≤ (s.update collect a).priority ∧ (a.n : ℤ) + 1 ≤ (s.update collect a).priority := by
  unfold update
  by_cases hlt : s.priority < a.n + 1
  · rw [if_pos hlt]
    exact ⟨hlt.le, le_rfl⟩
  · rw [if_neg hlt]
    exact ⟨le_rfl, not_lt.1 hlt⟩

/-- **A further acquisition** is recorded if none before it had as many locks held. -/
theorem Record.IsOf.update {collect : Bool} {s : Record} {l : List Acquisition} (a : Acquisition)
    (h : s.IsOf collect (l.argmax Acquisition.n)) :
    (s.update collect a).IsOf collect ((l ++ [a]).argmax Acquisition.n) := by
  rw [List.argmax_concat]
  unfold Record.update
  cases hmax : l.argmax Acquisition.n with
  | none =>
    rw [hmax] at h
    obtain ⟨hpriority, hsize, -⟩ := h
    rw [if_pos (by omega)]
    cases collect
    · exact ⟨rfl, rfl, rfl, rfl, hsize, fun hc => absurd hc (by decide)⟩
    · exact ⟨rfl, rfl, rfl, rfl, rfl, fun _ => rfl⟩
  | some b =>
    rw [hmax] at h
    have hpriority := h.1
    by_cases hlt : b.n < a.n
    · rw [if_pos (by omega)]
      simp only [if_pos hlt]
      cases collect
      · exact ⟨rfl, rfl, rfl, rfl, h.2.2.2.2.1, fun hc => absurd hc (by decide)⟩
      · exact ⟨rfl, rfl, rfl, rfl, rfl, fun _ => rfl⟩
    · rw [if_neg (by omega)]
      simp only [if_neg hlt]
      exact h

namespace Rep

variable {r r' : Rep} {m : ℕ → Option ℕ} {p id tid : ℕ}

/-! ### Operations that leave the records alone -/

/-- A search only sets marks. -/
theorem field_dfs {α : Type*} (g : Node → α) (hvisited : ∀ n b, g (Node.setVisited b n) = g n)
    (d : Direction) (stop keep : Node → Bool) (r : Rep) (n j : ℕ) :
    g ((dfs d stop keep r n).1.node j) = g (r.node j) := by
  have hbody : ∀ s : Dfs, g (s.r.node j) = g (r.node j) → ∀ k,
      g ((s.r.modifyNode k (.setVisited true)).node j) = g (r.node j) := fun s hs k =>
    (field_modifyNode s.r k j _ g fun n => hvisited n _).trans hs
  refine Loop.run_spec (I := fun s : Dfs => g (s.r.node j) = g (r.node j))
    (Q := fun res : Dfs × Bool => g (res.1.r.node j) = g (r.node j)) ?_ ?_ _ rfl
  · rintro ⟨r₁, stack, delta⟩ s' hs hb
    cases stack with
    | nil => simp [dfsBody] at hb
    | cons k stack =>
      simp only [dfsBody] at hb
      split_ifs at hb
      · cases hb
        exact hs
      · cases hb
        exact hbody _ hs k
  · rintro ⟨r₁, stack, delta⟩ res hs hb
    cases stack with
    | nil =>
      cases hb
      exact hs
    | cons k stack =>
      simp only [dfsBody] at hb
      split_ifs at hb
      cases hb
      exact hbody _ hs k

/-- `InsertEdge` changes edges, ranks and marks only. -/
theorem field_insertEdge {α : Type*} (g : Node → α) (hin : ∀ n f, g (Node.updateIn f n) = g n)
    (hout : ∀ n f, g (Node.updateOut f n) = g n) (hrank : ∀ n k, g (Node.setRank k n) = g n)
    (hvisited : ∀ n b, g (Node.setVisited b n) = g n) (r : Rep) (idx idy j : ℕ) :
    g ((r.insertEdge idx idy).1.node j) = g (r.node j) := by
  unfold insertEdge
  dsimp only
  split
  · have hadd := field_addEdge g hin hout r (nodeIndex idx) (nodeIndex idy) j
    split_ifs
    · rfl
    · rfl
    · exact hadd
    · have hdfs := field_dfs g hvisited
      split
      · rename_i r₂ deltaf hforward
        have hr₂ : r₂ = _ := (congrArg Prod.fst hforward).symm
        rw [field_setVisited g hvisited, field_eraseEdge g hin hout, hr₂]
        exact (hdfs ..).trans hadd
      · rename_i r₂ deltaf hforward
        have hr₂ : r₂ = _ := (congrArg Prod.fst hforward).symm
        rw [field_reorder g hrank hvisited]
        refine (hdfs ..).trans ?_
        rw [hr₂]
        exact (hdfs ..).trans hadd
  · rfl

theorem record_insertEdge (r : Rep) (idx idy j : ℕ) :
    ((r.insertEdge idx idy).1.node j).record = (r.node j).record :=
  field_insertEdge Node.record (fun _ _ => rfl) (fun _ _ => rfl) (fun _ _ => rfl)
    (fun _ _ => rfl) r idx idy j

theorem record_removeNode (h : Inv r m) (hg : r.removeNode p = some r') (j : ℕ) :
    (r'.node j).record = (r.node j).record := by
  obtain ⟨r₀, hr₀, hlinks, -, -⟩ := h.map.remove p
  have hrecord := hlinks.field Node.record (fun _ _ => rfl) j
  rw [removeNode, hr₀] at hg
  cases hp : m p with
  | none =>
    rw [hp] at hg
    cases hg
    exact hrecord
  | some i =>
    rw [hp] at hg
    cases hg
    rw [← hrecord, ← field_eraseEdges Node.record (fun _ _ => rfl) (fun _ _ => rfl) r₀ i j,
      ← field_modifyNode (r₀.eraseEdges i) i j clearNode Node.record fun _ => rfl]
    unfold recycle
    split_ifs
    · rfl
    · exact field_modifyNode _ i j (fun n => { n with version := n.version + 1 }) Node.record
        fun _ => rfl

/-- The node that `GetId` takes has no record. -/
theorem record_getId_new (h : Inv r m) (hp : m p = none) (hg : r.getId tid p = some (r', id))
    (collect : Bool) : ∃ i, Registered r m p r' i ∧ (r'.node i).record.IsOf collect none ∧
      ∀ j, j ≠ i → (r'.node j).record = (r.node j).record := by
  have hadd : ∀ (r₁ : Rep) (i : ℕ), r₁.add p i = r' →
      ∀ j, (r'.node j).record = (r₁.node j).record := by
    rintro r₁ i rfl j
    exact (sameButLinks_add r₁ p i).field Node.record (fun _ _ => rfl) j
  cases hfree : r.freeNodes with
  | nil =>
    by_cases hlen : r.nodes.length < maxVecSize
    · have hprep := prepared_append h hfree hlen tid p
      have hr' : (Rep.mk (r.nodes ++ [newNode tid p r.nodes.length]) r.freeNodes r.table).add p
          r.nodes.length = r' := by
        simp only [getId, h.map.find, hp, hfree, pushBack, if_pos hlen, Option.bind_eq_bind,
          Option.bind_some, Option.pure_def, Option.some_inj, Prod.mk.injEq] at hg
        exact hfree ▸ hg.1
      refine ⟨_, hr' ▸ hprep.registered h.toNodesInv hp, ?_, fun j hj => ?_⟩
      · rw [hadd _ _ hr']
        have hself : (r.nodes ++ [newNode tid p r.nodes.length]).getD r.nodes.length default =
            newNode tid p r.nodes.length := by simp
        show (Node.record (List.getD _ _ _)).IsOf collect none
        rw [hself]
        exact ⟨rfl, rfl, rfl⟩
      · rw [hadd _ _ hr']
        exact congrArg Node.record (hprep.node j hj)
    · simp [getId, h.map.find, hp, hfree, pushBack, hlen] at hg
  | cons i rest =>
    have hprep := prepared_reuse h hfree p
    have hr' : (({ r with freeNodes := rest } : Rep).modifyNode i (reuseNode p)).add p i = r' := by
      simp only [getId, h.map.find, hp, hfree, Option.bind_eq_bind, Option.bind_some,
        Option.pure_def, Option.some_inj, Prod.mk.injEq] at hg
      exact hg.1
    refine ⟨_, hr' ▸ hprep.registered h.toNodesInv hp, ?_, fun j hj => ?_⟩
    · have hi : i < r.nodes.length := h.free_lt i (hfree ▸ List.mem_cons_self)
      rw [hadd _ _ hr', node_modifyNode_self (r := { r with freeNodes := rest }) hi]
      exact ⟨rfl, rfl, rfl⟩
    · rw [hadd _ _ hr']
      exact congrArg Node.record (hprep.node j hj)

/-! ### Records and acquisitions -/

/-- **The records** for lists of acquisitions `A p` of all locks: the first one of those with the
most locks held is recorded.  An edge leads to a lock that was wanted while another one was held. -/
structure Remembered (collect : Bool) (r : Rep) (A : ℕ → List Acquisition) : Prop where
  record : ∀ p i, r.find p = some (some i) →
    (r.node i).record.IsOf collect ((A p).argmax Acquisition.n)
  unregistered : ∀ p, r.find p = some none → A p = []
  edge : ∀ v w, r.Edge v w → 2 ≤ (r.node w).record.priority

namespace Remembered

variable {collect : Bool} {A : ℕ → List Acquisition} {idx idy n : ℕ} {locks : List Lock}
  {frames : List ℕ}

theorem empty : Remembered collect Rep.empty fun _ => [] where
  record p i hp := by
    rw [inv_empty.map.find] at hp
    cases hp
  unregistered _ _ := rfl
  edge v w h := absurd h (NodeSet.not_mem_empty w)

/-- **`GetId`**. -/
theorem getId (h : Remembered collect r A) (hr : Inv r m) (hg : r.getId tid p = some (r', id)) :
    Remembered collect r' A := by
  cases hp : m p with
  | some i =>
    rw [getId_known hr hp] at hg
    cases hg
    exact h
  | none =>
    obtain ⟨i, hreg, hnew, hold⟩ := record_getId_new hr hp hg collect
    have hnone : A p = [] := h.unregistered p (by rw [hr.map.find, hp])
    -- no pointer and no edge belongs to the node yet
    have hfresh : ¬ r.Used i := fun hu => by
      rcases hreg.fresh with hf | hf
      · exact hu.2 hf
      · exact absurd hu.1 (by omega)
    refine ⟨fun q j hq => ?_, fun q hq => ?_, fun v w hvw => ?_⟩
    · rw [hreg.inv.map.find, Option.some_inj] at hq
      by_cases hqp : q = p
      · subst hqp
        rw [Function.update_self] at hq
        cases hq
        rw [hnone]
        exact hnew
      · rw [Function.update_of_ne hqp] at hq
        have hj : j ≠ i := fun hc => hfresh (hr.used_of_mapped (hc ▸ hq))
        rw [hold j hj]
        exact h.record q j (by rw [hr.map.find, hq])
    · rw [hreg.inv.map.find, Option.some_inj] at hq
      by_cases hqp : q = p
      · exact hqp ▸ hnone
      · rw [Function.update_of_ne hqp] at hq
        exact h.unregistered q (by rw [hr.map.find, hq])
    · have hvw' := (hreg.edge v w).1 hvw
      rw [hold w fun hc => hfresh (hc ▸ (hr.used v w hvw').2)]
      exact h.edge v w hvw'

/-- **`RemoveNode`** ends the list of the lock. -/
theorem removeNode (h : Remembered collect r A) (hr : Inv r m) (hg : r.removeNode p = some r') :
    Remembered collect r' (Function.update A p []) := by
  have hrecord := record_removeNode hr hg
  cases hp : m p with
  | none =>
    have hnone : A p = [] := h.unregistered p (by rw [hr.map.find, hp])
    rw [← hnone, Function.update_eq_self]
    rw [removeNode_unmapped hr hp] at hg
    cases hg
    exact h
  | some i =>
    obtain ⟨r₁, hr₁, hrem⟩ := removeNode_mapped hr hp
    cases hg.symm.trans hr₁
    refine ⟨fun q j hq => ?_, fun q hq => ?_, fun v w hvw => ?_⟩
    · rw [hrem.inv.map.find, Option.some_inj] at hq
      obtain ⟨hq', hj⟩ := (hr.map.update_none hp q j).1 hq
      have hqp : q ≠ p := fun hc => hj (Option.some_inj.1 (hq'.symm.trans (hc ▸ hp)))
      rw [Function.update_of_ne hqp, hrecord]
      exact h.record q j (by rw [hr.map.find, hq'])
    · rw [hrem.inv.map.find, Option.some_inj] at hq
      by_cases hqp : q = p
      · rw [hqp, Function.update_self]
      · rw [Function.update_of_ne hqp] at hq ⊢
        exact h.unregistered q (by rw [hr.map.find, hq])
    · rw [hrecord]
      exact h.edge v w ((hrem.edge v w).1 hvw).1

/-- **`InsertEdge`** to a lock that was wanted while another one was held. -/
theorem insertEdge {q : ℕ} (h : Remembered collect r A) (hr : Inv r m) (hx : Current r m idx p)
    (hy : Current r m idy q) (hpriority : 2 ≤ (r.node (nodeIndex idy)).record.priority) :
    Remembered collect (r.insertEdge idx idy).1 A := by
  have hev := (insertEdge_evolves (K := ∅) hr hx hy).1
  have hfind : ∀ q, (r.insertEdge idx idy).1.find q = r.find q := fun q =>
    (hev.inv.map.find q).trans (hr.map.find q).symm
  have hins := insertEdge_spec hr
    (((hx.issued hr.toNodesInv).findNode hr.toNodesInv).2 (Or.inl hx))
    (((hy.issued hr.toNodesInv).findNode hr.toNodesInv).2 (Or.inl hy))
    (hr.used_of_mapped (hx.index hr.toNodesInv).1) (hr.used_of_mapped (hy.index hr.toNodesInv).1)
  refine ⟨fun q j hq => ?_, fun q hq => ?_, fun v w hvw => ?_⟩
  · rw [record_insertEdge]
    exact h.record q j (hfind q ▸ hq)
  · exact h.unregistered q (hfind q ▸ hq)
  · rw [record_insertEdge]
    rcases (hins.edge v w).1 hvw with hvw | ⟨-, -, rfl⟩
    · exact h.edge v w hvw
    · exact hpriority

/-- The node that `FindNode` returns. -/
theorem findNode_eq_some {nd : Node} (h : r.findNode id = some nd) :
    nodeIndex id < r.nodes.length ∧ nd = r.node (nodeIndex id) := by
  have hlt : nodeIndex id < r.nodes.length := by
    by_contra hc
    simp [findNode, List.getElem?_eq_none (Nat.not_lt.1 hc)] at h
  rw [findNode_of_lt hlt] at h
  split_ifs at h
  exact ⟨hlt, (Option.some_inj.1 h).symm⟩

/-- What **`UpdateStackTrace`** does to the node of an id that is found. -/
theorem record_updateStackTrace (hfound : (r.findNode id).isSome = true) (a : Acquisition) (i : ℕ) :
    ((r.updateStackTrace collect id a.threadId a.n a.locks a.frames).node i).record =
      if i = nodeIndex id then (r.node i).record.update collect a else (r.node i).record := by
  obtain ⟨nd, hnd⟩ := Option.isSome_iff_exists.1 hfound
  obtain ⟨hlt, rfl⟩ := findNode_eq_some hnd
  unfold updateStackTrace Record.update
  rw [hnd]
  dsimp only
  by_cases hi : i = nodeIndex id
  · subst hi
    rw [if_pos rfl]
    by_cases hle : (a.n : ℤ) + 1 ≤ (r.node (nodeIndex id)).priority
    · have hlt' : ¬ (r.node (nodeIndex id)).record.priority < a.n + 1 := not_lt.2 hle
      rw [if_pos hle, if_neg hlt']
    · have hlt' : (r.node (nodeIndex id)).record.priority < a.n + 1 := not_le.1 hle
      rw [if_neg hle, if_pos hlt', node_modifyNode_self hlt]
      rfl
  · rw [if_neg hi]
    by_cases hle : (a.n : ℤ) + 1 ≤ (r.node (nodeIndex id)).priority
    · rw [if_pos hle]
    · rw [if_neg hle, node_modifyNode_of_ne (Ne.symm hi)]

/-- **`UpdateStackTrace`**: the acquisition is the last one of its lock. -/
theorem updateStackTrace (h : Remembered collect r A) (hr : Inv r m) (hid : Current r m id p)
    (a : Acquisition) :
    Remembered collect (r.updateStackTrace collect id a.threadId a.n a.locks a.frames)
        (Function.update A p (A p ++ [a])) ∧
      (a.n : ℤ) + 1 ≤ ((r.updateStackTrace collect id a.threadId a.n a.locks a.frames).node
        (nodeIndex id)).record.priority := by
  have hfound := ((hid.issued hr.toNodesInv).findNode hr.toNodesInv).2 (Or.inl hid)
  have hp := (hid.index hr.toNodesInv).1
  have hrecord := @record_updateStackTrace r id collect hfound a
  have hev := updateStackTrace_evolves (K := ∅) hr collect id a.threadId a.n a.locks a.frames
  have hfind : ∀ q, (r.updateStackTrace collect id a.threadId a.n a.locks a.frames).find q =
      r.find q := fun q => (hev.inv.map.find q).trans (hr.map.find q).symm
  refine ⟨⟨fun q j hq => ?_, fun q hq => ?_, fun v w hvw => ?_⟩, ?_⟩
  · rw [hfind, hr.map.find, Option.some_inj] at hq
    have hold := h.record q j (by rw [hr.map.find, hq])
    by_cases hqp : q = p
    · subst hqp
      obtain rfl : j = nodeIndex id := Option.some_inj.1 (hq.symm.trans hp)
      rw [Function.update_self, hrecord, if_pos rfl]
      exact hold.update a
    · have hj : j ≠ nodeIndex id := fun hc => hqp (hr.map.inj (hc ▸ hq) hp)
      rw [Function.update_of_ne hqp, hrecord, if_neg hj]
      exact hold
  · have hqp : q ≠ p := by
      rintro rfl
      rw [hfind, hr.map.find, hp] at hq
      cases hq
    rw [Function.update_of_ne hqp]
    exact h.unregistered q (hfind q ▸ hq)
  · refine (h.edge v w ((edge_updateStackTrace ..).1 hvw)).trans ?_
    rw [hrecord]
    split_ifs
    · exact (Record.le_priority_update collect a _).1
    · exact le_rfl
  · rw [hrecord, if_pos rfl]
    exact (Record.le_priority_update collect a _).2

end Remembered

end Rep

end BugInsight

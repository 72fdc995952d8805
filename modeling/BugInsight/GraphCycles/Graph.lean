import BugInsight.GraphCycles.PointerMap

/-!
# GraphCycles

The operations of `GraphCycles`, as `graphcycles.cc` has them: ids, `GetId` and `RemoveNode`,
edges, the two depth-first searches and the reordering behind `InsertEdge`, and `FindPath`.

An operation of type `Option` may fail to return: the pointer map may have to be searched, and
`push_back` on a vector of `2 ^ 31` elements never ends.

The searches and `InsertEdge` come with sets and stacks without limit, for the sake of the proofs.
With the limits of the code they are `dfs32`, `insertEdge32`, `findPath32` and `isReachable32`.
-/

namespace BugInsight

/-! ### Ids -/

/-- `MakeId`. -/
def makeId (index version : ℕ) : ℕ := version <<< 32 ||| index % 2 ^ 32

/-- `NodeIndex`.  There are at most `2 ^ 31` nodes, so the sign of the `int32_t` plays no part. -/
def nodeIndex (id : ℕ) : ℕ := id % 2 ^ 32

/-- `NodeVersion`. -/
def nodeVersion (id : ℕ) : ℕ := (id >>> 32) % 2 ^ 32

/-- The largest version, `numeric_limits<uint32_t>::max()`. -/
def maxVersion : ℕ := 2 ^ 32 - 1

/-- The number of elements a `Vec` can hold.  `Grow` doubles `capacity_`, a `uint32_t` that
starts at `kInline`; past `2 ^ 31` it becomes `0` and the loop never ends. -/
def maxVecSize : ℕ := 2 ^ 31

/-- `Vec::push_back`. -/
def pushBack {α : Type*} (v : List α) (x : α) : Option (List α) :=
  if v.length < maxVecSize then some (v ++ [x]) else none

namespace Rep

/-- `FindNode`.  The ids in use come from `GetId`, so the entry exists. -/
def findNode (r : Rep) (id : ℕ) : Option Node :=
  match r.nodes[nodeIndex id]? with
  | some n => if n.version = nodeVersion id then some n else none
  | none => none

/-- `Ptr`. -/
def ptr (r : Rep) (id : ℕ) : ℕ :=
  match r.findNode id with
  | some n => n.maskedPtr
  | none => nullptr

/-- `HasNode`. -/
def hasNode (r : Rep) (id : ℕ) : Bool := (r.findNode id).isSome

/-! ### Nodes -/

/-- The node that `GetId` allocates. -/
def newNode (threadId ptr rank : ℕ) : Node :=
  { version := 1, visited := false, rank := rank, maskedPtr := ptr, priority := 0,
    threadId := threadId }

/-- What `GetId` writes into an unused node. -/
def reuseNode (ptr : ℕ) (n : Node) : Node :=
  { n with maskedPtr := ptr, callstack := { n.callstack with size := 0 }, priority := 0,
           threadId := 0, holdLocksCount := 0 }

/-- `GetId`, called by the thread `threadId`. -/
def getId (r : Rep) (threadId ptr : ℕ) : Option (Rep × ℕ) := do
  match ← r.find ptr with
  | some i => return (r, makeId i (r.node i).version)
  | none =>
      match r.freeNodes with
      | [] =>
          let n := newNode threadId ptr r.nodes.length
          let nodes ← pushBack r.nodes n
          return (({ r with nodes := nodes } : Rep).add ptr n.rank, makeId n.rank n.version)
      | i :: rest =>
          let r' := ({ r with freeNodes := rest } : Rep).modifyNode i (reuseNode ptr)
          return (r'.add ptr i, makeId i (r'.node i).version)

/-- Erase the edges of `RemoveNode`: node `i` from the `in` set of its successors and from the
`out` set of its predecessors. -/
def eraseEdges (r : Rep) (i : ℕ) : Rep :=
  let r₁ := (r.node i).outSet.elems.foldl (fun r y => r.modifyNode y (.updateIn (·.erase i))) r
  (r₁.node i).inSet.elems.foldl (fun r y => r.modifyNode y (.updateOut (·.erase i))) r₁

/-- What `RemoveNode` writes into the node it removes. -/
def clearNode (n : Node) : Node :=
  { n with inSet := n.inSet.clear, outSet := n.outSet.clear, maskedPtr := nullptr }

/-- The end of `RemoveNode`: a node whose version cannot be incremented is not used again. -/
def recycle (r : Rep) (i : ℕ) : Rep :=
  if (r.node i).version = maxVersion then r
  else
    let r' := r.modifyNode i fun n => { n with version := n.version + 1 }
    { r' with freeNodes := i :: r'.freeNodes }

/-- `RemoveNode`. -/
def removeNode (r : Rep) (ptr : ℕ) : Option Rep := do
  let (r', i) ← r.remove ptr
  match i with
  | none => return r'
  | some i => return ((r'.eraseEdges i).modifyNode i clearNode).recycle i

/-! ### Edges -/

/-- `HasEdge`. -/
def hasEdge (r : Rep) (idx idy : ℕ) : Bool :=
  match r.findNode idx, r.findNode idy with
  | some nx, some _ => nx.outSet.contains (nodeIndex idy)
  | _, _ => false

/-- Both halves of an edge removed. -/
def eraseEdge (r : Rep) (x y : ℕ) : Rep :=
  (r.modifyNode x (.updateOut (·.erase y))).modifyNode y (.updateIn (·.erase x))

/-- Both halves of an edge added. -/
def addEdge (r : Rep) (x y : ℕ) : Rep :=
  (r.modifyNode x (.updateOut fun s => (s.insert y).1)).modifyNode y
    (.updateIn fun s => (s.insert x).1)

/-- `RemoveEdge`. -/
def removeEdge (r : Rep) (idx idy : ℕ) : Rep :=
  match r.findNode idx, r.findNode idy with
  | some _, some _ => r.eraseEdge (nodeIndex idx) (nodeIndex idy)
  | _, _ => r

/-- Set or clear the visited marks of the nodes of a list. -/
def setVisited (r : Rep) (b : Bool) (l : List ℕ) : Rep :=
  l.foldl (fun r w => r.modifyNode w (.setVisited b)) r

/-! ### The two searches -/

/-- The edges a search follows. -/
inductive Direction
  | forward
  | backward

/-- The neighbours of a node in a direction. -/
def Direction.next : Direction → Node → NodeSet
  | .forward, n => n.outSet
  | .backward, n => n.inSet

/-- The state of a search: the graph with its visited marks, the stack and the result. -/
structure Dfs where
  r : Rep
  stack : List ℕ
  delta : List ℕ

/-- One round of `ForwardDFS` and `BackwardDFS`.  `stop` is the test that ends the search, `keep`
the test for nodes inside the rank window.  What is pushed before `stop` applies does not matter:
the stack is cleared before it is used again. -/
def dfsBody (d : Direction) (stop keep : Node → Bool) (s : Dfs) : Dfs ⊕ Dfs × Bool :=
  match s.stack with
  | [] => .inr (s, true)
  | n :: stack =>
      if (s.r.node n).visited then .inl { s with stack := stack }
      else
        let r := s.r.modifyNode n (.setVisited true)
        let delta := s.delta ++ [n]
        let ws := (d.next (s.r.node n)).elems
        if ws.any fun w => stop (r.node w) then .inr (⟨r, stack, delta⟩, false)
        else
          .inl ⟨r, (ws.filter fun w => !(r.node w).visited && keep (r.node w)).reverse ++ stack,
            delta⟩

/-- The number of edges that leave unvisited nodes. -/
def unseen (d : Direction) (r : Rep) : ℕ :=
  (r.nodes.map fun n => if n.visited then 0 else (d.next n).elems.length).sum

/-- The measure of a search: each round pops a node, and pushes at most the edges that leave a
node it marks. -/
def Dfs.measure (d : Direction) (s : Dfs) : ℕ := s.stack.length + unseen d s.r

theorem sum_map_modify {α : Type*} (f : α → ℕ) (g : α → α) (l : List α) (i : ℕ)
    (hi : i < l.length) :
    ((l.modify i g).map f).sum + f l[i] = (l.map f).sum + f (g l[i]) := by
  induction l generalizing i with
  | nil => simp at hi
  | cons a l ih =>
    cases i with
    | zero => simp; omega
    | succ i =>
      have := ih i (by simpa using hi)
      simp only [List.modify_succ_cons, List.map_cons, List.sum_cons, List.getElem_cons_succ]
      omega

theorem node_eq_default {r : Rep} {i : ℕ} (h : r.nodes.length ≤ i) : r.node i = default := by
  simp [node, h]

theorem unseen_setVisited (d : Direction) (r : Rep) (n : ℕ) (h : (r.node n).visited = false) :
    unseen d (r.modifyNode n (.setVisited true)) + (d.next (r.node n)).elems.length =
      unseen d r := by
  by_cases hn : n < r.nodes.length
  · have hsum := sum_map_modify (fun n => if n.visited then 0 else (d.next n).elems.length)
      (Node.setVisited true) r.nodes n hn
    have hnode : r.node n = r.nodes[n] := by simp [node, hn]
    rw [hnode] at h ⊢
    simp only [h, Node.setVisited] at hsum
    exact hsum
  · have hnodes : r.modifyNode n (.setVisited true) = r := by
      simp [modifyNode, List.modify_eq_self (Nat.not_lt.1 hn)]
    rw [hnodes, node_eq_default (Nat.not_lt.1 hn)]
    cases d <;> rfl

theorem dfsBody_measure (d : Direction) (stop keep : Node → Bool) (s s' : Dfs)
    (hb : dfsBody d stop keep s = .inl s') : s'.measure d < s.measure d := by
  obtain ⟨r, stack, delta⟩ := s
  cases stack with
  | nil => simp [dfsBody] at hb
  | cons n stack =>
    simp only [dfsBody] at hb
    split_ifs at hb with hv hstop
    · cases hb
      simp [Dfs.measure]
    · cases hb
      have hun := unseen_setVisited d r n (by simpa using hv)
      have hlen := List.length_filter_le
        (fun w => !((r.modifyNode n (.setVisited true)).node w).visited &&
          keep ((r.modifyNode n (.setVisited true)).node w)) (d.next (r.node n)).elems
      simp only [Dfs.measure, List.length_append, List.length_reverse, List.length_cons]
      omega

/-- A search from `n`, without limits: the marked graph, the nodes it marked, and whether it was not
stopped. -/
def dfs (d : Direction) (stop keep : Node → Bool) (r : Rep) (n : ℕ) : Rep × List ℕ × Bool :=
  let s : Dfs := ⟨r, [n], []⟩
  let res := Loop.run (dfsBody d stop keep) (s.measure d + 1) s
    (Loop.exists_iterate_of_measure (dfsBody_measure d stop keep) s)
  (res.1.r, res.1.delta, res.2)

/-- `ForwardDFS`: `false` is a cycle. -/
def forwardDFS (r : Rep) (n upperBound : ℕ) : Rep × List ℕ × Bool :=
  dfs .forward (fun w => w.rank = upperBound) (fun w => w.rank < upperBound) r n

/-- `BackwardDFS`. -/
def backwardDFS (r : Rep) (n lowerBound : ℕ) : Rep × List ℕ :=
  let (r', deltab, _) := dfs .backward (fun _ => false) (fun w => lowerBound < w.rank) r n
  (r', deltab)

/-! ### Reordering -/

/-- `Sort`. -/
def sort (r : Rep) (delta : List ℕ) : List ℕ :=
  delta.insertionSort fun a b => (r.node a).rank ≤ (r.node b).rank

/-- `MoveToList`: the entries are appended to `dst`, and replaced by their ranks in `src`. -/
def moveToList (r : Rep) (src dst : List ℕ) : Rep × List ℕ × List ℕ :=
  (r.setVisited false src, src.map fun w => (r.node w).rank, dst ++ src)

/-- Assign the ranks in order to the collected list. -/
def assignRanks (r : Rep) (list merged : List ℕ) : Rep :=
  (list.zip merged).foldl (fun r p => r.modifyNode p.1 (.setRank p.2)) r

/-- `Reorder`. -/
def reorder (r : Rep) (deltab deltaf : List ℕ) : Rep :=
  let deltab := r.sort deltab
  let deltaf := r.sort deltaf
  let (r, ranksb, list) := r.moveToList deltab []
  let (r, ranksf, list) := r.moveToList deltaf list
  r.assignRanks list (ranksb.merge ranksf)

/-- `InsertEdge`, without limits. -/
def insertEdge (r : Rep) (idx idy : ℕ) : Rep × Bool :=
  let x := nodeIndex idx
  let y := nodeIndex idy
  match r.findNode idx, r.findNode idy with
  | some nx, some ny =>
      if x = y then (r, false)
      else if (nx.outSet.insert y).2 = false then (r, true)
      else
        let r := r.addEdge x y
        if nx.rank ≤ ny.rank then (r, true)
        else
          match r.forwardDFS y nx.rank with
          | (r, deltaf, false) => ((r.eraseEdge x y).setVisited false deltaf, false)
          | (r, deltaf, true) =>
              let (r, deltab) := r.backwardDFS x ny.rank
              (r.reorder deltab deltaf, true)
  | _, _ => (r, true)

/-! ### Paths -/

/-- The local variables of `FindPath`.  The marker `-1` on the stack is `none`; `pathLen` is
decremented only for a marker, which was pushed when it was incremented. -/
structure PathSearch where
  stack : List (Option ℕ)
  seen : NodeSet
  pathLen : ℕ
  path : List ℕ

/-- Push the nodes that were not seen before. -/
def pushUnseen (ws : List ℕ) (seen : NodeSet) (stack : List (Option ℕ)) :
    NodeSet × List (Option ℕ) :=
  ws.foldl (fun s w => ((s.1.insert w).1, if (s.1.insert w).2 then some w :: s.2 else s.2))
    (seen, stack)

/-- `path[path_len] = id`, if there is room. -/
def writePath (path : List ℕ) (pathLen maxPathLen id : ℕ) : List ℕ :=
  if pathLen < maxPathLen then path.set pathLen id else path

/-- One round of the loop of `FindPath`. -/
def findPathBody (r : Rep) (y maxPathLen : ℕ) (s : PathSearch) : PathSearch ⊕ ℕ × List ℕ :=
  match s.stack with
  | [] => .inr (0, s.path)
  | none :: stack => .inl { s with stack := stack, pathLen := s.pathLen - 1 }
  | some n :: stack =>
      let path := writePath s.path s.pathLen maxPathLen (makeId n (r.node n).version)
      let pathLen := s.pathLen + 1
      if n = y then .inr (pathLen, path)
      else
        let (seen, stack) := pushUnseen (r.node n).outSet.elems s.seen (none :: stack)
        .inl ⟨stack, seen, pathLen, path⟩

/-- The number of edge targets not seen yet. -/
def unseenTargets (r : Rep) (seen : NodeSet) : ℕ :=
  (r.nodes.flatMap fun n => n.outSet.elems).countP fun w => decide (w ∉ seen)

/-- The measure of `FindPath`: a node leaves a marker behind and pushes nodes seen from now on. -/
def PathSearch.measure (r : Rep) (s : PathSearch) : ℕ :=
  2 * r.unseenTargets s.seen + 2 * s.stack.countP Option.isSome + s.stack.countP Option.isNone

theorem pushUnseen_cons (w : ℕ) (ws : List ℕ) (seen : NodeSet) (stack : List (Option ℕ)) :
    pushUnseen (w :: ws) seen stack = pushUnseen ws (seen.insert w).1
      (if (seen.insert w).2 then some w :: stack else stack) := rfl

theorem pushUnseen_spec {ws : List ℕ} (hnd : ws.Nodup) (seen : NodeSet)
    (stack : List (Option ℕ)) :
    (∀ v, v ∈ (pushUnseen ws seen stack).1 ↔ v ∈ ws ∨ v ∈ seen) ∧
      (pushUnseen ws seen stack).2 =
        ((ws.filter fun w => decide (w ∉ seen)).reverse.map some) ++ stack := by
  induction ws generalizing seen stack with
  | nil => simp [pushUnseen]
  | cons w ws ih =>
    obtain ⟨hw, hnd'⟩ := List.nodup_cons.1 hnd
    have hrec := ih hnd' (seen.insert w).1
      (if (seen.insert w).2 then some w :: stack else stack)
    have hfilter : ws.filter (fun v => decide (v ∉ (seen.insert w).1)) =
        ws.filter fun v => decide (v ∉ seen) := by
      refine List.filter_congr fun v hv => ?_
      have hvw : v ≠ w := fun hc => hw (hc ▸ hv)
      simp [hvw]
    rw [pushUnseen_cons]
    refine ⟨fun v => ?_, ?_⟩
    · rw [hrec.1, NodeSet.mem_insert, List.mem_cons]
      tauto
    · rw [hrec.2, hfilter]
      by_cases hs : w ∈ seen
      · have : (seen.insert w).2 = false := by
          rw [← Bool.not_eq_true, NodeSet.insert_snd]
          exact not_not_intro hs
        simp [this, hs]
      · simp [NodeSet.insert_snd.2 hs, hs]

theorem unseenTargets_push (r : Rep) (n : ℕ) (seen : NodeSet) (stack : List (Option ℕ)) :
    r.unseenTargets (pushUnseen (r.node n).outSet.elems seen stack).1 +
      ((r.node n).outSet.elems.filter fun w => decide (w ∉ seen)).length ≤
        r.unseenTargets seen := by
  set ws := (r.node n).outSet.elems with hws
  set targets := r.nodes.flatMap fun n => n.outSet.elems with ht
  have hsub : ws ⊆ targets := by
    intro w hw
    by_cases hn : n < r.nodes.length
    · have hnode : r.node n = r.nodes[n] := by simp [node, hn]
      exact List.mem_flatMap.2 ⟨r.nodes[n], List.getElem_mem hn, by rwa [hws, hnode] at hw⟩
    · rw [hws, node_eq_default (Nat.not_lt.1 hn)] at hw
      exact absurd hw (NodeSet.not_mem_empty w)
  have hmem := (pushUnseen_spec (r.node n).outSet.nodup_elems seen stack).1
  rw [← hws] at hmem
  -- the unseen targets are those of this node and those left over
  have hsplit : r.unseenTargets seen =
      r.unseenTargets (pushUnseen ws seen stack).1 +
        targets.countP fun w => decide (w ∉ seen ∧ w ∈ ws) := by
    unfold unseenTargets
    rw [← ht, List.countP_eq_countP_filter_add targets _ fun w => decide (w ∉ ws),
      List.countP_filter, List.countP_filter]
    refine congrArg₂ (· + ·) ?_ ?_
    · refine List.countP_congr fun w _ => ?_
      simp only [Bool.and_eq_true, decide_eq_true_eq, hmem]
      tauto
    · refine List.countP_congr fun w _ => ?_
      simp
  have hle : (ws.filter fun w => decide (w ∉ seen)).length ≤
      targets.countP fun w => decide (w ∉ seen ∧ w ∈ ws) := by
    rw [List.countP_eq_length_filter]
    refine List.Subperm.length_le ?_
    refine List.subperm_of_subset ((r.node n).outSet.nodup_elems.filter _) fun w hw => ?_
    rw [List.mem_filter] at hw ⊢
    exact ⟨hsub hw.1, by simpa [hw.1] using hw.2⟩
  omega

theorem findPathBody_measure (r : Rep) (y maxPathLen : ℕ) (s s' : PathSearch)
    (hb : r.findPathBody y maxPathLen s = .inl s') : s'.measure r < s.measure r := by
  obtain ⟨stack, seen, pathLen, path⟩ := s
  rcases stack with _ | ⟨_ | n, stack⟩
  · simp [findPathBody] at hb
  · cases hb
    simp [PathSearch.measure]
  · simp only [findPathBody] at hb
    split_ifs at hb with hy
    cases hb
    have hpush := r.unseenTargets_push n seen (none :: stack)
    have hstack := (pushUnseen_spec (r.node n).outSet.nodup_elems seen (none :: stack)).2
    simp only [PathSearch.measure, hstack]
    simp [Function.comp_def] at hpush ⊢
    omega

/-- `FindPath`, without limits: the length of the path, `0` if there is none, and the array
`path`. -/
def findPath (r : Rep) (idx idy maxPathLen : ℕ) (path : List ℕ) : ℕ × List ℕ :=
  if (r.findNode idx).isNone || (r.findNode idy).isNone then (0, path)
  else
    let s : PathSearch := ⟨[some (nodeIndex idx)], NodeSet.empty, 0, path⟩
    Loop.run (r.findPathBody (nodeIndex idy) maxPathLen) (s.measure r + 1) s
      (Loop.exists_iterate_of_measure (r.findPathBody_measure (nodeIndex idy) maxPathLen) s)

/-- `IsReachable`. -/
def isReachable (r : Rep) (idx idy : ℕ) : Bool := decide (0 < (r.findPath idx idy 0 []).1)

/-! ### Recorded acquisitions -/

/-- `UpdateStackTrace`, called by the thread `threadId` that holds the `n` locks in front of
`holdLocks`; `frames` are the return addresses `GetStackFrames` finds. -/
def updateStackTrace (r : Rep) (collectCallstacks : Bool) (id threadId n : ℕ)
    (holdLocks : List Lock) (frames : List ℕ) : Rep :=
  match r.findNode id with
  | none => r
  | some nd =>
      if (n : ℤ) + 1 ≤ nd.priority then r
      else
        r.modifyNode (nodeIndex id) fun nd =>
          { nd with
            callstack := if collectCallstacks then ⟨frames, frames.length⟩ else nd.callstack
            priority := n + 1
            threadId := threadId
            holdLocks := holdLocks
            holdLocksCount := n % 256 }

end Rep

end BugInsight

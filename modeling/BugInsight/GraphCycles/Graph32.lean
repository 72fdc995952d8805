import BugInsight.GraphCycles.NodeSet32

/-!
# GraphCycles with containers of 32 bits

`InsertEdge`, `FindPath` and `CheckInvariants` insert into sets and push nodes onto a stack.  The
operations of `Rep` have sets and stacks without limit; here they are as `graphcycles.cc` has them.

* `dfs32`, `insertEdge32`, `findPath32`, `isReachable32`: the operations; `none` is a call that does
  not return or reads outside a table;
* `DfsFits`, `InsertEdgeFits`, `FindPathFits`: no set is overfilled, and no node is pushed onto a
  stack of `2 ^ 31` entries;
* `insertEdge32_of_fits`, `insertEdge32_of_not_fits` and so on: then, and only then, the operation
  returns, and it does what it does without limits.

The vectors of a search have at most one entry for each node, of which there are at most `2 ^ 31`.
-/

namespace BugInsight

/-! ### The stack -/

/-- `push_back` on a stack, with its top in front. -/
def pushStack {α : Type*} (stack : List α) (x : α) : Option (List α) :=
  if stack.length < maxVecSize then some (x :: stack) else none

/-- `n` entries can be pushed. -/
def HasRoom {α : Type*} (stack : List α) (n : ℕ) : Prop := n = 0 ∨ stack.length + n ≤ maxVecSize

instance {α : Type*} (stack : List α) (n : ℕ) : Decidable (HasRoom stack n) :=
  inferInstanceAs (Decidable (_ ∨ _))

theorem hasRoom_succ {α : Type*} {stack : List α} {x : α} {n : ℕ}
    (h : stack.length < maxVecSize) : HasRoom stack (n + 1) ↔ HasRoom (x :: stack) n := by
  simp only [HasRoom, List.length_cons]
  omega

namespace Rep

/-! ### The searches -/

/-- The loop of a search over the neighbours of a node: the stack afterwards, unless one of them
stops the search. -/
def pushNext (stop keep : Node → Bool) (r : Rep) :
    List ℕ → List ℕ → Option (Option (List ℕ))
  | [], stack => some (some stack)
  | w :: ws, stack =>
      if stop (r.node w) then some none
      else if !(r.node w).visited && keep (r.node w) then
        (pushStack stack w).bind (pushNext stop keep r ws)
      else pushNext stop keep r ws stack

/-- One round of `ForwardDFS` and `BackwardDFS`. -/
def dfsBody32 (d : Direction) (stop keep : Node → Bool) (s : Dfs) :
    Dfs ⊕ Option (Rep × List ℕ × Bool) :=
  match s.stack with
  | [] => .inr (some (s.r, s.delta, true))
  | n :: stack =>
      if (s.r.node n).visited then .inl { s with stack := stack }
      else
        let r := s.r.modifyNode n (.setVisited true)
        let delta := s.delta ++ [n]
        match pushNext stop keep r (d.next (s.r.node n)).elems stack with
        | none => .inr none
        | some none => .inr (some (r, delta, false))
        | some (some stack) => .inl ⟨r, stack, delta⟩

/-- A search from `n`, which ends after `Dfs.measure` rounds. -/
def dfs32 (d : Direction) (stop keep : Node → Bool) (r : Rep) (n : ℕ) :
    Option (Rep × List ℕ × Bool) :=
  let s : Dfs := ⟨r, [n], []⟩
  (Loop.iterate (dfsBody32 d stop keep) (s.measure d + 1) s).join

/-- `ForwardDFS`. -/
def forwardDFS32 (r : Rep) (n upperBound : ℕ) : Option (Rep × List ℕ × Bool) :=
  dfs32 .forward (fun w => w.rank = upperBound) (fun w => w.rank < upperBound) r n

/-- `BackwardDFS`. -/
def backwardDFS32 (r : Rep) (n lowerBound : ℕ) : Option (Rep × List ℕ) :=
  (dfs32 .backward (fun _ => false) (fun w => lowerBound < w.rank) r n).map fun p => (p.1, p.2.1)

/-- `InsertEdge`. -/
def insertEdge32 (r : Rep) (idx idy : ℕ) : Option (Rep × Bool) :=
  let x := nodeIndex idx
  let y := nodeIndex idy
  match r.findNode idx, r.findNode idy with
  | some nx, some ny =>
      if x = y then some (r, false)
      else do
        let (outSet, inserted) ← nx.outSet.insert32 y
        if inserted = false then
          return (r, true)
        let (inSet, _) ← ny.inSet.insert32 x
        let r := (r.modifyNode x (.updateOut fun _ => outSet)).modifyNode y
          (.updateIn fun _ => inSet)
        if nx.rank ≤ ny.rank then
          return (r, true)
        match ← r.forwardDFS32 y nx.rank with
        | (r, deltaf, false) => return ((r.eraseEdge x y).setVisited false deltaf, false)
        | (r, deltaf, true) =>
            let (r, deltab) ← r.backwardDFS32 x ny.rank
            return (r.reorder deltab deltaf, true)
  | _, _ => some (r, true)

/-! ### Paths -/

/-- Push the nodes that were not seen before. -/
def pushUnseen32 : List ℕ → NodeSet → List (Option ℕ) → Option (NodeSet × List (Option ℕ))
  | [], seen, stack => some (seen, stack)
  | w :: ws, seen, stack => do
      let (seen, inserted) ← seen.insert32 w
      let stack ← if inserted then pushStack stack (some w) else some stack
      pushUnseen32 ws seen stack

/-- One round of the loop of `FindPath`. -/
def findPathBody32 (r : Rep) (y maxPathLen : ℕ) (s : PathSearch) :
    PathSearch ⊕ Option (ℕ × List ℕ) :=
  match s.stack with
  | [] => .inr (some (0, s.path))
  | none :: stack => .inl { s with stack := stack, pathLen := s.pathLen - 1 }
  | some n :: stack =>
      let path := writePath s.path s.pathLen maxPathLen (makeId n (r.node n).version)
      let pathLen := s.pathLen + 1
      match pushStack stack none with
      | none => .inr none
      | some stack =>
          if n = y then .inr (some (pathLen, path))
          else
            match pushUnseen32 (r.node n).outSet.elems s.seen stack with
            | none => .inr none
            | some (seen, stack) => .inl ⟨stack, seen, pathLen, path⟩

/-- `FindPath`, which ends after `PathSearch.measure` rounds. -/
def findPath32 (r : Rep) (idx idy maxPathLen : ℕ) (path : List ℕ) : Option (ℕ × List ℕ) :=
  if (r.findNode idx).isNone || (r.findNode idy).isNone then some (0, path)
  else
    let s : PathSearch := ⟨[some (nodeIndex idx)], NodeSet.empty, 0, path⟩
    (Loop.iterate (r.findPathBody32 (nodeIndex idy) maxPathLen) (s.measure r + 1) s).join

/-- `IsReachable`. -/
def isReachable32 (r : Rep) (idx idy : ℕ) : Option Bool :=
  (r.findPath32 idx idy 0 []).map fun p => decide (0 < p.1)

/-! ### Searches that fit -/

/-- The neighbours that are pushed, if there is room for them. -/
def pushed (stop keep : Node → Bool) (r : Rep) (ws : List ℕ) : List ℕ :=
  (ws.takeWhile fun w => !stop (r.node w)).filter fun w => !(r.node w).visited && keep (r.node w)

variable {stop keep : Node → Bool} {r : Rep} {d : Direction}

theorem pushNext_of_room {ws stack : List ℕ} (h : HasRoom stack (pushed stop keep r ws).length) :
    pushNext stop keep r ws stack =
      some (if ws.any fun w => stop (r.node w) then none else some
        ((ws.filter fun w => !(r.node w).visited && keep (r.node w)).reverse ++ stack)) := by
  induction ws generalizing stack with
  | nil => rfl
  | cons w ws ih =>
    rw [pushNext, List.any_cons, List.filter_cons]
    by_cases hstop : stop (r.node w) = true
    · simp only [hstop, if_true, Bool.true_or]
    rw [pushed, List.takeWhile_cons_of_pos (by simpa using hstop), List.filter_cons] at h
    by_cases hkeep : (!(r.node w).visited && keep (r.node w)) = true
    · rw [if_pos hkeep, List.length_cons] at h
      have hlt : stack.length < maxVecSize := by
        have := h.resolve_left (Nat.succ_ne_zero _)
        omega
      rw [if_neg hstop, if_pos hkeep, if_pos hkeep, pushStack, if_pos hlt, Option.bind_some,
        ih ((hasRoom_succ hlt).1 h), List.reverse_cons, List.append_assoc]
      simp [hstop]
    · rw [if_neg hkeep] at h
      rw [if_neg hstop, if_neg hkeep, if_neg hkeep, ih h]
      simp [hstop]

theorem pushNext_of_no_room {ws stack : List ℕ}
    (h : ¬ HasRoom stack (pushed stop keep r ws).length) :
    pushNext stop keep r ws stack = none := by
  induction ws generalizing stack with
  | nil => exact absurd (Or.inl rfl) h
  | cons w ws ih =>
    rw [pushNext]
    rw [pushed, List.takeWhile_cons] at h
    by_cases hstop : stop (r.node w) = true
    · simp [hstop, HasRoom] at h
    rw [if_pos (by simpa using hstop), List.filter_cons] at h
    by_cases hkeep : (!(r.node w).visited && keep (r.node w)) = true
    · rw [if_pos hkeep, List.length_cons] at h
      rw [if_neg hstop, if_pos hkeep, pushStack]
      split_ifs with hlt
      · exact ih (mt (hasRoom_succ hlt).2 h)
      · rfl
    · rw [if_neg hkeep] at h
      rw [if_neg hstop, if_neg hkeep]
      exact ih h

/-- The stack has room in the next round of a search. -/
def Dfs.Fits (d : Direction) (stop keep : Node → Bool) (s : Dfs) : Prop :=
  ∀ n stack, s.stack = n :: stack → (s.r.node n).visited = false →
    HasRoom stack (pushed stop keep (s.r.modifyNode n (.setVisited true))
      (d.next (s.r.node n)).elems).length

theorem dfsBody32_of_fits {s : Dfs} (h : s.Fits d stop keep) :
    dfsBody32 d stop keep s =
      (dfsBody d stop keep s).map id fun p => some (p.1.r, p.1.delta, p.2) := by
  obtain ⟨r, stack, delta⟩ := s
  rcases stack with _ | ⟨n, stack⟩
  · rfl
  · simp only [dfsBody32, dfsBody]
    cases hv : (r.node n).visited with
    | true => rfl
    | false =>
      rw [pushNext_of_room (h n stack rfl hv)]
      simp only [Bool.false_eq_true, if_false]
      split_ifs <;> rfl

theorem dfsBody32_of_not_fits {s : Dfs} (h : ¬ s.Fits d stop keep) :
    dfsBody32 d stop keep s = .inr none := by
  obtain ⟨r, stack, delta⟩ := s
  simp only [Dfs.Fits, not_forall] at h
  obtain ⟨n, stack', rfl, hv, h⟩ := h
  simp only [dfsBody32, hv, Bool.false_eq_true, if_false, pushNext_of_no_room h]

/-- The stack has room in every round of the search from `n`. -/
def DfsFits (d : Direction) (stop keep : Node → Bool) (r : Rep) (n : ℕ) : Prop :=
  ∀ s, Loop.Reaches (dfsBody d stop keep) ⟨r, [n], []⟩ s → s.Fits d stop keep

theorem dfs32_of_fits {n : ℕ} (h : DfsFits d stop keep r n) :
    dfs32 d stop keep r n = some (dfs d stop keep r n) := by
  simp only [dfs32, dfs]
  rw [Loop.iterate_of_fits (fun s hs => dfsBody32_of_fits hs) h,
    Loop.iterate_eq_some_run (Loop.exists_iterate_of_measure (dfsBody_measure d stop keep) _)]
  rfl

theorem dfs32_of_not_fits {n : ℕ} (h : ¬ DfsFits d stop keep r n) :
    dfs32 d stop keep r n = none := by
  simp only [DfsFits, not_forall] at h
  obtain ⟨s, hreach, hno⟩ := h
  exact Loop.iterate_of_not_fits (fun s hs => dfsBody32_of_fits hs)
    (fun s hs => dfsBody32_of_not_fits hs) hreach hno

/-- The stack has room in `ForwardDFS`. -/
def ForwardFits (r : Rep) (n upperBound : ℕ) : Prop :=
  DfsFits .forward (fun w => w.rank = upperBound) (fun w => w.rank < upperBound) r n

/-- The stack has room in `BackwardDFS`. -/
def BackwardFits (r : Rep) (n lowerBound : ℕ) : Prop :=
  DfsFits .backward (fun _ => false) (fun w => lowerBound < w.rank) r n

theorem backwardDFS32_of_fits {n lowerBound : ℕ} (h : r.BackwardFits n lowerBound) :
    r.backwardDFS32 n lowerBound = some (r.backwardDFS n lowerBound) := by
  rw [backwardDFS32, dfs32_of_fits h]
  rfl

theorem backwardDFS32_of_not_fits {n lowerBound : ℕ} (h : ¬ r.BackwardFits n lowerBound) :
    r.backwardDFS32 n lowerBound = none := by
  rw [backwardDFS32, dfs32_of_not_fits h]
  rfl

/-! ### Insertions that fit -/

/-- `InsertEdge` does not overfill a set, and its searches have room. -/
def InsertEdgeFits (r : Rep) (idx idy : ℕ) : Prop :=
  ∀ nx ny, r.findNode idx = some nx → r.findNode idy = some ny → nodeIndex idx ≠ nodeIndex idy →
    ¬ nx.outSet.Overfills (nodeIndex idy) ∧
      (nodeIndex idy ∉ nx.outSet → ¬ ny.inSet.Overfills (nodeIndex idx) ∧
        (ny.rank < nx.rank →
          (r.addEdge (nodeIndex idx) (nodeIndex idy)).ForwardFits (nodeIndex idy) nx.rank ∧
          ∀ r' deltaf, (r.addEdge (nodeIndex idx) (nodeIndex idy)).forwardDFS (nodeIndex idy)
            nx.rank = (r', deltaf, true) → r'.BackwardFits (nodeIndex idx) ny.rank))

/-- An edge that keeps to the order of the ranks needs no search. -/
theorem insertEdgeFits_of_rank_le {idx idy : ℕ} {nx ny : Node} (hx : r.findNode idx = some nx)
    (hy : r.findNode idy = some ny) (hout : ¬ nx.outSet.Overfills (nodeIndex idy))
    (hin : ¬ ny.inSet.Overfills (nodeIndex idx)) (hrank : nx.rank ≤ ny.rank) :
    r.InsertEdgeFits idx idy := by
  intro nx' ny' hx' hy' _
  rw [hx] at hx'
  rw [hy] at hy'
  cases hx'
  cases hy'
  exact ⟨hout, fun _ => ⟨hin, fun hlt => absurd hrank (Nat.not_le.2 hlt)⟩⟩

theorem modifyNode_congr {i : ℕ} {f g : Node → Node}
    (h : ∀ n, r.nodes[i]? = some n → f n = g n) : r.modifyNode i f = r.modifyNode i g := by
  have hnodes : r.nodes.modify i f = r.nodes.modify i g := by
    refine List.ext_getElem? fun j => ?_
    rw [List.getElem?_modify, List.getElem?_modify]
    by_cases hj : i = j
    · subst hj
      cases hn : r.nodes[i]? with
      | none => rfl
      | some n => simp [h n hn]
    · simp [hj]
  unfold modifyNode
  rw [hnodes]

theorem getElem?_of_findNode {id : ℕ} {n : Node} (h : r.findNode id = some n) :
    r.nodes[nodeIndex id]? = some n := by
  unfold findNode at h
  split at h
  · rename_i n' hn'
    split_ifs at h
    exact h ▸ hn'
  · cases h

theorem addEdge_eq {idx idy : ℕ} {nx ny : Node} (hx : r.findNode idx = some nx)
    (hy : r.findNode idy = some ny) (hne : nodeIndex idx ≠ nodeIndex idy) :
    (r.modifyNode (nodeIndex idx) (.updateOut fun _ =>
        (nx.outSet.insert (nodeIndex idy)).1)).modifyNode (nodeIndex idy)
      (.updateIn fun _ => (ny.inSet.insert (nodeIndex idx)).1) =
    r.addEdge (nodeIndex idx) (nodeIndex idy) := by
  rw [addEdge, modifyNode_congr (i := nodeIndex idx) fun n hn => ?_]
  · refine modifyNode_congr fun n hn => ?_
    simp only [modifyNode, List.getElem?_modify, if_neg hne, getElem?_of_findNode hy] at hn
    cases hn
    rfl
  · rw [getElem?_of_findNode hx] at hn
    cases hn
    rfl

/-- **`InsertEdge`**, if it fits. -/
theorem insertEdge32_of_fits {idx idy : ℕ} (h : r.InsertEdgeFits idx idy) :
    r.insertEdge32 idx idy = some (r.insertEdge idx idy) := by
  simp only [insertEdge32, insertEdge]
  cases hx : r.findNode idx with
  | none => rfl
  | some nx =>
  cases hy : r.findNode idy with
  | none => rfl
  | some ny =>
  dsimp only
  by_cases hne : nodeIndex idx = nodeIndex idy
  · rw [if_pos hne, if_pos hne]
  obtain ⟨hout, hin⟩ := h nx ny hx hy hne
  rw [if_neg hne, if_neg hne, NodeSet.insert32_of_fits hout]
  simp only [Option.bind_eq_bind, Option.bind_some, Option.pure_def]
  by_cases hins : (nx.outSet.insert (nodeIndex idy)).2 = false
  · rw [if_pos hins, if_pos hins]
  obtain ⟨hin, hsearch⟩ := hin (NodeSet.insert_snd.1 (by simpa using hins))
  rw [if_neg hins, if_neg hins, NodeSet.insert32_of_fits hin]
  simp only [Option.bind_some, addEdge_eq hx hy hne]
  by_cases hrank : nx.rank ≤ ny.rank
  · rw [if_pos hrank, if_pos hrank]
  obtain ⟨hforward, hbackward⟩ := hsearch (Nat.not_le.1 hrank)
  rw [if_neg hrank, if_neg hrank, forwardDFS32, dfs32_of_fits hforward, Option.bind_some]
  change (match (r.addEdge (nodeIndex idx) (nodeIndex idy)).forwardDFS (nodeIndex idy) nx.rank with
    | (r, deltaf, false) => _
    | (r, deltaf, true) => _) = _
  rcases hfound : (r.addEdge (nodeIndex idx) (nodeIndex idy)).forwardDFS (nodeIndex idy) nx.rank
    with ⟨r', deltaf, _ | _⟩
  · rfl
  · simp only [backwardDFS32_of_fits (hbackward r' deltaf hfound), Option.bind_some]

/-- **`InsertEdge`** does not return otherwise. -/
theorem insertEdge32_of_not_fits {idx idy : ℕ} (h : ¬ r.InsertEdgeFits idx idy) :
    r.insertEdge32 idx idy = none := by
  simp only [InsertEdgeFits, not_forall] at h
  obtain ⟨nx, ny, hx, hy, hne, h⟩ := h
  simp only [insertEdge32, hx, hy, if_neg hne]
  by_cases hout : nx.outSet.Overfills (nodeIndex idy)
  · rw [NodeSet.insert32_overfills hout]
    rfl
  rw [NodeSet.insert32_of_fits hout]
  simp only [hout, not_false_eq_true, true_and, not_forall] at h
  obtain ⟨habs, h⟩ := h
  have hins : ¬ (nx.outSet.insert (nodeIndex idy)).2 = false := by
    rw [Bool.not_eq_false]
    exact NodeSet.insert_snd.2 habs
  simp only [Option.bind_eq_bind, Option.bind_some, Option.pure_def, if_neg hins]
  by_cases hin : ny.inSet.Overfills (nodeIndex idx)
  · rw [NodeSet.insert32_overfills hin]
    rfl
  simp only [hin, not_false_eq_true, true_and, not_forall] at h
  obtain ⟨hrank, h⟩ := h
  rw [NodeSet.insert32_of_fits hin]
  simp only [Option.bind_some, addEdge_eq hx hy hne, if_neg (Nat.not_le.2 hrank)]
  by_cases hforward :
      (r.addEdge (nodeIndex idx) (nodeIndex idy)).ForwardFits (nodeIndex idy) nx.rank
  · simp only [hforward, true_and, not_forall] at h
    obtain ⟨r', deltaf, hfound, h⟩ := h
    rw [forwardDFS32, dfs32_of_fits hforward, Option.bind_some]
    unfold forwardDFS at hfound
    rw [hfound]
    simp only [backwardDFS32_of_not_fits h, Option.bind_none]
  · rw [forwardDFS32, dfs32_of_not_fits hforward]
    rfl

/-! ### Paths that fit -/

/-- The set of the seen nodes is not overfilled, and the stack has room. -/
def SeenFits : List ℕ → NodeSet → List (Option ℕ) → Prop
  | [], _, _ => True
  | w :: ws, seen, stack => ¬ seen.Overfills w ∧ (w ∉ seen → stack.length < maxVecSize) ∧
      SeenFits ws (seen.insert w).1 (if (seen.insert w).2 then some w :: stack else stack)

theorem pushUnseen32_of_fits {ws : List ℕ} {seen : NodeSet} {stack : List (Option ℕ)}
    (h : SeenFits ws seen stack) :
    pushUnseen32 ws seen stack = some (pushUnseen ws seen stack) := by
  induction ws generalizing seen stack with
  | nil => rfl
  | cons w ws ih =>
    obtain ⟨hfit, hroom, hrest⟩ := h
    have hrec := ih hrest
    simp only [pushUnseen32, NodeSet.insert32_of_fits hfit, Option.bind_eq_bind, Option.bind_some]
    rw [pushUnseen_cons]
    split_ifs at hrec ⊢ with hins
    · rw [pushStack, if_pos (hroom (NodeSet.insert_snd.1 hins))]
      exact hrec
    · exact hrec

theorem pushUnseen32_of_not_fits {ws : List ℕ} {seen : NodeSet} {stack : List (Option ℕ)}
    (h : ¬ SeenFits ws seen stack) : pushUnseen32 ws seen stack = none := by
  induction ws generalizing seen stack with
  | nil => exact absurd trivial h
  | cons w ws ih =>
    by_cases hfit : seen.Overfills w
    · simp only [pushUnseen32, NodeSet.insert32_overfills hfit, Option.bind_eq_bind,
        Option.bind_none]
    simp only [pushUnseen32, NodeSet.insert32_of_fits hfit, Option.bind_eq_bind, Option.bind_some]
    rw [SeenFits, not_and, not_and] at h
    by_cases hroom : w ∉ seen → stack.length < maxVecSize
    · have hrest := ih (h hfit hroom)
      split_ifs at hrest ⊢ with hins
      · rw [pushStack, if_pos (hroom (NodeSet.insert_snd.1 hins))]
        exact hrest
      · exact hrest
    · rw [Classical.not_imp] at hroom
      rw [if_pos (NodeSet.insert_snd.2 hroom.1), pushStack, if_neg hroom.2]
      rfl

/-- The next round of `FindPath` does not overfill the set, and the stack has room. -/
def PathSearch.Fits (r : Rep) (y : ℕ) (s : PathSearch) : Prop :=
  ∀ n stack, s.stack = some n :: stack → stack.length < maxVecSize ∧
    (n ≠ y → SeenFits (r.node n).outSet.elems s.seen (none :: stack))

theorem findPathBody32_of_fits {y maxPathLen : ℕ} {s : PathSearch} (h : s.Fits r y) :
    r.findPathBody32 y maxPathLen s = (r.findPathBody y maxPathLen s).map id some := by
  obtain ⟨stack, seen, pathLen, path⟩ := s
  rcases stack with _ | ⟨_ | n, stack⟩
  · rfl
  · rfl
  · obtain ⟨hroom, hseen⟩ := h n stack rfl
    simp only [findPathBody32, findPathBody, pushStack, if_pos hroom]
    split_ifs with hy
    · rfl
    · rw [pushUnseen32_of_fits (hseen hy)]
      rfl

theorem findPathBody32_of_not_fits {y maxPathLen : ℕ} {s : PathSearch} (h : ¬ s.Fits r y) :
    r.findPathBody32 y maxPathLen s = .inr none := by
  obtain ⟨stack, seen, pathLen, path⟩ := s
  simp only [PathSearch.Fits, not_forall] at h
  obtain ⟨n, stack', rfl, h⟩ := h
  by_cases hroom : stack'.length < maxVecSize
  · simp only [hroom, true_and, Classical.not_imp] at h
    simp only [findPathBody32, pushStack, if_pos hroom, if_neg h.1, pushUnseen32_of_not_fits h.2]
  · simp only [findPathBody32, pushStack, if_neg hroom]

/-- `FindPath` does not overfill the set of the seen nodes, and its stack has room. -/
def FindPathFits (r : Rep) (idx idy maxPathLen : ℕ) (path : List ℕ) : Prop :=
  (r.findNode idx).isSome = true → (r.findNode idy).isSome = true →
    ∀ s, Loop.Reaches (r.findPathBody (nodeIndex idy) maxPathLen)
      ⟨[some (nodeIndex idx)], NodeSet.empty, 0, path⟩ s → s.Fits r (nodeIndex idy)

/-- **`FindPath`**, if it fits. -/
theorem findPath32_of_fits {idx idy maxPathLen : ℕ} {path : List ℕ}
    (h : r.FindPathFits idx idy maxPathLen path) :
    r.findPath32 idx idy maxPathLen path = some (r.findPath idx idy maxPathLen path) := by
  simp only [findPath32, findPath]
  split_ifs with hfound
  · rfl
  · simp only [Bool.or_eq_true, not_or, Bool.not_eq_true, Option.isNone_eq_false_iff] at hfound
    rw [Loop.iterate_of_fits (fun s hs => findPathBody32_of_fits hs) (h hfound.1 hfound.2),
      Loop.iterate_eq_some_run
        (Loop.exists_iterate_of_measure (r.findPathBody_measure (nodeIndex idy) maxPathLen) _)]
    rfl

/-- **`FindPath`** does not return otherwise. -/
theorem findPath32_of_not_fits {idx idy maxPathLen : ℕ} {path : List ℕ}
    (h : ¬ r.FindPathFits idx idy maxPathLen path) :
    r.findPath32 idx idy maxPathLen path = none := by
  simp only [FindPathFits, not_forall] at h
  obtain ⟨hx, hy, s, hreach, hno⟩ := h
  rw [findPath32, if_neg (by simp [← Option.not_isSome, hx, hy])]
  exact Loop.iterate_of_not_fits (fun s hs => findPathBody32_of_fits hs)
    (fun s hs => findPathBody32_of_not_fits hs) hreach hno

theorem findPath_of_findPath32 {idx idy maxPathLen : ℕ} {path : List ℕ} {res : ℕ × List ℕ}
    (h : r.findPath32 idx idy maxPathLen path = some res) :
    r.findPath idx idy maxPathLen path = res := by
  by_cases hfits : r.FindPathFits idx idy maxPathLen path
  · exact Option.some_inj.1 ((findPath32_of_fits hfits).symm.trans h)
  · rw [findPath32_of_not_fits hfits] at h
    cases h

theorem isReachable32_of_fits {idx idy : ℕ} (h : r.FindPathFits idx idy 0 []) :
    r.isReachable32 idx idy = some (r.isReachable idx idy) := by
  rw [isReachable32, findPath32_of_fits h]
  rfl

theorem isReachable32_of_not_fits {idx idy : ℕ} (h : ¬ r.FindPathFits idx idy 0 []) :
    r.isReachable32 idx idy = none := by
  rw [isReachable32, findPath32_of_not_fits h]
  rfl

end Rep

end BugInsight

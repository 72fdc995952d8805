import BugInsight.GraphCycles.Graph32
import BugInsight.GraphCycles.Refinement

/-!
# Runs with containers of 32 bits

`Rep.exec32` runs the operations of `graphcycles.cc` with their sets and stacks of 32 bits, and
`Rep.Run32` is any sequence of calls that return.

* `exec32_of_fits`, `exec32_of_not_fits`: when a call returns;
* `graphCycles_refines`: a run refines a directed graph, and the next call returns exactly if it
  fits;
* `insertEdge_overfills`: a node with `3 * 2 ^ 29 - 1` successors does not get another one.
-/

open Relation TopoOrder

namespace BugInsight

namespace Rep

/-- One operation of the code; `none` is a call that does not return or reads outside a table. -/
def exec32 (r : Rep) : Op → Option (Rep × Result)
  | .getId tid p => (r.getId tid p).map fun s => (s.1, .id s.2)
  | .removeNode p => (r.removeNode p).map fun r' => (r', .unit)
  | .insertEdge x y => (r.insertEdge32 x y).map fun s => (s.1, .bool s.2)
  | .removeEdge x y => some (r.removeEdge x y, .unit)
  | .hasEdge x y => some (r, .bool (r.hasEdge x y))
  | .ptr id => some (r, .ptr (r.ptr id))
  | .isReachable x y => (r.isReachable32 x y).map fun b => (r, .bool b)

/-- The operation does not overfill a set, and its stack has room. -/
def Fits (r : Rep) : Op → Prop
  | .insertEdge x y => r.InsertEdgeFits x y
  | .isReachable x y => r.FindPathFits x y 0 []
  | _ => True

variable {r r' : Rep} {m : ℕ → Option ℕ} {op : Op} {res : Result} {h : History}

theorem exec32_of_fits (hfits : r.Fits op) : r.exec32 op = r.exec op := by
  cases op with
  | insertEdge x y => rw [exec32, insertEdge32_of_fits hfits]; rfl
  | isReachable x y => rw [exec32, isReachable32_of_fits hfits]; rfl
  | _ => rfl

theorem exec32_of_not_fits (hfits : ¬ r.Fits op) : r.exec32 op = none := by
  cases op with
  | insertEdge x y => rw [exec32, insertEdge32_of_not_fits hfits]; rfl
  | isReachable x y => rw [exec32, isReachable32_of_not_fits hfits]; rfl
  | _ => exact absurd trivial hfits

/-- A call that returns does what it does without limits. -/
theorem exec_of_exec32 (hexec : r.exec32 op = some (r', res)) :
    r.Fits op ∧ r.exec op = some (r', res) := by
  by_cases hfits : r.Fits op
  · exact ⟨hfits, exec32_of_fits hfits ▸ hexec⟩
  · rw [exec32_of_not_fits hfits] at hexec
    cases hexec

/-- **When an operation returns**, if there is room for one more node. -/
theorem exec32_isSome_iff (hr : Inv r m) (hlen : r.nodes.length < maxVecSize) :
    (∃ r' res, r.exec32 op = some (r', res)) ↔ r.Fits op := by
  constructor
  · rintro ⟨r', res, hexec⟩
    exact (exec_of_exec32 hexec).1
  · intro hfits
    rw [exec32_of_fits hfits]
    exact exec_isSome hr hlen op

/-- A run from the empty graph whose calls return, that stays in bounds and uses ids that came from
`GetId`. -/
inductive Run32 : History → Rep → Prop
  | nil : Run32 [] empty
  | step {h : History} {r r' : Rep} {op : Op} {res : Result} (hrun : Run32 h r)
      (hids : ∀ id ∈ op.ids, id ∈ h.issued) (hexec : r.exec32 op = some (r', res))
      (hbound : r'.Bounded) : Run32 (h ++ [(op, res)]) r'

theorem Run32.run (hrun : Run32 h r) : Run h r := by
  induction hrun with
  | nil => exact .nil
  | step _ hids hexec hbound ih => exact ih.step hids (exec_of_exec32 hexec).2 hbound

/-- **`GraphCycles` refines a directed graph**: in every run the results are those of the reference
graph, the edges have no cycle, and whatever operation comes next returns exactly if it overfills no
set and its stack has room. -/
theorem graphCycles_refines (hrun : Run32 h r) :
    (∃ m g, RefGraph.Run h g ∧ Refines r m g ∧ (∀ a, ¬ TransGen g.edge a a)) ∧
      (∀ v, ¬ TransGen r.Edge v v) ∧
      ∀ op, (∃ r' res, r.exec32 op = some (r', res)) ↔ r.Fits op := by
  obtain ⟨m, g, hg, href, -⟩ := refines_run hrun.run
  exact ⟨⟨m, g, hg, href, href.acyclic⟩, href.inv.increasing.acyclic,
    fun _ => exec32_isSome_iff href.inv href.bounded.1⟩

/-- An edge between two locks, and the opposite edge, which is rejected. -/
theorem graphCycles_refines_rejected :
    ∃ r, Run32 [(.getId 1 16, .id 4294967296), (.getId 1 32, .id 4294967297),
        (.insertEdge 4294967296 4294967297, .bool true),
        (.insertEdge 4294967297 4294967296, .bool false)] r ∧
      ((∃ m g, RefGraph.Run [(.getId 1 16, .id 4294967296), (.getId 1 32, .id 4294967297),
            (.insertEdge 4294967296 4294967297, .bool true),
            (.insertEdge 4294967297 4294967296, .bool false)] g ∧ Refines r m g ∧
          (∀ a, ¬ TransGen g.edge a a)) ∧
        (∀ v, ¬ TransGen r.Edge v v) ∧
        ∀ op, (∃ r' res, r.exec32 op = some (r', res)) ↔ r.Fits op) := by
  have hrun : ∃ r, Run32 [(.getId 1 16, .id 4294967296), (.getId 1 32, .id 4294967297),
      (.insertEdge 4294967296 4294967297, .bool true),
      (.insertEdge 4294967297 4294967296, .bool false)] r := by
    refine ⟨_, Run32.step (Run32.step (Run32.step (Run32.step .nil ?_ rfl ?_) ?_ rfl ?_) ?_ rfl ?_)
      ?_ rfl ?_⟩
    all_goals first
      | decide +kernel
      | simp [Op.ids, History.issued]
  obtain ⟨r, hr⟩ := hrun
  exact ⟨r, hr, graphCycles_refines hr⟩

/-! ### A full set -/

/-- The pointers at 16, 32, ... are registered. -/
def registered (n : ℕ) : History :=
  (List.range n).map fun i => (.getId 1 (16 * (i + 1)), .id (makeId i 1))

/-- Then the first node gets edges to those that follow. -/
def fan (n k : ℕ) : History :=
  registered n ++
    (List.range k).map fun i => (.insertEdge (makeId 0 1) (makeId (i + 1) 1), .bool true)

theorem registered_succ (n : ℕ) :
    registered (n + 1) = registered n ++ [(.getId 1 (16 * (n + 1)), .id (makeId n 1))] := by
  unfold registered
  rw [List.range_succ, List.map_append, List.map_singleton]

theorem fan_succ (n k : ℕ) :
    fan n (k + 1) =
      fan n k ++ [(.insertEdge (makeId 0 1) (makeId (k + 1) 1), .bool true)] := by
  unfold fan
  rw [List.range_succ, List.map_append, List.map_singleton, List.append_assoc]

theorem issued_fan {i n : ℕ} (k : ℕ) (hi : i < n) : makeId i 1 ∈ (fan n k).issued :=
  ⟨1, 16 * (i + 1), List.mem_append_left _ (List.mem_map.2 ⟨i, List.mem_range.2 hi, rfl⟩)⟩

/-- The graph afterwards: the first node has edges to the next `k` of the `n` nodes. -/
structure Fan (n k : ℕ) (r : Rep) : Prop where
  length : r.nodes.length = n
  version : ∀ i < n, (r.node i).version = 1
  rank : ∀ i < n, (r.node i).rank = i
  inSet : ∀ i < n, k < i → (r.node i).inSet = NodeSet.empty
  grown : (r.node 0).outSet.Grown
  card : (r.node 0).outSet.elems.length = k
  mem : ∀ w, w ∈ (r.node 0).outSet ↔ 0 < w ∧ w ≤ k

theorem Fan.bounded {n k : ℕ} (hr : Fan n k r) (hn : n < maxVecSize) : r.Bounded :=
  ⟨hr.length ▸ hn, fun i hi => by rw [hr.version i (hr.length ▸ hi)]; decide⟩

/-- The node of an id. -/
theorem Fan.findNode {n k i : ℕ} (hr : Fan n k r) (hn : n < maxVecSize) (hi : i < n) :
    r.findNode (makeId i 1) = some (r.node i) := by
  have hlt : i < maxVecSize := hi.trans hn
  have hindex : nodeIndex (makeId i 1) = i := nodeIndex_makeId hlt
  rw [findNode_of_lt (by rw [hindex, hr.length]; exact hi), hindex, hr.version i hi,
    nodeVersion_makeId hlt (by decide), if_pos rfl]

theorem run_registered (n : ℕ) (hn : n < maxVecSize) : ∃ r m, Run32 (registered n) r ∧
    Fan n 0 r ∧ Inv r m ∧ r.freeNodes = [] ∧ ∀ i, n ≤ i → m (16 * (i + 1)) = none := by
  induction n with
  | zero =>
    refine ⟨_, _, .nil, ⟨rfl, nofun, nofun, nofun, NodeSet.grown_empty, rfl, fun w => ?_⟩,
      inv_empty, rfl, fun _ _ => rfl⟩
    exact ⟨fun hw => absurd hw (NodeSet.not_mem_empty w), fun hw => by omega⟩
  | succ n ih =>
    obtain ⟨r, m, hrun, hr, hinv, hfree, hnone⟩ := ih (by omega)
    have hlen : r.nodes.length < maxVecSize := by rw [hr.length]; omega
    obtain ⟨r', hg, hreg, hversion, hlen'⟩ :=
      getId_append hinv 1 (16 * (n + 1)) (hnone n le_rfl) hfree hlen
    have hnode := getId_append_node hinv (hnone n le_rfl) hfree hlen hg
    rw [hr.length] at hg hreg hversion hlen' hnode
    have hfan : Fan (n + 1) 0 r' := by
      refine ⟨hlen', fun i hi => ?_, fun i hi => ?_, fun i hi hpos => ?_, ?_, ?_, fun w => ?_⟩
      · rcases Nat.lt_succ_iff_lt_or_eq.1 hi with hlt | rfl
        · rw [hreg.version i (by rw [hr.length]; exact hlt), hr.version i hlt]
        · exact hversion
      · rw [(hnode i).2.2]
        split_ifs with hin
        · rfl
        · exact hr.rank i (by omega)
      · rw [(hnode i).1]
        rcases Nat.lt_succ_iff_lt_or_eq.1 hi with hlt | rfl
        · exact hr.inSet i hlt hpos
        · rw [node_eq_default (by rw [hr.length])]
          rfl
      · rw [(hnode 0).2.1]
        exact hr.grown
      · rw [(hnode 0).2.1]
        exact hr.card
      · rw [(hnode 0).2.1]
        exact hr.mem w
    refine ⟨r', _, ?_, hfan, hreg.inv, ?_, fun i hi => ?_⟩
    · rw [registered_succ]
      exact hrun.step nofun (by rw [exec32, hg]; rfl) (hfan.bounded hn)
    · refine List.eq_nil_iff_forall_not_mem.2 fun j hj => ?_
      have hj' := ((hreg.freeNodes j).1 hj).1
      rw [hfree] at hj'
      cases hj'
    · rw [Function.update_of_ne (by omega)]
      exact hnone i (by omega)

/-- **One more edge** from the first node. -/
theorem Fan.insertEdge {n k : ℕ} (hr : Fan n k r) (hn : n < maxVecSize) (hk : k + 1 < n)
    (hroom : k + 1 < 3 * 2 ^ 29) :
    ∃ r', r.insertEdge32 (makeId 0 1) (makeId (k + 1) 1) = some (r', true) ∧ Fan n (k + 1) r' := by
  have hzero : nodeIndex (makeId 0 1) = 0 := nodeIndex_makeId (by decide)
  have hnext : nodeIndex (makeId (k + 1) 1) = k + 1 := nodeIndex_makeId (hk.trans hn)
  have hx := hr.findNode hn (show 0 < n by omega)
  have hy := hr.findNode hn hk
  have hempty := hr.inSet (k + 1) hk k.lt_succ_self
  have hout : ¬ (r.node 0).outSet.Overfills (k + 1) := fun hover => by
    have hfull := (hr.grown.overfills_iff.1 hover).2
    rw [hr.card] at hfull
    omega
  have habs : k + 1 ∉ (r.node 0).outSet := fun hc => by
    have := (hr.mem _).1 hc
    omega
  have hin : ¬ (r.node (k + 1)).inSet.Overfills 0 := by
    rw [hempty]
    exact NodeSet.not_overfills_of_lt (by decide)
  have hrank : (r.node 0).rank ≤ (r.node (k + 1)).rank := by
    rw [hr.rank 0 (by omega), hr.rank (k + 1) hk]
    omega
  have hfits : r.InsertEdgeFits (makeId 0 1) (makeId (k + 1) 1) :=
    insertEdgeFits_of_rank_le hx hy (hnext.symm ▸ hout) (hzero.symm ▸ hin) hrank
  have heq : r.insertEdge (makeId 0 1) (makeId (k + 1) 1) = (r.addEdge 0 (k + 1), true) := by
    have hins : ¬ ((r.node 0).outSet.insert (k + 1)).2 = false := by
      rw [Bool.not_eq_false]
      exact NodeSet.insert_snd.2 habs
    simp only [Rep.insertEdge, hx, hy, hzero, hnext, if_neg (Nat.succ_ne_zero k).symm, if_neg hins,
      if_pos hrank]
  refine ⟨_, by rw [insertEdge32_of_fits hfits, heq], ?_⟩
  have hlt : 0 < r.nodes.length := by rw [hr.length]; omega
  have hset : ((r.addEdge 0 (k + 1)).node 0).outSet = ((r.node 0).outSet.insert (k + 1)).1 := by
    unfold addEdge
    rw [node_modifyNode_of_ne (Nat.succ_ne_zero k), node_modifyNode_self hlt]
    rfl
  refine ⟨(sameNodes_addEdge r 0 (k + 1)).length.trans hr.length, fun i hi => ?_, fun i hi => ?_,
    fun i hi hlt => ?_, ?_, ?_, fun w => ?_⟩
  · rw [(sameNodes_addEdge r 0 (k + 1)).version, hr.version i hi]
  · rw [field_addEdge Node.rank (fun _ _ => rfl) fun _ _ => rfl, hr.rank i hi]
  · unfold addEdge
    rw [node_modifyNode_of_ne (by omega), node_modifyNode_of_ne (by omega)]
    exact hr.inSet i hi (by omega)
  · rw [hset]
    exact hr.grown.insert hout
  · rw [hset, NodeSet.length_elems_insert habs, hr.card]
  · rw [hset, NodeSet.mem_insert, hr.mem]
    omega

theorem run_fan (n k : ℕ) (hn : n < maxVecSize) (hk : k < n)
    (hroom : k < 3 * 2 ^ 29) : ∃ r, Run32 (fan n k) r ∧ Fan n k r := by
  induction k with
  | zero =>
    obtain ⟨r, m, hrun, hr, -⟩ := run_registered n hn
    exact ⟨r, by simpa [fan] using hrun, hr⟩
  | succ k ih =>
    obtain ⟨r, hrun, hr⟩ := ih (by omega) (by omega)
    obtain ⟨r', hins, hr'⟩ := hr.insertEdge hn hk hroom
    refine ⟨r', ?_, hr'⟩
    rw [fan_succ]
    refine hrun.step (fun id hid => ?_) (by rw [exec32, hins]; rfl) (hr'.bounded hn)
    rcases List.mem_pair.1 hid with rfl | rfl
    · exact issued_fan k (by omega)
    · exact issued_fan k hk

/-- The set of the successors is full then. -/
theorem Fan.overfills {n k : ℕ} (hr : Fan n k r) (hk : k + 1 = 3 * 2 ^ 29) :
    (r.node 0).outSet.Overfills (k + 1) := by
  refine hr.grown.overfills_iff.2 ⟨fun hc => ?_, by rw [hr.card, hk]⟩
  have := (hr.mem (k + 1)).1 hc
  omega

/-- A node with `3 * 2 ^ 29 - 1` successors does not get another one, although the nodes are fewer
than `2 ^ 31` and there is no way back. -/
theorem insertEdge_overfills : ∃ r, Run32 (fan (3 * 2 ^ 29 + 1) (3 * 2 ^ 29 - 1)) r ∧
    (∀ id ∈ (Op.insertEdge (makeId 0 1) (makeId (3 * 2 ^ 29) 1)).ids,
      id ∈ (fan (3 * 2 ^ 29 + 1) (3 * 2 ^ 29 - 1)).issued) ∧
    r.exec32 (.insertEdge (makeId 0 1) (makeId (3 * 2 ^ 29) 1)) = none := by
  obtain ⟨r, hrun, hr⟩ := run_fan (3 * 2 ^ 29 + 1) (3 * 2 ^ 29 - 1) (by decide) (by omega)
    (by decide)
  refine ⟨r, hrun, fun id hid => ?_, exec32_of_not_fits fun hfits => ?_⟩
  · rcases List.mem_pair.1 hid with rfl | rfl
    · exact issued_fan _ (by omega)
    · exact issued_fan _ (by omega)
  · have hzero : nodeIndex (makeId 0 1) = 0 := nodeIndex_makeId (by decide)
    have hlast : nodeIndex (makeId (3 * 2 ^ 29) 1) = 3 * 2 ^ 29 := nodeIndex_makeId (by decide)
    have hout := (hfits _ _ (hr.findNode (by decide) (by omega))
      (hr.findNode (by decide) (by omega)) (by rw [hzero, hlast]; decide)).1
    rw [hlast] at hout
    exact hout (hr.overfills rfl)

end Rep

end BugInsight

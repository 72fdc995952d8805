import BugInsight.GraphCycles.Edges

/-!
# How the graph changes

`Evolves K r m r' m'` says what survives from a graph to a later one: ids that were issued stay
issued, and the pointers of `K` keep their nodes and the edges between them.

* `getId_evolves`, `removeNode_evolves`, `insertEdge_evolves`, `updateStackTrace_evolves`: the
  operations of a monitor;
* `LockEdge.acyclic`: the edges between pointers never have a cycle.
-/

open Relation TopoOrder

namespace BugInsight

namespace Rep

variable {r r' r'' : Rep} {m m' m'' : ℕ → Option ℕ} {K : Set ℕ} {p q id : ℕ}

/-- An edge between the nodes of two pointers. -/
def LockEdge (r : Rep) (m : ℕ → Option ℕ) (p q : ℕ) : Prop :=
  ∃ i j, m p = some i ∧ m q = some j ∧ r.Edge i j

/-- There is no cycle of edges. -/
theorem LockEdge.acyclic (h : Inv r m) (p : ℕ) : ¬ TransGen (LockEdge r m) p p := by
  have hlift : ∀ q, TransGen (LockEdge r m) p q →
      ∃ i j, m p = some i ∧ m q = some j ∧ TransGen r.Edge i j := by
    intro q hpq
    induction hpq with
    | single hstep =>
      obtain ⟨i, j, hi, hj, hij⟩ := hstep
      exact ⟨i, j, hi, hj, TransGen.single hij⟩
    | tail _ hstep ih =>
      obtain ⟨i, j, hi, hj, hij⟩ := ih
      obtain ⟨j', k, hj', hk, hjk⟩ := hstep
      cases hj.symm.trans hj'
      exact ⟨i, k, hi, hk, hij.tail hjk⟩
  intro hcycle
  obtain ⟨i, j, hi, hj, hij⟩ := hlift p hcycle
  cases hi.symm.trans hj
  exact h.increasing.acyclic i hij

/-- What survives from a graph to a later one, for the pointers of `K`. -/
structure Evolves (K : Set ℕ) (r : Rep) (m : ℕ → Option ℕ) (r' : Rep) (m' : ℕ → Option ℕ) :
    Prop where
  inv : Inv r' m'
  issued : ∀ id p, Issued r m id p → Issued r' m' id p
  map : ∀ p ∈ K, ∀ i, m p = some i → m' p = some i ∧ (r'.node i).version = (r.node i).version
  edge : ∀ p ∈ K, ∀ q ∈ K, LockEdge r m p q → LockEdge r' m' p q

namespace Evolves

theorem refl (h : Inv r m) : Evolves K r m r m :=
  ⟨h, fun _ _ => id, fun _ _ _ hi => ⟨hi, rfl⟩, fun _ _ _ _ => id⟩

theorem trans (h : Evolves K r m r' m') (h' : Evolves K r' m' r'' m'') :
    Evolves K r m r'' m'' where
  inv := h'.inv
  issued := fun id p hid => h'.issued id p (h.issued id p hid)
  map := fun p hp i hi => by
    obtain ⟨hi', hv⟩ := h.map p hp i hi
    obtain ⟨hi'', hv'⟩ := h'.map p hp i hi'
    exact ⟨hi'', hv'.trans hv⟩
  edge := fun p hp q hq hpq => h'.edge p hp q hq (h.edge p hp q hq hpq)

theorem mono {K' : Set ℕ} (h : Evolves K r m r' m') (hK : K' ⊆ K) : Evolves K' r m r' m' where
  inv := h.inv
  issued := h.issued
  map := fun p hp => h.map p (hK hp)
  edge := fun p hp q hq => h.edge p (hK hp) q (hK hq)

/-- A pointer of `K` keeps its id. -/
theorem current (h : Evolves K r m r' m') (hp : p ∈ K) (hid : Current r m id p) :
    Current r' m' id p := by
  obtain ⟨i, hi, rfl⟩ := hid
  obtain ⟨hi', hv⟩ := h.map p hp i hi
  exact ⟨i, hi', by rw [hv]⟩

end Evolves

/-- An id that was issued for two pointers and is current belongs to one pointer. -/
theorem Issued.eq_of_current (hr : NodesInv r m) (hid : Issued r m id p) (hc : Current r m id q) :
    p = q := by
  obtain ⟨hi, hv⟩ := hc.index hr
  rcases hid.version with hlt | ⟨-, -, h⟩
  · omega
  · exact (h q hi).symm

theorem Current.unique {id' : ℕ} (hid : Current r m id p) (hid' : Current r m id' p) : id = id' := by
  obtain ⟨i, hi, rfl⟩ := hid
  obtain ⟨j, hj, rfl⟩ := hid'
  cases hi.symm.trans hj
  rfl

theorem Issued.ne_invalid (hid : Issued r m id p) : id ≠ invalidGraphId := by
  rintro rfl
  have := hid.version_pos
  simp [nodeVersion, invalidGraphId] at this

/-- An id that was issued for a pointer and, if the pointer is in `K`, is its current id. -/
structure Known (K : Set ℕ) (r : Rep) (m : ℕ → Option ℕ) (id p : ℕ) : Prop where
  issued : Issued r m id p
  current : p ∈ K → Current r m id p

theorem Evolves.known (h : Evolves K r m r' m') (hid : Known K r m id p) : Known K r' m' id p :=
  ⟨h.issued id p hid.issued, fun hp => h.current hp (hid.current hp)⟩

theorem Current.known (hr : NodesInv r m) (hid : Current r m id p) : Known K r m id p :=
  ⟨hid.issued hr, fun _ => hid⟩

/-! ### The operations -/

/-- A step that leaves pointers, ids and edges alone. -/
theorem SameNodes.evolves (hs : SameNodes r r') (hinv : Inv r' m)
    (hedge : ∀ v w, r.Edge v w → r'.Edge v w) : Evolves K r m r' m where
  inv := hinv
  issued := fun _ _ hid => hs.issued hid
  map := fun _ _ i hi => ⟨hi, hs.version i⟩
  edge := fun _ _ _ _ ⟨i, j, hi, hj, hij⟩ => ⟨i, j, hi, hj, hedge i j hij⟩

/-- **`GetId`** returns the current id of the pointer. -/
theorem getId_evolves {tid : ℕ} (h : Inv r m) (hg : r.getId tid p = some (r', id)) :
    ∃ m', Evolves K r m r' m' ∧ Current r' m' id p := by
  cases hp : m p with
  | some i =>
    rw [getId_known h hp] at hg
    cases hg
    exact ⟨m, Evolves.refl h, i, hp, rfl⟩
  | none =>
    obtain ⟨i, hreg, rfl⟩ := getId_new h hp hg
    have hne : ∀ {q j}, m q = some j → q ≠ p := by
      rintro q j hq rfl
      rw [hp] at hq
      cases hq
    refine ⟨_, ⟨hreg.inv, fun id q hid => (hreg.issued hid).1, fun q _ j hj => ⟨?_, ?_⟩, ?_⟩,
      i, Function.update_self .., rfl⟩
    · rw [Function.update_of_ne (hne hj), hj]
    · exact hreg.version j (h.lt hj)
    · rintro a - b - ⟨j, k, hj, hk, hjk⟩
      exact ⟨j, k, by rw [Function.update_of_ne (hne hj), hj],
        by rw [Function.update_of_ne (hne hk), hk], (hreg.edge j k).2 hjk⟩

theorem getId_ne_invalid {tid : ℕ} (h : Inv r m) (hg : r.getId tid p = some (r', id)) :
    id ≠ invalidGraphId := by
  obtain ⟨m', hev, hid⟩ := getId_evolves (K := ∅) h hg
  exact (hid.issued hev.inv.toNodesInv).ne_invalid

/-- An id that was issued belongs to a pointer exactly if `GetId` returns it for the pointer. -/
theorem ptr_eq_iff_getId {tid id' : ℕ} (h : Inv r m) (hg : r.getId tid p = some (r', id))
    (hp : p ≠ nullptr) (hid' : Issued r m id' q) : r.ptr id' = p ↔ id' = id := by
  constructor
  · intro hptr
    have hc : Current r m id' q := by
      by_contra hc
      exact hp (hptr.symm.trans ((hid'.ptr h.toNodesInv).2 hc))
    cases hptr.symm.trans ((hid'.ptr h.toNodesInv).1 hc)
    obtain ⟨m', hev, hid⟩ := getId_evolves (K := Set.univ) h hg
    exact Current.unique (hev.current (Set.mem_univ p) hc) hid
  · rintro rfl
    cases hm : m p with
    | some i =>
      rw [getId_known h hm] at hg
      cases hg
      have hc : Current r m (makeId i (r.node i).version) p := ⟨i, hm, rfl⟩
      exact ((hc.issued h.toNodesInv).ptr h.toNodesInv).1 hc
    | none =>
      obtain ⟨i, hreg, rfl⟩ := getId_new h hm hg
      exact absurd rfl (hreg.issued hid').2

/-- **`RemoveNode`** leaves the other pointers alone. -/
theorem removeNode_evolves (h : Inv r m) (hg : r.removeNode p = some r') (hK : p ∉ K) :
    ∃ m', Evolves K r m r' m' := by
  cases hp : m p with
  | none =>
    rw [removeNode_unmapped h hp] at hg
    cases hg
    exact ⟨m, Evolves.refl h⟩
  | some i =>
    obtain ⟨r'', hr'', hrem⟩ := removeNode_mapped h hp
    cases hg.symm.trans hr''
    have hne : ∀ {q j}, q ∈ K → m q = some j → q ≠ p ∧ j ≠ i := by
      rintro q j hq hj
      have hqp : q ≠ p := fun hc => hK (hc ▸ hq)
      exact ⟨hqp, fun hc => hqp (h.map.inj (hc ▸ hj) hp)⟩
    refine ⟨_, hrem.inv, fun id q hid => hrem.issued h.toNodesInv hp hid, fun q hq j hj => ?_, ?_⟩
    · obtain ⟨hqp, hji⟩ := hne hq hj
      exact ⟨by rw [Function.update_of_ne hqp, hj], hrem.version j hji⟩
    · rintro a ha b hb ⟨j, k, hj, hk, hjk⟩
      obtain ⟨hap, hji⟩ := hne ha hj
      obtain ⟨hbp, hki⟩ := hne hb hk
      exact ⟨j, k, by rw [Function.update_of_ne hap, hj], by rw [Function.update_of_ne hbp, hk],
        (hrem.edge j k).2 ⟨hjk, hji, hki⟩⟩

/-- **`InsertEdge`** between current ids: the edge is there afterwards, or the call fails. -/
theorem insertEdge_evolves {idx idy : ℕ} (h : Inv r m) (hx : Current r m idx p)
    (hy : Current r m idy q) :
    Evolves K r m (r.insertEdge idx idy).1 m ∧
      ((r.insertEdge idx idy).2 = true → LockEdge (r.insertEdge idx idy).1 m p q) := by
  obtain ⟨hpx, -⟩ := hx.index h.toNodesInv
  obtain ⟨hqy, -⟩ := hy.index h.toNodesInv
  have hins := insertEdge_spec h
    (((hx.issued h.toNodesInv).findNode h.toNodesInv).2 (Or.inl hx))
    (((hy.issued h.toNodesInv).findNode h.toNodesInv).2 (Or.inl hy))
    (h.used_of_mapped hpx) (h.used_of_mapped hqy)
  refine ⟨hins.same.evolves hins.inv fun v w hvw => (hins.edge v w).2 (Or.inl hvw), fun hb => ?_⟩
  exact ⟨_, _, hpx, hqy, (hins.edge _ _).2 (Or.inr ⟨hb, rfl, rfl⟩)⟩

/-- Writing into the record of an acquisition. -/
theorem modifyNode_evolves (h : Inv r m) (i : ℕ) (f : Node → Node)
    (hidentity : ∀ n, (f n).identity = n.identity) (hin : ∀ n, (f n).inSet = n.inSet)
    (hout : ∀ n, (f n).outSet = n.outSet) (hrank : ∀ n, (f n).rank = n.rank)
    (hvisited : ∀ n, (f n).visited = n.visited) : Evolves K r m (r.modifyNode i f) m := by
  have hs := sameNodes_modifyNode r i f hidentity
  have hin' := fun j => field_modifyNode r i j f Node.inSet hin
  have hout' := fun j => field_modifyNode r i j f Node.outSet hout
  have hrank' := fun j => field_modifyNode r i j f Node.rank hrank
  have hedges : EdgesInv (r.modifyNode i f) := by
    refine h.toEdgesInv.transfer hin' hout' (fun j => ?_) (fun j => (hs.used j).2)
      (fun j _ => hrank' j) (fun j hj => ?_) ?_
    · exact (field_modifyNode r i j f Node.visited hvisited).trans (h.unvisited j)
    · rw [hrank', hs.length]
      exact h.rank_lt j (hs.length ▸ hj)
    · rw [hs.length]
      simp only [hrank']
      exact h.rank_inj
  refine hs.evolves ⟨hs.nodesInv h.toNodesInv, hedges⟩ fun v w hvw => ?_
  unfold Edge
  rw [hout']
  exact hvw

/-- **`UpdateStackTrace`** only writes into the record of the acquisition. -/
theorem updateStackTrace_evolves (h : Inv r m) (collect : Bool) (id tid n : ℕ) (locks : List Lock)
    (frames : List ℕ) : Evolves K r m (r.updateStackTrace collect id tid n locks frames) m := by
  unfold updateStackTrace
  split
  · exact Evolves.refl h
  · split
    · exact Evolves.refl h
    · exact modifyNode_evolves h _ _ (fun _ => rfl) (fun _ => rfl) (fun _ => rfl) (fun _ => rfl)
        fun _ => rfl

theorem edge_updateStackTrace (r : Rep) (collect : Bool) (id tid n : ℕ) (locks : List Lock)
    (frames : List ℕ) (v w : ℕ) :
    (r.updateStackTrace collect id tid n locks frames).Edge v w ↔ r.Edge v w := by
  unfold updateStackTrace
  split
  · rfl
  · split
    · rfl
    · have hout := field_modifyNode r (nodeIndex id) v (fun nd : Node =>
        { nd with
          callstack := if collect then ⟨frames, frames.length⟩ else nd.callstack
          priority := n + 1
          threadId := tid
          holdLocks := locks
          holdLocksCount := n % 256 }) Node.outSet fun _ => rfl
      unfold Edge
      rw [hout]

end Rep

end BugInsight

import BugInsight.GraphCycles.Edges

/-!
# GraphCycles refines a directed graph

`RefGraph` is what the class is for: a map from the live pointers to their ids and a set of edges
between live nodes, with `RefStep` for the operations.  `Rep.exec` runs the operations of
`graphcycles.cc`, and `Rep.Run` is any sequence of them whose ids all came from earlier `GetId`
calls, with fewer than `2 ^ 31` nodes and versions below `2 ^ 32 - 1`.

* `refines_step`: every operation of the code is an operation of the reference graph;
* `refines_run`: so is every run;
* `exec_isSome`: the next operation returns.

The containers have no limit here.
-/

open Relation TopoOrder

namespace BugInsight

/-- The operations of `GraphCycles`.  `getId` carries the calling thread. -/
inductive Op
  | getId (threadId ptr : ℕ)
  | removeNode (ptr : ℕ)
  | insertEdge (idx idy : ℕ)
  | removeEdge (idx idy : ℕ)
  | hasEdge (idx idy : ℕ)
  | ptr (id : ℕ)
  | isReachable (idx idy : ℕ)

/-- The ids an operation is called with. -/
def Op.ids : Op → List ℕ
  | .getId _ _ | .removeNode _ => []
  | .insertEdge idx idy | .removeEdge idx idy | .hasEdge idx idy | .isReachable idx idy =>
      [idx, idy]
  | .ptr id => [id]

/-- What an operation returns. -/
inductive Result
  | unit
  | bool (b : Bool)
  | id (id : ℕ)
  | ptr (ptr : ℕ)
  deriving DecidableEq

/-- The operations called so far, with their results. -/
abbrev History := List (Op × Result)

/-- The ids that `GetId` has returned. -/
def History.issued (h : History) : Set ℕ := {id | ∃ tid p, (Op.getId tid p, Result.id id) ∈ h}

/-! ### The reference graph -/

/-- A directed graph on the ids of live pointers. -/
structure RefGraph where
  /-- the id of a live pointer -/
  id : ℕ → Option ℕ
  edge : ℕ → ℕ → Prop
  /-- every id ever handed out -/
  issued : Set ℕ

namespace RefGraph

/-- The empty graph. -/
def empty : RefGraph := ⟨fun _ => none, fun _ _ => False, ∅⟩

/-- The id belongs to a live pointer. -/
def Live (g : RefGraph) (id : ℕ) : Prop := ∃ p, g.id p = some id

/-- The operations on the reference graph.  `getId` may hand out any id that was not used before;
otherwise result and graph are determined. -/
inductive Step (g : RefGraph) : Op → Result → RefGraph → Prop
  | getId_known {tid p id : ℕ} (h : g.id p = some id) : Step g (.getId tid p) (.id id) g
  | getId_new {tid p id : ℕ} (h : g.id p = none) (hfresh : id ∉ g.issued)
      (hvalid : id ≠ invalidGraphId) :
      Step g (.getId tid p) (.id id)
        { g with id := Function.update g.id p (some id), issued := insert id g.issued }
  | removeNode {p : ℕ} :
      Step g (.removeNode p) .unit
        { g with
          id := Function.update g.id p none
          edge := fun a b => g.edge a b ∧ g.id p ≠ some a ∧ g.id p ≠ some b }
  | insertEdge_stale {x y : ℕ} (h : ¬ (g.Live x ∧ g.Live y)) :
      Step g (.insertEdge x y) (.bool true) g
  | insertEdge_cycle {x y : ℕ} (hx : g.Live x) (hy : g.Live y)
      (h : x = y ∨ ReflTransGen g.edge y x) : Step g (.insertEdge x y) (.bool false) g
  | insertEdge_new {x y : ℕ} (hx : g.Live x) (hy : g.Live y)
      (h : ¬ (x = y ∨ ReflTransGen g.edge y x)) :
      Step g (.insertEdge x y) (.bool true)
        { g with edge := fun a b => g.edge a b ∨ a = x ∧ b = y }
  | removeEdge {x y : ℕ} :
      Step g (.removeEdge x y) .unit { g with edge := fun a b => g.edge a b ∧ ¬ (a = x ∧ b = y) }
  | hasEdge {x y : ℕ} {b : Bool} (h : b = true ↔ g.edge x y) : Step g (.hasEdge x y) (.bool b) g
  | ptr_live {id p : ℕ} (h : g.id p = some id) : Step g (.ptr id) (.ptr p) g
  | ptr_stale {id : ℕ} (h : ¬ g.Live id) : Step g (.ptr id) (.ptr nullptr) g
  | isReachable {x y : ℕ} {b : Bool}
      (h : b = true ↔ g.Live x ∧ g.Live y ∧ ReflTransGen g.edge x y) :
      Step g (.isReachable x y) (.bool b) g

/-- The reference graph after a history. -/
inductive Run : History → RefGraph → Prop
  | nil : Run [] empty
  | step {h : History} {g g' : RefGraph} {op : Op} {res : Result} (hrun : Run h g)
      (hstep : g.Step op res g') : Run (h ++ [(op, res)]) g'

end RefGraph

namespace Rep

/-! ### Runs of the code -/

/-- One operation of the code; `none` is a call that does not return. -/
def exec (r : Rep) : Op → Option (Rep × Result)
  | .getId tid p => (r.getId tid p).map fun s => (s.1, .id s.2)
  | .removeNode p => (r.removeNode p).map fun r' => (r', .unit)
  | .insertEdge x y => some ((r.insertEdge x y).1, .bool (r.insertEdge x y).2)
  | .removeEdge x y => some (r.removeEdge x y, .unit)
  | .hasEdge x y => some (r, .bool (r.hasEdge x y))
  | .ptr id => some (r, .ptr (r.ptr id))
  | .isReachable x y => some (r, .bool (r.isReachable x y))

/-- Fewer than `2 ^ 31` nodes, and no version that cannot be incremented. -/
def Bounded (r : Rep) : Prop :=
  r.nodes.length < maxVecSize ∧ ∀ i < r.nodes.length, (r.node i).version < maxVersion

instance (r : Rep) : Decidable r.Bounded := inferInstanceAs (Decidable (_ ∧ _))

/-- A run from the empty graph that stays in bounds and uses ids that came from `GetId`. -/
inductive Run : History → Rep → Prop
  | nil : Run [] empty
  | step {h : History} {r r' : Rep} {op : Op} {res : Result} (hrun : Run h r)
      (hids : ∀ id ∈ op.ids, id ∈ h.issued) (hexec : r.exec op = some (r', res))
      (hbound : r'.Bounded) : Run (h ++ [(op, res)]) r'

/-- The id of a node. -/
def idOf (r : Rep) (i : ℕ) : ℕ := makeId i (r.node i).version

/-- The representation `r` stands for the graph `g`. -/
structure Refines (r : Rep) (m : ℕ → Option ℕ) (g : RefGraph) : Prop where
  inv : Inv r m
  bounded : r.Bounded
  id : ∀ p, g.id p = (m p).map r.idOf
  id_issued : ∀ p a, g.id p = some a → a ∈ g.issued
  edge : ∀ a b, g.edge a b ↔ ∃ v w, r.Edge v w ∧ a = r.idOf v ∧ b = r.idOf w
  issued : ∀ a ∈ g.issued, ∃ p, Issued r m a p

/-! ### One step -/

section Steps

variable {r r' : Rep} {m : ℕ → Option ℕ} {g : RefGraph} {a b p : ℕ}

theorem idOf_inj (h : NodesInv r m) {i j : ℕ} (hi : i < r.nodes.length) (hj : j < r.nodes.length)
    (hij : r.idOf i = r.idOf j) : i = j :=
  (makeId_inj (h.lt_maxVecSize hi) (h.lt_maxVecSize hj) (h.version_le i hi) (h.version_le j hj)
    hij).1

theorem nodeIndex_idOf (h : NodesInv r m) {i : ℕ} (hi : i < r.nodes.length) :
    nodeIndex (r.idOf i) = i := nodeIndex_makeId (h.lt_maxVecSize hi)

theorem Refines.current (h : Refines r m g) : g.id p = some a ↔ Current r m a p := by
  rw [h.id, Option.map_eq_some_iff]
  unfold Current idOf
  simp only [eq_comm]

/-- An id is live while it is the current id of the pointer it was issued for. -/
theorem Refines.live_iff_current (h : Refines r m g) (hid : Issued r m a p) :
    g.Live a ↔ Current r m a p := by
  constructor
  · rintro ⟨q, hq⟩
    have hc := h.current.1 hq
    obtain ⟨hi, hv⟩ := hc.index h.inv.toNodesInv
    rcases hid.version with hlt | ⟨-, -, hp⟩
    · omega
    · exact hp q hi ▸ hc
  · exact fun hc => ⟨p, h.current.2 hc⟩

/-- An id that came from `GetId` is found exactly if it belongs to a live pointer. -/
theorem Refines.live_iff (h : Refines r m g) (ha : a ∈ g.issued) :
    (r.findNode a).isSome = true ↔ g.Live a := by
  obtain ⟨p, hid⟩ := h.issued a ha
  rw [hid.findNode h.inv.toNodesInv, h.live_iff_current hid, or_iff_left]
  rintro ⟨hu, -, hmax, -⟩
  exact (h.bounded.2 _ hu.1).ne hmax

/-- The node of a live id. -/
theorem Refines.live_index (h : Refines r m g) (ha : g.Live a) :
    r.Used (nodeIndex a) ∧ r.idOf (nodeIndex a) = a := by
  obtain ⟨p, hp⟩ := ha
  obtain ⟨i, hi, rfl⟩ := h.current.1 hp
  have hlt := h.inv.lt hi
  rw [show makeId i (r.node i).version = r.idOf i from rfl, nodeIndex_idOf h.inv.toNodesInv hlt]
  exact ⟨h.inv.used_of_mapped hi, rfl⟩

theorem findNode_idOf (h : NodesInv r m) {i : ℕ} (hi : i < r.nodes.length) :
    r.findNode (r.idOf i) = some (r.node i) := by
  have hidx := nodeIndex_idOf h hi
  have hver : nodeVersion (r.idOf i) = (r.node i).version :=
    nodeVersion_makeId (h.lt_maxVecSize hi) (h.version_le i hi)
  rw [findNode_of_lt (by rw [hidx]; exact hi), hidx, hver, if_pos rfl]

theorem Refines.edge_iff (h : Refines r m g) {i j : ℕ} (hi : i < r.nodes.length)
    (hj : j < r.nodes.length) : g.edge (r.idOf i) (r.idOf j) ↔ r.Edge i j := by
  rw [h.edge]
  constructor
  · rintro ⟨v, w, hvw, hv, hw⟩
    obtain ⟨huv, huw⟩ := h.inv.used v w hvw
    rwa [idOf_inj h.inv.toNodesInv hi huv.1 hv, idOf_inj h.inv.toNodesInv hj huw.1 hw]
  · exact fun hij => ⟨i, j, hij, rfl, rfl⟩

theorem Refines.reach_iff (h : Refines r m g) {i j : ℕ} (hi : i < r.nodes.length)
    (hj : j < r.nodes.length) :
    ReflTransGen g.edge (r.idOf i) (r.idOf j) ↔ ReflTransGen r.Edge i j := by
  constructor
  · intro hij
    suffices H : ∀ b, ReflTransGen g.edge (r.idOf i) b →
        ∃ w, w < r.nodes.length ∧ b = r.idOf w ∧ ReflTransGen r.Edge i w by
      obtain ⟨w, hw, hjw, hiw⟩ := H _ hij
      rwa [idOf_inj h.inv.toNodesInv hj hw hjw]
    intro b hb
    induction hb with
    | refl => exact ⟨i, hi, rfl, ReflTransGen.refl⟩
    | tail _ hbc ih =>
      obtain ⟨w, hw, rfl, hiw⟩ := ih
      obtain ⟨v, u, hvu, hv, rfl⟩ := (h.edge _ _).1 hbc
      obtain ⟨huv, huu⟩ := h.inv.used v u hvu
      rw [idOf_inj h.inv.toNodesInv hw huv.1 hv] at hiw
      exact ⟨u, huu.1, rfl, hiw.tail hvu⟩
  · intro hij
    exact ReflTransGen.lift r.idOf (fun v w hvw => (h.edge _ _).2 ⟨v, w, hvw, rfl, rfl⟩) _ _ hij

/-- The edges of the reference graph have no cycle. -/
theorem Refines.acyclic (h : Refines r m g) (a : ℕ) : ¬ TransGen g.edge a a := by
  intro hcycle
  obtain ⟨b, hab, hba⟩ := TransGen.head'_iff.1 hcycle
  obtain ⟨v, w, hvw, rfl, rfl⟩ := (h.edge _ _).1 hab
  obtain ⟨huv, huw⟩ := h.inv.used v w hvw
  exact h.inv.increasing.acyclic v
    (TransGen.head' hvw ((h.reach_iff huw.1 huv.1).1 hba))

/-- A step that leaves the nodes alone. -/
theorem SameNodes.refines (hs : SameNodes r r') (h : Refines r m g) (hinv : Inv r' m)
    {edge : ℕ → ℕ → Prop}
    (hedge : ∀ a b, edge a b ↔ ∃ v w, r'.Edge v w ∧ a = r.idOf v ∧ b = r.idOf w) :
    Refines r' m { g with edge := edge } where
  inv := hinv
  bounded := ⟨hs.length ▸ h.bounded.1, fun i hi => by
    rw [hs.version]; exact h.bounded.2 i (hs.length ▸ hi)⟩
  id := fun p => by
    rw [h.id]
    exact congrArg (fun f => (m p).map f) (funext fun i => by rw [idOf, idOf, hs.version])
  id_issued := h.id_issued
  edge := fun a b => by
    unfold idOf at hedge ⊢
    simp only [hs.version]
    exact hedge a b
  issued := fun a ha => (h.issued a ha).imp fun _ hid => hs.issued hid

/-- The ids after the entry of one pointer was changed. -/
theorem id_update {v : Option ℕ} {w : Option ℕ} (h : ∀ q, g.id q = (m q).map r.idOf)
    (hpw : w = v.map r'.idOf) (hsame : ∀ q, q ≠ p → ∀ j, m q = some j → r'.idOf j = r.idOf j)
    (q : ℕ) : Function.update g.id p w q = (Function.update m p v q).map r'.idOf := by
  by_cases hq : q = p
  · subst hq
    rw [Function.update_self, Function.update_self, hpw]
  · rw [Function.update_of_ne hq, Function.update_of_ne hq, h]
    exact Option.map_congr fun j hj => (hsame q hq j hj).symm

theorem refines_getId {tid id : ℕ} (h : Refines r m g) (hg : r.getId tid p = some (r', id))
    (hbound : r'.Bounded) :
    ∃ m' g', g.Step (.getId tid p) (.id id) g' ∧ Refines r' m' g' ∧ id ∈ g'.issued := by
  cases hp : m p with
  | some i =>
    rw [getId_known h.inv hp] at hg
    cases hg
    have hid : g.id p = some (r.idOf i) := by rw [h.id, hp]; rfl
    exact ⟨m, g, .getId_known hid, h, h.id_issued p _ hid⟩
  | none =>
    obtain ⟨i, hreg, rfl⟩ := getId_new h.inv hp hg
    have hi : i < r'.nodes.length := hreg.inv.lt (Function.update_self p (some i) m)
    have hidOf : ∀ j < r.nodes.length, r'.idOf j = r.idOf j := fun j hj => by
      rw [idOf, idOf, hreg.version j hj]
    refine ⟨_, _, .getId_new (by rw [h.id, hp]; rfl) ?_ ?_,
      ⟨hreg.inv, hbound, id_update h.id rfl fun q _ j hj => hidOf j (h.inv.lt hj),
        fun q a hq => ?_, fun a b => ?_, fun a ha => ?_⟩, Or.inl rfl⟩
    · intro hc
      obtain ⟨q, hid⟩ := h.issued _ hc
      exact (hreg.issued hid).2 rfl
    · exact makeId_ne_invalid (hreg.inv.lt_maxVecSize hi) (hreg.inv.version_pos i hi)
    · dsimp only at hq
      by_cases hqp : q = p
      · rw [hqp, Function.update_self] at hq
        exact Or.inl (Option.some_inj.1 hq).symm
      · rw [Function.update_of_ne hqp] at hq
        exact Or.inr (h.id_issued q a hq)
    · rw [h.edge]
      refine exists_congr fun v => exists_congr fun w => ?_
      rw [hreg.edge]
      refine and_congr_right fun hvw => ?_
      obtain ⟨huv, huw⟩ := h.inv.used v w hvw
      rw [hidOf v huv.1, hidOf w huw.1]
    · rcases ha with rfl | ha
      · exact ⟨p, Current.issued hreg.inv.toNodesInv ⟨i, Function.update_self .., rfl⟩⟩
      · obtain ⟨q, hid⟩ := h.issued a ha
        exact ⟨q, (hreg.issued hid).1⟩

theorem refines_removeNode (h : Refines r m g) (hg : r.removeNode p = some r')
    (hbound : r'.Bounded) : ∃ m' g', g.Step (.removeNode p) .unit g' ∧ Refines r' m' g' ∧
      g'.issued = g.issued := by
  refine ⟨Function.update m p none, _, .removeNode, ?_, rfl⟩
  cases hp : m p with
  | none =>
    rw [removeNode_unmapped h.inv hp] at hg
    cases hg
    have hm : Function.update m p none = m := by rw [← hp, Function.update_eq_self]
    have hid : g.id p = none := by rw [h.id, hp]; rfl
    have hgid : Function.update g.id p none = g.id := by rw [← hid, Function.update_eq_self]
    rw [hm, hgid]
    refine ⟨h.inv, h.bounded, h.id, h.id_issued, fun a b => ?_, h.issued⟩
    simp [hid, ← h.edge]
  | some i =>
    obtain ⟨r'', hr'', hrem⟩ := removeNode_mapped h.inv hp
    rw [hr''] at hg
    cases hg
    have hi := h.inv.lt hp
    have hid : g.id p = some (r.idOf i) := by rw [h.id, hp]; rfl
    have hidOf : ∀ j, j ≠ i → r'.idOf j = r.idOf j := fun j hj => by
      rw [idOf, idOf, hrem.version j hj]
    refine ⟨hrem.inv, hbound, id_update h.id rfl fun q hqp j hj => hidOf j ?_,
      fun q a hq => ?_, fun a b => ?_, fun a ha => ?_⟩
    · exact fun hc => hqp (h.inv.map.inj (hc ▸ hj) hp)
    · dsimp only at hq
      by_cases hqp : q = p
      · rw [hqp, Function.update_self] at hq
        cases hq
      · rw [Function.update_of_ne hqp] at hq
        exact h.id_issued q a hq
    · simp only [hid, h.edge, ne_eq, Option.some_inj]
      constructor
      · rintro ⟨⟨v, w, hvw, rfl, rfl⟩, hv, hw⟩
        have hvi : v ≠ i := fun hc => hv (by rw [hc])
        have hwi : w ≠ i := fun hc => hw (by rw [hc])
        exact ⟨v, w, (hrem.edge v w).2 ⟨hvw, hvi, hwi⟩, (hidOf v hvi).symm, (hidOf w hwi).symm⟩
      · rintro ⟨v, w, hvw, rfl, rfl⟩
        obtain ⟨hvw', hvi, hwi⟩ := (hrem.edge v w).1 hvw
        obtain ⟨huv, huw⟩ := h.inv.used v w hvw'
        rw [hidOf v hvi, hidOf w hwi]
        exact ⟨⟨v, w, hvw', rfl, rfl⟩,
          fun hc => hvi (idOf_inj h.inv.toNodesInv hi huv.1 hc).symm,
          fun hc => hwi (idOf_inj h.inv.toNodesInv hi huw.1 hc).symm⟩
    · exact (h.issued a ha).imp fun q hq => hrem.issued h.inv.toNodesInv hp hq

theorem refines_insertEdge {x y : ℕ} (h : Refines r m g) (hx : x ∈ g.issued)
    (hy : y ∈ g.issued) : ∃ g', g.Step (.insertEdge x y) (.bool (r.insertEdge x y).2) g' ∧
      Refines (r.insertEdge x y).1 m g' ∧ g'.issued = g.issued := by
  by_cases hlive : g.Live x ∧ g.Live y
  · obtain ⟨hlx, hly⟩ := hlive
    obtain ⟨hux, hidx⟩ := h.live_index hlx
    obtain ⟨huy, hidy⟩ := h.live_index hly
    have hins := insertEdge_spec h.inv ((h.live_iff hx).2 hlx) ((h.live_iff hy).2 hly) hux huy
    have hcycle : x = y ∨ ReflTransGen g.edge y x ↔
        nodeIndex x = nodeIndex y ∨ ReflTransGen r.Edge (nodeIndex y) (nodeIndex x) := by
      rw [← h.reach_iff huy.1 hux.1, hidx, hidy]
      refine or_congr_left ⟨fun hxy => by rw [hxy], fun hxy => ?_⟩
      rw [← hidx, ← hidy, hxy]
    cases hb : (r.insertEdge x y).2 with
    | false =>
      rw [hb] at hins
      refine ⟨_, .insertEdge_cycle hlx hly (hcycle.2 (hins.rejected.1 rfl)), ?_, rfl⟩
      refine hins.same.refines h hins.inv fun a b => ?_
      rw [h.edge]
      simp [hins.edge]
    | true =>
      rw [hb] at hins
      refine ⟨_, .insertEdge_new hlx hly fun hc => ?_, ?_, rfl⟩
      · have := hins.rejected.2 (hcycle.1 hc)
        cases this
      · refine hins.same.refines h hins.inv fun a b => ?_
        simp only [h.edge, hins.edge, true_and]
        constructor
        · rintro (⟨v, w, hvw, rfl, rfl⟩ | ⟨rfl, rfl⟩)
          · exact ⟨v, w, Or.inl hvw, rfl, rfl⟩
          · exact ⟨_, _, Or.inr ⟨rfl, rfl⟩, hidx.symm, hidy.symm⟩
        · rintro ⟨v, w, hvw | ⟨rfl, rfl⟩, rfl, rfl⟩
          · exact Or.inl ⟨v, w, hvw, rfl, rfl⟩
          · exact Or.inr ⟨hidx, hidy⟩
  · rw [insertEdge_expired (by rwa [h.live_iff hx, h.live_iff hy])]
    exact ⟨g, .insertEdge_stale hlive, h, rfl⟩

theorem refines_removeEdge {x y : ℕ} (h : Refines r m g) (hx : x ∈ g.issued)
    (hy : y ∈ g.issued) : ∃ g', g.Step (.removeEdge x y) .unit g' ∧
      Refines (r.removeEdge x y) m g' ∧ g'.issued = g.issued := by
  obtain ⟨hinv, hsame, hedge⟩ := removeEdge_spec h.inv x y
  refine ⟨_, .removeEdge, hsame.refines h hinv fun a b => ?_, rfl⟩
  simp only [h.edge, hedge]
  constructor
  · rintro ⟨⟨v, w, hvw, rfl, rfl⟩, hne⟩
    refine ⟨v, w, ⟨hvw, ?_⟩, rfl, rfl⟩
    rintro ⟨hfx, hfy, rfl, rfl⟩
    exact hne ⟨(h.live_index ((h.live_iff hx).1 hfx)).2, (h.live_index ((h.live_iff hy).1 hfy)).2⟩
  · rintro ⟨v, w, ⟨hvw, hne⟩, rfl, rfl⟩
    obtain ⟨huv, huw⟩ := h.inv.used v w hvw
    refine ⟨⟨v, w, hvw, rfl, rfl⟩, ?_⟩
    rintro ⟨rfl, rfl⟩
    refine hne ⟨?_, ?_, (nodeIndex_idOf h.inv.toNodesInv huv.1).symm,
      (nodeIndex_idOf h.inv.toNodesInv huw.1).symm⟩
    · rw [findNode_idOf h.inv.toNodesInv huv.1]
      rfl
    · rw [findNode_idOf h.inv.toNodesInv huw.1]
      rfl

theorem refines_hasEdge {x y : ℕ} (h : Refines r m g) (hx : x ∈ g.issued) (hy : y ∈ g.issued) :
    g.Step (.hasEdge x y) (.bool (r.hasEdge x y)) g := by
  refine .hasEdge ?_
  unfold hasEdge
  constructor
  · intro hb
    split at hb
    · rename_i nx ny hnx hny
      obtain ⟨hux, hidx⟩ := h.live_index ((h.live_iff hx).1 (by rw [hnx]; rfl))
      obtain ⟨huy, hidy⟩ := h.live_index ((h.live_iff hy).1 (by rw [hny]; rfl))
      have hnx' := findNode_idOf h.inv.toNodesInv hux.1
      rw [hidx, hnx] at hnx'
      cases hnx'
      rw [← hidx, ← hidy, h.edge_iff hux.1 huy.1]
      exact NodeSet.contains_iff.1 hb
    · cases hb
  · intro hedge
    obtain ⟨v, w, hvw, rfl, rfl⟩ := (h.edge x y).1 hedge
    obtain ⟨huv, huw⟩ := h.inv.used v w hvw
    rw [findNode_idOf h.inv.toNodesInv huv.1, findNode_idOf h.inv.toNodesInv huw.1,
      nodeIndex_idOf h.inv.toNodesInv huw.1]
    exact NodeSet.contains_iff.2 hvw

theorem refines_ptr (h : Refines r m g) (ha : a ∈ g.issued) :
    g.Step (.ptr a) (.ptr (r.ptr a)) g := by
  obtain ⟨p, hid⟩ := h.issued a ha
  obtain ⟨hcur, hstale⟩ := hid.ptr h.inv.toNodesInv
  by_cases hc : Current r m a p
  · rw [hcur hc]
    exact .ptr_live (h.current.2 hc)
  · rw [hstale hc]
    exact .ptr_stale fun hl => hc ((h.live_iff_current hid).1 hl)

theorem refines_isReachable {x y : ℕ} (h : Refines r m g) (hx : x ∈ g.issued)
    (hy : y ∈ g.issued) : g.Step (.isReachable x y) (.bool (r.isReachable x y)) g := by
  refine .isReachable ?_
  rw [← and_assoc]
  by_cases hlive : g.Live x ∧ g.Live y
  · obtain ⟨hux, hidx⟩ := h.live_index hlive.1
    obtain ⟨huy, hidy⟩ := h.live_index hlive.2
    rw [isReachable_iff ((h.live_iff hx).2 hlive.1) ((h.live_iff hy).2 hlive.2),
      ← h.reach_iff hux.1 huy.1, hidx, hidy, and_iff_right hlive]
  · rw [isReachable_expired (by rwa [h.live_iff hx, h.live_iff hy])]
    simp [hlive]

/-- **One operation** of the code is the operation of the reference graph. -/
theorem refines_step (h : Refines r m g) {op : Op} {res : Result}
    (hids : ∀ id ∈ op.ids, id ∈ g.issued) (hexec : r.exec op = some (r', res))
    (hbound : r'.Bounded) :
    ∃ m' g', g.Step op res g' ∧ Refines r' m' g' ∧ g.issued ⊆ g'.issued ∧
      ∀ tid p id, op = .getId tid p → res = .id id → id ∈ g'.issued := by
  cases op with
  | getId tid p =>
    obtain ⟨s, hs, heq⟩ := Option.map_eq_some_iff.1 hexec
    cases heq
    obtain ⟨m', g', hstep, href, hid⟩ := refines_getId h hs hbound
    refine ⟨m', g', hstep, href, ?_, fun tid' p' id' _ hres => by cases hres; exact hid⟩
    cases hstep with
    | getId_known => exact fun a ha => ha
    | getId_new => exact Set.subset_insert _ _
  | removeNode p =>
    obtain ⟨r'', hr'', heq⟩ := Option.map_eq_some_iff.1 hexec
    cases heq
    obtain ⟨m', g', hstep, href, hissued⟩ := refines_removeNode h hr'' hbound
    exact ⟨m', g', hstep, href, hissued.ge, fun _ _ _ hop => by cases hop⟩
  | insertEdge x y =>
    cases hexec
    obtain ⟨g', hstep, href, hissued⟩ := refines_insertEdge h (hids x (by simp [Op.ids]))
      (hids y (by simp [Op.ids]))
    exact ⟨m, g', hstep, href, hissued.ge, fun _ _ _ hop => by cases hop⟩
  | removeEdge x y =>
    cases hexec
    obtain ⟨g', hstep, href, hissued⟩ := refines_removeEdge h (hids x (by simp [Op.ids]))
      (hids y (by simp [Op.ids]))
    exact ⟨m, g', hstep, href, hissued.ge, fun _ _ _ hop => by cases hop⟩
  | hasEdge x y =>
    cases hexec
    exact ⟨m, g, refines_hasEdge h (hids x (by simp [Op.ids])) (hids y (by simp [Op.ids])), h,
      subset_rfl, fun _ _ _ hop => by cases hop⟩
  | ptr id =>
    cases hexec
    exact ⟨m, g, refines_ptr h (hids id (by simp [Op.ids])), h, subset_rfl,
      fun _ _ _ hop => by cases hop⟩
  | isReachable x y =>
    cases hexec
    exact ⟨m, g, refines_isReachable h (hids x (by simp [Op.ids])) (hids y (by simp [Op.ids])), h,
      subset_rfl, fun _ _ _ hop => by cases hop⟩

end Steps

/-! ### Whole runs -/

theorem refines_empty : Refines empty (fun _ => none) RefGraph.empty where
  inv := inv_empty
  bounded := by decide
  id := fun _ => rfl
  id_issued := fun _ _ h => by cases h
  edge := fun a b => ⟨fun h => h.elim, fun ⟨v, w, hvw, _⟩ => absurd hvw (NodeSet.not_mem_empty w)⟩
  issued := fun _ h => h.elim

/-- **A run of the code** is a run of the reference graph with the same results. -/
theorem refines_run {h : History} {r : Rep} (hrun : Run h r) :
    ∃ m g, RefGraph.Run h g ∧ Refines r m g ∧ h.issued ⊆ g.issued := by
  induction hrun with
  | nil =>
    refine ⟨_, _, .nil, refines_empty, ?_⟩
    rintro id ⟨tid, p, hmem⟩
    cases hmem
  | step _ hids hexec hbound ih =>
    obtain ⟨m, g, hg, href, hissued⟩ := ih
    obtain ⟨m', g', hstep, href', hsub, hnew⟩ :=
      refines_step href (fun id hid => hissued (hids id hid)) hexec hbound
    refine ⟨m', g', hg.step hstep, href', ?_⟩
    rintro id ⟨tid, p, hmem⟩
    rcases List.mem_append.1 hmem with hmem | hmem
    · exact hsub (hissued ⟨tid, p, hmem⟩)
    · rw [List.mem_singleton, Prod.mk.injEq] at hmem
      exact hnew tid p id hmem.1.symm hmem.2.symm

/-- If there is room for one more node, every operation returns. -/
theorem exec_isSome {r : Rep} {m : ℕ → Option ℕ} (h : Inv r m) (hlen : r.nodes.length < maxVecSize)
    (op : Op) : ∃ r' res, r.exec op = some (r', res) := by
  cases op with
  | getId tid p =>
    obtain ⟨res, hres⟩ := getId_isSome h hlen tid p
    exact ⟨_, _, by rw [exec, hres]; rfl⟩
  | removeNode p =>
    cases hp : m p with
    | none => exact ⟨_, _, by rw [exec, removeNode_unmapped h hp]; rfl⟩
    | some i =>
      obtain ⟨r', hr', -⟩ := removeNode_mapped h hp
      exact ⟨_, _, by rw [exec, hr']; rfl⟩
  | _ => exact ⟨_, _, rfl⟩

end Rep

end BugInsight

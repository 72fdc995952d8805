import BugInsight.GraphCycles.NodeSet
import BugInsight.Held

/-!
# Nodes and the pointer map

`Node`, `GraphCycles::Rep` and `PointerMap` of `graphcycles.cc`.  The pointer map is a hash table
of linked lists that run through the nodes: `table` has the first node of each bucket and
`nextHash` the node that follows.  The index `-1`, the end of a list, is `none`.

* `Rep.find`, `Rep.add`, `Rep.remove` are the operations; `none` is a call that does not return;
* `Rep.Chain` reads a list off the nodes, `Rep.Chains` says that every bucket is a list of nodes
  that hash to it;
* `find_spec`, `chains_add`, `remove_spec` say what the operations do to these lists;
* `Rep.Represents` hides the lists: the pointer map is a finite map `m` from pointers to nodes, and
  `Represents.find`, `Represents.add`, `Represents.remove` are the operations on `m`.

The scratch vectors of `Rep` are left out: every function clears those it uses.
-/

namespace BugInsight

/-- `Node`. -/
structure Node where
  /-- rank number assigned by the Pearce-Kelly algorithm -/
  rank : ℕ := 0
  /-- current version number -/
  version : ℕ := 0
  /-- next entry in hash table -/
  nextHash : Option ℕ := none
  /-- temporary marker used by depth-first search -/
  visited : Bool := false
  /-- user-supplied pointer -/
  maskedPtr : ℕ := nullptr
  /-- immediate predecessors -/
  inSet : NodeSet := NodeSet.empty
  /-- immediate successors -/
  outSet : NodeSet := NodeSet.empty
  /-- priority of recorded stack trace -/
  priority : ℤ := 0
  callstack : Callstack := {}
  holdLocksCount : ℕ := 0
  holdLocks : List Lock := []
  threadId : ℕ := 0

instance : Inhabited Node := ⟨{}⟩

namespace Node

/-- Assignment to `next_hash`. -/
def setNextHash (l : Option ℕ) (n : Node) : Node := { n with nextHash := l }

/-- Assignment to `visited`. -/
def setVisited (b : Bool) (n : Node) : Node := { n with visited := b }

/-- Assignment to `rank`. -/
def setRank (k : ℕ) (n : Node) : Node := { n with rank := k }

/-- Update of `in`. -/
def updateIn (f : NodeSet → NodeSet) (n : Node) : Node := { n with inSet := f n.inSet }

/-- Update of `out`. -/
def updateOut (f : NodeSet → NodeSet) (n : Node) : Node := { n with outSet := f n.outSet }

end Node

/-- The number of buckets of the pointer map. -/
def kHashTableSize : ℕ := 8171

/-- `GraphCycles::Rep`: the nodes, the unused entries (the back of the vector is the head of the
list) and the buckets of the pointer map. -/
structure Rep where
  nodes : List Node
  freeNodes : List ℕ
  table : Fin kHashTableSize → Option ℕ

namespace Rep

/-- The empty graph. -/
def empty : Rep := ⟨[], [], fun _ => none⟩

/-- `nodes_[i]`. -/
def node (r : Rep) (i : ℕ) : Node := r.nodes.getD i default

/-- Update `nodes_[i]` in place. -/
def modifyNode (r : Rep) (i : ℕ) (f : Node → Node) : Rep := { r with nodes := r.nodes.modify i f }

/-- `PointerMap::Hash`. -/
def hash (ptr : ℕ) : Fin kHashTableSize := ⟨ptr % kHashTableSize, Nat.mod_lt _ (by decide)⟩

/-- One round of the loop of `PointerMap::Find`. -/
def findBody (r : Rep) (ptr : ℕ) : Option ℕ → Option ℕ ⊕ Option ℕ
  | none => .inr none
  | some i => if (r.node i).maskedPtr = ptr then .inr (some i) else .inl (r.node i).nextHash

/-- `PointerMap::Find`.  A search that passes more nodes than there are has passed one twice and
never returns. -/
def find (r : Rep) (ptr : ℕ) : Option (Option ℕ) :=
  Loop.iterate (r.findBody ptr) (r.nodes.length + 1) (r.table (hash ptr))

/-- `PointerMap::Add`. -/
def add (r : Rep) (ptr i : ℕ) : Rep :=
  let r' := r.modifyNode i (Node.setNextHash (r.table (hash ptr)))
  { r' with table := Function.update r.table (hash ptr) (some i) }

/-- The place a link is stored in: a bucket, or the `next_hash` of a node. -/
inductive Slot
  | bucket (b : Fin kHashTableSize)
  | next (i : ℕ)

/-- `*slot`. -/
def readSlot (r : Rep) : Slot → Option ℕ
  | .bucket b => r.table b
  | .next i => (r.node i).nextHash

/-- Assignment to `*slot`. -/
def writeSlot (r : Rep) (l : Option ℕ) : Slot → Rep
  | .bucket b => { r with table := Function.update r.table b l }
  | .next i => r.modifyNode i (Node.setNextHash l)

/-- One round of the loop of `PointerMap::Remove`. -/
def removeBody (r : Rep) (ptr : ℕ) (slot : Slot) : Slot ⊕ Option (Slot × ℕ) :=
  match r.readSlot slot with
  | none => .inr none
  | some i => if (r.node i).maskedPtr = ptr then .inr (some (slot, i)) else .inl (.next i)

/-- `PointerMap::Remove`. -/
def remove (r : Rep) (ptr : ℕ) : Option (Rep × Option ℕ) := do
  match ← Loop.iterate (r.removeBody ptr) (r.nodes.length + 1) (.bucket (hash ptr)) with
  | none => return (r, none)
  | some (slot, i) =>
      let r' := r.writeSlot (r.node i).nextHash slot
      return (r'.modifyNode i (Node.setNextHash none), some i)

/-! ### Node updates -/

@[simp] theorem length_modifyNode (r : Rep) (i : ℕ) (f : Node → Node) :
    (r.modifyNode i f).nodes.length = r.nodes.length := List.length_modify ..

@[simp] theorem freeNodes_modifyNode (r : Rep) (i : ℕ) (f : Node → Node) :
    (r.modifyNode i f).freeNodes = r.freeNodes := rfl

@[simp] theorem table_modifyNode (r : Rep) (i : ℕ) (f : Node → Node) :
    (r.modifyNode i f).table = r.table := rfl

theorem node_modifyNode (r : Rep) (i j : ℕ) (f : Node → Node) :
    (r.modifyNode i f).node j =
      if i = j ∧ j < r.nodes.length then f (r.node j) else r.node j := by
  by_cases hj : j < r.nodes.length
  · by_cases hij : i = j
    · subst hij; simp [node, modifyNode, hj]
    · simp [node, modifyNode, hj, hij]
  · simp [node, modifyNode, hj]

theorem node_modifyNode_self {r : Rep} {i : ℕ} (hi : i < r.nodes.length) (f : Node → Node) :
    (r.modifyNode i f).node i = f (r.node i) := by
  rw [node_modifyNode, if_pos ⟨rfl, hi⟩]

theorem node_modifyNode_of_ne {r : Rep} {i j : ℕ} (h : i ≠ j) (f : Node → Node) :
    (r.modifyNode i f).node j = r.node j := by
  rw [node_modifyNode, if_neg fun hc => h hc.1]

/-- A field that the update leaves alone. -/
theorem field_modifyNode {α : Type*} (r : Rep) (i j : ℕ) (f : Node → Node) (g : Node → α)
    (h : ∀ n, g (f n) = g n) : g ((r.modifyNode i f).node j) = g (r.node j) := by
  rw [node_modifyNode]
  split_ifs
  · exact h _
  · rfl

/-! ### Linked lists -/

/-- Following `nextHash` from `start` passes exactly the nodes of the list. -/
def Chain (r : Rep) : Option ℕ → List ℕ → Prop
  | start, [] => start = none
  | start, i :: l => start = some i ∧ i < r.nodes.length ∧ Chain r (r.node i).nextHash l

/-- The buckets are the lists `ch`, without repetition, of nodes that hash to them. -/
structure Chains (r : Rep) (ch : Fin kHashTableSize → List ℕ) : Prop where
  chain : ∀ b, r.Chain (r.table b) (ch b)
  nodup : ∀ b, (ch b).Nodup
  hash_eq : ∀ b, ∀ i ∈ ch b, hash (r.node i).maskedPtr = b

theorem Chain.lt {r : Rep} {start : Option ℕ} {l : List ℕ} (h : r.Chain start l) :
    ∀ i ∈ l, i < r.nodes.length := by
  induction l generalizing start with
  | nil => simp
  | cons j l ih =>
    obtain ⟨-, hj, hl⟩ := h
    simpa using ⟨hj, fun i hi => ih hl i hi⟩

/-- A list is unchanged when the links of its nodes are. -/
theorem Chain.congr {r r' : Rep} {start : Option ℕ} {l : List ℕ} (h : r.Chain start l)
    (hlen : r'.nodes.length = r.nodes.length)
    (hlink : ∀ i ∈ l, (r'.node i).nextHash = (r.node i).nextHash) : r'.Chain start l := by
  induction l generalizing start with
  | nil => exact h
  | cons j l ih =>
    obtain ⟨hs, hj, hl⟩ := h
    refine ⟨hs, by omega, ?_⟩
    rw [hlink j (by simp)]
    exact ih hl fun i hi => hlink i (by simp [hi])

theorem length_le_of_nodup {l : List ℕ} {n : ℕ} (hnd : l.Nodup) (hlt : ∀ i ∈ l, i < n) :
    l.length ≤ n := by
  rw [← List.toFinset_card_of_nodup hnd, ← Finset.card_range n]
  exact Finset.card_le_card fun i hi => Finset.mem_range.2 (hlt i (List.mem_toFinset.1 hi))

theorem Chains.length_le {r : Rep} {ch : Fin kHashTableSize → List ℕ} (h : r.Chains ch)
    (b : Fin kHashTableSize) : (ch b).length ≤ r.nodes.length :=
  length_le_of_nodup (h.nodup b) (h.chain b).lt

/-- A node is in the bucket of its pointer or in none. -/
theorem Chains.mem_bucket {r : Rep} {ch : Fin kHashTableSize → List ℕ} (h : r.Chains ch)
    {b : Fin kHashTableSize} {i : ℕ} (hi : i ∈ ch b) : i ∈ ch (hash (r.node i).maskedPtr) := by
  rw [h.hash_eq b i hi]; exact hi

theorem iterate_findBody {r : Rep} (ptr : ℕ) {l : List ℕ} {start : Option ℕ} {n : ℕ}
    (h : r.Chain start l) (hn : l.length < n) :
    Loop.iterate (r.findBody ptr) n start =
      some (l.find? fun i => decide ((r.node i).maskedPtr = ptr)) := by
  induction l generalizing start n with
  | nil =>
    obtain ⟨n, rfl⟩ : ∃ m, n = m + 1 := ⟨n - 1, by simp at hn; omega⟩
    cases h
    rw [Loop.iterate_succ_inr (show r.findBody ptr none = .inr none from rfl)]
    rfl
  | cons i l ih =>
    obtain ⟨rfl, hi, hl⟩ := h
    rw [List.length_cons] at hn
    obtain ⟨n, rfl⟩ : ∃ m, n = m + 1 := ⟨n - 1, by omega⟩
    by_cases hp : (r.node i).maskedPtr = ptr
    · rw [Loop.iterate_succ_inr (b := some i) (by simp [findBody, hp]),
        List.find?_cons_of_pos (by simpa using hp)]
    · have hb : r.findBody ptr (some i) = .inl (r.node i).nextHash := by simp [findBody, hp]
      rw [Loop.iterate_succ_inl hb,
        ih hl (by omega), List.find?_cons_of_neg (by simpa using hp)]

/-- **`PointerMap::Find`** returns the node with this pointer in the bucket of the pointer. -/
theorem find_spec {r : Rep} {ch : Fin kHashTableSize → List ℕ} (h : r.Chains ch) (ptr : ℕ) :
    r.find ptr =
      some ((ch (hash ptr)).find? fun i => decide ((r.node i).maskedPtr = ptr)) :=
  iterate_findBody ptr (h.chain _) (Nat.lt_succ_of_le (h.length_le _))

/-! ### Adding a node -/

theorem node_add (r : Rep) (ptr i j : ℕ) :
    (r.add ptr i).node j =
      if i = j ∧ j < r.nodes.length then (r.node j).setNextHash (r.table (hash ptr))
      else r.node j :=
  node_modifyNode r i j _

@[simp] theorem length_add (r : Rep) (ptr i : ℕ) :
    (r.add ptr i).nodes.length = r.nodes.length := length_modifyNode ..

/-- **`PointerMap::Add`** puts the node in front of its bucket. -/
theorem chains_add {r : Rep} {ch : Fin kHashTableSize → List ℕ} (h : r.Chains ch) {i : ℕ}
    (hi : i < r.nodes.length) (hfresh : ∀ b, i ∉ ch b) {ptr : ℕ}
    (hptr : (r.node i).maskedPtr = ptr) :
    (r.add ptr i).Chains (Function.update ch (hash ptr) (i :: ch (hash ptr))) := by
  have hold : ∀ b, (r.add ptr i).Chain (r.table b) (ch b) := fun b =>
    (h.chain b).congr (length_add ..) fun j hj => by
      rw [node_add, if_neg]
      rintro ⟨rfl, -⟩
      exact hfresh b hj
  have hmask : ∀ j, ((r.add ptr i).node j).maskedPtr = (r.node j).maskedPtr := fun j => by
    rw [node_add]; split_ifs <;> rfl
  refine ⟨fun b => ?_, fun b => ?_, fun b j hj => ?_⟩
  all_goals by_cases hb : b = hash ptr
  · subst hb
    rw [Function.update_self]
    refine ⟨Function.update_self .., by rwa [length_add], ?_⟩
    rw [node_add, if_pos ⟨rfl, hi⟩]
    exact hold _
  · rw [Function.update_of_ne hb]
    rw [show (r.add ptr i).table b = r.table b from Function.update_of_ne hb ..]
    exact hold b
  · subst hb
    rw [Function.update_self]
    exact List.nodup_cons.2 ⟨hfresh _, h.nodup _⟩
  · rw [Function.update_of_ne hb]
    exact h.nodup b
  · subst hb
    rw [Function.update_self, List.mem_cons] at hj
    rw [hmask]
    rcases hj with rfl | hj
    · rw [hptr]
    · exact h.hash_eq _ j hj
  · rw [Function.update_of_ne hb] at hj
    rw [hmask]
    exact h.hash_eq b j hj

/-! ### Removing a node -/

/-- The link before the first node with this pointer, and the node. -/
def scan (r : Rep) (ptr : ℕ) : Slot → List ℕ → Option (Slot × ℕ)
  | _, [] => none
  | slot, i :: l => if (r.node i).maskedPtr = ptr then some (slot, i) else scan r ptr (.next i) l

theorem iterate_removeBody {r : Rep} (ptr : ℕ) {l : List ℕ} (slot : Slot) {n : ℕ}
    (h : r.Chain (r.readSlot slot) l) (hn : l.length < n) :
    Loop.iterate (r.removeBody ptr) n slot = some (r.scan ptr slot l) := by
  induction l generalizing slot n with
  | nil =>
    obtain ⟨n, rfl⟩ : ∃ m, n = m + 1 := ⟨n - 1, by simp at hn; omega⟩
    have hs : r.readSlot slot = none := h
    rw [Loop.iterate_succ_inr (b := none) (by simp [removeBody, hs])]
    rfl
  | cons i l ih =>
    obtain ⟨hs, hi, hl⟩ := h
    rw [List.length_cons] at hn
    obtain ⟨n, rfl⟩ : ∃ m, n = m + 1 := ⟨n - 1, by omega⟩
    by_cases hp : (r.node i).maskedPtr = ptr
    · rw [Loop.iterate_succ_inr (b := some (slot, i)) (by simp [removeBody, hs, hp])]
      simp [scan, hp]
    · have hb : r.removeBody ptr slot = .inl (.next i) := by simp [removeBody, hs, hp]
      rw [Loop.iterate_succ_inl hb, ih (.next i) hl (by omega)]
      simp [scan, hp]

theorem scan_eq_none {r : Rep} {ptr : ℕ} {slot : Slot} {l : List ℕ} (h : r.scan ptr slot l = none) :
    l.find? (fun i => decide ((r.node i).maskedPtr = ptr)) = none := by
  induction l generalizing slot with
  | nil => rfl
  | cons i l ih =>
    unfold scan at h
    split_ifs at h with hp
    rw [List.find?_cons_of_neg (by simpa using hp)]
    exact ih h

theorem scan_eq_some {r : Rep} {ptr : ℕ} {slot s : Slot} {l : List ℕ} {i : ℕ}
    (h : r.scan ptr slot l = some (s, i)) :
    l.find? (fun i => decide ((r.node i).maskedPtr = ptr)) = some i ∧
      (s = slot ∨ ∃ k ∈ l, s = .next k) := by
  induction l generalizing slot with
  | nil => simp [scan] at h
  | cons j l ih =>
    unfold scan at h
    split_ifs at h with hp
    · cases h
      exact ⟨List.find?_cons_of_pos (by simpa using hp), Or.inl rfl⟩
    · obtain ⟨hf, hs⟩ := ih h
      refine ⟨by rw [List.find?_cons_of_neg (by simpa using hp)]; exact hf, Or.inr ?_⟩
      rcases hs with rfl | ⟨k, hk, rfl⟩
      · exact ⟨j, by simp, rfl⟩
      · exact ⟨k, by simp [hk], rfl⟩

/-- The slot is a bucket or belongs to a node of the graph. -/
def SlotValid (r : Rep) : Slot → Prop
  | .bucket _ => True
  | .next i => i < r.nodes.length

@[simp] theorem length_writeSlot (r : Rep) (l : Option ℕ) (s : Slot) :
    (r.writeSlot l s).nodes.length = r.nodes.length := by
  cases s <;> simp [writeSlot]

@[simp] theorem freeNodes_writeSlot (r : Rep) (l : Option ℕ) (s : Slot) :
    (r.writeSlot l s).freeNodes = r.freeNodes := by
  cases s <;> rfl

/-- Writing a slot touches nothing but links. -/
theorem node_writeSlot (r : Rep) (l : Option ℕ) (s : Slot) (j : ℕ) :
    ∃ l', (r.writeSlot l s).node j = (r.node j).setNextHash l' := by
  cases s with
  | bucket b => exact ⟨_, rfl⟩
  | next i =>
    rw [writeSlot, node_modifyNode]
    split_ifs
    · exact ⟨l, rfl⟩
    · exact ⟨_, rfl⟩

theorem readSlot_writeSlot_self {r : Rep} {l : Option ℕ} {s : Slot} (hs : r.SlotValid s) :
    (r.writeSlot l s).readSlot s = l := by
  cases s with
  | bucket b => exact Function.update_self ..
  | next i =>
    show ((r.writeSlot l (.next i)).node i).nextHash = l
    rw [writeSlot, node_modifyNode_self hs]
    rfl

theorem readSlot_writeSlot_of_ne {r : Rep} {l : Option ℕ} {s : Slot} (s' : Slot) (h : s' ≠ s) :
    (r.writeSlot l s).readSlot s' = r.readSlot s' := by
  cases s with
  | bucket b =>
    cases s' with
    | bucket b' => exact Function.update_of_ne (fun hc => h (by rw [hc])) ..
    | next i => rfl
  | next i =>
    cases s' with
    | bucket b => rfl
    | next j =>
      show ((r.writeSlot l (.next i)).node j).nextHash = (r.node j).nextHash
      rw [writeSlot, node_modifyNode_of_ne fun hc => h (by rw [hc])]

/-- Bypassing the node that `scan` finds takes it off the list. -/
theorem chain_writeSlot {r : Rep} {ptr : ℕ} (slot : Slot) {s : Slot} {l : List ℕ} {i : ℕ}
    (h : r.Chain (r.readSlot slot) l) (hnd : l.Nodup) (hslot : ∀ k ∈ l, slot ≠ .next k)
    (hv : r.SlotValid slot) (hscan : r.scan ptr slot l = some (s, i)) :
    (r.writeSlot (r.node i).nextHash s).Chain
      ((r.writeSlot (r.node i).nextHash s).readSlot slot) (l.erase i) := by
  induction l generalizing slot with
  | nil => simp [scan] at hscan
  | cons j l ih =>
    obtain ⟨hs, hj, hl⟩ := h
    obtain ⟨hjl, hnd'⟩ := List.nodup_cons.1 hnd
    have hscan' := hscan
    unfold scan at hscan
    split_ifs at hscan with hp
    · cases hscan
      rw [List.erase_cons_head, readSlot_writeSlot_self hv]
      refine hl.congr (length_writeSlot ..) fun k hk => ?_
      exact readSlot_writeSlot_of_ne (.next k) fun hc => hslot k (by simp [hk]) hc.symm
    · have hne : ∀ k ∈ l, Slot.next j ≠ .next k := fun k hk hc => by
        cases hc; exact hjl hk
      have hrec := ih (.next j) hl hnd' hne hj hscan
      have hil : i ∈ l := List.mem_of_find?_eq_some (scan_eq_some hscan).1
      have hij : j ≠ i := fun hc => hjl (hc ▸ hil)
      have hsne : slot ≠ s := by
        rcases (scan_eq_some hscan).2 with rfl | ⟨k, hk, rfl⟩
        · exact hslot j (by simp)
        · exact hslot k (by simp [hk])
      rw [List.erase_cons_tail (by simpa using hij), readSlot_writeSlot_of_ne slot hsne, hs]
      exact ⟨rfl, by rwa [length_writeSlot], hrec⟩

/-- What `PointerMap::Remove` leaves alone: everything but links. -/
structure SameButLinks (r r' : Rep) : Prop where
  length : r'.nodes.length = r.nodes.length
  freeNodes : r'.freeNodes = r.freeNodes
  node : ∀ j, ∃ l, r'.node j = (r.node j).setNextHash l

theorem sameButLinks_unlink (r : Rep) (l : Option ℕ) (s : Slot) (i : ℕ) :
    r.SameButLinks ((r.writeSlot l s).modifyNode i (Node.setNextHash none)) := by
  refine ⟨?_, ?_, fun j => ?_⟩
  · rw [length_modifyNode, length_writeSlot]
  · rw [freeNodes_modifyNode, freeNodes_writeSlot]
  · obtain ⟨l', hl⟩ := node_writeSlot r l s j
    rw [node_modifyNode, hl]
    split_ifs
    · exact ⟨none, rfl⟩
    · exact ⟨l', rfl⟩

/-- The node at the slot of a bucket is taken off it, and the other buckets stay as they are. -/
theorem chains_unlink {r : Rep} {ch : Fin kHashTableSize → List ℕ} (h : r.Chains ch) {ptr i : ℕ}
    {s : Slot} (hscan : r.scan ptr (.bucket (hash ptr)) (ch (hash ptr)) = some (s, i)) :
    ((r.writeSlot (r.node i).nextHash s).modifyNode i (Node.setNextHash none)).Chains
      (Function.update ch (hash ptr) ((ch (hash ptr)).erase i)) := by
  obtain ⟨hfind, hs⟩ := scan_eq_some hscan
  set r₁ := r.writeSlot (r.node i).nextHash s with hr₁
  have hchain : r₁.Chain (r₁.table (hash ptr)) ((ch (hash ptr)).erase i) :=
    chain_writeSlot (.bucket (hash ptr)) (h.chain _) (h.nodup _)
      (fun k _ hc => by cases hc) trivial hscan
  have hlen : r₁.nodes.length = r.nodes.length := length_writeSlot ..
  have hmask : ∀ j, ((r₁.modifyNode i (Node.setNextHash none)).node j).maskedPtr =
      (r.node j).maskedPtr := fun j => by
    obtain ⟨l, hl⟩ := (sameButLinks_unlink r (r.node i).nextHash s i).node j
    rw [hl]
    rfl
  have hmem : i ∈ ch (hash ptr) := List.mem_of_find?_eq_some hfind
  refine ⟨fun b => ?_, fun b => ?_, fun b j hj => ?_⟩
  all_goals by_cases hb : b = hash ptr
  · subst hb
    rw [Function.update_self, table_modifyNode]
    refine hchain.congr (length_modifyNode ..) fun k hk => ?_
    have hki : i ≠ k := by
      rintro rfl
      exact (List.Nodup.not_mem_erase (h.nodup _)) hk
    rw [node_modifyNode_of_ne hki]
  · rw [Function.update_of_ne hb, table_modifyNode]
    -- the link that was written does not belong to another bucket
    have hother : ∀ k ∈ ch b, Slot.next k ≠ s ∧ i ≠ k := by
      intro k hk
      have hkb := h.hash_eq b k hk
      constructor
      · rintro rfl
        rcases hs with hs | ⟨k', hk', hs⟩
        · cases hs
        · cases hs
          exact hb (hkb.symm.trans (h.hash_eq _ k hk'))
      · rintro rfl
        exact hb (hkb.symm.trans (h.hash_eq _ i hmem))
    have htable : r₁.table b = r.table b := by
      refine readSlot_writeSlot_of_ne (.bucket b) ?_
      rcases hs with rfl | ⟨k', hk', rfl⟩
      · exact fun hc => hb (by cases hc; rfl)
      · exact fun hc => by cases hc
    rw [htable]
    refine (h.chain b).congr (by rw [length_modifyNode, hlen]) fun k hk => ?_
    rw [node_modifyNode_of_ne (hother k hk).2]
    exact readSlot_writeSlot_of_ne (.next k) (hother k hk).1
  · subst hb
    rw [Function.update_self]
    exact (h.nodup _).erase i
  · rw [Function.update_of_ne hb]
    exact h.nodup b
  · subst hb
    rw [Function.update_self] at hj
    rw [hmask]
    exact h.hash_eq _ j (List.mem_of_mem_erase hj)
  · rw [Function.update_of_ne hb] at hj
    rw [hmask]
    exact h.hash_eq b j hj

/-- **`PointerMap::Remove`** takes the node with this pointer off its bucket and returns it. -/
theorem remove_spec {r : Rep} {ch : Fin kHashTableSize → List ℕ} (h : r.Chains ch) (ptr : ℕ) :
    ∃ r', r.remove ptr =
        some (r', (ch (hash ptr)).find? fun i => decide ((r.node i).maskedPtr = ptr)) ∧
      r.SameButLinks r' ∧
      (∀ i, (ch (hash ptr)).find? (fun i => decide ((r.node i).maskedPtr = ptr)) = some i →
        r'.Chains (Function.update ch (hash ptr) ((ch (hash ptr)).erase i))) ∧
      ((ch (hash ptr)).find? (fun i => decide ((r.node i).maskedPtr = ptr)) = none → r' = r) := by
  have hloop := iterate_removeBody ptr (.bucket (hash ptr)) (h.chain (hash ptr))
    (Nat.lt_succ_of_le (h.length_le _))
  cases hscan : r.scan ptr (.bucket (hash ptr)) (ch (hash ptr)) with
  | none =>
    rw [hscan] at hloop
    have hnone := scan_eq_none hscan
    refine ⟨r, by simp [remove, hloop, hnone], ⟨rfl, rfl, fun j => ⟨_, rfl⟩⟩, fun i hi => ?_,
      fun _ => rfl⟩
    rw [hnone] at hi
    cases hi
  | some p =>
    obtain ⟨s, i⟩ := p
    rw [hscan] at hloop
    have hfind := (scan_eq_some hscan).1
    refine ⟨_, by simp [remove, hloop, hfind], sameButLinks_unlink r (r.node i).nextHash s i,
      fun i' hi' => ?_, fun hnone => ?_⟩
    · rw [hfind] at hi'
      cases hi'
      exact chains_unlink h hscan
    · rw [hfind] at hnone
      cases hnone

/-! ### The map behind the lists -/

/-- The pointer map has the entries `m`. -/
def Represents (r : Rep) (m : ℕ → Option ℕ) : Prop :=
  ∃ ch, r.Chains ch ∧ ∀ p i, m p = some i ↔ i ∈ ch (hash p) ∧ (r.node i).maskedPtr = p

namespace Represents

variable {r r' : Rep} {m : ℕ → Option ℕ} {p i : ℕ}

theorem empty : Rep.empty.Represents fun _ => none :=
  ⟨fun _ => [], ⟨fun _ => rfl, fun _ => List.nodup_nil, fun _ _ h => by cases h⟩,
    fun _ _ => by simp⟩

theorem lt (h : r.Represents m) (hp : m p = some i) : i < r.nodes.length := by
  obtain ⟨ch, hch, hm⟩ := h
  exact (hch.chain _).lt i ((hm p i).1 hp).1

theorem maskedPtr (h : r.Represents m) (hp : m p = some i) : (r.node i).maskedPtr = p := by
  obtain ⟨ch, -, hm⟩ := h
  exact ((hm p i).1 hp).2

/-- A node has one pointer. -/
theorem inj (h : r.Represents m) {q : ℕ} (hp : m p = some i) (hq : m q = some i) : p = q :=
  (h.maskedPtr hp).symm.trans (h.maskedPtr hq)

theorem find?_eq {ch : Fin kHashTableSize → List ℕ}
    (hm : ∀ p i, m p = some i ↔ i ∈ ch (hash p) ∧ (r.node i).maskedPtr = p) (p : ℕ) :
    (ch (hash p)).find? (fun i => decide ((r.node i).maskedPtr = p)) = m p := by
  cases hf : (ch (hash p)).find? fun i => decide ((r.node i).maskedPtr = p) with
  | none =>
    cases hmp : m p with
    | none => rfl
    | some i =>
      obtain ⟨hi, hip⟩ := (hm p i).1 hmp
      have := List.find?_eq_none.1 hf i hi
      exact absurd hip (by simpa using this)
  | some i =>
    have hip : (r.node i).maskedPtr = p := by simpa using List.find?_some hf
    exact ((hm p i).2 ⟨List.mem_of_find?_eq_some hf, hip⟩).symm

/-- `PointerMap::Find` looks the pointer up. -/
theorem find (h : r.Represents m) (p : ℕ) : r.find p = some (m p) := by
  obtain ⟨ch, hch, hm⟩ := h
  rw [find_spec hch, find?_eq hm]

/-- The map depends on the buckets, the links and the pointers of the nodes in it only. -/
theorem congr (h : r.Represents m) (hlen : r'.nodes.length = r.nodes.length)
    (htable : r'.table = r.table)
    (hnode : ∀ p i, m p = some i → (r'.node i).nextHash = (r.node i).nextHash ∧
      (r'.node i).maskedPtr = (r.node i).maskedPtr) : r'.Represents m := by
  obtain ⟨ch, hch, hm⟩ := h
  have hin : ∀ b, ∀ i ∈ ch b, (r'.node i).nextHash = (r.node i).nextHash ∧
      (r'.node i).maskedPtr = (r.node i).maskedPtr := fun b i hi =>
    hnode _ i ((hm _ i).2 ⟨hch.mem_bucket hi, rfl⟩)
  refine ⟨ch, ⟨fun b => ?_, hch.nodup, fun b i hi => ?_⟩, fun p i => ?_⟩
  · rw [htable]
    exact (hch.chain b).congr hlen fun i hi => (hin b i hi).1
  · rw [(hin b i hi).2]
    exact hch.hash_eq b i hi
  · rw [hm]
    exact and_congr_right fun hi => by rw [(hin _ i hi).2]

/-- `PointerMap::Add` adds an entry for a node that has none. -/
theorem add (h : r.Represents m) (hi : i < r.nodes.length) (hfresh : ∀ q, m q ≠ some i)
    (hptr : (r.node i).maskedPtr = p) (hp : m p = none) :
    (r.add p i).Represents (Function.update m p (some i)) := by
  obtain ⟨ch, hch, hm⟩ := h
  have hnot : ∀ b, i ∉ ch b := fun b hb => hfresh _ ((hm _ i).2 ⟨hch.mem_bucket hb, rfl⟩)
  refine ⟨_, chains_add hch hi hnot hptr, fun q j => ?_⟩
  have hmask : ((r.add p i).node j).maskedPtr = (r.node j).maskedPtr := by
    rw [node_add]; split_ifs <;> rfl
  rw [hmask]
  by_cases hq : q = p
  · subst hq
    rw [Function.update_self, Function.update_self, Option.some_inj, List.mem_cons]
    constructor
    · rintro rfl
      exact ⟨Or.inl rfl, hptr⟩
    · rintro ⟨rfl | hj, hjq⟩
      · rfl
      · rw [(hm q j).2 ⟨hj, hjq⟩] at hp
        cases hp
  · rw [Function.update_of_ne hq, hm]
    refine and_congr_left fun hj => ?_
    by_cases hb : hash q = hash p
    · rw [hb, Function.update_self, List.mem_cons]
      refine ⟨Or.inr, fun hor => hor.resolve_left ?_⟩
      rintro rfl
      exact hq (hj.symm.trans hptr)
    · rw [Function.update_of_ne hb]

/-- `PointerMap::Remove` removes the entry of the pointer and returns it. -/
theorem remove (h : r.Represents m) (p : ℕ) :
    ∃ r', r.remove p = some (r', m p) ∧ r.SameButLinks r' ∧
      r'.Represents (Function.update m p none) ∧ (m p = none → r' = r) := by
  obtain ⟨ch, hch, hm⟩ := h
  obtain ⟨r', hr', hsame, hsome, hnone⟩ := remove_spec hch p
  rw [find?_eq hm] at hr' hsome hnone
  refine ⟨r', hr', hsame, ?_, hnone⟩
  have hmask : ∀ j, (r'.node j).maskedPtr = (r.node j).maskedPtr := fun j => by
    obtain ⟨l, hl⟩ := hsame.node j
    rw [hl]
    rfl
  cases hmp : m p with
  | none =>
    rw [hnone hmp, show Function.update m p none = m by rw [← hmp, Function.update_eq_self]]
    exact ⟨ch, hch, hm⟩
  | some i =>
    refine ⟨_, hsome i hmp, fun q j => ?_⟩
    rw [hmask]
    have hip := ((hm p i).1 hmp).2
    by_cases hq : q = p
    · subst hq
      rw [Function.update_self, Function.update_self]
      refine ⟨fun hc => (by cases hc), ?_⟩
      rintro ⟨hj, hjq⟩
      have hji : j = i :=
        Option.some_inj.1 (((hm q j).2 ⟨List.mem_of_mem_erase hj, hjq⟩).symm.trans hmp)
      exact absurd (hji ▸ hj) (List.Nodup.not_mem_erase (hch.nodup _))
    · rw [Function.update_of_ne hq, hm]
      refine and_congr_left fun hj => ?_
      by_cases hb : hash q = hash p
      · have hji : j ≠ i := fun hc => hq (hj.symm.trans (hc ▸ hip))
        rw [hb, Function.update_self, List.mem_erase_of_ne hji]
      · rw [Function.update_of_ne hb]

end Represents

end Rep

end BugInsight

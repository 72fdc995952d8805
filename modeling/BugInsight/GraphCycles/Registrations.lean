import BugInsight.GraphCycles.Evolution
import BugInsight.GraphCycles.Refinement32

/-!
# Registrations

A pointer is registered by the `GetId` that creates its node, until its `RemoveNode`.  The ids of
two registrations are never the same, however often a node is used again: the version of a node only
grows, and a node whose version has reached its maximum is not used again.

* `Reached`: every sequence of operations whose ids all came from earlier `GetId` calls;
* `Reached32`: the same with sets and stacks of 32 bits;
* `exec_follows`: what one operation does to an id that was issued;
* `ids_never_alias`: the ids of a whole sequence.
-/

namespace BugInsight

namespace Rep

/-- A sequence of operations on the empty graph, with ids that came from `GetId`. -/
inductive Reached : History → Rep → Prop
  | nil : Reached [] empty
  | step {h : History} {r r' : Rep} {op : Op} {res : Result} (hrun : Reached h r)
      (hids : ∀ id ∈ op.ids, id ∈ h.issued) (hexec : r.exec op = some (r', res)) :
      Reached (h ++ [(op, res)]) r'

/-- The bounded sequences. -/
theorem Run.reached {h : History} {r : Rep} (hrun : Run h r) : Reached h r := by
  induction hrun with
  | nil => exact .nil
  | step _ hids hexec _ ih => exact .step ih hids hexec

/-- The same with sets and stacks of 32 bits: all calls return. -/
inductive Reached32 : History → Rep → Prop
  | nil : Reached32 [] empty
  | step {h : History} {r r' : Rep} {op : Op} {res : Result} (hrun : Reached32 h r)
      (hids : ∀ id ∈ op.ids, id ∈ h.issued) (hexec : r.exec32 op = some (r', res)) :
      Reached32 (h ++ [(op, res)]) r'

theorem Reached32.reached {h : History} {r : Rep} (hrun : Reached32 h r) : Reached h r := by
  induction hrun with
  | nil => exact .nil
  | step _ hids hexec ih => exact ih.step hids (exec_of_exec32 hexec).2

theorem Reached.concat {h : History} {e : Op × Result} {r' : Rep} (hrun : Reached (h ++ [e]) r') :
    ∃ r, Reached h r ∧ (∀ id ∈ e.1.ids, id ∈ h.issued) ∧ r.exec e.1 = some (r', e.2) := by
  generalize hl : h ++ [e] = l at hrun
  cases hrun with
  | nil => simp at hl
  | step hrun hids hexec =>
    obtain ⟨rfl, heq⟩ := List.append_inj' hl rfl
    cases heq
    exact ⟨_, hrun, hids, hexec⟩

/-- A part of a sequence, from its start. -/
theorem Reached.of_append {h h' : History} {r : Rep} (hrun : Reached (h ++ h') r) :
    ∃ r₁, Reached h r₁ := by
  induction h' using List.reverseRecOn generalizing r with
  | nil => exact ⟨r, by rwa [List.append_nil] at hrun⟩
  | append_singleton h' e ih =>
    rw [← List.append_assoc] at hrun
    obtain ⟨r₁, hr₁, -, -⟩ := hrun.concat
    exact ih hr₁

/-! ### One operation -/

variable {r r' : Rep} {m : ℕ → Option ℕ} {id p : ℕ} {op : Op} {res : Result}

/-- The node of an id that was issued and is still found is in use. -/
theorem Issued.used (h : NodesInv r m) (hid : Issued r m id p)
    (hfind : (r.findNode id).isSome = true) : r.Used (nodeIndex id) := by
  rcases (hid.findNode h).1 hfind with hc | ⟨hu, -⟩
  · exact h.used_of_mapped (hc.index h).1
  · exact hu

/-- **What an operation does to ids that were issued**: they stay issued, and they stay current
unless their pointer is removed.  The id that `GetId` returns is current, and no other id becomes
so. -/
theorem exec_follows (h : Inv r m) (hids : ∀ id ∈ op.ids, ∃ p, Issued r m id p)
    (hexec : r.exec op = some (r', res)) :
    ∃ m', Inv r' m' ∧
      (∀ id p, Issued r m id p → Issued r' m' id p ∧
        (Current r' m' id p ↔ Current r m id p ∧ op ≠ .removeNode p)) ∧
      (∀ tid p id, op = .getId tid p → res = .id id → Current r' m' id p) ∧
      ∀ id p, Current r' m' id p →
        Current r m id p ∨ ∃ tid, op = .getId tid p ∧ res = .id id := by
  have hsame : ∀ r'', SameNodes r r'' → (∀ p, op ≠ .removeNode p) →
      ∀ id p, Issued r m id p → Issued r'' m id p ∧
        (Current r'' m id p ↔ Current r m id p ∧ op ≠ .removeNode p) := by
    intro r'' hs hop id p hid
    exact ⟨hs.issued hid, by rw [hs.current, and_iff_left (hop p)]⟩
  cases op with
  | getId tid p =>
    obtain ⟨⟨r'', id'⟩, hg, heq⟩ := Option.map_eq_some_iff.1 hexec
    cases heq
    cases hp : m p with
    | some i =>
      rw [getId_known h hp] at hg
      cases hg
      refine ⟨m, h, hsame _ SameNodes.rfl (fun _ => by simp), ?_, fun _ _ hc => Or.inl hc⟩
      rintro tid' q id hop hres
      cases hop
      cases hres
      exact ⟨i, hp, rfl⟩
    | none =>
      obtain ⟨i, hreg, rfl⟩ := getId_new h hp hg
      have hcurrent : ∀ id q, Current r'' (Function.update m p (some i)) id q ↔
          if q = p then id = makeId i (r''.node i).version else Current r m id q :=
        fun id q => hreg.current_iff h.toNodesInv
      refine ⟨_, hreg.inv, fun id q hid => ⟨(hreg.issued hid).1, ?_⟩, ?_, fun id q hc => ?_⟩
      · rw [hcurrent, and_iff_left (by simp)]
        split_ifs with hq
        · refine iff_of_false (hreg.issued hid).2 ?_
          rintro ⟨j, hj, -⟩
          rw [hq, hp] at hj
          cases hj
        · rfl
      · rintro tid' q id hop hres
        cases hop
        cases hres
        exact ⟨i, Function.update_self .., rfl⟩
      · rw [hcurrent] at hc
        split_ifs at hc with hq
        · exact Or.inr ⟨tid, by rw [hq], by rw [hc]⟩
        · exact Or.inl hc
  | removeNode p =>
    obtain ⟨r'', hg, heq⟩ := Option.map_eq_some_iff.1 hexec
    cases heq
    cases hp : m p with
    | none =>
      rw [removeNode_unmapped h hp] at hg
      cases hg
      refine ⟨m, h, fun id q hid => ⟨hid, ?_⟩, fun _ _ _ hop => (by cases hop), fun _ _ => Or.inl⟩
      refine ⟨fun hc => ⟨hc, ?_⟩, And.left⟩
      rintro hop
      cases hop
      obtain ⟨j, hj, -⟩ := hc
      rw [hp] at hj
      cases hj
    | some i =>
      obtain ⟨r₁, hr₁, hrem⟩ := removeNode_mapped h hp
      cases hg.symm.trans hr₁
      refine ⟨_, hrem.inv, fun id q hid => ⟨hrem.issued h.toNodesInv hp hid, ?_⟩,
        fun _ _ _ hop => (by cases hop), fun id q hc => ?_⟩
      · rw [hrem.current_iff h.toNodesInv hp, and_comm]
        simp [eq_comm]
      · exact Or.inl ((hrem.current_iff h.toNodesInv hp).1 hc).2
  | insertEdge x y =>
    cases hexec
    have hedge : Inv (r.insertEdge x y).1 m ∧ SameNodes r (r.insertEdge x y).1 := by
      by_cases hfound : (r.findNode x).isSome = true ∧ (r.findNode y).isSome = true
      · obtain ⟨px, hx⟩ := hids x (by simp [Op.ids])
        obtain ⟨py, hy⟩ := hids y (by simp [Op.ids])
        have hins := insertEdge_spec h hfound.1 hfound.2 (hx.used h.toNodesInv hfound.1)
          (hy.used h.toNodesInv hfound.2)
        exact ⟨hins.inv, hins.same⟩
      · rw [insertEdge_expired hfound]
        exact ⟨h, SameNodes.rfl⟩
    exact ⟨m, hedge.1, hsame _ hedge.2 fun _ => by simp, fun _ _ _ hop => (by cases hop),
      fun _ _ hc => Or.inl (hedge.2.current.1 hc)⟩
  | removeEdge x y =>
    cases hexec
    obtain ⟨hinv, hs, -⟩ := removeEdge_spec h x y
    exact ⟨m, hinv, hsame _ hs fun _ => by simp, fun _ _ _ hop => (by cases hop),
      fun _ _ hc => Or.inl (hs.current.1 hc)⟩
  | hasEdge | ptr | isReachable =>
    cases hexec
    exact ⟨m, h, hsame _ SameNodes.rfl fun _ => by simp, fun _ _ _ hop => (by cases hop),
      fun _ _ hc => Or.inl hc⟩

/-! ### Whole sequences -/

/-- Every id that `GetId` has returned was issued, and it is current until its pointer is
removed. -/
structure Tracked (h : History) (r : Rep) (m : ℕ → Option ℕ) : Prop where
  inv : Inv r m
  issued : ∀ before tid p id later, h = before ++ (.getId tid p, .id id) :: later →
    Issued r m id p ∧ (Current r m id p ↔ Op.removeNode p ∉ later.map Prod.fst)

theorem Tracked.of_issued {h : History} (ht : Tracked h r m) (hid : id ∈ h.issued) :
    ∃ p, Issued r m id p := by
  obtain ⟨tid, p, hmem⟩ := hid
  obtain ⟨before, later, hh⟩ := List.append_of_mem hmem
  exact ⟨p, (ht.issued before tid p id later hh).1⟩

/-- One operation; no id becomes current but the one that `GetId` returns. -/
theorem Tracked.step {h : History} (ht : Tracked h r m) (hids : ∀ id ∈ op.ids, id ∈ h.issued)
    (hexec : r.exec op = some (r', res)) :
    ∃ m', Tracked (h ++ [(op, res)]) r' m' ∧ ∀ id p, Current r' m' id p →
      Current r m id p ∨ ∃ tid, op = .getId tid p ∧ res = .id id := by
  obtain ⟨m', hinv, hold, hnew, honly⟩ :=
    exec_follows ht.inv (fun id hid => ht.of_issued (hids id hid)) hexec
  refine ⟨m', ⟨hinv, fun before tid p id later hh => ?_⟩, honly⟩
  rcases List.eq_nil_or_concat later with rfl | ⟨later', e, rfl⟩
  · -- the id was returned just now
    obtain ⟨-, heq⟩ := List.append_inj' hh rfl
    have he := (List.cons.inj heq).1
    have hc := hnew tid p id (congrArg Prod.fst he) (congrArg Prod.snd he)
    exact ⟨hc.issued hinv.toNodesInv, iff_of_true hc (by simp)⟩
  · rw [List.concat_eq_append, ← List.cons_append, ← List.append_assoc] at hh
    obtain ⟨hh', heq⟩ := List.append_inj' hh rfl
    obtain ⟨hissued, hcurrent⟩ := ht.issued before tid p id later' hh'
    obtain ⟨hissued', hcurrent'⟩ := hold id p hissued
    refine ⟨hissued', ?_⟩
    rw [hcurrent', hcurrent, List.concat_eq_append, List.map_append, List.mem_append, not_or,
      ← (List.cons.inj heq).1]
    simp [eq_comm]

theorem tracked_nil : Tracked [] empty fun _ => none :=
  ⟨inv_empty, fun before tid p id later hh => by simp at hh⟩

/-- **The invariant** of a sequence. -/
theorem Reached.tracked {h : History} (hrun : Reached h r) : ∃ m, Tracked h r m := by
  induction hrun with
  | nil => exact ⟨_, tracked_nil⟩
  | step _ hids hexec ih =>
    obtain ⟨m, ht⟩ := ih
    obtain ⟨m', ht', -⟩ := ht.step hids hexec
    exact ⟨m', ht'⟩

/-- **Ids never alias.**  An id is never the invalid one; `Ptr` returns the pointer that it was
issued for until this pointer is removed, and `nullptr` ever after; and two calls of `GetId` return
the same id exactly if they are for the same pointer, which was not removed in between. -/
theorem ids_never_alias {h : History} {r : Rep} (hrun : Reached h r) :
    (∀ id ∈ h.issued, id ≠ invalidGraphId) ∧
      (∀ before tid p id later, h = before ++ (.getId tid p, .id id) :: later →
        (Op.removeNode p ∉ later.map Prod.fst → r.ptr id = p) ∧
          (Op.removeNode p ∈ later.map Prod.fst → r.ptr id = nullptr)) ∧
      ∀ before tid p id between tid' q id' later,
        h = before ++ (.getId tid p, .id id) :: (between ++ (.getId tid' q, .id id') :: later) →
        (id = id' ↔ p = q ∧ Op.removeNode p ∉ between.map Prod.fst) := by
  obtain ⟨m, ht⟩ := hrun.tracked
  refine ⟨fun id hid => ?_, fun before tid p id later hh => ?_,
    fun before tid p id between tid' q id' later hh => ?_⟩
  · obtain ⟨p, hissued⟩ := ht.of_issued hid
    exact hissued.ne_invalid
  · obtain ⟨hissued, hcurrent⟩ := ht.issued before tid p id later hh
    obtain ⟨hptr, hnull⟩ := hissued.ptr ht.inv.toNodesInv
    exact ⟨fun hkept => hptr (hcurrent.2 hkept),
      fun hremoved => hnull fun hc => hcurrent.1 hc hremoved⟩
  · -- the state after the second call
    have hh' : h = (before ++ (.getId tid p, .id id) :: (between ++ [(.getId tid' q, .id id')])) ++
        later := by simp [hh]
    obtain ⟨r₁, hr₁⟩ := (hh' ▸ hrun).of_append
    obtain ⟨m₁, ht₁⟩ := hr₁.tracked
    have hq : Current r₁ m₁ id' q :=
      (ht₁.issued (before ++ (.getId tid p, .id id) :: between) tid' q id' [] (by simp)).2.2 (by simp)
    obtain ⟨hissued, hcurrent⟩ := ht₁.issued before tid p id
      (between ++ [(.getId tid' q, .id id')]) rfl
    have hmem : Op.removeNode p ∈ (between ++ [(Op.getId tid' q, Result.id id')]).map Prod.fst ↔
        Op.removeNode p ∈ between.map Prod.fst := by
      simp
    rw [hmem] at hcurrent
    constructor
    · rintro rfl
      have hpq := hissued.eq_of_current ht₁.inv.toNodesInv hq
      exact ⟨hpq, hcurrent.1 (hpq ▸ hq)⟩
    · rintro ⟨rfl, hkept⟩
      exact (hcurrent.2 hkept).unique hq

/-- A pointer that is registered twice. -/
theorem ids_never_alias_again :
    ∃ r id, Reached [(.getId 1 16, .id 4294967296), (.removeNode 16, .unit),
        (.getId 1 16, .id id)] r ∧ r.ptr 4294967296 = nullptr ∧ r.ptr id = 16 ∧
      4294967296 ≠ id := by
  have hrun : ∃ r, Reached [(.getId 1 16, .id 4294967296), (.removeNode 16, .unit),
      (.getId 1 16, .id 8589934592)] r := by
    refine ⟨_, .step (.step (.step .nil ?_ rfl) ?_ rfl) ?_ rfl⟩
    all_goals simp [Op.ids]
  obtain ⟨r, hr⟩ := hrun
  obtain ⟨-, hptr, hsame⟩ := ids_never_alias hr
  refine ⟨r, _, hr, ?_, ?_, fun hc => ?_⟩
  · exact (hptr [] 1 16 4294967296 _ rfl).2 (by simp)
  · exact (hptr [_, _] 1 16 _ [] rfl).1 (by simp)
  · exact ((hsame [] 1 16 _ [(.removeNode 16, .unit)] 1 16 _ [] rfl).1 hc).2 (by simp)

end Rep

end BugInsight

import BugInsight.Monitor.Drained
import BugInsight.Monitor.HeldLocks
import BugInsight.Monitor.Reports

/-!
# Nested locking

A thread that releases only locks that it holds.  An acquisition that is dropped while the list is
full is missing in the list, and stays missing until a release is reported.

* `World.Counted`: an acquisition is not dropped;
* `World.Lossless`: the list has counted all acquisitions;
* `lossless_step`, `lossless_of_step`: from one state to the next, and back as long as no release is
  reported;
* `not_held_reported_iff`: the result for whole runs.
-/

namespace BugInsight

open Runs

variable {N : ℕ} {o : UserOptions} {dbg : Bool} {h : SynchLocksHeld N} {k k' : ℕ → ℕ}
  {mu id : ℕ}

/-! ### Lists -/

/-- An acquisition without room is not counted. -/
theorem Mirrors.inLock_full (hm : Mirrors h k) (hid : ∀ l ∈ h.entries, l.id = id ↔ l.mu = mu)
    (hfull : ¬ (h.n < N ∨ 0 < k mu)) : updateLockHistoryInLock mu id h = h := by
  rw [not_or, Nat.pos_iff_ne_zero, not_not] at hfull
  rcases inLock_cases mu id h with ⟨-, ⟨hn, -⟩ | ⟨-, heq⟩⟩ | ⟨i, l, hi, hl, -⟩
  · exact absurd hn hfull.1
  · exact heq
  · have hmem := List.mem_of_getElem? hi
    exact absurd ((hid l hmem).1 hl) (hm.own_eq_zero.1 hfull.2 l hmem)

/-- **A release is reported** if the list does not have the lock. -/
theorem Mirrors.afterLock_report (t : ℕ) (hm : Mirrors h k)
    (hid : ∀ l ∈ h.entries, l.id = id ↔ l.mu = mu) :
    (updateLockHistoryAfterLock t mu id h).2.2 =
      if k mu = 0 then some (.releaseLockNotHeld t mu) else none := by
  split_ifs with hown
  · have hne := hm.own_eq_zero.1 hown
    have hfind : h.findEntry (·.id = id) = h.n :=
      (h.findEntry_id_eq_n_iff id).2 fun l hl hc => hne l hl ((hid l hl).1 hc)
    have hfind' : h.findEntry (·.mu = mu) = h.n :=
      h.findEntry_eq_n_iff.2 fun l hl => decide_eq_false (hne l hl)
    unfold updateLockHistoryAfterLock
    simp only [hfind, hfind', if_true]
  · rcases afterLock_cases t mu id h with ⟨hne, -⟩ | ⟨i, l, -, -, ⟨-, heq⟩ | ⟨-, heq⟩⟩
    · exact absurd (hm.own_eq_zero.2 fun l hl hc => hne l hl ((hid l hl).2 hc)) hown
    · rw [heq]
    · rw [heq]

theorem SynchLocksHeld.SameLocks.symm {h' : SynchLocksHeld N} (hs : h.SameLocks h') :
    h'.SameLocks h := ⟨hs.n.symm, hs.locks.symm⟩

namespace World

variable {w w' : World N} {c : Call} {t : ℕ} {m : ℕ → Option ℕ}

/-! ### Acquisitions and releases -/

/-- **An acquisition** is counted, or leaves the list alone. -/
theorem acquire_spec (hinv : Inv Set.univ w m) {p : Pending} (hp : w.pending t = some p)
    (hm : Mirrors (w.monitor.held t) k) :
    if p.id ≠ invalidGraphId ∧ ((w.monitor.held t).n < N ∨ 0 < k p.mu) then
      Mirrors ((w.acquire t p).monitor.held t) (Function.update k p.mu (k p.mu + 1))
    else Mirrors ((w.acquire t p).monitor.held t) k := by
  by_cases hid : p.id = invalidGraphId
  · rw [if_neg fun hc => hc.1 hid, monitor_acquire_refused hid]
    exact hm
  · have hcur := ((hinv.pending t p hp).2 hid).current (Set.mem_univ _)
    have hids := (hinv.held t).id_iff hinv.graph.toNodesInv hcur
    rw [held_acquire hid]
    split_ifs with hroom
    · exact hm.inLock hids hroom.2
    · rw [hm.inLock_full hids fun hc => hroom ⟨hid, hc⟩]
      exact hm

/-- **A release** is counted, and reported if the list does not have the lock. -/
theorem afterLock_spec (hinv : Inv Set.univ w m) (hign : NothingIgnored w t)
    (hm : Mirrors (w.monitor.held t) k) (hstep : w.step o dbg (.afterLock t mu) = some w') :
    Mirrors (w'.monitor.held t) (Function.update k mu (k mu - 1)) ∧ w'.Idle t ∧
      w'.owned t = Function.update (w.owned t) mu (w.owned t mu - 1) ∧
      w'.monitor.log =
        w.monitor.log ++ if k mu = 0 then [.releaseLockNotHeld t mu] else [] := by
  cases stepped hstep with
  | @afterLock _ _ M' hidle hmu hcall =>
    rcases Monitor.afterLock_eq hcall with ⟨hpos, -⟩ | ⟨-, g, id, hg, l, ok, error, hl, rfl⟩
    · exact absurd hign.2 hpos.ne'
    obtain ⟨m', hev, hcur⟩ := Rep.getId_evolves (K := Set.univ) hinv.graph hg
    have hentries := (hinv.held t).congr (fun _ _ => hev.known) rfl
    have hids := hentries.id_iff hev.inv.toNodesInv hcur
    obtain ⟨hm', -⟩ := hm.afterLock t hids
    have hreport := hm.afterLock_report t hids
    rw [hl] at hm' hreport
    refine ⟨?_, hidle, Function.update_self .., ?_⟩
    · show Mirrors (Function.update w.monitor.held t l.clearStart t) _
      rw [Function.update_self]
      exact hm'.congr l.sameLocks_clearStart
    · show w.monitor.log ++ error.toList = _
      have herror : error = _ := hreport
      rw [herror]
      split_ifs
      · rfl
      · rfl

/-! ### One call -/

/-- An acquisition is counted: a blocking call is made while there is room, also for a lock that the
thread holds, and the lock is held already or there is room for it. -/
def Counted (t : ℕ) (w : World N) : Call → Prop
  | .beforeLock s _ _ => s = t → (w.monitor.held t).n < N
  | .lockAcquired s mu => s = t → (w.monitor.held t).n < N ∨ 0 < w.owned t mu
  | _ => True

instance (t : ℕ) (w : World N) : ∀ c, Decidable (Counted t w c)
  | .beforeLock s _ _ => inferInstanceAs (Decidable (s = t → _))
  | .lockAcquired s _ => inferInstanceAs (Decidable (s = t → _))
  | .beforeTryLock _ _ _ | .lockFailed _ _ | .tryLockFailed _ _ | .afterLock _ _
  | .deleteLock _ _ | .cndWait _ _ | .increaseIgnoreCounter _ _ _ | .threadExit _
  | .timerExpired _ | .watchdogScan _ | .callbackEnd => isTrue trivial

/-- A release is of a lock that the thread holds. -/
def ReleasesHeld (t : ℕ) (w : World N) : Call → Prop
  | .afterLock s mu => s = t → 0 < w.owned t mu
  | _ => True

instance (t : ℕ) (w : World N) : ∀ c, Decidable (ReleasesHeld t w c)
  | .afterLock s _ => inferInstanceAs (Decidable (s = t → _))
  | .beforeLock _ _ _ | .beforeTryLock _ _ _ | .lockAcquired _ _ | .lockFailed _ _
  | .tryLockFailed _ _ | .deleteLock _ _ | .cndWait _ _ | .increaseIgnoreCounter _ _ _
  | .threadExit _ | .timerExpired _ | .watchdogScan _ | .callbackEnd => isTrue trivial

/-- The list has counted every acquisition. -/
structure Lossless (w : World N) (t : ℕ) : Prop where
  mirrors : Mirrors (w.monitor.held t) (w.owned t)
  accepted : Accepted w t

/-- **The invariant**: the list has not counted more than there is, and only blocking calls are
refused. -/
structure Bounded (w : World N) (t : ℕ) : Prop where
  mirrors : ∃ k, Mirrors (w.monitor.held t) k ∧ ∀ mu, k mu ≤ w.owned t mu
  blocking : ∀ p, w.pending t = some p → p.id = invalidGraphId → p.tryLock = false

theorem SameThread.lossless (h : SameThread w w' t) : Lossless w' t ↔ Lossless w t := by
  constructor
  · rintro ⟨hm, hacc⟩
    unfold Accepted at hacc
    rw [h.pending] at hacc
    rw [h.owned] at hm
    exact ⟨hm.congr h.locks.symm, hacc⟩
  · rintro ⟨hm, hacc⟩
    exact ⟨h.owned ▸ hm.congr h.locks, h.accepted hacc⟩

theorem SameThread.bounded (h : SameThread w w' t) (hp : Bounded w t) : Bounded w' t := by
  obtain ⟨⟨k, hm, hle⟩, hblock⟩ := hp
  refine ⟨⟨k, hm.congr h.locks, ?_⟩, ?_⟩
  · rw [h.owned]
    exact hle
  · rw [h.pending]
    exact hblock

/-- What a call of the thread does to its list, its locks and its hook. -/
inductive Effect (t : ℕ) (w w' : World N) : Call → Prop
  /-- the thread enters a hook of an acquisition -/
  | enter {c : Call} {p : Pending} (hidle : w.Idle t) (hp : w'.pending t = some p)
      (hlocks : (w.monitor.held t).SameLocks (w'.monitor.held t))
      (howned : w'.owned t = w.owned t) (hcounted : p.id ≠ invalidGraphId ↔ Counted t w c)
      (hblock : p.id = invalidGraphId → p.tryLock = false) : Effect t w w' c
  /-- the thread has acquired and released nothing -/
  | quiet {c : Call} (hpending : ∀ p, w.pending t = some p → p.tryLock = true)
      (hidle : w'.Idle t) (hlocks : (w.monitor.held t).SameLocks (w'.monitor.held t))
      (howned : w'.owned t = w.owned t) (hcounted : Counted t w c) : Effect t w w' c
  | acquire {p : Pending} (hp : w.pending t = some p) (heq : w' = w.acquire t p) :
      Effect t w w' (.lockAcquired t p.mu)
  | release {mu : ℕ} (hidle : w.Idle t) : Effect t w w' (.afterLock t mu)

/-- **A call of the thread.** -/
theorem step_effect (hinv : Inv Set.univ w m) (hign : NothingIgnored w t)
    (ht : c.thread = some t) (hexit : c ≠ .threadExit t) (hfail : ∀ mu, c ≠ .lockFailed t mu)
    (hstep : w.step o dbg c = some w') : Effect t w w' c := by
  have hquiet : w.Idle t → ∀ p, w.pending t = some p → p.tryLock = true := fun hidle p hp => by
    cases hidle.symm.trans hp
  cases stepped hstep with
  | @beforeLock s mu id e M' hidle hmu hcall =>
    cases ht
    obtain ⟨hlocks, hcases⟩ := Monitor.beforeLock_held hcall
    refine .enter hidle (Function.update_self ..) (hlocks t) rfl ?_ fun _ => rfl
    rcases hcases with ⟨hid, hrefused, -⟩ | ⟨-, hn, ⟨g, hg⟩, -⟩
    · have hfull := hrefused.resolve_left (by rw [hign.1]; exact lt_irrefl 0)
      exact iff_of_false (not_not_intro hid) fun hc => absurd (hc rfl) (not_lt.2 hfull)
    · exact iff_of_true (Rep.getId_ne_invalid hinv.graph hg) fun _ => hn
  | @beforeTryLock s mu id e M' hidle hmu hcall =>
    cases ht
    obtain ⟨hlocks, -⟩ := Monitor.beforeTryLock_held hcall
    have hg := Monitor.beforeTryLock_graph hcall
    have hid := Rep.getId_ne_invalid hinv.graph hg
    exact .enter hidle (Function.update_self ..) (hlocks t) rfl (iff_of_true hid trivial)
      fun hc => absurd hc hid
  | @lockAcquired s p hp =>
    cases ht
    exact .acquire hp rfl
  | lockFailed =>
    cases ht
    exact absurd rfl (hfail _)
  | @tryLockFailed s p hp htry =>
    cases ht
    refine .quiet (fun q hq => ?_) (Function.update_self ..) (.rfl _) rfl trivial
    cases hp.symm.trans hq
    exact htry
  | @afterLock s mu M' hidle hmu hcall =>
    cases ht
    exact .release hidle
  | @cndWait s mu hidle hmu =>
    cases ht
    exact .quiet (hquiet hidle) hidle
      (Monitor.held_setStart w.monitor.held t condWaitMark t).1 rfl trivial
  | @increaseIgnoreCounter s locks unlocks hidle =>
    cases ht
    exact .quiet (hquiet hidle) hidle (.rfl _) rfl trivial
  | threadExit hidle =>
    cases ht
    exact absurd rfl hexit
  | deleteLock | timerExpired | watchdogScan | callbackEnd => cases ht

/-- One more acquisition in both counts. -/
theorem update_le_update {k k' : ℕ → ℕ} (hle : ∀ nu, k nu ≤ k' nu) {i i' : ℕ} (hi : i ≤ i') :
    ∀ nu, Function.update k mu i nu ≤ Function.update k' mu i' nu := by
  intro nu
  by_cases hnu : nu = mu
  · rw [hnu, Function.update_self, Function.update_self]
    exact hi
  · rw [Function.update_of_ne hnu, Function.update_of_ne hnu]
    exact hle nu

/-- **Every call** keeps the invariant. -/
theorem bounded_step (hinv : Inv Set.univ w m) (hign : NothingIgnored w t) (h : Bounded w t)
    (hexit : c ≠ .threadExit t) (hfail : ∀ mu, c ≠ .lockFailed t mu)
    (hstep : w.step o dbg c = some w') : Bounded w' t := by
  by_cases ht : c.thread = some t
  · obtain ⟨k, hm, hle⟩ := h.mirrors
    have hidle : w'.Idle t → ∀ p, w'.pending t = some p →
        p.id = invalidGraphId → p.tryLock = false := fun hidle p hp => by
      cases hidle.symm.trans hp
    cases step_effect hinv hign ht hexit hfail hstep with
    | enter _ hp hlocks howned _ hblock =>
      refine ⟨⟨k, hm.congr hlocks, howned ▸ hle⟩, fun q hq hid => ?_⟩
      cases hp.symm.trans hq
      exact hblock hid
    | quiet _ hidle' hlocks howned _ =>
      exact ⟨⟨k, hm.congr hlocks, howned ▸ hle⟩, hidle hidle'⟩
    | @acquire p hp heq =>
      subst heq
      refine ⟨?_, hidle (Function.update_self ..)⟩
      have hm' := acquire_spec hinv hp hm
      rw [owned_acquire]
      split_ifs at hm'
      · exact ⟨_, hm', update_le_update hle (Nat.succ_le_succ (hle p.mu))⟩
      · have hle' : ∀ nu, Function.update k p.mu (k p.mu) nu ≤
            Function.update (w.owned t) p.mu (w.owned t p.mu + 1) nu :=
          update_le_update hle ((hle p.mu).trans (Nat.le_succ _))
        rw [Function.update_eq_self] at hle'
        exact ⟨k, hm', hle'⟩
    | @release mu =>
      obtain ⟨hm', hidle', howned, -⟩ := afterLock_spec hinv hign hm hstep
      refine ⟨⟨_, hm', ?_⟩, hidle hidle'⟩
      rw [howned]
      exact update_le_update hle (Nat.sub_le_sub_right (hle mu) 1)
  · exact (step_sameThread hstep ht).bounded h

/-- Calls of other threads drop nothing. -/
theorem counted_of_ne (ht : c.thread ≠ some t) : Counted t w c := by
  cases c with
  | beforeLock s mu e => exact fun hs => absurd (congrArg some hs) ht
  | lockAcquired s mu => exact fun hs => absurd (congrArg some hs) ht
  | beforeTryLock | lockFailed | tryLockFailed | afterLock | deleteLock | cndWait
  | increaseIgnoreCounter | threadExit | timerExpired | watchdogScan | callbackEnd => trivial

/-- **A call that drops nothing** leaves nothing uncounted. -/
theorem lossless_step (hinv : Inv Set.univ w m) (hign : NothingIgnored w t) (h : Lossless w t)
    (hexit : c ≠ .threadExit t) (hfail : ∀ mu, c ≠ .lockFailed t mu) (hcounted : Counted t w c)
    (hstep : w.step o dbg c = some w') : Lossless w' t := by
  by_cases ht : c.thread = some t
  · cases step_effect hinv hign ht hexit hfail hstep with
    | enter _ hp hlocks howned hiff _ =>
      refine ⟨howned ▸ h.mirrors.congr hlocks, fun q hq => ?_⟩
      cases hp.symm.trans hq
      exact hiff.2 hcounted
    | quiet _ hidle hlocks howned _ =>
      exact ⟨howned ▸ h.mirrors.congr hlocks, accepted_of_idle hidle⟩
    | @acquire p hp heq =>
      subst heq
      have hm := acquire_spec hinv hp h.mirrors
      rw [if_pos ⟨h.accepted p hp, hcounted rfl⟩] at hm
      exact ⟨owned_acquire w t p ▸ hm, accepted_of_idle (Function.update_self ..)⟩
    | @release mu =>
      obtain ⟨hm, hidle, howned, -⟩ := afterLock_spec hinv hign h.mirrors hstep
      exact ⟨howned ▸ hm, accepted_of_idle hidle⟩
  · exact (step_sameThread hstep ht).lossless.2 h

/-- Counts that are the same after a change at one lock. -/
theorem eq_of_update_eq {k k' : ℕ → ℕ} {i i' : ℕ} (hi : i = i' → k mu = k' mu)
    (heq : Function.update k mu i = Function.update k' mu i') : k = k' := by
  funext nu
  have hnu := congrFun heq nu
  by_cases hne : nu = mu
  · rw [hne, Function.update_self, Function.update_self] at hnu
    rw [hne]
    exact hi hnu
  · rwa [Function.update_of_ne hne, Function.update_of_ne hne] at hnu

/-- **What is missing stays missing**, as long as no release is reported. -/
theorem lossless_of_step (hinv : Inv Set.univ w m) (hign : NothingIgnored w t)
    (h : Bounded w t) (hexit : c ≠ .threadExit t) (hfail : ∀ mu, c ≠ .lockFailed t mu)
    (hstep : w.step o dbg c = some w')
    (hno : ∀ mu, Report.releaseLockNotHeld t mu ∉ w'.monitor.log) (h' : Lossless w' t) :
    Lossless w t ∧ Counted t w c := by
  by_cases ht : c.thread = some t
  · obtain ⟨k, hm, hle⟩ := h.mirrors
    cases step_effect hinv hign ht hexit hfail hstep with
    | enter hidle hp hlocks howned hiff _ =>
      refine ⟨⟨?_, accepted_of_idle hidle⟩, hiff.1 (h'.accepted _ hp)⟩
      exact (howned ▸ h'.mirrors).congr hlocks.symm
    | quiet hpending _ hlocks howned hcounted =>
      refine ⟨⟨(howned ▸ h'.mirrors).congr hlocks.symm, fun p hp hid => ?_⟩, hcounted⟩
      have htry := h.blocking p hp hid
      rw [hpending p hp] at htry
      cases htry
    | @acquire p hp heq =>
      subst heq
      have hm' := acquire_spec hinv hp hm
      have hmirrors := h'.mirrors
      rw [owned_acquire] at hmirrors
      split_ifs at hm' with hroom
      · have hk : k = w.owned t := eq_of_update_eq Nat.succ.inj (hm'.unique hmirrors)
        refine ⟨⟨hk ▸ hm, fun q hq => ?_⟩, fun _ => hk ▸ hroom.2⟩
        cases hp.symm.trans hq
        exact hroom.1
      · -- the acquisition was dropped
        have hk := congrFun (hm'.unique hmirrors) p.mu
        rw [Function.update_self] at hk
        have := hle p.mu
        omega
    | @release mu hidle =>
      obtain ⟨hm', -, howned, hlog⟩ := afterLock_spec hinv hign hm hstep
      have hpos : k mu ≠ 0 := fun hzero => hno mu (by rw [hlog, if_pos hzero]; simp)
      have hmirrors := h'.mirrors
      rw [howned] at hmirrors
      have hmu := hle mu
      have hk : k = w.owned t := eq_of_update_eq (by omega) (hm'.unique hmirrors)
      exact ⟨⟨hk ▸ hm, accepted_of_idle hidle⟩, trivial⟩
  · exact ⟨(step_sameThread hstep ht).lossless.1 h', counted_of_ne ht⟩

/-! ### Reports -/

/-- The reports of a step come behind those before it. -/
theorem log_grows (hstep : w.step o dbg c = some w') : w.monitor.log <+: w'.monitor.log := by
  obtain ⟨reports, hrep⟩ := step_reports hstep
  exact ⟨reports, hrep.log.symm⟩

/-- Only a release of the thread is reported as a release of a lock that the thread does not
hold. -/
theorem notHeld_reported (hstep : w.step o dbg c = some w')
    (hmem : Report.releaseLockNotHeld t mu ∈ w'.monitor.log)
    (hne : ∀ nu, c ≠ .afterLock t nu) : Report.releaseLockNotHeld t mu ∈ w.monitor.log := by
  have hlog : ∀ {r : Report}, Report.releaseLockNotHeld t mu ∈ w.monitor.log ++ [r] →
      r ≠ .releaseLockNotHeld t mu → Report.releaseLockNotHeld t mu ∈ w.monitor.log :=
    fun hmem hr => (List.mem_append.1 hmem).resolve_right fun hc =>
      hr (List.mem_singleton.1 hc).symm
  cases stepped hstep with
  | @beforeLock s nu id e M' hidle hnu hcall =>
    obtain ⟨watchdog, held, heq, -⟩ := Monitor.synchGetAllLocks_eq o s w.monitor true
    rcases Monitor.beforeLock_cases hcall with ⟨-, -, rfl⟩ | ⟨-, M₁, hM₁, hcases⟩
    · exact hmem
    rw [heq] at hM₁
    subst hM₁
    rcases hcases with ⟨-, -, rfl⟩ | ⟨-, g, -, M₂, rfl, ⟨-, rfl⟩ | ⟨-, hcheck⟩⟩
    · exact hlog hmem nofun
    · exact hmem
    · obtain ⟨g', calls, rfl | ⟨path, rfl⟩⟩ := Monitor.checkHeld_frame hcheck
      · exact hmem
      · exact hlog hmem nofun
  | beforeTryLock _ _ hcall =>
    have := (beforeTryLock_reports hcall).log
    rw [List.append_nil] at this
    exact this ▸ hmem
  | @lockAcquired s p hp =>
    rwa [log_acquire] at hmem
  | lockFailed =>
    rwa [log_enter] at hmem
  | @afterLock s nu M' hidle hnu hcall =>
    have hs : s ≠ t := fun hs => hne nu (by rw [hs])
    rcases Monitor.afterLock_eq hcall with ⟨-, rfl⟩ | ⟨-, g, id, -, l, ok, error, hl, rfl⟩
    · exact hmem
    · rcases afterLock_cases s nu id (w.monitor.held s) with
        ⟨-, r, hr, rfl | rfl⟩ | ⟨i, x, -, -, ⟨-, hr⟩ | ⟨-, hr⟩⟩
      all_goals
        rw [hr] at hl
        cases hl
      · exact hlog hmem fun hc => hs (Report.releaseLockNotHeld.inj hc).1
      · exact hlog hmem nofun
      · exact (List.append_nil w.monitor.log) ▸ hmem
      · exact (List.append_nil w.monitor.log) ▸ hmem
  | deleteLock _ _ hcall =>
    obtain ⟨g, -, ⟨-, rfl⟩ | ⟨-, rfl⟩⟩ := Monitor.deleteLock_cases hcall
    · exact hmem
    · exact hlog hmem nofun
  | watchdogScan _ hcall =>
    obtain ⟨found, -, ⟨-, rfl⟩ | ⟨s, ms, -, rfl⟩⟩ := Monitor.watchdogScan_cases hcall
    · exact hmem
    · exact hlog hmem nofun
  | tryLockFailed | cndWait | increaseIgnoreCounter | threadExit | timerExpired | callbackEnd =>
    exact hmem

/-- Nothing but that the list is full is reported by a call that the thread makes while it is. -/
def OnlyMaxLocks (o : UserOptions) (dbg : Bool) (t : ℕ) (w : World N) (c : Call) : Prop :=
  c.thread = some t → N ≤ (w.monitor.held t).n → ∀ w', w.step o dbg c = some w' →
    ∃ reports, w'.monitor.log = w.monitor.log ++ reports ∧
      ∀ r ∈ reports, ∃ n mu, r = .maxLocksPerThreadReached n t mu

/-- **What is reported while nothing is missing.** -/
theorem lossless_reports (hinv : Inv Set.univ w m) (hign : NothingIgnored w t)
    (h : Lossless w t) (hheld : ReleasesHeld t w c) :
    OnlyMaxLocks o dbg t w c ∧ ∀ w', w.step o dbg c = some w' →
      ∀ mu, Report.releaseLockNotHeld t mu ∈ w'.monitor.log →
        Report.releaseLockNotHeld t mu ∈ w.monitor.log := by
  have hrelease : ∀ mu w', w.step o dbg (.afterLock t mu) = some w' → 0 < w.owned t mu →
      w'.monitor.log = w.monitor.log := by
    intro mu w' hstep hown
    obtain ⟨-, -, -, hlog⟩ := afterLock_spec hinv hign h.mirrors hstep
    rw [hlog, if_neg hown.ne', List.append_nil]
  refine ⟨fun ht hfull w' hstep => ?_, fun w' hstep mu hmem => ?_⟩
  · have hsame : w'.monitor.log = w.monitor.log →
        ∃ reports, w'.monitor.log = w.monitor.log ++ reports ∧
          ∀ r ∈ reports, ∃ n mu, r = .maxLocksPerThreadReached n t mu :=
      fun heq => ⟨[], by rw [heq, List.append_nil], nofun⟩
    cases stepped hstep with
    | @beforeLock s nu id e M' hidle hnu hcall =>
      cases ht
      obtain ⟨watchdog, held, heq, -⟩ := Monitor.synchGetAllLocks_eq o t w.monitor true
      rcases Monitor.beforeLock_cases hcall with ⟨hpos, -⟩ | ⟨-, M₁, hM₁, hcases⟩
      · exact absurd hign.1 hpos.ne'
      rcases hcases with ⟨-, -, rfl⟩ | ⟨hn, -⟩
      · refine ⟨[_], rfl, fun r hr => ⟨_, _, List.mem_singleton.1 hr⟩⟩
      · exact absurd hfull (not_le.2 hn)
    | beforeTryLock _ _ hcall =>
      have := (beforeTryLock_reports hcall).log
      exact hsame (this.trans (List.append_nil _))
    | @lockAcquired s p hp =>
      exact hsame (log_acquire ..)
    | lockFailed => exact hsame (log_enter ..)
    | @afterLock s nu M' hidle hnu hcall =>
      cases ht
      exact hsame (hrelease nu _ hstep (hheld rfl))
    | tryLockFailed | cndWait | increaseIgnoreCounter | threadExit => exact hsame rfl
    | deleteLock | timerExpired | watchdogScan | callbackEnd => cases ht
  · by_cases hc : ∃ nu, c = .afterLock t nu
    · obtain ⟨nu, rfl⟩ := hc
      rw [← hrelease nu w' hstep (hheld rfl)]
      exact hmem
    · exact notHeld_reported hstep hmem fun nu heq => hc ⟨nu, heq⟩

/-! ### Runs -/

/-- **The invariants** of a run in which no lock is deleted and nothing is ignored. -/
structure NestingInv (w : World N) (t : ℕ) : Prop where
  inv : ∃ m, Inv Set.univ w m
  ignored : NothingIgnored w t
  bounded : Bounded w t

theorem always_nestingInv {calls : List Call} (hkept : ∀ s p, Call.deleteLock s p ∉ calls)
    (hign : ∀ a b, Call.increaseIgnoreCounter t a b ∉ calls) (hexit : Call.threadExit t ∉ calls)
    (hfail : ∀ mu, Call.lockFailed t mu ∉ calls) :
    Always (step o dbg) (NestingInv · t) (init N) calls := by
  refine always_of_steps (P := fun _ c => c ∈ calls)
    ⟨⟨_, inv_init⟩, ⟨rfl, rfl⟩, ⟨_, mirrors_new N t, fun _ => le_rfl⟩, nofun⟩
    (fun w₁ c w₂ h hc hstep => ?_) steps_mem
  obtain ⟨⟨m, hinv⟩, hno, hbounded⟩ := h
  have hK : Set.univ ⊆ c.kept := fun p _ s heq => hkept s p (heq ▸ hc)
  obtain ⟨m', hinv', -⟩ := inv_step hinv hK hstep
  exact ⟨⟨m', hinv'⟩, nothingIgnored_step hno (fun a b heq => hign a b (heq ▸ hc)) hstep,
    bounded_step hinv hno hbounded (fun heq => hexit (heq ▸ hc)) (fun mu heq => hfail mu (heq ▸ hc))
      hstep⟩

/-- **Nothing is missing** as long as nothing is dropped. -/
theorem always_lossless {calls : List Call}
    (hinv : Always (step o dbg) (NestingInv · t) (init N) calls) (hexit : Call.threadExit t ∉ calls)
    (hfail : ∀ mu, Call.lockFailed t mu ∉ calls)
    (hcounted : Steps (step o dbg) (Counted t) (init N) calls) :
    Always (step o dbg) (Lossless · t) (init N) calls := by
  refine always_of_steps ⟨mirrors_new N t, accepted_of_idle rfl⟩ (fun w₁ c w₂ h hc hstep => ?_)
    ((hcounted.and hinv.steps).and steps_mem)
  obtain ⟨⟨hcounted, ⟨⟨m, hinv⟩, hno, -⟩, -⟩, hc⟩ := hc
  exact lossless_step hinv hno h (fun heq => hexit (heq ▸ hc)) (fun mu heq => hfail mu (heq ▸ hc))
    hcounted hstep

/-- Nothing is missing, and no release was reported. -/
def Clean (w : World N) (t : ℕ) : Prop :=
  Lossless w t ∧ ∀ mu, Report.releaseLockNotHeld t mu ∉ w.monitor.log

/-- **Nothing was missing** if nothing is missing in the end and no release was reported. -/
theorem always_clean {calls : List Call}
    (hinv : Always (step o dbg) (NestingInv · t) (init N) calls) (hexit : Call.threadExit t ∉ calls)
    (hfail : ∀ mu, Call.lockFailed t mu ∉ calls)
    (hrun : run (step o dbg) (init N) calls = some w) (hclean : Clean w t) :
    Always (step o dbg) (Clean · t) (init N) calls := by
  refine (always_le (P := fun _ c => c ∈ calls) (R := fun w₁ w₂ : World N => Clean w₂ t → Clean w₁ t)
    (fun _ h => h) (fun _ _ _ h h' hclean => h (h' hclean)) (fun w₁ c w₂ h hc hstep hclean => ?_)
    hinv steps_mem hrun).imp fun _ h => h hclean
  obtain ⟨⟨m, hinv⟩, hign, hbounded⟩ := h
  obtain ⟨hlossless, hno⟩ := hclean
  refine ⟨?_, fun mu hmem => hno mu ((log_grows hstep).subset hmem)⟩
  exact (lossless_of_step hinv hign hbounded (fun heq => hexit (heq ▸ hc))
    (fun mu heq => hfail mu (heq ▸ hc)) hstep hno hlossless).1

/-- The list of a thread that holds no lock in the end has counted everything. -/
theorem Bounded.lossless (h : Bounded w t) (hidle : w.Idle t) (hfree : ∀ mu, w.owned t mu = 0) :
    Lossless w t := by
  obtain ⟨k, hm, hle⟩ := h.mirrors
  have hk : k = w.owned t := funext fun mu => by
    have := hle mu
    rw [hfree mu] at this ⊢
    exact Nat.le_zero.1 this
  exact ⟨hk ▸ hm, accepted_of_idle hidle⟩

end World

/-- **Correctly nested locking**: a thread enters critical sections, which does not fail, releases
only locks that it holds, and holds none in the end.  No release is reported as a release of a lock
that it does not hold, and its calls at a full list report only that, exactly if no acquisition is
dropped. -/
theorem not_held_reported_iff (N : ℕ) (o : UserOptions) (dbg : Bool) (t : ℕ) (calls : List Call)
    (w : World N) (hrun : run (World.step o dbg) (.init N) calls = some w)
    (hkept : ∀ s p, Call.deleteLock s p ∉ calls)
    (hign : ∀ a b, Call.increaseIgnoreCounter t a b ∉ calls) (hexit : Call.threadExit t ∉ calls)
    (hfail : ∀ mu, Call.lockFailed t mu ∉ calls)
    (hheld : Steps (World.step o dbg) (World.ReleasesHeld t) (.init N) calls)
    (hidle : w.Idle t) (hfree : ∀ mu, w.owned t mu = 0) :
    (∀ mu, Report.releaseLockNotHeld t mu ∉ w.monitor.log) ∧
        Steps (World.step o dbg) (World.OnlyMaxLocks o dbg t) (.init N) calls ↔
      Steps (World.step o dbg) (World.Counted t) (.init N) calls := by
  have hinv : Always (World.step o dbg) (World.NestingInv · t) (.init N) calls :=
    World.always_nestingInv hkept hign hexit hfail
  constructor
  · rintro ⟨hno, -⟩ pre c post w₁ hl hpre
    have hclean := World.always_clean hinv hexit hfail hrun
      ⟨(hinv.last hrun).bounded.lossless hidle hfree, hno⟩
    obtain ⟨w₂, hstep⟩ := exists_next hrun hl hpre
    obtain ⟨⟨m, hinv₁⟩, hign₁, hbounded⟩ := hinv pre (c :: post) w₁ hl hpre
    obtain ⟨hlossless, hno₂⟩ := (hclean.steps pre c post w₁ hl hpre).2 w₂ hstep
    refine (World.lossless_of_step hinv₁ hign₁ hbounded ?_ ?_ hstep hno₂ hlossless).2
    · exact fun heq => hexit (by rw [hl, heq]; simp)
    · exact fun mu heq => hfail mu (by rw [hl, heq]; simp)
  · intro hcounted
    have hlossless := World.always_lossless hinv hexit hfail hcounted
    have hreports : Steps (World.step o dbg) (fun w₁ c => World.OnlyMaxLocks o dbg t w₁ c ∧
        ∀ w₂, w₁.step o dbg c = some w₂ → ∀ mu, Report.releaseLockNotHeld t mu ∈ w₂.monitor.log →
          Report.releaseLockNotHeld t mu ∈ w₁.monitor.log) (.init N) calls := by
      intro pre c post w₁ hl hpre
      obtain ⟨⟨m, hinv₁⟩, hign₁, -⟩ := hinv pre (c :: post) w₁ hl hpre
      exact World.lossless_reports hinv₁ hign₁ (hlossless pre (c :: post) w₁ hl hpre)
        (hheld pre c post w₁ hl hpre)
    have hno : Always (World.step o dbg)
        (fun w₁ => ∀ mu, Report.releaseLockNotHeld t mu ∉ w₁.monitor.log) (.init N) calls :=
      always_of_steps (fun _ => nofun)
        (fun w₁ c w₂ h hc hstep mu hmem => h mu (hc.2 w₂ hstep mu hmem)) hreports
    exact ⟨hno.last hrun, fun pre c post w₁ hl hpre => (hreports pre c post w₁ hl hpre).1⟩

/-- With room for two locks, a thread locks two and tries to lock the first one again. -/
theorem not_held_reported_iff_nested : ∃ w, run (World.step {} false) (.init 2)
      [.beforeLock 1 16 ⟨1, [], Nat.one_pos⟩, .lockAcquired 1 16,
        .beforeLock 1 32 ⟨1, [], Nat.one_pos⟩, .lockAcquired 1 32,
        .beforeTryLock 1 16 ⟨1, [], Nat.one_pos⟩, .lockAcquired 1 16,
        .afterLock 1 16, .afterLock 1 32, .afterLock 1 16] = some w ∧
    ∀ mu, Report.releaseLockNotHeld 1 mu ∉ w.monitor.log := by
  have heval : (run (World.step {} false) (.init 2)
      [.beforeLock 1 16 ⟨1, [], Nat.one_pos⟩, .lockAcquired 1 16,
        .beforeLock 1 32 ⟨1, [], Nat.one_pos⟩, .lockAcquired 1 32,
        .beforeTryLock 1 16 ⟨1, [], Nat.one_pos⟩, .lockAcquired 1 16,
        .afterLock 1 16, .afterLock 1 32, .afterLock 1 16]).any (fun w =>
      decide (w.Idle 1 ∧ w.owned 1 16 = 0 ∧ w.owned 1 32 = 0)) = true := by
    decide +kernel
  obtain ⟨w, hw, heval⟩ := (Option.any_eq_true _ _).1 heval
  obtain ⟨hidle, hfirst, hsecond⟩ := of_decide_eq_true heval
  refine ⟨w, hw, ((not_held_reported_iff 2 {} false 1 _ w hw (by simp) (by simp) (by simp) (by simp)
    (by decide +kernel) hidle fun mu => ?_).2 (by decide +kernel)).1⟩
  by_contra hown
  have hmem := World.acquired_of_owned hw (Nat.pos_of_ne_zero hown)
  simp only [List.mem_cons, reduceCtorEq, Call.lockAcquired.injEq, true_and, List.not_mem_nil,
    false_or, or_false] at hmem
  rcases hmem with rfl | rfl | rfl
  · exact hown hfirst
  · exact hown hsecond
  · exact hown hfirst

/-- A thread locks 21 locks and unlocks them in the same order. -/
def tooManyLocks : List Call :=
  ((List.range 21).flatMap fun i =>
      [.beforeLock 1 (16 * (i + 1)) ⟨1, [], Nat.one_pos⟩, .lockAcquired 1 (16 * (i + 1))]) ++
    (List.range 21).map fun i => .afterLock 1 (16 * (i + 1))

/-- The last one is reported as not held. -/
theorem dropped_lock_reported :
    (∀ s p, Call.deleteLock s p ∉ tooManyLocks) ∧
      (∀ a b, Call.increaseIgnoreCounter 1 a b ∉ tooManyLocks) ∧
      Call.threadExit 1 ∉ tooManyLocks ∧ (∀ p, Call.lockFailed 1 p ∉ tooManyLocks) ∧
      Steps (World.step {} false) (World.ReleasesHeld 1) (.init 20) tooManyLocks ∧
      ∃ w, run (World.step {} false) (.init 20) tooManyLocks = some w ∧ w.Idle 1 ∧
        (∀ mu, w.owned 1 mu = 0) ∧ Report.releaseLockNotHeld 1 336 ∈ w.monitor.log := by
  refine ⟨by simp [tooManyLocks], by simp [tooManyLocks], by simp [tooManyLocks],
    by simp [tooManyLocks], by decide +kernel, ?_⟩
  have heval : (run (World.step {} false) (.init 20) tooManyLocks).any (fun w : World 20 =>
      decide (w.Idle 1 ∧ (∀ i ∈ List.range 21, w.owned 1 (16 * (i + 1)) = 0) ∧
        Report.releaseLockNotHeld 1 336 ∈ w.monitor.log)) = true := by
    decide +kernel
  obtain ⟨w, hw, heval⟩ := (Option.any_eq_true _ _).1 heval
  obtain ⟨hidle, hfree, hreport⟩ := of_decide_eq_true heval
  refine ⟨w, hw, hidle, fun mu => ?_, hreport⟩
  by_contra hown
  have hmem := World.acquired_of_owned hw (Nat.pos_of_ne_zero hown)
  simp only [tooManyLocks, List.mem_append, List.mem_flatMap, List.mem_map, List.mem_range,
    List.mem_cons, List.not_mem_nil, or_false, reduceCtorEq, false_or, and_false, exists_false,
    Call.lockAcquired.injEq, true_and] at hmem
  obtain ⟨i, hi, rfl⟩ := hmem
  exact hown (hfree i (List.mem_range.2 hi))

end BugInsight

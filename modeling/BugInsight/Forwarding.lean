import BugInsight.Runs

/-!
# Forwarding the output

`start_application_under_test` copies what the application under test writes to its standard output,
a pipe, to the standard output of BugInsight.  The application writes at any time until it exits;
the calls of the loop are steps of their own.

* `sent_eq`: what was written, is in the buffer, or is in the pipe is what the application wrote;
* `output_forwarded_iff`: nothing is lost exactly if one chunk is enough for what the pipe holds
  when the wait sees the exit;
* `loop_ends`: the loop comes to its end after the exit.
-/

namespace BugInsight

open Runs

/-- The result of `WaitForSingleObject` with a timeout of 100 ms. -/
inductive WaitResult
  | waitObject
  | waitTimeout
  deriving DecidableEq

/-- The next call of the loop. -/
inductive ForwardPc
  | waitForSingleObject
  | peekNamedPipe (ret : WaitResult)
  | readFile (ret : WaitResult)
  | writeFile (ret : WaitResult) (chBuf : List UInt8)
  | checkRet (ret : WaitResult)
  | ended
  deriving DecidableEq

/-- The two processes and the pipe between them. -/
structure Forward where
  pipe : List UInt8 := []
  exited : Bool := false
  /-- what the application wrote -/
  sent : List UInt8 := []
  /-- what was written to the standard output of BugInsight -/
  written : List UInt8 := []
  pc : ForwardPc := .waitForSingleObject

inductive ForwardAction
  | applicationWrites (data : List UInt8)
  | applicationExits
  | loop

/-- `sizeof(chBuf)` -/
def chunkSize : ℕ := 4096

namespace Forward

/-- The next call of the loop. -/
def loopStep (s : Forward) : Option Forward :=
  match s.pc with
  | .waitForSingleObject =>
      some { s with pc := .peekNamedPipe (if s.exited then .waitObject else .waitTimeout) }
  | .peekNamedPipe ret =>
      -- `dwAvail` is a `DWORD`
      if 0 < s.pipe.length % 2 ^ 32 then some { s with pc := .readFile ret }
      else some { s with pc := .checkRet ret }
  | .readFile ret =>
      if s.pipe = [] then some { s with pc := .ended }
      else
        some
          { s with
            pipe := s.pipe.drop chunkSize
            pc := .writeFile ret (s.pipe.take chunkSize) }
  | .writeFile ret chBuf => some { s with written := s.written ++ chBuf, pc := .checkRet ret }
  | .checkRet ret =>
      if ret ≠ .waitTimeout then some { s with pc := .ended }
      else some { s with pc := .waitForSingleObject }
  | .ended => none

/-- A step of one of the two processes; an application that has exited does nothing more. -/
def step (s : Forward) : ForwardAction → Option Forward
  | .applicationWrites data =>
      if s.exited then none else some { s with pipe := s.pipe ++ data, sent := s.sent ++ data }
  | .applicationExits => if s.exited then none else some { s with exited := true }
  | .loop => s.loopStep

end Forward

/-! ### Where the bytes are -/

/-- What `ReadFile` gave and `WriteFile` still has to write. -/
@[simp] def ForwardPc.buffered : ForwardPc → List UInt8
  | .writeFile _ chBuf => chBuf
  | _ => []

/-- The wait of this round has seen the exit. -/
@[simp] def ForwardPc.SeenExit : ForwardPc → Prop
  | .peekNamedPipe ret | .readFile ret | .writeFile ret _ | .checkRet ret => ret = .waitObject
  | .waitForSingleObject => False
  | .ended => True

/-- A bound on the calls of the loop after the exit. -/
@[simp] def ForwardPc.calls : ForwardPc → ℕ
  | .ended => 0
  | .checkRet .waitObject => 1
  | .writeFile .waitObject _ => 2
  | .readFile .waitObject => 3
  | .peekNamedPipe .waitObject => 4
  | .waitForSingleObject => 5
  | .checkRet .waitTimeout => 6
  | .writeFile .waitTimeout _ => 7
  | .readFile .waitTimeout => 8
  | .peekNamedPipe .waitTimeout => 9

/-- What a round leaves in the pipe if nothing is written any more. -/
@[simp] def ForwardPc.left : ForwardPc → List UInt8 → List UInt8
  | .peekNamedPipe _, pipe | .readFile _, pipe => pipe.drop chunkSize
  | _, pipe => pipe

namespace Forward

/-- The invariant of the two processes. -/
structure Inv (s : Forward) : Prop where
  sent_eq : s.sent = s.written ++ s.pc.buffered ++ s.pipe
  pipe_ne : ∀ ret, s.pc = .readFile ret → s.pipe ≠ []
  exited : s.pc.SeenExit → s.exited = true

/-- The round that has seen the exit leaves nothing. -/
def Fits (s : Forward) : Prop := s.pc.SeenExit → s.pc.left s.pipe = []

/-- A wait that sees the exit finds at most one chunk in the pipe. -/
def LastChunk (s : Forward) : ForwardAction → Prop
  | .loop => s.pc = .waitForSingleObject → s.exited = true → s.pipe.length ≤ chunkSize
  | _ => True

variable {s s' : Forward}

theorem inv_empty : Inv {} := ⟨rfl, fun ret h => (by cases h), False.elim⟩

/-- Elsewhere the condition says nothing. -/
theorem lastChunk_loop (hpc : s.pc ≠ .waitForSingleObject) : s.LastChunk .loop :=
  fun h => absurd h hpc

/-- The wait starts a round. -/
theorem wait_spec (hinv : s.Inv) (hpc : s.pc = .waitForSingleObject) (h : s.loopStep = some s') :
    s'.Inv ∧ (s'.Fits ↔ s.Fits ∧ s.LastChunk .loop) := by
  unfold loopStep at h
  rw [hpc] at h
  cases h
  have hseen : (ForwardPc.peekNamedPipe (if s.exited then .waitObject else .waitTimeout)).SeenExit ↔
      s.exited = true := by
    cases s.exited <;> simp
  refine ⟨⟨?_, fun ret h => (by cases h), hseen.1⟩, ?_⟩
  · have hsent := hinv.sent_eq
    rw [hpc] at hsent
    exact hsent
  · have hfits : s.Fits := by
      unfold Fits
      rw [hpc]
      exact False.elim
    rw [and_iff_right hfits]
    unfold Fits LastChunk
    rw [hseen, ForwardPc.left, List.drop_eq_nil_iff]
    exact ⟨fun h _ => h, fun h => h hpc⟩

/-- A peek that finds nothing ends the round. -/
theorem peek_spec {ret : WaitResult} (hinv : s.Inv) (hpc : s.pc = .peekNamedPipe ret)
    (h : s.loopStep = some s') : s'.Inv ∧ (s'.Fits ↔ s.Fits ∧ s.LastChunk .loop) := by
  rw [and_iff_left (lastChunk_loop (by simp [hpc]))]
  obtain ⟨hsent, -, hexited⟩ := hinv
  unfold Fits
  unfold loopStep at h
  rw [hpc] at hsent hexited h ⊢
  dsimp only at h
  split_ifs at h with havail
  · cases h
    have hpipe : s.pipe ≠ [] := by
      intro hnil
      rw [hnil] at havail
      cases havail
    exact ⟨⟨hsent, fun _ _ => hpipe, hexited⟩, Iff.rfl⟩
  · cases h
    refine ⟨⟨hsent, fun _ h => (by cases h), hexited⟩, forall_congr' fun _ => ?_⟩
    show s.pipe = [] ↔ s.pipe.drop chunkSize = []
    rw [List.drop_eq_nil_iff, ← List.length_eq_zero_iff]
    unfold chunkSize
    omega

theorem read_spec {ret : WaitResult} (hinv : s.Inv) (hpc : s.pc = .readFile ret)
    (h : s.loopStep = some s') : s'.Inv ∧ (s'.Fits ↔ s.Fits ∧ s.LastChunk .loop) := by
  rw [and_iff_left (lastChunk_loop (by simp [hpc]))]
  obtain ⟨hsent, hpipe, hexited⟩ := hinv
  unfold Fits
  unfold loopStep at h
  rw [hpc] at hsent hexited h ⊢
  dsimp only at h
  rw [if_neg (hpipe ret hpc)] at h
  cases h
  refine ⟨⟨?_, fun _ h => (by cases h), hexited⟩, Iff.rfl⟩
  rw [hsent]
  simp

theorem write_spec {ret : WaitResult} {chBuf : List UInt8} (hinv : s.Inv)
    (hpc : s.pc = .writeFile ret chBuf) (h : s.loopStep = some s') :
    s'.Inv ∧ (s'.Fits ↔ s.Fits ∧ s.LastChunk .loop) := by
  rw [and_iff_left (lastChunk_loop (by simp [hpc]))]
  obtain ⟨hsent, -, hexited⟩ := hinv
  unfold Fits
  unfold loopStep at h
  rw [hpc] at hsent hexited h ⊢
  cases h
  refine ⟨⟨?_, fun _ h => (by cases h), hexited⟩, Iff.rfl⟩
  rw [hsent]
  simp

/-- The end of a round. -/
theorem check_spec {ret : WaitResult} (hinv : s.Inv) (hpc : s.pc = .checkRet ret)
    (h : s.loopStep = some s') : s'.Inv ∧ (s'.Fits ↔ s.Fits ∧ s.LastChunk .loop) := by
  rw [and_iff_left (lastChunk_loop (by simp [hpc]))]
  obtain ⟨hsent, -, hexited⟩ := hinv
  unfold Fits
  unfold loopStep at h
  rw [hpc] at hsent hexited h ⊢
  cases ret with
  | waitObject =>
    cases h
    exact ⟨⟨hsent, fun _ h => (by cases h), fun _ => hexited rfl⟩, by simp⟩
  | waitTimeout =>
    cases h
    exact ⟨⟨hsent, fun _ h => (by cases h), False.elim⟩, by simp⟩

theorem loopStep_spec (hinv : s.Inv) (h : s.loopStep = some s') :
    s'.Inv ∧ (s'.Fits ↔ s.Fits ∧ s.LastChunk .loop) := by
  cases hpc : s.pc with
  | waitForSingleObject => exact wait_spec hinv hpc h
  | peekNamedPipe ret => exact peek_spec hinv hpc h
  | readFile ret => exact read_spec hinv hpc h
  | writeFile ret chBuf => exact write_spec hinv hpc h
  | checkRet ret => exact check_spec hinv hpc h
  | ended =>
    unfold loopStep at h
    rw [hpc] at h
    cases h

/-- The application only does something before a wait sees its exit. -/
theorem step_spec (hinv : s.Inv) (a : ForwardAction) (h : s.step a = some s') :
    s'.Inv ∧ (s'.Fits ↔ s.Fits ∧ s.LastChunk a) := by
  have hfits : s.exited = false → ∀ pipe, s.pc.SeenExit → s.pc.left pipe = [] := by
    intro hrun pipe hseen
    rw [hinv.exited hseen] at hrun
    cases hrun
  obtain ⟨hsent, hpipe, hexited⟩ := hinv
  cases a with
  | applicationWrites data =>
    unfold step at h
    split_ifs at h with hrun
    rw [Bool.not_eq_true] at hrun
    cases h
    refine ⟨⟨?_, fun ret hpc hnil => hpipe ret hpc (List.append_eq_nil_iff.1 hnil).1, hexited⟩, ?_⟩
    · dsimp only
      rw [hsent, List.append_assoc]
    · exact iff_of_true (hfits hrun _) ⟨hfits hrun _, trivial⟩
  | applicationExits =>
    unfold step at h
    split_ifs at h with hrun
    rw [Bool.not_eq_true] at hrun
    cases h
    exact ⟨⟨hsent, hpipe, fun _ => rfl⟩, iff_of_true (hfits hrun _) ⟨hfits hrun _, trivial⟩⟩
  | loop => exact loopStep_spec ⟨hsent, hpipe, hexited⟩ h

/-- **The output that is forwarded**: when the loop ends, everything that the application wrote has
been written exactly if the wait that saw the exit found at most one chunk in the pipe. -/
theorem output_forwarded_iff (l : List ForwardAction) (hrun : run step {} l = some s)
    (hended : s.pc = .ended) : s.written = s.sent ↔ Steps step LastChunk {} l := by
  obtain ⟨hinv, hfits⟩ :=
    steps_iff_last inv_empty False.elim (fun _ a _ hinv => step_spec hinv a) hrun
  rw [← hfits, hinv.sent_eq]
  unfold Fits
  rw [hended]
  simp

theorem output_forwarded_iff_line :
    Steps step LastChunk {}
      [.applicationWrites (List.replicate 80 46), .loop, .applicationExits, .loop, .loop, .loop, .loop,
        .loop, .loop, .loop] :=
  (output_forwarded_iff _
    (show _ = some (⟨[], true, List.replicate 80 46, List.replicate 80 46, .ended⟩ : Forward) from rfl)
    rfl).1 rfl

/-- An application that writes once and exits. -/
theorem run_write_exit {data : List UInt8} (hdata : 0 < data.length % 2 ^ 32) :
    run step {} [.applicationWrites data, .applicationExits, .loop, .loop, .loop, .loop, .loop] =
      some ⟨data.drop chunkSize, true, data, data.take chunkSize, .ended⟩ := by
  have hne : data ≠ [] := by
    rintro rfl
    cases hdata
  have havail : 0 < data.length % 4294967296 := hdata
  simp [run, step, loopStep, havail, hne]

/-- Of more than one chunk only the first is written. -/
theorem second_chunk_lost :
    ∃ s, run step {} [.applicationWrites (List.replicate 4097 46), .applicationExits, .loop, .loop,
        .loop, .loop, .loop] = some s ∧
      s.pc = .ended ∧ s.sent = List.replicate 4097 46 ∧ s.written = List.replicate 4096 46 ∧
      s.written ≠ s.sent := by
  have hwritten : (List.replicate 4097 (46 : UInt8)).take chunkSize = List.replicate 4096 46 :=
    List.take_replicate
  refine ⟨_, run_write_exit (by rw [List.length_replicate]; decide), rfl, rfl, hwritten, fun h => ?_⟩
  have heq : List.replicate 4096 (46 : UInt8) = List.replicate 4097 46 := hwritten.symm.trans h
  have hlen := congrArg List.length heq
  rw [List.length_replicate, List.length_replicate] at hlen
  omega

/-! ### The end of the loop -/

theorem loopStep_calls (hexited : s.exited = true) (hpc : s.pc ≠ .ended) :
    ∃ s', s.loopStep = some s' ∧ s'.exited = true ∧ s'.pc.calls < s.pc.calls := by
  unfold loopStep
  cases hcall : s.pc with
  | waitForSingleObject =>
    refine ⟨_, rfl, hexited, ?_⟩
    rw [hexited]
    simp
  | peekNamedPipe ret =>
    dsimp only
    split_ifs
    · refine ⟨_, rfl, hexited, ?_⟩
      cases ret <;> simp
    · refine ⟨_, rfl, hexited, ?_⟩
      cases ret <;> simp
  | readFile ret =>
    dsimp only
    split_ifs
    · refine ⟨_, rfl, hexited, ?_⟩
      cases ret <;> simp
    · refine ⟨_, rfl, hexited, ?_⟩
      cases ret <;> simp
  | writeFile ret chBuf =>
    refine ⟨_, rfl, hexited, ?_⟩
    cases ret <;> simp
  | checkRet ret =>
    cases ret with
    | waitObject => exact ⟨_, rfl, hexited, by simp⟩
    | waitTimeout => exact ⟨_, rfl, hexited, by simp⟩
  | ended => exact absurd hcall hpc

/-- **The loop ends** after the exit of the application. -/
theorem loop_ends (hexited : s.exited = true) :
    ∃ n ≤ s.pc.calls, ∃ s', run step s (List.replicate n .loop) = some s' ∧ s'.pc = .ended := by
  obtain ⟨k, hk⟩ : ∃ k, s.pc.calls = k := ⟨_, rfl⟩
  induction k using Nat.strong_induction_on generalizing s with
  | _ k ih =>
    by_cases hpc : s.pc = .ended
    · exact ⟨0, Nat.zero_le _, s, rfl, hpc⟩
    · obtain ⟨s₁, hstep, hexited₁, hlt⟩ := loopStep_calls hexited hpc
      obtain ⟨n, hn, s', hrun, hended⟩ := ih _ (hk ▸ hlt) hexited₁ rfl
      refine ⟨n + 1, by omega, s', ?_, hended⟩
      rw [List.replicate_succ, run_cons, show step s .loop = some s₁ from hstep]
      exact hrun

end Forward

end BugInsight

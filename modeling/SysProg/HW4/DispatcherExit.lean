import SysProg.HW4.PipelineFlow

/-!
# The two exits of the dispatcher's loop

The loop ends when four levels have been finished, counted as markers are
popped, or when a timed-out wait finds that every reader has posted every
marker, counted as markers are pushed. The second count runs ahead of the
first: whenever it is complete while the loop is still running, some marker is
still in Region A. So the exit after a timeout never leaves a complete state,
and the other exit always does.
-/

open scoped BigOperators
namespace SysProg.HW4
open SysProg.Lib
variable {o : Options}

def DispatcherPc.left : DispatcherPc → Bool
  | .leaving | .finished => true
  | _ => false

/-- The step is the test after `ETIMEDOUT` and it finds `all_done`. -/
def TimeoutBreak (s : State o) (a : Action o) : Prop :=
  a = .run .dispatcher ∧ s.dispatcher = .timedOut ∧
    ∀ l, s.regionA.totalReaders ≤ s.regionA.eofCountPerLevel l

/-- Everything that was pushed to Region A has been passed on, in order. -/
structure RoutingComplete (s : State o) : Prop where
  regionA_empty : s.regionA.ring.count = 0
  routed : ∀ l, s.hist.popped l ++ (s.regionB l).ring.toList =
    s.hist.pushedA.filter (fun e => e.levelIndex = l)
  priority : s.hist.routedD = s.hist.pushedA.filter (fun e => sourceIsPriority o e.source)
  ended : ∀ l, (s.regionB l).eofPosted = true

theorem timeoutBreak_leaves {s s' : State o} {a : Action o} (h : step s a = some s')
    (hb : TimeoutBreak s a) : s'.dispatcher = .leaving ∧ s'.finishedLevels = s.finishedLevels := by
  obtain ⟨rfl, hpc, hall⟩ := hb
  simp only [step, threadStep, dispatcherStep, hpc] at h
  split at h
  · cases h
  · obtain rfl := Option.some.inj h
    exact ⟨rfl, rfl⟩

theorem finishedLevels_le {s : State o} (h : MarkersInOrder s) : s.finishedLevels ≤ maxLevels := by
  rw [h.finished]
  exact sum_indicator_le_card _

theorem finishedLevels_eq_max_iff {s : State o} (h : MarkersInOrder s) :
    s.finishedLevels = maxLevels ↔ ∀ l, (s.regionB l).eofPosted = true := by
  rw [h.finished]
  exact sum_indicator_eq_card _

/-- With all four levels counted, not even a marker is in flight. -/
theorem inFlight_eq_nil {s : State o} (h : MarkersInOrder s)
    (hall : ∀ l, (s.regionB l).eofPosted = true) : inFlight s = [] := by
  apply List.eq_nil_iff_forall_not_mem.mpr
  intro e he
  have hseen := (h.ended e.levelIndex).mp (hall e.levelIndex)
  have heof := h.clear hseen e he
  have hpos : 0 < (inFlight s).countP (isMarker e.levelIndex) :=
    List.countP_pos_iff.mpr ⟨e, he, by simp [isMarker, heof]⟩
  have hsum := h.seen e.levelIndex
  have hle := postedCount_le s.parser e.levelIndex
  omega

theorem loopHead_left {n : ℕ} : (loopHead n).left = true ↔ maxLevels ≤ n := by
  unfold loopHead
  split_ifs with h
  · simp [DispatcherPc.left, h]
  · simpa [DispatcherPc.left] using h

/-- The loop runs exactly while fewer than four levels are finished, except
after the exit on a timeout. -/
structure LoopGuard (broken : Prop) (s : State o) : Prop where
  running : s.dispatcher.left = false → s.finishedLevels < maxLevels ∧ ¬ broken
  left : s.dispatcher.left = true → (s.finishedLevels = maxLevels ↔ ¬ broken)
  flag : s.regionD.dispatcherDone = true → s.dispatcher.left = true

theorem loopGuard_loopHead {broken : Prop} {s : State o} {n : ℕ} (hle : n ≤ maxLevels)
    (hpc : s.dispatcher = loopHead n) (hn : s.finishedLevels = n) (hb : ¬ broken)
    (hflag : s.regionD.dispatcherDone = false) : LoopGuard broken s := by
  refine ⟨?_, ?_, ?_⟩
  · intro hl
    rw [hpc, Bool.eq_false_iff, Ne, loopHead_left] at hl
    exact ⟨by omega, hb⟩
  · intro hl
    rw [hpc, loopHead_left] at hl
    simp only [hb, not_false_eq_true, iff_true]
    omega
  · simp [hflag]

theorem loopGuard_same {broken broken' : Prop} {s s' : State o} (h : LoopGuard broken s)
    (hpc : s'.dispatcher.left = s.dispatcher.left) (hfin : s'.finishedLevels = s.finishedLevels)
    (hflag : s'.regionD.dispatcherDone = s.regionD.dispatcherDone) (hb : broken' ↔ broken) :
    LoopGuard broken' s' := by
  refine ⟨?_, ?_, ?_⟩
  · rw [hpc, hfin, hb]
    exact h.running
  · rw [hpc, hfin, hb]
    exact h.left
  · rw [hpc, hflag]
    exact h.flag

theorem dispatcherDone_eq_false {broken : Prop} {s : State o} (h : LoopGuard broken s)
    (hpc : s.dispatcher.left = false) : s.regionD.dispatcherDone = false := by
  rw [Bool.eq_false_iff]
  intro hd
  rw [h.flag hd] at hpc
  cases hpc

theorem loopGuard_step {input : o.Input} {broken : Prop} {s s' : State o} {a : Action o}
    (hs : step s a = some s') (hi : FlowInvariant input s') (h : LoopGuard broken s) :
    LoopGuard (broken ∨ TimeoutBreak s a) s' := by
  by_cases hbreak : TimeoutBreak s a
  · obtain ⟨hleave, hfin⟩ := timeoutBreak_leaves hs hbreak
    have hrun := h.running (by rw [hbreak.2.1]; rfl)
    refine ⟨?_, ?_, ?_⟩
    · simp [hleave, DispatcherPc.left]
    · intro _
      simp only [hbreak, or_true, not_true_eq_false, iff_false, hfin]
      omega
    · intro _
      rw [hleave]
      rfl
  · have hb : (broken ∨ TimeoutBreak s a) ↔ broken := by simp [hbreak]
    have hle := finishedLevels_le hi.markers
    cases step_transition hs with
    | timeout f hpc => exact loopGuard_same h (by rw [hpc]; rfl) rfl rfl hb
    | dispatcherPop hpc hne => exact loopGuard_same h (by rw [hpc]; rfl) rfl rfl hb
    | allDone hpc hall => exact absurd ⟨rfl, hpc, hall⟩ hbreak
    | notAllDone hpc hall => exact loopGuard_same h (by rw [hpc]; rfl) rfl rfl hb
    | lastMarker hpc heof hlast hpost =>
      have hrun := h.running (by rw [hpc]; rfl)
      have hflag := dispatcherDone_eq_false h (by rw [hpc]; rfl)
      exact loopGuard_loopHead hle rfl rfl (by rw [hb]; exact hrun.2) hflag
    | marker hpc heof hlast =>
      have hrun := h.running (by rw [hpc]; rfl)
      have hflag := dispatcherDone_eq_false h (by rw [hpc]; rfl)
      exact loopGuard_loopHead hle rfl rfl (by rw [hb]; exact hrun.2) hflag
    | route hpc heof hfull =>
      rename_i e
      have hrun := h.running (by rw [hpc]; rfl)
      have hflag := dispatcherDone_eq_false h (by rw [hpc]; rfl)
      by_cases hp : sourceIsPriority o e.source = true
      · exact loopGuard_same h (by rw [hpc]; simp [hp, DispatcherPc.left]) rfl rfl hb
      · exact loopGuard_loopHead hle (by simp [hp]) rfl (by rw [hb]; exact hrun.2) hflag
    | routePriority hpc hfull =>
      have hrun := h.running (by rw [hpc]; rfl)
      have hflag := dispatcherDone_eq_false h (by rw [hpc]; rfl)
      exact loopGuard_loopHead hle rfl rfl (by rw [hb]; exact hrun.2) hflag
    | leave hpc =>
      have hleft := h.left (by rw [hpc]; rfl)
      refine ⟨?_, ?_, ?_⟩
      · simp [DispatcherPc.left]
      · intro _
        rw [hb]
        exact hleft
      · simp [DispatcherPc.left]
    | _ => exact loopGuard_same h rfl rfl rfl hb

theorem loopGuard_execution {input : o.Input} {tr : List (State o × Action o)} {s : State o}
    (h : (machine input).Execution tr s) : LoopGuard (∃ p ∈ tr, TimeoutBreak p.1 p.2) s := by
  induction h with
  | start =>
    exact loopGuard_loopHead (Nat.zero_le _) rfl rfl (by simp) rfl
  | next prior hs ih =>
    have hi := flowInvariant_reachable (prior.reachable.next hs)
    have hstep := loopGuard_step hs hi ih
    simpa only [List.mem_append, List.mem_singleton, or_and_right, exists_or,
      exists_eq_left] using hstep

theorem routingComplete_of_finished {input : o.Input} {s : State o} (hi : FlowInvariant input s)
    (hleft : s.dispatcher.left = true) (hf : s.finishedLevels = maxLevels) :
    RoutingComplete s := by
  have hall := (finishedLevels_eq_max_iff hi.markers).mp hf
  have hnil := inFlight_eq_nil hi.markers hall
  have hpush : s.hist.pushedA = s.hist.routedB := by
    have hr := hi.entries.routed
    rw [hnil] at hr
    simpa using hr
  refine ⟨?_, ?_, ?_, hall⟩
  · rw [← RingBuffer.toList_eq_nil_iff]
    exact (List.append_eq_nil_iff.mp hnil).2
  · intro l
    rw [hpush]
    exact hi.entries.popped l
  · have hprio := hi.entries.priority
    rw [hpush, ← hprio]
    cases hd : s.dispatcher with
    | priority e => simp [hd, DispatcherPc.left] at hleft
    | _ => simp [DispatcherPc.pendingD]

/-- When the dispatcher has announced its end, everything has been routed and
all four levels are closed exactly in the runs that never took the exit after a
timeout. -/
theorem routingComplete_iff_no_timeoutBreak {input : o.Input} {tr : List (State o × Action o)}
    {s : State o} (h : (machine input).Execution tr s)
    (hdone : s.regionD.dispatcherDone = true) :
    RoutingComplete s ↔ ∀ p ∈ tr, ¬ TimeoutBreak p.1 p.2 := by
  have hi := flowInvariant_reachable h.reachable
  have hg := loopGuard_execution h
  have hleft := hg.flag hdone
  have hiff := hg.left hleft
  push Not at hiff
  rw [← hiff]
  constructor
  · exact fun hc => (finishedLevels_eq_max_iff hi.markers).mpr hc.ended
  · exact routingComplete_of_finished hi hleft

/-! ### One reader, one line, and a timeout that comes too late -/

def oneFile : Options where
  readerThreads := 1
  workerThreads := 1
  capacityA := 8
  capacityB := 4
  capacityD := 2
  numFiles := 1
  keywords := [['x']]
  prioritySources := []
  workerThreads_pos := Nat.one_pos
  capacityA_pos := by decide
  capacityB_pos := by decide
  capacityD_pos := Nat.two_pos
  numFiles_pos := Nat.one_pos
  keywords_ne := by decide

def oneLine : oneFile.Input := fun _ => [⟨[], .error, ['d', 'b'], ['x']⟩]

def firstReader : oneFile.Reader := ⟨0, oneFile.numFiles_pos⟩

def readerActions : List (Action oneFile) :=
  [.run (.reader (firstReader, ⟨0, Nat.one_pos⟩)), .run (.readerMain firstReader)] ++
    List.replicate 7 (.run (.parser firstReader))

/-- The dispatcher goes to sleep on the empty queue, the reader pushes its entry
and its four markers, and the wait then reports `ETIMEDOUT`. -/
def lateReader : List (Action oneFile) :=
  .run .dispatcher :: readerActions ++ [.timeout, .run .dispatcher, .run .dispatcher]

def promptReader : List (Action oneFile) :=
  readerActions ++ List.replicate 11 (.run .dispatcher)

theorem lateReader_isSome : ((machine oneLine).run (machine oneLine).init lateReader).isSome := by
  decide

theorem promptReader_isSome :
    ((machine oneLine).run (machine oneLine).init promptReader).isSome := by decide

/-- The dispatcher announces its end with the entry and all four markers still
in Region A and no level closed. -/
theorem timeout_exit_incomplete :
    ∃ tr s, (machine oneLine).Execution tr s ∧ s.regionD.dispatcherDone = true ∧
      s.regionA.ring.count = 5 ∧ (∀ l, (s.regionB l).eofPosted = false) ∧ ¬ RoutingComplete s := by
  refine ⟨_, _, Machine.execution_of_isSome lateReader_isSome, by decide, by decide, by decide, ?_⟩
  intro hc
  have hempty := hc.regionA_empty
  revert hempty
  decide

theorem routingComplete_promptReader :
    ∃ tr s, (machine oneLine).Execution tr s ∧ s.regionD.dispatcherDone = true ∧
      (RoutingComplete s ↔ ∀ p ∈ tr, ¬ TimeoutBreak p.1 p.2) := by
  have hdone : (((machine oneLine).run (machine oneLine).init promptReader).get
      promptReader_isSome).regionD.dispatcherDone = true := by decide
  have hexec := Machine.execution_of_isSome promptReader_isSome
  exact ⟨_, _, hexec, hdone, routingComplete_iff_no_timeoutBreak hexec hdone⟩

end SysProg.HW4

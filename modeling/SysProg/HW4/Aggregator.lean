import SysProg.HW4.DispatcherExit
import SysProg.HW4.PipelineResult
import Mathlib.Algebra.BigOperators.Ring.Finset

/-!
# The aggregator from the first priority entry to the report

The aggregator scores what comes through Region D until the dispatcher has left
and the queue is empty, then waits level by level for the ready flag and takes
one unit of the level's semaphore. The report is written when no level is left.
At that moment all four levels have been closed, which a run that left the
dispatcher's loop after a timeout never reaches, so the high-priority score is
the one of all priority entries of all files.
-/

open scoped BigOperators
namespace SysProg.HW4
open SysProg.Lib
variable {o : Options}

def highPriorityHits (o : Options) (e : LogEntry) : ℕ :=
  ((List.range o.numKeywords).map (fun k =>
    countOverlappingKeyword e.message (o.keyword k) * levelWeight e.levelIndex)).sum

inductive AggregatorMove (s : State o) : State o → Prop where
  | sleepEmpty : s.aggregator = .draining → s.regionD.ring.count = 0 →
      s.regionD.dispatcherDone = false → AggregatorMove s (s.block .aggregator)
  | sleepUnready (l : Level) (rest : List Level) : s.aggregator = .collecting (l :: rest) →
      (s.results l).ready = false → AggregatorMove s (s.block .aggregator)
  | score : s.aggregator = .draining → s.regionD.ring.count ≠ 0 →
      AggregatorMove s { s with
        regionD := { s.regionD with ring := s.regionD.ring.pop }
        highPriorityScore := s.highPriorityScore + highPriorityHits o s.regionD.ring.front
        highPriorityEntries := s.highPriorityEntries + 1 }
  | drained : s.aggregator = .draining → s.regionD.ring.count = 0 →
      s.regionD.dispatcherDone = true →
      AggregatorMove s { s with aggregator := .collecting allLevels }
  | received (l : Level) (rest : List Level) : s.aggregator = .collecting (l :: rest) →
      (s.results l).ready = true →
      AggregatorMove s { s with aggregator := .semWait l rest }
  | taken (l : Level) (rest : List Level) : s.aggregator = .semWait l rest →
      s.levelReady l ≠ 0 →
      AggregatorMove s { s with
        levelReady := Function.update s.levelReady l (s.levelReady l - 1)
        aggregator := .collecting rest }

theorem aggregatorStep_move {s s' : State o} (h : aggregatorStep s = some s') :
    AggregatorMove s s' := by
  unfold aggregatorStep at h
  cases hpc : s.aggregator with
  | draining =>
    by_cases hz : s.regionD.ring.count = 0
    · cases hd : s.regionD.dispatcherDone with
      | false =>
        have hpop : popRegionD s.regionD = none := by simp [popRegionD, boundedPop, hz, hd]
        simp only [hpc, hpop] at h
        obtain rfl := Option.some.inj h
        exact .sleepEmpty hpc hz hd
      | true =>
        have hpop : popRegionD s.regionD = some (none, s.regionD) := by
          simp only [popRegionD, boundedPop, hz, hd, if_true, Option.map_some]
          rw [← hd]
        simp only [hpc, hpop] at h
        obtain rfl := Option.some.inj h
        exact .drained hpc hz hd
    · have hpop : popRegionD s.regionD =
          some (some s.regionD.ring.front, { s.regionD with ring := s.regionD.ring.pop }) := by
        simp [popRegionD, boundedPop, hz]
      simp only [hpc, hpop] at h
      obtain rfl := Option.some.inj h
      have hmove := AggregatorMove.score hpc hz
      rw [← hpc]
      exact hmove
  | collecting pending =>
    cases pending with
    | nil => simp [hpc] at h
    | cons l rest =>
      simp only [hpc] at h
      split at h
      · rename_i hready
        obtain rfl := Option.some.inj h
        exact .received l rest hpc hready
      · rename_i hready
        obtain rfl := Option.some.inj h
        exact .sleepUnready l rest hpc (by simpa using hready)
  | semWait l rest =>
    simp only [hpc] at h
    split at h
    · cases h
    · rename_i hne
      obtain rfl := Option.some.inj h
      exact .taken l rest hpc hne

/-- Every step is one of the aggregator's moves or a step of another thread. -/
theorem step_aggregator {s s' : State o} {a : Action o} (h : step s a = some s') :
    AggregatorMove s s' ∨ a ≠ .run .aggregator ∧ Transition s a s' := by
  by_cases ha : a = .run .aggregator
  · subst ha
    simp only [step] at h
    split at h
    · cases h
    · exact Or.inl (aggregatorStep_move h)
  · exact Or.inr ⟨ha, step_transition h⟩

/-! ### The gate before the report -/

def AggregatorPc.pending : AggregatorPc → List Level
  | .draining => allLevels
  | .collecting rest => rest
  | .semWait l rest => l :: rest

structure ReportGate (s : State o) : Prop where
  drained : s.aggregator ≠ .draining →
    s.regionD.dispatcherDone = true ∧ s.regionD.ring.count = 0
  suffix : s.aggregator.pending <:+ allLevels
  ready : ∀ l, (s.results l).ready = true ↔ s.analyzer l = .posting ∨ s.analyzer l = .finished
  posted : ∀ l, s.levelReady l + (if l ∈ s.aggregator.pending then 0 else 1) =
    if s.analyzer l = .finished then 1 else 0
  waited : ∀ l rest, s.aggregator = .semWait l rest → (s.results l).ready = true

theorem reportGate_initial (input : o.Input) : ReportGate (initial input) where
  drained := by simp [initial]
  suffix := List.suffix_refl _
  ready := by simp [initial, LevelResult.zero]
  posted := by simp [initial, AggregatorPc.pending, mem_allLevels]
  waited := by simp [initial]

theorem reportGate_move {s s' : State o} (h : AggregatorMove s s') (hg : ReportGate s) :
    ReportGate s' := by
  cases h with
  | sleepEmpty => exact ⟨hg.drained, hg.suffix, hg.ready, hg.posted, hg.waited⟩
  | sleepUnready => exact ⟨hg.drained, hg.suffix, hg.ready, hg.posted, hg.waited⟩
  | score hpc hne =>
    refine ⟨?_, hg.suffix, hg.ready, hg.posted, hg.waited⟩
    intro hnot
    exact absurd hpc hnot
  | drained hpc hz hd =>
    refine ⟨fun _ => ⟨hd, hz⟩, List.suffix_refl _, hg.ready, ?_, by simp⟩
    intro l
    have hl := hg.posted l
    rw [hpc] at hl
    exact hl
  | received l rest hpc hready =>
    refine ⟨?_, ?_, hg.ready, ?_, ?_⟩
    · exact fun _ => hg.drained (by rw [hpc]; simp)
    · have hs := hg.suffix
      rw [hpc] at hs
      exact hs
    · intro k
      have hk := hg.posted k
      rw [hpc] at hk
      exact hk
    · intro k more hk
      cases hk
      exact hready
  | taken l rest hpc hne =>
    have hsuffix : (l :: rest) <:+ allLevels := by
      have hs := hg.suffix
      rw [hpc] at hs
      exact hs
    refine ⟨?_, (List.suffix_cons l rest).trans hsuffix, hg.ready, ?_, by simp⟩
    · exact fun _ => hg.drained (by rw [hpc]; simp)
    · intro k
      have hk := hg.posted k
      rw [hpc] at hk
      by_cases hkl : k = l
      · subst hkl
        have hnot := notMem_of_suffix hsuffix
        simp only [AggregatorPc.pending, List.mem_cons_self, if_true, Nat.add_zero] at hk
        simp only [Function.update_self, AggregatorPc.pending, hnot, if_false]
        omega
      · have hmem : k ∈ (AggregatorPc.semWait l rest).pending ↔
            k ∈ (AggregatorPc.collecting rest).pending := by
          simp [AggregatorPc.pending, hkl]
        rw [if_congr hmem rfl rfl] at hk
        simpa only [Function.update_of_ne hkl] using hk

theorem ReportGate.analyzer {s : State o} (hg : ReportGate s) (l : Level) (pc : AnalyzerPc)
    (r : LevelResult) (n : ℕ) (hready : r.ready = true ↔ pc = .posting ∨ pc = .finished)
    (hkeep : (s.results l).ready = true → r.ready = true)
    (hposted : n + (if l ∈ s.aggregator.pending then 0 else 1) = if pc = .finished then 1 else 0) :
    ReportGate { s with
      results := Function.update s.results l r
      levelReady := Function.update s.levelReady l n
      analyzer := Function.update s.analyzer l pc } := by
  refine ⟨hg.drained, hg.suffix, ?_, ?_, ?_⟩
  · intro k
    by_cases hk : k = l
    · subst hk
      simpa using hready
    · simpa only [Function.update_of_ne hk] using hg.ready k
  · intro k
    by_cases hk : k = l
    · subst hk
      simpa using hposted
    · simpa only [Function.update_of_ne hk] using hg.posted k
  · intro k rest hw
    by_cases hk : k = l
    · subst hk
      simpa using hkeep (hg.waited k rest hw)
    · simpa only [Function.update_of_ne hk] using hg.waited k rest hw

/-- An analyzer that has not posted still has its unit untaken. -/
theorem ReportGate.not_posted {s : State o} (hg : ReportGate s) (l : Level)
    (hpc : s.analyzer l ≠ .finished) : s.levelReady l = 0 ∧ l ∈ s.aggregator.pending := by
  have hl := hg.posted l
  rw [if_neg hpc] at hl
  by_cases hmem : l ∈ s.aggregator.pending
  · exact ⟨by omega, hmem⟩
  · rw [if_neg hmem] at hl
    omega

theorem reportGate_step {s s' : State o} {a : Action o} {broken : Prop} (h : step s a = some s')
    (hl : LoopGuard broken s) (hg : ReportGate s) : ReportGate s' := by
  rcases step_aggregator h with hmove | ⟨hother, htrans⟩
  · exact reportGate_move hmove hg
  · cases htrans with
    | routePriority hpc hfull =>
      refine ⟨?_, hg.suffix, hg.ready, hg.posted, hg.waited⟩
      intro hnot
      have hflag := dispatcherDone_eq_false hl (by rw [hpc]; rfl)
      rw [(hg.drained hnot).1] at hflag
      cases hflag
    | leave hpc =>
      refine ⟨?_, hg.suffix, hg.ready, hg.posted, hg.waited⟩
      exact fun hnot => ⟨rfl, (hg.drained hnot).2⟩
    | workerDestructor w hpc =>
      have hsame : ∀ k, (Function.update s.results w.1
          (tlsDestructor o (s.results w.1) w.2 (s.worker w)) k).ready = (s.results k).ready :=
        apply_update_of_eq LevelResult.ready rfl
      refine ⟨hg.drained, hg.suffix, ?_, hg.posted, ?_⟩
      · intro k
        rw [hsame k]
        exact hg.ready k
      · intro k rest hw
        rw [hsame k]
        exact hg.waited k rest hw
    | analyzerTop3 l hpc hterm =>
      obtain ⟨hzero, hmem⟩ := hg.not_posted l (by simp [hpc])
      have hnot : (s.results l).ready = false := by
        rw [Bool.eq_false_iff]
        intro hr
        have hor := (hg.ready l).mp hr
        simp [hpc] at hor
      have hmove := hg.analyzer l .publishing
        { s.results l with top := computeTop3 (s.sources l) } (s.levelReady l) (by simp [hnot]) id
        (by simp [hzero, hmem])
      simpa only [Function.update_eq_self] using hmove
    | analyzerReady l hpc =>
      obtain ⟨hzero, hmem⟩ := hg.not_posted l (by simp [hpc])
      have hmove := hg.analyzer l .posting { s.results l with ready := true } (s.levelReady l)
        (by simp) (fun _ => rfl) (by simp [hzero, hmem])
      simpa only [Function.update_eq_self] using hmove
    | analyzerPost l hpc =>
      obtain ⟨hzero, hmem⟩ := hg.not_posted l (by simp [hpc])
      have hready := (hg.ready l).mpr (Or.inl hpc)
      have hmove := hg.analyzer l .finished (s.results l) (s.levelReady l + 1) (by simp [hready]) id
        (by simp [hzero, hmem])
      simpa only [Function.update_eq_self] using hmove
    | aggregatorPop => exact absurd rfl hother
    | aggregatorMove => exact absurd rfl hother
    | _ => exact ⟨hg.drained, hg.suffix, hg.ready, hg.posted, hg.waited⟩

theorem reportGate_reachable {input : o.Input} {s : State o} (h : (machine input).Reachable s) :
    ReportGate s := by
  apply h.invariant (reportGate_initial input)
  intro s a s' hr hg hs
  obtain ⟨tr, htr⟩ := hr
  exact reportGate_step hs (loopGuard_execution htr) hg

/-! ### The high-priority score -/

/-- Region D has passed on a part of what was routed to it, and the score is the
one of that part. -/
def PriorityScored (s : State o) : Prop :=
  ∃ scored, s.hist.routedD = scored ++ s.regionD.ring.toList ∧
    s.highPriorityEntries = scored.length ∧
    s.highPriorityScore = (scored.map (highPriorityHits o)).sum

theorem priorityScored_step {s s' : State o} {a : Action o} (h : step s a = some s')
    (hq : QueuesWellFormed s) (hp : PriorityScored s) : PriorityScored s' := by
  obtain ⟨scored, hrouted, hentries, hscore⟩ := hp
  rcases step_aggregator h with hmove | ⟨hother, htrans⟩
  · cases hmove with
    | score hpc hne =>
      apply Exists.intro (scored ++ [s.regionD.ring.front])
      refine ⟨?_, ?_, ?_⟩
      · rw [hrouted, RingBuffer.toList_pop hq.regionD hne]
        simp
      · simp [hentries]
      · simp [hscore]
    | _ => exact ⟨scored, hrouted, hentries, hscore⟩
  · cases htrans with
    | routePriority hpc hfull =>
      rename_i e
      apply Exists.intro scored
      refine ⟨?_, hentries, hscore⟩
      simp only [hrouted, RingBuffer.toList_push hq.regionD hfull, List.append_assoc]
    | aggregatorPop => exact absurd rfl hother
    | aggregatorMove => exact absurd rfl hother
    | _ => exact ⟨scored, hrouted, hentries, hscore⟩

theorem priorityScored_reachable {input : o.Input} {s : State o}
    (h : (machine input).Reachable s) : PriorityScored s :=
  h.invariant ⟨[], rfl, rfl, rfl⟩
    (fun _ _ _ hr hp hs => priorityScored_step hs (flowInvariant_reachable hr).queues hp)

/-! ### What holds when the report is written -/

/-- No level is left to wait for: `write_text_output` runs next. -/
def ReportDue (s : State o) : Prop := s.aggregator = .collecting []

theorem ReportGate.all_finished {s : State o} (hg : ReportGate s) (hdue : ReportDue s) (l : Level) :
    s.analyzer l = .finished := by
  have hl := hg.posted l
  by_contra hpc
  rw [hdue, if_neg hpc] at hl
  simp [AggregatorPc.pending] at hl

theorem ReportGate.all_ready {s : State o} (hg : ReportGate s) (hdue : ReportDue s) (l : Level) :
    (s.results l).ready = true :=
  (hg.ready l).mpr (Or.inr (hg.all_finished hdue l))

theorem all_closed {input : o.Input} {s : State o} (h : (machine input).Reachable s)
    (hdue : ReportDue s) (l : Level) :
    (s.regionB l).eofPosted = true ∧ (s.regionB l).ring.count = 0 := by
  have hw := workersEnded_reachable h
  have hready := (reportGate_reachable h).all_ready hdue l
  have hterm := hw.joined l (hw.ready l hready) ⟨0, o.workerThreads_pos⟩
  exact hw.closed (l, ⟨0, o.workerThreads_pos⟩) (atOrPastBarrier_of_isTerminated hterm)

theorem eq_of_levels {es fs : Multiset LogEntry}
    (h : ∀ l, es.filter (fun e => e.levelIndex = l) = fs.filter (fun e => e.levelIndex = l)) :
    es = fs := by
  apply Multiset.ext.mpr
  intro e
  have hcount := congrArg (Multiset.count e) (h e.levelIndex)
  rwa [Multiset.count_filter_of_pos (p := fun x : LogEntry => x.levelIndex = e.levelIndex) rfl,
    Multiset.count_filter_of_pos (p := fun x : LogEntry => x.levelIndex = e.levelIndex)
    rfl] at hcount

theorem pushedA_eq_produced {input : o.Input} {s : State o} (h : (machine input).Reachable s)
    (hrouting : RoutingComplete s) (hdue : ReportDue s) :
    (s.hist.pushedA : Multiset LogEntry) = produced input := by
  apply eq_of_levels
  intro l
  obtain ⟨hpost, hz⟩ := all_closed h hdue l
  have hpop := popped_eq_levelEntries (flowInvariant_reachable h) hpost hz
  have hrouted := hrouting.routed l
  rw [(RingBuffer.toList_eq_nil_iff _).mpr hz, List.append_nil] at hrouted
  rw [levelEntries, hrouted] at hpop
  simpa using hpop

/-- The report is never written after an exit on a timeout. -/
theorem routingComplete_of_reportDue {input : o.Input} {s : State o}
    (h : (machine input).Reachable s) (hdue : ReportDue s) : RoutingComplete s := by
  have hi := flowInvariant_reachable h
  obtain ⟨tr, htr⟩ := h
  have hdone := ((reportGate_reachable htr.reachable).drained (by rw [hdue]; simp)).1
  apply routingComplete_of_finished hi ((loopGuard_execution htr).flag hdone)
  exact (finishedLevels_eq_max_iff hi.markers).mpr (fun l => (all_closed htr.reachable hdue l).1)

def priorityEntries (input : o.Input) : Multiset LogEntry :=
  (produced input).filter (fun e => o.prioritySources.contains e.source)

theorem sourceIsPriority_eq (source : List Char) :
    sourceIsPriority o source = o.prioritySources.contains source := by
  rw [Bool.eq_iff_iff]
  simp [sourceIsPriority]

theorem hits_eq_weightedMatches (e : LogEntry) (k : ℕ) :
    countOverlappingKeyword e.message (o.keyword k) * levelWeight e.levelIndex =
      weightedMatches o e.levelIndex e k := by
  simp only [weightedMatches]
  split_ifs with hpos
  · rfl
  · rw [Nat.eq_zero_of_not_pos hpos, Nat.zero_mul]

theorem highPriorityHits_eq (o : Options) : highPriorityHits o = fun e =>
    levelWeight e.levelIndex *
      ∑ k ∈ Finset.range o.numKeywords, occurrences (o.keyword k) e.message := by
  funext e
  rw [highPriorityHits, sum_map_range, Finset.mul_sum]
  apply Finset.sum_congr rfl
  intro k hk
  rw [hits_eq_weightedMatches, weightedMatches_eq e.levelIndex e (Finset.mem_range.mp hk)]

/-- Everything that the aggregator owes has gone through Region D. -/
theorem priorityScored_of_reportDue {input : o.Input} {s : State o}
    (h : (machine input).Reachable s) (hdue : ReportDue s) :
    ∃ scored : List LogEntry, (scored : Multiset LogEntry) = priorityEntries input ∧
      s.highPriorityEntries = scored.length ∧
      s.highPriorityScore = (scored.map (highPriorityHits o)).sum := by
  have hrouting := routingComplete_of_reportDue h hdue
  have hempty := ((reportGate_reachable h).drained (by rw [hdue]; simp)).2
  obtain ⟨scored, hrouted, hentries, hscore⟩ := priorityScored_reachable h
  rw [(RingBuffer.toList_eq_nil_iff _).mpr hempty, List.append_nil] at hrouted
  refine ⟨scored, ?_, hentries, hscore⟩
  rw [← hrouted, hrouting.priority, priorityEntries, ← pushedA_eq_produced h hrouting hdue]
  simp [sourceIsPriority_eq]

/-- Whenever the report is written, the aggregator has scored every entry of a
priority source exactly once, whatever the interleaving and the timeouts. -/
theorem highPriority_matchesReference {input : o.Input} {s : State o}
    (h : (machine input).Reachable s) (hdue : ReportDue s) :
    s.highPriorityEntries = (priorityEntries input).card ∧
      s.highPriorityScore = ((priorityEntries input).map (fun e => levelWeight e.levelIndex *
        ∑ k ∈ Finset.range o.numKeywords, occurrences (o.keyword k) e.message)).sum := by
  obtain ⟨scored, hall, hentries, hscore⟩ := priorityScored_of_reportDue h hdue
  constructor
  · rw [hentries, ← hall, Multiset.coe_card]
  · rw [hscore, ← hall, Multiset.map_coe, Multiset.sum_coe, highPriorityHits_eq]

/-! ### One file with one line of a priority source -/

def watchedFile : Options := { oneFile with prioritySources := [['d', 'b']] }

def watchedLine : watchedFile.Input := fun _ =>
  [⟨"2026-01-01 00:00:00".toList, .error, "db".toList, "xax".toList⟩]

def watchedReader : watchedFile.Reader := ⟨0, watchedFile.numFiles_pos⟩

def watchedWorker (l : Level) : Action watchedFile := .run (.worker (l, ⟨0, Nat.one_pos⟩))

def toReport : List (Action watchedFile) :=
  [.run (.reader (watchedReader, ⟨0, Nat.one_pos⟩)), .run (.readerMain watchedReader)] ++
    List.replicate 7 (.run (.parser watchedReader)) ++ List.replicate 12 (.run .dispatcher) ++
    List.replicate 2 (watchedWorker .error) ++
    allLevels.flatMap (fun l => List.replicate 3 (watchedWorker l)) ++
    allLevels.flatMap (fun l => List.replicate 3 (.run (.analyzer l))) ++
    List.replicate 10 (.run .aggregator)

theorem toReport_isSome :
    ((machine watchedLine).run (machine watchedLine).init toReport).isSome := by decide +kernel

theorem reportDue_toReport : ReportDue (((machine watchedLine).run
    (machine watchedLine).init toReport).get toReport_isSome) := rfl

theorem highPriority_toReport : ∃ s, (machine watchedLine).Reachable s ∧ ReportDue s ∧
    s.highPriorityScore = 8 ∧ s.highPriorityEntries = (priorityEntries watchedLine).card := by
  have hreach := (Machine.execution_of_isSome toReport_isSome).reachable
  exact ⟨_, hreach, reportDue_toReport, by decide +kernel,
    (highPriority_matchesReference hreach reportDue_toReport).1⟩

end SysProg.HW4

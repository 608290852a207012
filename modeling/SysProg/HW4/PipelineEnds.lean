import SysProg.HW4.Signals
import SysProg.Lib.FairRuns

/-!
# The pipeline ends under fairness

In a run with signals that is fair to every thread and that never leaves the
dispatcher's loop after a timeout, the report is written and every thread ends:
as long as the report is not due some ready thread is awake, it stays so until
some work is done, and its next turns do some. No sleeper has to wake without a
signal. A run that does leave the loop after a timeout never writes the report.
-/

open scoped BigOperators
namespace SysProg.HW4
open SysProg.Lib
variable {o : Options}

/-! ### Steps that do no work -/

inductive Idle (s : State o) : Action o → State o → Prop where
  | sleep (th : Thread o) : ¬ Ready s th → Idle s (.run th) (s.block th)
  | wake (th : Thread o) : s.asleep th = true →
      Idle s (.wake th) { s with asleep := Function.update s.asleep th false }
  | timeout : s.asleep .dispatcher = true → s.dispatcher = .popping →
      Idle s .timeout { s with
        asleep := Function.update s.asleep .dispatcher false
        dispatcher := .timedOut }
  | retest : s.asleep .dispatcher = false → s.dispatcher = .timedOut →
      Idle s (.run .dispatcher) { s with dispatcher := .popping }

theorem step_work {s s' : State o} {a : Action o} (hq : QueuesWellFormed s)
    (h : step s a = some s') (hbreak : ¬ TimeoutBreak s a) :
    work s' < work s ∨ Idle s a s' := by
  cases a with
  | run th =>
    simp only [step] at h
    split at h
    · cases h
    · rename_i hawake
      by_cases hout : th = .dispatcher ∧ s.dispatcher = .timedOut
      · obtain ⟨rfl, hpc⟩ := hout
        have hnot : ¬ ∀ l, s.regionA.totalReaders ≤ s.regionA.eofCountPerLevel l :=
          fun hall => hbreak ⟨rfl, hpc, hall⟩
        simp only [threadStep, dispatcherStep, hpc, hnot, if_false] at h
        obtain rfl := Option.some.inj h
        exact Or.inr (.retest (by simpa using hawake) hpc)
      · have ho := threadStep_outcome hq th (fun hd hpc => hout ⟨hd, hpc⟩)
        rw [h] at ho
        cases ho with
        | advances hready hlt => exact Or.inl hlt
        | sleeps hnot => exact Or.inr (.sleep th hnot)
  | wake th =>
    simp only [step] at h
    split at h
    · rename_i hasleep
      obtain rfl := Option.some.inj h
      exact Or.inr (.wake th hasleep)
    · cases h
  | timeout =>
    simp only [step] at h
    split at h
    · rename_i hs
      obtain rfl := Option.some.inj h
      exact Or.inr (.timeout hs.1 (dispatcherPopping_iff.mp hs.2))
    · cases h

theorem Idle.work_eq {s s' : State o} {a : Action o} (h : Idle s a s') : work s' = work s := by
  cases h with
  | sleep th hnot => rfl
  | wake th hasleep => rfl
  | timeout hasleep hpc => simp only [work, hpc, DispatcherPc.work]
  | retest hawake hpc => simp only [work, hpc, DispatcherPc.work]

theorem Idle.ready_iff {s s' : State o} {a : Action o} (h : Idle s a s') (th : Thread o) :
    Ready s' th ↔ Ready s th := by
  cases h with
  | sleep => exact Iff.rfl
  | wake => exact Iff.rfl
  | timeout hasleep hpc =>
    cases th with
    | dispatcher => simp [Ready, hpc]
    | _ => exact Iff.rfl
  | retest hawake hpc =>
    cases th with
    | dispatcher => simp [Ready, hpc]
    | _ => exact Iff.rfl

/-! ### The next turn of a thread -/

def DispatcherPc.afterTimeout : DispatcherPc → ℕ
  | .timedOut => 1
  | _ => 0

/-- Turns of an awake thread before the one that does some work. -/
def turnsAway (s : State o) (th : Thread o) : ℕ :=
  if th = .dispatcher then s.dispatcher.afterTimeout else 0

def Live (s : State o) (th : Thread o) : Prop := Ready s th ∧ s.asleep th = false

theorem Idle.nearer {s s' : State o} {a : Action o} (h : Idle s a s') {th : Thread o}
    (hlive : Live s th) : s'.asleep th = false ∧ (turnsAway s' th < turnsAway s th ∨
      turnsAway s' th = turnsAway s th ∧ a ≠ .run th) := by
  obtain ⟨hready, hawake⟩ := hlive
  cases h with
  | sleep u hnot =>
    have hne : th ≠ u := by
      rintro rfl
      exact hnot hready
    refine ⟨by simpa [State.block, Function.update_of_ne hne] using hawake, Or.inr ⟨rfl, ?_⟩⟩
    simpa using hne.symm
  | wake u hasleep =>
    have hne : th ≠ u := by
      rintro rfl
      rw [hasleep] at hawake
      cases hawake
    exact ⟨by simpa [Function.update_of_ne hne] using hawake, Or.inr ⟨rfl, by simp⟩⟩
  | timeout hasleep hpc =>
    have hne : th ≠ .dispatcher := by
      rintro rfl
      rw [hasleep] at hawake
      cases hawake
    refine ⟨by simpa [Function.update_of_ne hne] using hawake, Or.inr ⟨?_, by simp⟩⟩
    simp only [turnsAway, hne, if_false]
  | retest _ hpc =>
    refine ⟨hawake, ?_⟩
    by_cases hd : th = .dispatcher
    · subst hd
      apply Or.inl
      simp [turnsAway, hpc, DispatcherPc.afterTimeout]
    · apply Or.inr
      refine ⟨by simp only [turnsAway, hd, if_false], ?_⟩
      simpa using Ne.symm hd

/-- Turns of threads. Timeouts and spurious wake-ups may come, but need not. -/
def turns (o : Options) : Set (Action o) := { a | ∃ th, a = .run th }

theorem turn_enabled {policy : SignalPolicy o} {s : State o} (hq : QueuesWellFormed s)
    {th : Thread o} (hlive : Live s th) : signalStep policy s (.run th) ≠ none := by
  obtain ⟨hready, hawake⟩ := hlive
  simp only [signalStep, hawake, Bool.false_eq_true, if_false, ne_eq, Option.map_eq_none_iff]
  by_cases hout : th = .dispatcher ∧ s.dispatcher = .timedOut
  · obtain ⟨rfl, hpc⟩ := hout
    simp only [threadStep, dispatcherStep, hpc]
    split_ifs <;> simp
  · have ho := threadStep_outcome hq th (fun hd hpc => hout ⟨hd, hpc⟩)
    intro hnone
    rw [hnone] at ho
    cases ho with
    | ended hnot => exact hnot hready

/-! ### Somebody is ready until the report is due -/

theorem parser_posted {input : o.Input} {s : State o} (hi : FlowInvariant input s)
    (hstuck : ∀ th, ¬ Ready s th) (hz : s.regionA.ring.count = 0) (r : o.Reader) :
    s.parser r = .markers [] := by
  have hcapA : s.regionA.ring.count ≠ s.regionA.ring.capacity := by
    have hlt := hi.queues.regionA.head_lt
    omega
  have hparser := hstuck (.parser r)
  cases hpc : s.parser r with
  | popping =>
    simp only [Ready, hpc, not_or, not_ne_iff, Bool.not_eq_true] at hparser
    obtain ⟨hzero, hdone⟩ := hparser
    have htodo : ∀ t, s.todo (r, t) = [] := by
      intro t
      by_contra hne
      have hfull := hstuck (.reader (r, t))
      simp only [Ready, hne, ne_eq, not_false_eq_true, true_and, not_not] at hfull
      have hlt := (hi.queues.buffer r).head_lt
      omega
    exact absurd ⟨htodo, hdone⟩ (hstuck (.readerMain r))
  | pushing e => simp [Ready, hpc, hcapA] at hparser
  | markers rest =>
    simp only [Ready, hpc, hcapA, ne_eq, not_false_eq_true, and_true, not_not] at hparser
    rw [hparser]

theorem regionB_taken {s : State o} (hw : WorkersEnded s) (hstuck : ∀ th, ¬ Ready s th)
    (l : Level) : (s.regionB l).ring.count = 0 := by
  by_contra hne
  have hworker := hstuck (.worker (l, ⟨0, o.workerThreads_pos⟩))
  have hclosed := hw.closed (l, ⟨0, o.workerThreads_pos⟩)
  cases hpc : (s.worker (l, ⟨0, o.workerThreads_pos⟩)).pc with
  | popping => simp [Ready, hpc, hne] at hworker
  | updating source hits => simp [Ready, hpc] at hworker
  | atBarrier => exact hne (hclosed (by simp [hpc, WorkerPc.atOrPastBarrier])).2
  | exiting => simp [Ready, hpc] at hworker
  | terminated => exact hne (hclosed (by simp [hpc, WorkerPc.atOrPastBarrier])).2

theorem regionD_taken {s : State o} (hg : ReportGate s) (hstuck : ∀ th, ¬ Ready s th) :
    s.regionD.ring.count = 0 := by
  by_contra hne
  have haggregator := hstuck .aggregator
  by_cases hpc : s.aggregator = .draining
  · simp [Ready, hpc, hne] at haggregator
  · exact hne (hg.drained hpc).2

theorem dispatcher_finished {input : o.Input} {s : State o} (hi : FlowInvariant input s)
    (hw : WorkersEnded s) (hg : ReportGate s) (hl : LoopGuard False s)
    (hstuck : ∀ th, ¬ Ready s th) : s.dispatcher = .finished := by
  have hdispatcher := hstuck .dispatcher
  have hopen : s.dispatcher.held = [] → s.regionA.ring.count = 0 → s.dispatcher.left = false →
      False := by
    intro hheld hz hleft
    have hlt := (hl.running hleft).1
    have hflight : inFlight s = [] := by
      rw [inFlight, hheld, (RingBuffer.toList_eq_nil_iff _).mpr hz, List.append_nil]
    have hall : ∀ l, (s.regionB l).eofPosted = true := by
      intro l
      rw [hi.markers.ended l]
      have hseen := hi.markers.seen l
      rw [hflight] at hseen
      simp only [List.countP_nil, Nat.add_zero] at hseen
      rw [hseen]
      have hposted := (sum_indicator_eq_card (fun r => (s.parser r).posted l)).mpr (by
        intro r
        rw [parser_posted hi hstuck hz r]
        simp [ParserPc.posted])
      simpa [postedCount] using hposted
    rw [(finishedLevels_eq_max_iff hi.markers).mpr hall] at hlt
    exact lt_irrefl _ hlt
  cases hpc : s.dispatcher with
  | popping =>
    simp only [Ready, hpc, ne_eq, not_not] at hdispatcher
    exact absurd (hopen (by rw [hpc]; rfl) hdispatcher (by rw [hpc]; rfl)) not_false
  | timedOut =>
    simp only [Ready, hpc, ne_eq, not_not] at hdispatcher
    exact absurd (hopen (by rw [hpc]; rfl) hdispatcher (by rw [hpc]; rfl)) not_false
  | routing e =>
    have hz := regionB_taken hw hstuck e.levelIndex
    have hlt := (hi.queues.regionB e.levelIndex).head_lt
    simp only [Ready, hpc, ne_eq, not_or, not_not] at hdispatcher
    omega
  | priority e =>
    have hz := regionD_taken hg hstuck
    have hlt := hi.queues.regionD.head_lt
    simp only [Ready, hpc, ne_eq, not_not] at hdispatcher
    omega
  | leaving => simp [Ready, hpc] at hdispatcher
  | finished => rfl

theorem worker_terminated {s : State o} (hposted : ∀ l, (s.regionB l).eofPosted = true)
    (hstuck : ∀ th, ¬ Ready s th) (w : o.Worker) : (s.worker w).pc = .terminated := by
  have hnotPopping : ∀ v, (s.worker v).pc.atOrPastBarrier = true := by
    intro v
    have hworker := hstuck (.worker v)
    cases hpc : (s.worker v).pc with
    | popping => simp [Ready, hpc, hposted v.1] at hworker
    | updating source hits => simp [Ready, hpc] at hworker
    | _ => rfl
  have hworker := hstuck (.worker w)
  have hpast := hnotPopping w
  cases hpc : (s.worker w).pc with
  | popping => simp [hpc, WorkerPc.atOrPastBarrier] at hpast
  | updating source hits => simp [hpc, WorkerPc.atOrPastBarrier] at hpast
  | atBarrier => simp [Ready, hpc, hnotPopping] at hworker
  | exiting => simp [Ready, hpc] at hworker
  | terminated => rfl

theorem analyzer_finished {s : State o} (hworkers : ∀ w, (s.worker w).pc = .terminated)
    (hstuck : ∀ th, ¬ Ready s th) (l : Level) : s.analyzer l = .finished := by
  have hanalyzer := hstuck (.analyzer l)
  cases hpc : s.analyzer l with
  | joining => simp [Ready, hpc, hworkers, WorkerPc.isTerminated] at hanalyzer
  | publishing => simp [Ready, hpc] at hanalyzer
  | posting => simp [Ready, hpc] at hanalyzer
  | finished => rfl

theorem loopHead_ne_finished (n : ℕ) : loopHead n ≠ .finished := by
  unfold loopHead
  split_ifs <;> simp

theorem dispatcherDone_iff {input : o.Input} {s : State o} (h : (machine input).Reachable s) :
    s.regionD.dispatcherDone = true ↔ s.dispatcher = .finished := by
  apply h.invariant (P := fun s => s.regionD.dispatcherDone = true ↔ s.dispatcher = .finished)
  · have hne := loopHead_ne_finished 0
    simpa [machine, initial] using hne
  · intro s a s' _ hiff hs
    rcases step_aggregator hs with hmove | ⟨-, htrans⟩
    · cases hmove <;> exact hiff
    · cases htrans with
      | timeout f hpc => simpa [hpc] using hiff
      | dispatcherPop hpc => simpa [hpc] using hiff
      | allDone hpc => simpa [hpc] using hiff
      | notAllDone hpc => simpa [hpc] using hiff
      | lastMarker hpc => simpa [hpc, loopHead_ne_finished] using hiff
      | marker hpc => simpa [hpc, loopHead_ne_finished] using hiff
      | route hpc =>
        rename_i e _ _
        have hnext : (if sourceIsPriority o e.source = true then DispatcherPc.priority e
            else loopHead s.finishedLevels) ≠ .finished := by
          split_ifs
          · simp
          · exact loopHead_ne_finished _
        simpa [hpc, hnext] using hiff
      | routePriority hpc => simpa [hpc, loopHead_ne_finished] using hiff
      | leave => simp
      | _ => exact hiff

theorem reportDue_of_stuck {input : o.Input} {s : State o} (h : (machine input).Reachable s)
    (hl : LoopGuard False s) (hstuck : ∀ th, ¬ Ready s th) : ReportDue s := by
  have hi := flowInvariant_reachable h
  have hw := workersEnded_reachable h
  have hg := reportGate_reachable h
  have hdispatcher := dispatcher_finished hi hw hg hl hstuck
  have hdone := (dispatcherDone_iff h).mpr hdispatcher
  have hfinished := (hl.left (by rw [hdispatcher]; rfl)).mpr not_false
  have hworkers := worker_terminated ((finishedLevels_eq_max_iff hi.markers).mp hfinished) hstuck
  have hanalyzers := analyzer_finished hworkers hstuck
  have haggregator := hstuck .aggregator
  cases hpc : s.aggregator with
  | draining => simp [Ready, hpc, hdone] at haggregator
  | collecting pending =>
    cases pending with
    | nil => exact hpc
    | cons l rest =>
      have hready := (hg.ready l).mpr (Or.inr (hanalyzers l))
      simp [Ready, hpc, hready] at haggregator
  | semWait l rest =>
    have hposted := hg.posted l
    simp only [Ready, hpc, ne_eq, not_not] at haggregator
    simp [hpc, AggregatorPc.pending, hanalyzers l, haggregator] at hposted

/-! ### The report is written exactly without an exit on a timeout -/

/-- All threads have returned, and the aggregator goes on to its report. -/
structure Ended (s : State o) : Prop where
  report : ReportDue s
  readers : ∀ p, s.todo p = []
  parsers : ∀ r, s.parser r = .markers []
  dispatcher : s.dispatcher = .finished
  workers : ∀ w, (s.worker w).pc = .terminated
  analyzers : ∀ l, s.analyzer l = .finished

theorem ended_of_reportDue {input : o.Input} {s : State o} (h : (machine input).Reachable s)
    (hdue : ReportDue s) : Ended s := by
  have hi := flowInvariant_reachable h
  have hw := workersEnded_reachable h
  have hg := reportGate_reachable h
  have hparsers : ∀ r, s.parser r = .markers [] := by
    intro r
    have hposted : ∀ l, (s.parser r).posted l = true := by
      intro l
      have hended := (hi.markers.ended l).mp (all_closed h hdue l).1
      have hseen := hi.markers.seen l
      have hle := postedCount_le s.parser l
      exact posted_of_postedCount (by omega) r
    cases hpc : s.parser r with
    | popping => simpa [hpc, ParserPc.posted] using hposted .error
    | pushing e => simpa [hpc, ParserPc.posted] using hposted .error
    | markers rest =>
      cases rest with
      | nil => rfl
      | cons l rest => simpa [hpc, ParserPc.posted] using hposted l
  refine ⟨hdue, ?_, hparsers, ?_, ?_, hg.all_finished hdue⟩
  · intro p
    exact hi.readers.joined p.1 (hi.readers.drained p.1 [] (hparsers p.1)).1 p.2
  · exact (dispatcherDone_iff h).mp (hg.drained (by rw [hdue]; simp)).1
  · intro w
    have hterm := hw.joined w.1 (by rw [hg.all_finished hdue w.1]; simp) w.2
    cases hpc : (s.worker w).pc with
    | terminated => rfl
    | _ => simp [hpc, WorkerPc.isTerminated] at hterm

section FairRun
variable {input : o.Input} {policy : SignalPolicy o}
  (r : (signalMachine policy input).FairRun (turns o))

def NoTimeoutBreak : Prop := ∀ n a, r.action n = some a → ¬ TimeoutBreak (r.state n) a

variable {r}

/-- What has been done before instant `n`, with the wake-ups spelt out. -/
theorem execution_fairRun (n : ℕ) : ∃ tr, (machine input).Execution tr (r.state n) ∧
    ((∃ p ∈ tr, TimeoutBreak p.1 p.2) ↔
      ∃ m < n, ∃ a, r.action m = some a ∧ TimeoutBreak (r.state m) a) := by
  obtain ⟨tr, htr, hsteps⟩ := r.execution n
  obtain ⟨tr', htr', hbreaks⟩ := execution_of_signals htr
  refine ⟨tr', htr', hbreaks.trans ?_⟩
  constructor
  · rintro ⟨p, hp, hbreak⟩
    obtain ⟨m, hm, hstate, haction⟩ := (hsteps p).mp hp
    exact ⟨m, hm, p.2, haction, hstate ▸ hbreak⟩
  · rintro ⟨m, hm, a, haction, hbreak⟩
    exact ⟨(r.state m, a), (hsteps _).mpr ⟨m, hm, rfl, haction⟩, hbreak⟩

theorem loopGuard_fairRun (hnone : NoTimeoutBreak r) (n : ℕ) : LoopGuard False (r.state n) := by
  obtain ⟨tr, htr, hbreaks⟩ := execution_fairRun (r := r) n
  apply loopGuard_same (loopGuard_execution htr) rfl rfl rfl
  simp only [false_iff, hbreaks]
  rintro ⟨m, -, a, ha, hbreak⟩
  exact hnone m a ha hbreak

theorem fairRun_progress (hnone : NoTimeoutBreak r) :
    r.Progress ReportDue work Live (fun _ th => .run th) turnsAway where
  some_live n hgoal := by
    have hreach := reachable_of_signals (r.reachable n)
    by_contra hstuck
    apply hgoal
    apply reportDue_of_stuck hreach (loopGuard_fairRun hnone n)
    intro th hready
    exact hstuck (awake_of_ready (r.reachable n) hready)
  enabled n th hlive := by
    have hq := (flowInvariant_reachable (reachable_of_signals (r.reachable n))).queues
    exact ⟨⟨th, rfl⟩, turn_enabled hq hlive⟩
  moves n a th ha hlive := by
    have hq := (flowInvariant_reachable (reachable_of_signals (r.reachable n))).queues
    obtain ⟨t, f, hstep, hle, hnext⟩ := signalStep_step (r.moves n a ha)
    rw [hnext]
    rcases step_work hq hstep (hnone n a ha) with hlt | hidle
    · exact Or.inl hlt
    · obtain ⟨hawake, hnear⟩ := hidle.nearer hlive
      have hstill : f th = false := by
        rw [Bool.eq_false_iff]
        intro hf
        rw [hle th hf] at hawake
        cases hawake
      have hready : Ready t th := (hidle.ready_iff th).mpr hlive.1
      refine Or.inr ⟨hidle.work_eq, ⟨?_, hstill⟩, ?_⟩
      · cases th <;> exact hready
      · rcases hnear with hlt | ⟨hsame, hne⟩
        · exact Or.inl hlt
        · exact Or.inr ⟨hsame, rfl, hne⟩

theorem dispatcher_stays_finished {n m : ℕ} (h : (r.state n).dispatcher = .finished)
    (hm : n ≤ m) : (r.state m).dispatcher = .finished := by
  refine r.stable (P := fun s => s.dispatcher = .finished) h ?_ m hm
  intro k a ha hpc
  obtain ⟨t, f, hstep, -, hnext⟩ := signalStep_step (r.moves k a ha)
  rw [hnext]
  rcases step_aggregator hstep with hmove | ⟨-, htrans⟩
  · cases hmove <;> exact hpc
  · cases htrans <;> simp_all

/-- A fair run writes its report, with every thread ended, exactly when it never
leaves the dispatcher's loop after a timeout; whichever sleepers the signals wake. -/
theorem fairRun_ends_iff : (∃ n, Ended (r.state n)) ↔ NoTimeoutBreak r := by
  constructor
  · rintro ⟨n, hended⟩ m a ha hbreak
    rcases Nat.lt_or_ge m n with hlt | hge
    · obtain ⟨tr, htr, hbreaks⟩ := execution_fairRun (r := r) n
      have hleft := (loopGuard_execution htr).left (by rw [hended.dispatcher]; rfl)
      have hi := flowInvariant_reachable htr.reachable
      have hclosed := fun l => (all_closed htr.reachable hended.report l).1
      exact hleft.mp ((finishedLevels_eq_max_iff hi.markers).mpr hclosed)
        (hbreaks.mpr ⟨m, hlt, a, ha, hbreak⟩)
    · have hpc := dispatcher_stays_finished hended.dispatcher hge
      rw [hbreak.2.1] at hpc
      cases hpc
  · intro hnone
    obtain ⟨n, hdue⟩ := (fairRun_progress hnone).reaches
    exact ⟨n, ended_of_reportDue (reachable_of_signals (r.reachable n)) hdue⟩

end FairRun

theorem Ended.rest {input : o.Input} {s : State o} (hended : Ended s)
    (h : (machine input).Reachable s) (policy : SignalPolicy o) :
    ∀ a ∈ turns o, signalStep policy s a = none := by
  have hreaders := (flowInvariant_reachable h).readers
  rintro a ⟨th, rfl⟩
  have hnone : threadStep s th = none := by
    cases th with
    | reader p => simp [threadStep, readerThreadStep, hended.readers p]
    | readerMain r =>
      have hdone := (hreaders.drained r [] (hended.parsers r)).1
      simp [threadStep, readerMainStep, hdone]
    | parser r => simp [threadStep, parserStep, hended.parsers r]
    | dispatcher => simp [threadStep, dispatcherStep, hended.dispatcher]
    | worker w => simp [threadStep, workerStep, hended.workers w]
    | analyzer l => simp [threadStep, analyzerStep, hended.analyzers l]
    | aggregator =>
      have hdue : s.aggregator = .collecting [] := hended.report
      simp [threadStep, aggregatorStep, hdue]
  simp [signalStep, hnone]

abbrev watchedMachine : Machine (State watchedFile) (Action watchedFile) :=
  signalMachine (.inOrder watchedFile) watchedLine

/-- The dispatcher, a worker and the aggregator go to sleep first, and nobody wakes by himself. -/
def sleepersFirst : List (Action watchedFile) :=
  [.run .dispatcher, watchedWorker .error, .run .aggregator] ++ toReport

theorem sleepersFirst_isSome :
    (watchedMachine.run watchedMachine.init sleepersFirst).isSome := by decide +kernel

theorem reportDue_sleepersFirst :
    ReportDue ((watchedMachine.run watchedMachine.init sleepersFirst).get sleepersFirst_isSome) :=
    rfl

theorem fairRun_ends_sleepersFirst : ∃ r : watchedMachine.FairRun (turns watchedFile),
    (r.state 3).asleep .aggregator = true ∧ NoTimeoutBreak r ∧ ∃ n, Ended (r.state n) := by
  have hrun := (Option.some_get sleepersFirst_isSome).symm
  have hreach := reachable_of_signals (Machine.execution_of_isSome sleepersFirst_isSome).reachable
  have hended := ended_of_reportDue hreach reportDue_sleepersFirst
  have hrest := hended.rest hreach (.inOrder watchedFile)
  have hstate := Machine.FairRun.run_scripted hrun sleepersFirst.length
  rw [List.take_length, hrun] at hstate
  have hasleep : (Machine.FairRun.scripted watchedMachine sleepersFirst 3).asleep .aggregator =
      true :=
    by decide +kernel
  have hend : ∃ n, Ended ((Machine.FairRun.ofScript sleepersFirst _ hrun hrest).state n) := by
    apply Exists.intro sleepersFirst.length
    rw [Option.some.inj hstate] at hended
    exact hended
  exact ⟨_, hasleep, fairRun_ends_iff.mp hend, hend⟩

end SysProg.HW4

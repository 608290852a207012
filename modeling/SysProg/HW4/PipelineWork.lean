import SysProg.HW4.Aggregator

/-!
# The work that is left in the pipeline

Every entry has a fixed number of critical sections ahead of it, every thread a
fixed number of its own. A thread is ready when its next critical section would
do one of them. `Outcome` compares this with the step functions: a ready thread
lowers the work by its step, and a thread that is not ready goes to sleep or has
no step. The test after a timed-out wait is the one step that does neither.
-/

open scoped BigOperators
namespace SysProg.HW4
open SysProg.Lib
variable {o : Options}

/-- Critical sections from the hands of the dispatcher on: routing, the copy to
Region D, its score, the worker's pop and its source table. -/
def LogEntry.work (e : LogEntry) : ℕ := if e.isEof then 1 else 5

def queueWork (stages : ℕ) (es : List LogEntry) : ℕ := (es.map (fun e => e.work + stages)).sum

@[simp] theorem queueWork_cons (stages : ℕ) (e : LogEntry) (es : List LogEntry) :
    queueWork stages (e :: es) = e.work + stages + queueWork stages es := by
  simp [queueWork]

@[simp] theorem queueWork_concat (stages : ℕ) (es : List LogEntry) (e : LogEntry) :
    queueWork stages (es ++ [e]) = queueWork stages es + (e.work + stages) := by
  simp [queueWork]

def PrivateBuffer.work (b : PrivateBuffer) : ℕ :=
  queueWork 3 b.ring.toList + if b.producersDone then 0 else 1

def ParserPc.work : ParserPc → ℕ
  | .popping => 13
  | .pushing e => e.work + 15
  | .markers rest => 3 * rest.length

def DispatcherPc.work : DispatcherPc → ℕ
  | .popping | .timedOut => 2
  | .routing e => e.work + 2
  | .priority _ => 4
  | .leaving => 1
  | .finished => 0

def WorkerPc.work : WorkerPc → ℕ
  | .popping => 3
  | .updating _ _ => 4
  | .atBarrier => 2
  | .exiting => 1
  | .terminated => 0

def AnalyzerPc.work : AnalyzerPc → ℕ
  | .joining => 3
  | .publishing => 2
  | .posting => 1
  | .finished => 0

def AggregatorPc.work : AggregatorPc → ℕ
  | .draining => 9
  | .collecting rest => 2 * rest.length
  | .semWait _ rest => 2 * rest.length + 1

def work (s : State o) : ℕ :=
  ∑ p, queueWork 4 (s.todo p) + ∑ r, (s.buffer r).work + ∑ r, (s.parser r).work +
    queueWork 1 s.regionA.ring.toList + s.dispatcher.work + ∑ l, 2 * (s.regionB l).ring.count +
    s.regionD.ring.count + ∑ w, (s.worker w).pc.work + ∑ l, (s.analyzer l).work +
    s.aggregator.work

theorem loopHead_work_le (n : ℕ) : (loopHead n).work ≤ 2 := by
  unfold loopHead
  split_ifs <;> decide

/-! ### Threads that can do some of it -/

/-- The next critical section of the thread does some of the work. After a
timeout the dispatcher is ready when its next turn will find an entry. -/
def Ready (s : State o) : Thread o → Prop
  | .reader p => s.todo p ≠ [] ∧ (s.buffer p.1).ring.count ≠ (s.buffer p.1).ring.capacity
  | .readerMain r => (∀ t, s.todo (r, t) = []) ∧ (s.buffer r).producersDone = false
  | .parser r =>
    match s.parser r with
    | .popping => (s.buffer r).ring.count ≠ 0 ∨ (s.buffer r).producersDone = true
    | .pushing _ => s.regionA.ring.count ≠ s.regionA.ring.capacity
    | .markers rest => rest ≠ [] ∧ s.regionA.ring.count ≠ s.regionA.ring.capacity
  | .dispatcher =>
    match s.dispatcher with
    | .popping | .timedOut => s.regionA.ring.count ≠ 0
    | .routing e => e.isEof = true ∨
        (s.regionB e.levelIndex).ring.count ≠ (s.regionB e.levelIndex).ring.capacity
    | .priority _ => s.regionD.ring.count ≠ s.regionD.ring.capacity
    | .leaving => True
    | .finished => False
  | .worker w =>
    match (s.worker w).pc with
    | .popping => (s.regionB w.1).ring.count ≠ 0 ∨ (s.regionB w.1).eofPosted = true
    | .updating _ _ | .exiting => True
    | .atBarrier => ∀ v, (s.worker (w.1, v)).pc.atOrPastBarrier = true
    | .terminated => False
  | .analyzer l =>
    match s.analyzer l with
    | .joining => ∀ v, (s.worker (l, v)).pc.isTerminated = true
    | .publishing | .posting => True
    | .finished => False
  | .aggregator =>
    match s.aggregator with
    | .draining => s.regionD.ring.count ≠ 0 ∨ s.regionD.dispatcherDone = true
    | .collecting [] => False
    | .collecting (l :: _) => (s.results l).ready = true
    | .semWait l _ => s.levelReady l ≠ 0

inductive Outcome (s : State o) (th : Thread o) : Option (State o) → Prop where
  | advances {s' : State o} : Ready s th → work s' < work s → Outcome s th (some s')
  | sleeps : ¬ Ready s th → Outcome s th (some (s.block th))
  | ended : ¬ Ready s th → Outcome s th none

theorem reader_outcome {s : State o} (hq : QueuesWellFormed s) (p : o.ReaderThread) :
    Outcome s (.reader p) (readerThreadStep s p) := by
  unfold readerThreadStep
  cases hp : s.todo p with
  | nil => exact .ended (by simp [Ready, hp])
  | cons e rest =>
    by_cases hfull : (s.buffer p.1).ring.count = (s.buffer p.1).ring.capacity
    · simp only [privateBufferPush, boundedPush, hfull, if_true, Option.map_none]
      exact .sleeps (by simp [Ready, hfull])
    · simp only [privateBufferPush, boundedPush, hfull, if_false, Option.map_some]
      apply Outcome.advances
      · simp [Ready, hp, hfull]
      · have htodo := sum_update_add (fun _ es => queueWork 4 es) s.todo p rest
        have hbuf := sum_update_add (fun _ b => PrivateBuffer.work b) s.buffer p.1
          { s.buffer p.1 with ring := (s.buffer p.1).ring.push e }
        simp only [hp, queueWork_cons] at htodo
        simp only [PrivateBuffer.work, RingBuffer.toList_push (hq.buffer p.1) hfull,
          queueWork_concat] at hbuf
        simp only [work, PrivateBuffer.work]
        omega

theorem readerMain_outcome (s : State o) (r : o.Reader) :
    Outcome s (.readerMain r) (readerMainStep s r) := by
  unfold readerMainStep
  split_ifs with h
  · have hready : Ready s (.readerMain r) := h
    apply Outcome.advances hready
    have hbuf := sum_update_add (fun _ b => PrivateBuffer.work b) s.buffer r
      { s.buffer r with producersDone := true }
    simp only [PrivateBuffer.work, h.2, if_true, Bool.false_eq_true, if_false] at hbuf
    simp only [work, PrivateBuffer.work]
    omega
  · exact .ended h

theorem pushRegionA_work {a : RegionA} (ha : a.ring.WellFormed) (e : LogEntry) :
    pushRegionA a e = none ∧ a.ring.count = a.ring.capacity ∨
      a.ring.count ≠ a.ring.capacity ∧ ∃ a', pushRegionA a e = some a' ∧
        queueWork 1 a'.ring.toList = queueWork 1 a.ring.toList + (e.work + 1) := by
  by_cases hfull : a.ring.count = a.ring.capacity
  · exact Or.inl ⟨by simp [pushRegionA, boundedPush, hfull], hfull⟩
  · apply Or.inr
    refine ⟨hfull, _, pushRegionA_eq_some.mpr ⟨hfull, rfl⟩, ?_⟩
    rw [RingBuffer.toList_push ha hfull, queueWork_concat]

theorem parser_outcome {s : State o} (hq : QueuesWellFormed s) (r : o.Reader) :
    Outcome s (.parser r) (parserStep s r) := by
  unfold parserStep
  cases hpc : s.parser r with
  | popping =>
    by_cases hz : (s.buffer r).ring.count = 0
    · cases hd : (s.buffer r).producersDone with
      | false =>
        simp only [privateBufferPop, boundedPop, hz, hd, if_true, Bool.false_eq_true, if_false,
          Option.map_none]
        exact .sleeps (by simp [Ready, hpc, hz, hd])
      | true =>
        simp only [privateBufferPop, boundedPop, hz, hd, if_true, Option.map_some]
        apply Outcome.advances
        · simp [Ready, hpc, hd]
        · have hbuf := sum_update_add (fun _ b => PrivateBuffer.work b) s.buffer r
            { s.buffer r with producersDone := true }
          have hpar := sum_update_add (fun _ pc => ParserPc.work pc) s.parser r
            (.markers allLevels)
          simp only [PrivateBuffer.work, hd, if_true] at hbuf
          simp only [hpc, ParserPc.work, allLevels, List.length_cons, List.length_nil] at hpar
          simp only [work, PrivateBuffer.work, ParserPc.work, allLevels]
          omega
    · simp only [privateBufferPop, boundedPop, hz, if_false, Option.map_some]
      apply Outcome.advances
      · simp [Ready, hpc, hz]
      · have hbuf := sum_update_add (fun _ b => PrivateBuffer.work b) s.buffer r
          { s.buffer r with ring := (s.buffer r).ring.pop }
        have hpar := sum_update_add (fun _ pc => ParserPc.work pc) s.parser r
          (.pushing (s.buffer r).ring.front)
        simp only [PrivateBuffer.work, RingBuffer.toList_pop (hq.buffer r) hz,
          queueWork_cons] at hbuf
        simp only [hpc, ParserPc.work] at hpar
        simp only [work, PrivateBuffer.work, ParserPc.work]
        omega
  | pushing e =>
    rcases pushRegionA_work hq.regionA e with ⟨hpush, hfull⟩ | ⟨hfull, a, hpush, hwork⟩
    · simp only [hpush]
      exact .sleeps (by simp [Ready, hpc, hfull])
    · simp only [hpush]
      apply Outcome.advances
      · simp [Ready, hpc, hfull]
      · have hpar := sum_update_add (fun _ pc => ParserPc.work pc) s.parser r .popping
        simp only [hpc, ParserPc.work] at hpar
        simp only [work, ParserPc.work]
        omega
  | markers rest =>
    cases rest with
    | nil => exact .ended (by simp [Ready, hpc])
    | cons l rest =>
      rcases pushRegionA_work hq.regionA (eofEntry r l) with
        ⟨hpush, hfull⟩ | ⟨hfull, a, hpush, hwork⟩
      · simp only [hpush]
        exact .sleeps (by simp [Ready, hpc, hfull])
      · simp only [hpush]
        apply Outcome.advances
        · simp [Ready, hpc, hfull]
        · have hpar := sum_update_add (fun _ pc => ParserPc.work pc) s.parser r (.markers rest)
          have hmarker : (eofEntry r l).work = 1 := rfl
          simp only [hpc, ParserPc.work, List.length_cons] at hpar
          simp only [work, ParserPc.work]
          omega

theorem analyzer_outcome (s : State o) (l : Level) :
    Outcome s (.analyzer l) (analyzerStep s l) := by
  have hmove := fun pc => sum_update_add (fun _ pc => AnalyzerPc.work pc) s.analyzer l pc
  unfold analyzerStep
  cases hpc : s.analyzer l with
  | joining =>
    simp only
    split_ifs with hterm
    · apply Outcome.advances
      · simpa [Ready, hpc] using hterm
      · have hm := hmove .publishing
        simp only [hpc, AnalyzerPc.work] at hm
        simp only [work, AnalyzerPc.work]
        omega
    · exact .ended (by simpa [Ready, hpc] using hterm)
  | publishing =>
    apply Outcome.advances
    · simp [Ready, hpc]
    · have hm := hmove .posting
      simp only [hpc, AnalyzerPc.work] at hm
      simp only [work, AnalyzerPc.work]
      omega
  | posting =>
    apply Outcome.advances
    · simp [Ready, hpc]
    · have hm := hmove .finished
      simp only [hpc, AnalyzerPc.work] at hm
      simp only [work, AnalyzerPc.work]
      omega
  | finished => exact .ended (by simp [Ready, hpc])

theorem aggregator_outcome (s : State o) : Outcome s .aggregator (aggregatorStep s) := by
  cases hstep : aggregatorStep s with
  | none =>
    apply Outcome.ended
    unfold aggregatorStep at hstep
    cases hpc : s.aggregator with
    | draining =>
      simp only [hpc] at hstep
      split at hstep <;> cases hstep
    | collecting pending =>
      cases pending with
      | nil => simp [Ready, hpc]
      | cons l rest =>
        simp only [hpc] at hstep
        split at hstep <;> cases hstep
    | semWait l rest =>
      simp only [hpc] at hstep
      split at hstep
      · simpa [Ready, hpc] using ‹s.levelReady l = 0›
      · cases hstep
  | some s' =>
    cases aggregatorStep_move hstep with
    | sleepEmpty hpc hz hd => exact .sleeps (by simp [Ready, hpc, hz, hd])
    | sleepUnready l rest hpc hready => exact .sleeps (by simp [Ready, hpc, hready])
    | score hpc hne =>
      apply Outcome.advances
      · simp [Ready, hpc, hne]
      · have hpop : s.regionD.ring.pop.count = s.regionD.ring.count - 1 := rfl
        simp only [work, hpop]
        omega
    | drained hpc hz hd =>
      apply Outcome.advances
      · simp [Ready, hpc, hd]
      · simp only [work, hpc, AggregatorPc.work, allLevels, List.length_cons, List.length_nil]
        omega
    | received l rest hpc hready =>
      apply Outcome.advances
      · simp [Ready, hpc, hready]
      · simp only [work, hpc, AggregatorPc.work, List.length_cons]
        omega
    | taken l rest hpc hne =>
      apply Outcome.advances
      · simp [Ready, hpc, hne]
      · simp only [work, hpc, AggregatorPc.work]
        omega

theorem regionB_push_count (s : State o) (l : Level) (e : LogEntry) :
    ∑ k, 2 * (Function.update s.regionB l
      ⟨(s.regionB l).ring.push e, (s.regionB l).eofPosted⟩ k).ring.count =
      ∑ k, 2 * (s.regionB k).ring.count + 2 := by
  have hsum := sum_update_add (fun _ (b : RegionB) => 2 * b.ring.count) s.regionB l
    ⟨(s.regionB l).ring.push e, (s.regionB l).eofPosted⟩
  have hpush : ((s.regionB l).ring.push e).count = (s.regionB l).ring.count + 1 := rfl
  simp only [hpush] at hsum
  omega

theorem regionB_close_count (s : State o) (l : Level) :
    ∑ k, 2 * (Function.update s.regionB l ⟨(s.regionB l).ring, true⟩ k).ring.count =
      ∑ k, 2 * (s.regionB k).ring.count := by
  have hsame := apply_update_of_eq (f := s.regionB) (i := l) (x := ⟨(s.regionB l).ring, true⟩)
    (fun b => b.ring.count) rfl
  simp only [hsame]

theorem dispatcher_outcome {s : State o} (hq : QueuesWellFormed s)
    (hpc : s.dispatcher ≠ .timedOut) : Outcome s .dispatcher (dispatcherStep s) := by
  unfold dispatcherStep
  cases hd : s.dispatcher with
  | popping =>
    by_cases hz : s.regionA.ring.count = 0
    · simp only [popRegionA, hz, if_true]
      exact .sleeps (by simp [Ready, hd, hz])
    · simp only [popRegionA, hz, if_false]
      apply Outcome.advances
      · simp [Ready, hd, hz]
      · simp only [work, hd, DispatcherPc.work, RingBuffer.toList_pop hq.regionA hz,
          queueWork_cons]
        omega
  | timedOut => exact absurd hd hpc
  | routing e =>
    cases heof : e.isEof with
    | true =>
      have hold : s.dispatcher.work = 3 := by simp [hd, DispatcherPc.work, LogEntry.work, heof]
      simp only [heof, if_true]
      have hclose := regionB_close_count s e.levelIndex
      have hfinish := loopHead_work_le (s.finishedLevels + 1)
      have hhead := loopHead_work_le s.finishedLevels
      split_ifs
      · apply Outcome.advances
        · simp [Ready, hd, heof]
        · simp only [work]
          omega
      · apply Outcome.advances
        · simp [Ready, hd, heof]
        · simp only [work]
          omega
    | false =>
      have hold : s.dispatcher.work = 7 := by simp [hd, DispatcherPc.work, LogEntry.work, heof]
      simp only [heof, Bool.false_eq_true, if_false]
      by_cases hfull : (s.regionB e.levelIndex).ring.count = (s.regionB e.levelIndex).ring.capacity
      · simp only [pushRegionB, boundedPush, hfull, if_true, Option.map_none]
        exact .sleeps (by simp [Ready, hd, heof, hfull])
      · simp only [pushRegionB, boundedPush, hfull, if_false, Option.map_some]
        apply Outcome.advances
        · simp [Ready, hd, heof, hfull]
        · have hpush := regionB_push_count s e.levelIndex e
          have hhead := loopHead_work_le s.finishedLevels
          have hnext : (if sourceIsPriority o e.source = true then DispatcherPc.priority e
              else loopHead s.finishedLevels).work ≤ 4 := by
            split_ifs
            · exact le_rfl
            · omega
          simp only [work]
          omega
  | priority e =>
    by_cases hfull : s.regionD.ring.count = s.regionD.ring.capacity
    · simp only [pushRegionD, boundedPush, hfull, if_true, Option.map_none]
      exact .sleeps (by simp [Ready, hd, hfull])
    · simp only [pushRegionD, boundedPush, hfull, if_false, Option.map_some]
      apply Outcome.advances
      · simp [Ready, hd, hfull]
      · have hhead := loopHead_work_le s.finishedLevels
        have hold : s.dispatcher.work = 4 := by simp [hd, DispatcherPc.work]
        have hpush : (s.regionD.ring.push e).count = s.regionD.ring.count + 1 := rfl
        simp only [work, hpush]
        omega
  | leaving =>
    apply Outcome.advances
    · simp [Ready, hd]
    · simp only [work, hd, DispatcherPc.work]
      omega
  | finished => exact .ended (by simp [Ready, hd])

theorem score_work_le (o : Options) (l : Level) (ws : WorkerState) (e : LogEntry) :
    (ws.score o l e).pc.work ≤ 4 := by
  simp only [WorkerState.score]
  split_ifs
  · exact le_rfl
  · exact Nat.le_succ 3

theorem worker_outcome (s : State o) (w : o.Worker) : Outcome s (.worker w) (workerStep s w) := by
  have hmove := fun ws =>
    sum_update_add (fun _ ws => WorkerPc.work (WorkerState.pc ws)) s.worker w ws
  unfold workerStep
  cases hpc : (s.worker w).pc with
  | popping =>
    by_cases hz : (s.regionB w.1).ring.count = 0
    · cases hp : (s.regionB w.1).eofPosted with
      | false =>
        simp only [hpc, popLevelEntry, boundedPop, hz, hp, if_true, Bool.false_eq_true, if_false,
          Option.map_none]
        exact .sleeps (by simp [Ready, hpc, hz, hp])
      | true =>
        have hpop : popLevelEntry (s.regionB w.1) = some (none, s.regionB w.1) := by
          simp only [popLevelEntry, boundedPop, hz, hp, if_true, Option.map_some]
          rw [← hp]
        simp only [hpc, hpop, Function.update_eq_self]
        apply Outcome.advances
        · simp [Ready, hpc, hp]
        · have hm := hmove { s.worker w with pc := .atBarrier }
          simp only [hpc, WorkerPc.work] at hm
          simp only [work, WorkerPc.work]
          omega
    · simp only [hpc, popLevelEntry, boundedPop, hz, if_false, Option.map_some]
      apply Outcome.advances
      · simp [Ready, hpc, hz]
      · have hm := hmove ((s.worker w).score o w.1 (s.regionB w.1).ring.front)
        have hle := score_work_le o w.1 (s.worker w) (s.regionB w.1).ring.front
        have hring := sum_update_add (fun _ (b : RegionB) => 2 * b.ring.count) s.regionB w.1
          { s.regionB w.1 with ring := (s.regionB w.1).ring.pop }
        have hpop : (s.regionB w.1).ring.pop.count = (s.regionB w.1).ring.count - 1 := rfl
        simp only [hpc, WorkerPc.work] at hm hle
        simp only [hpop] at hring
        simp only [work, WorkerPc.work]
        omega
  | updating source hits =>
    simp only [hpc]
    apply Outcome.advances
    · simp [Ready, hpc]
    · have hm := hmove { s.worker w with pc := .popping }
      simp only [hpc, WorkerPc.work] at hm
      simp only [work, WorkerPc.work]
      omega
  | atBarrier =>
    simp only [hpc]
    split_ifs with hall
    · apply Outcome.advances
      · simpa [Ready, hpc] using hall
      · have hm := hmove { s.worker w with pc := .exiting }
        simp only [hpc, WorkerPc.work] at hm
        simp only [work, WorkerPc.work]
        omega
    · exact .ended (by simpa [Ready, hpc] using hall)
  | exiting =>
    simp only [hpc]
    apply Outcome.advances
    · simp [Ready, hpc]
    · have hm := hmove { s.worker w with pc := .terminated }
      simp only [hpc, WorkerPc.work] at hm
      simp only [work, WorkerPc.work]
      omega
  | terminated =>
    simp only [hpc]
    exact .ended (by simp [Ready, hpc])

/-- Except for the test after a timeout. -/
theorem threadStep_outcome {s : State o} (hq : QueuesWellFormed s) (th : Thread o)
    (h : th = .dispatcher → s.dispatcher ≠ .timedOut) : Outcome s th (threadStep s th) := by
  cases th with
  | reader p => exact reader_outcome hq p
  | readerMain r => exact readerMain_outcome s r
  | parser r => exact parser_outcome hq r
  | dispatcher => exact dispatcher_outcome hq (h rfl)
  | worker w => exact worker_outcome s w
  | analyzer l => exact analyzer_outcome s l
  | aggregator => exact aggregator_outcome s

end SysProg.HW4

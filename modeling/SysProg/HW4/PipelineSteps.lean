import SysProg.HW4.Pipeline

/-!
# What one action of the pipeline can do

`Transition` lists the successors of a state, one constructor for each branch
that changes something other than who is asleep, with the guard of that branch.
Invariants are proved by cases on it and never unfold the step function.
-/

namespace SysProg.HW4
open SysProg.Lib
variable {o : Options}

inductive Transition (s : State o) : Action o → State o → Prop where
  | schedule (a : Action o) (f : Thread o → Bool) : Transition s a { s with asleep := f }
  | timeout (f : Thread o → Bool) : s.dispatcher = .popping →
      Transition s .timeout { s with asleep := f, dispatcher := .timedOut }
  | readerPush (p : o.ReaderThread) {e : LogEntry} {rest : List LogEntry} :
      s.todo p = e :: rest → (s.buffer p.1).ring.count ≠ (s.buffer p.1).ring.capacity →
      Transition s (.run (.reader p)) { s with
        todo := Function.update s.todo p rest
        buffer := Function.update s.buffer p.1
          { s.buffer p.1 with ring := (s.buffer p.1).ring.push e } }
  | producersDone (r : o.Reader) : (∀ t, s.todo (r, t) = []) →
      Transition s (.run (.readerMain r)) { s with
        buffer := Function.update s.buffer r { s.buffer r with producersDone := true } }
  | parserPop (r : o.Reader) : s.parser r = .popping → (s.buffer r).ring.count ≠ 0 →
      Transition s (.run (.parser r)) { s with
        buffer := Function.update s.buffer r { s.buffer r with ring := (s.buffer r).ring.pop }
        parser := Function.update s.parser r (.pushing (s.buffer r).ring.front) }
  | parserEnd (r : o.Reader) : s.parser r = .popping → (s.buffer r).ring.count = 0 →
      (s.buffer r).producersDone = true →
      Transition s (.run (.parser r)) { s with
        parser := Function.update s.parser r (.markers allLevels) }
  | parserPush (r : o.Reader) {e : LogEntry} : s.parser r = .pushing e →
      s.regionA.ring.count ≠ s.regionA.ring.capacity →
      Transition s (.run (.parser r)) { s with
        regionA := { s.regionA with
          ring := s.regionA.ring.push e
          eofCountPerLevel :=
            if e.isEof then Function.update s.regionA.eofCountPerLevel e.levelIndex
              (s.regionA.eofCountPerLevel e.levelIndex + 1)
            else s.regionA.eofCountPerLevel }
        parser := Function.update s.parser r .popping
        hist := { s.hist with pushedA := s.hist.pushedA ++ [e] } }
  | parserMarker (r : o.Reader) {l : Level} {rest : List Level} :
      s.parser r = .markers (l :: rest) → s.regionA.ring.count ≠ s.regionA.ring.capacity →
      Transition s (.run (.parser r)) { s with
        regionA := { s.regionA with
          ring := s.regionA.ring.push (eofEntry r l)
          eofCountPerLevel := Function.update s.regionA.eofCountPerLevel l
            (s.regionA.eofCountPerLevel l + 1) }
        parser := Function.update s.parser r (.markers rest) }
  | dispatcherPop : s.dispatcher = .popping → s.regionA.ring.count ≠ 0 →
      Transition s (.run .dispatcher) { s with
        regionA := { s.regionA with ring := s.regionA.ring.pop }
        dispatcher := .routing s.regionA.ring.front }
  | allDone : s.dispatcher = .timedOut →
      (∀ l, s.regionA.totalReaders ≤ s.regionA.eofCountPerLevel l) →
      Transition s (.run .dispatcher) { s with dispatcher := .leaving }
  | notAllDone : s.dispatcher = .timedOut →
      ¬ (∀ l, s.regionA.totalReaders ≤ s.regionA.eofCountPerLevel l) →
      Transition s (.run .dispatcher) { s with dispatcher := .popping }
  | lastMarker {e : LogEntry} : s.dispatcher = .routing e → e.isEof = true →
      s.eofSeen e.levelIndex + 1 = o.numFiles → (s.regionB e.levelIndex).eofPosted = false →
      Transition s (.run .dispatcher) { s with
        eofSeen := Function.update s.eofSeen e.levelIndex (s.eofSeen e.levelIndex + 1)
        regionB := Function.update s.regionB e.levelIndex
          { s.regionB e.levelIndex with eofPosted := true }
        finishedLevels := s.finishedLevels + 1
        dispatcher := loopHead (s.finishedLevels + 1) }
  | marker {e : LogEntry} : s.dispatcher = .routing e → e.isEof = true →
      ¬ (s.eofSeen e.levelIndex + 1 = o.numFiles ∧
        (s.regionB e.levelIndex).eofPosted = false) →
      Transition s (.run .dispatcher) { s with
        eofSeen := Function.update s.eofSeen e.levelIndex (s.eofSeen e.levelIndex + 1)
        dispatcher := loopHead s.finishedLevels }
  | route {e : LogEntry} : s.dispatcher = .routing e → e.isEof = false →
      (s.regionB e.levelIndex).ring.count ≠ (s.regionB e.levelIndex).ring.capacity →
      Transition s (.run .dispatcher) { s with
        regionB := Function.update s.regionB e.levelIndex
          { s.regionB e.levelIndex with ring := (s.regionB e.levelIndex).ring.push e }
        dispatcher := if sourceIsPriority o e.source then .priority e
          else loopHead s.finishedLevels
        hist := { s.hist with routedB := s.hist.routedB ++ [e] } }
  | routePriority {e : LogEntry} : s.dispatcher = .priority e →
      s.regionD.ring.count ≠ s.regionD.ring.capacity →
      Transition s (.run .dispatcher) { s with
        regionD := { s.regionD with ring := s.regionD.ring.push e }
        dispatcher := loopHead s.finishedLevels
        hist := { s.hist with routedD := s.hist.routedD ++ [e] } }
  | leave : s.dispatcher = .leaving →
      Transition s (.run .dispatcher) { s with
        regionD := { s.regionD with dispatcherDone := true }
        dispatcher := .finished }
  | workerPop (w : o.Worker) : (s.worker w).pc = .popping → (s.regionB w.1).ring.count ≠ 0 →
      Transition s (.run (.worker w)) { s with
        regionB := Function.update s.regionB w.1
          { s.regionB w.1 with ring := (s.regionB w.1).ring.pop }
        worker := Function.update s.worker w
          ((s.worker w).score o w.1 (s.regionB w.1).ring.front)
        hist := { s.hist with
          popped := Function.update s.hist.popped w.1
            (s.hist.popped w.1 ++ [(s.regionB w.1).ring.front]) } }
  | workerEnd (w : o.Worker) : (s.worker w).pc = .popping → (s.regionB w.1).ring.count = 0 →
      (s.regionB w.1).eofPosted = true →
      Transition s (.run (.worker w)) { s with
        worker := Function.update s.worker w { s.worker w with pc := .atBarrier } }
  | workerHits (w : o.Worker) {source : List Char} {hits : ℕ} :
      (s.worker w).pc = .updating source hits →
      Transition s (.run (.worker w)) { s with
        sources := Function.update s.sources w.1 (updateSourceHits (s.sources w.1) source hits)
        worker := Function.update s.worker w { s.worker w with pc := .popping } }
  | workerExit (w : o.Worker) : (s.worker w).pc = .atBarrier →
      (∀ v, (s.worker (w.1, v)).pc.atOrPastBarrier) →
      Transition s (.run (.worker w)) { s with
        worker := Function.update s.worker w { s.worker w with pc := .exiting } }
  | workerDestructor (w : o.Worker) : (s.worker w).pc = .exiting →
      Transition s (.run (.worker w)) { s with
        results := Function.update s.results w.1
          (tlsDestructor o (s.results w.1) w.2 (s.worker w))
        worker := Function.update s.worker w { s.worker w with pc := .terminated } }
  | analyzerTop3 (l : Level) : s.analyzer l = .joining →
      (∀ v, (s.worker (l, v)).pc.isTerminated) →
      Transition s (.run (.analyzer l)) { s with
        results := Function.update s.results l
          { s.results l with top := computeTop3 (s.sources l) }
        analyzer := Function.update s.analyzer l .publishing }
  | analyzerReady (l : Level) : s.analyzer l = .publishing →
      Transition s (.run (.analyzer l)) { s with
        results := Function.update s.results l { s.results l with ready := true }
        analyzer := Function.update s.analyzer l .posting }
  | analyzerPost (l : Level) : s.analyzer l = .posting →
      Transition s (.run (.analyzer l)) { s with
        levelReady := Function.update s.levelReady l (s.levelReady l + 1)
        analyzer := Function.update s.analyzer l .finished }
  | aggregatorPop : s.aggregator = .draining → s.regionD.ring.count ≠ 0 →
      Transition s (.run .aggregator) { s with
        regionD := { s.regionD with ring := s.regionD.ring.pop }
        aggregator := .draining
        highPriorityScore := s.highPriorityScore + ((List.range o.numKeywords).map (fun k =>
          countOverlappingKeyword s.regionD.ring.front.message (o.keyword k) *
            levelWeight s.regionD.ring.front.levelIndex)).sum
        highPriorityEntries := s.highPriorityEntries + 1 }
  | aggregatorMove (pc : AggregatorPc) (f : Level → ℕ) :
      Transition s (.run .aggregator) { s with levelReady := f, aggregator := pc }

theorem boundedPush_eq_some {ring ring' : RingBuffer LogEntry} {e : LogEntry} :
    boundedPush ring e = some ring' ↔ ring.count ≠ ring.capacity ∧ ring.push e = ring' := by
  unfold boundedPush
  split_ifs with h <;> simp [h]

theorem boundedPop_eq_some {ring : RingBuffer LogEntry} {ended : Bool}
    {p : Option LogEntry × RingBuffer LogEntry} :
    boundedPop ring ended = some p ↔
      (ring.count = 0 ∧ ended = true ∧ p = (none, ring)) ∨
      (ring.count ≠ 0 ∧ p = (some ring.front, ring.pop)) := by
  unfold boundedPop
  by_cases hz : ring.count = 0
  · cases ended <;> simp [hz, eq_comm]
  · simp [hz, eq_comm]

theorem readerThreadStep_transition {s s' : State o} {p : o.ReaderThread}
    (h : readerThreadStep s p = some s') : Transition s (.run (.reader p)) s' := by
  unfold readerThreadStep at h
  cases htodo : s.todo p with
  | nil => simp [htodo] at h
  | cons e rest =>
    simp only [htodo] at h
    split at h
    · obtain rfl := Option.some.inj h
      exact .schedule _ _
    · rename_i b hb
      obtain ⟨r, hr, rfl⟩ := Option.map_eq_some_iff.mp hb
      obtain ⟨hfull, rfl⟩ := boundedPush_eq_some.mp hr
      obtain rfl := Option.some.inj h
      exact .readerPush p htodo hfull

theorem readerMainStep_transition {s s' : State o} {r : o.Reader}
    (h : readerMainStep s r = some s') : Transition s (.run (.readerMain r)) s' := by
  unfold readerMainStep at h
  split at h
  · rename_i hjoin
    obtain rfl := Option.some.inj h
    exact .producersDone r hjoin.1
  · cases h

theorem pushRegionA_eq_some {a a' : RegionA} {e : LogEntry} :
    pushRegionA a e = some a' ↔ a.ring.count ≠ a.ring.capacity ∧ a' = { a with
      ring := a.ring.push e
      eofCountPerLevel :=
        if e.isEof then
          Function.update a.eofCountPerLevel e.levelIndex (a.eofCountPerLevel e.levelIndex + 1)
        else a.eofCountPerLevel } := by
  unfold pushRegionA
  rw [Option.map_eq_some_iff]
  constructor
  · rintro ⟨r, hr, rfl⟩
    obtain ⟨hfull, rfl⟩ := boundedPush_eq_some.mp hr
    exact ⟨hfull, rfl⟩
  · rintro ⟨hfull, rfl⟩
    exact ⟨_, boundedPush_eq_some.mpr ⟨hfull, rfl⟩, rfl⟩

theorem parserStep_transition {s s' : State o} {r : o.Reader}
    (h : parserStep s r = some s') : Transition s (.run (.parser r)) s' := by
  unfold parserStep at h
  cases hpc : s.parser r with
  | popping =>
    simp only [hpc] at h
    split at h
    · obtain rfl := Option.some.inj h
      exact .schedule _ _
    · rename_i b hb
      obtain ⟨p, hp, he⟩ := Option.map_eq_some_iff.mp hb
      obtain ⟨hz, hd, rfl⟩ | ⟨hz, rfl⟩ := boundedPop_eq_some.mp hp
      · obtain ⟨-, rfl⟩ := Prod.mk.inj he
        obtain rfl := Option.some.inj h
        simpa using Transition.parserEnd r hpc hz hd
      · cases he
    · rename_i e b hb
      obtain ⟨p, hp, he⟩ := Option.map_eq_some_iff.mp hb
      obtain ⟨hz, hd, rfl⟩ | ⟨hz, rfl⟩ := boundedPop_eq_some.mp hp
      · cases he
      · cases he
        obtain rfl := Option.some.inj h
        exact .parserPop r hpc hz
  | pushing e =>
    simp only [hpc] at h
    split at h
    · obtain rfl := Option.some.inj h
      exact .schedule _ _
    · rename_i a ha
      obtain ⟨hfull, rfl⟩ := pushRegionA_eq_some.mp ha
      obtain rfl := Option.some.inj h
      exact .parserPush r hpc hfull
  | markers ls =>
    cases ls with
    | nil => simp [hpc] at h
    | cons l rest =>
      simp only [hpc] at h
      split at h
      · obtain rfl := Option.some.inj h
        exact .schedule _ _
      · rename_i a ha
        obtain ⟨hfull, rfl⟩ := pushRegionA_eq_some.mp ha
        obtain rfl := Option.some.inj h
        exact .parserMarker r hpc hfull

theorem dispatcherStep_transition {s s' : State o}
    (h : dispatcherStep s = some s') : Transition s (.run .dispatcher) s' := by
  unfold dispatcherStep at h
  cases hpc : s.dispatcher with
  | popping =>
    simp only [hpc, popRegionA] at h
    by_cases hz : s.regionA.ring.count = 0
    · simp only [hz, ↓reduceIte, Option.some.injEq] at h
      subst h
      exact .schedule _ _
    · simp only [hz, ↓reduceIte, Option.some.injEq] at h
      subst h
      exact .dispatcherPop hpc hz
  | timedOut =>
    simp only [hpc] at h
    split at h
    · rename_i hall
      obtain rfl := Option.some.inj h
      exact .allDone hpc hall
    · rename_i hall
      obtain rfl := Option.some.inj h
      exact .notAllDone hpc hall
  | routing e =>
    simp only [hpc, Function.update_self] at h
    split at h
    · rename_i heof
      split at h
      · rename_i hlast
        obtain rfl := Option.some.inj h
        exact .lastMarker hpc heof hlast.1 hlast.2
      · rename_i hlast
        obtain rfl := Option.some.inj h
        exact .marker hpc heof hlast
    · rename_i heof
      split at h
      · obtain rfl := Option.some.inj h
        exact .schedule _ _
      · rename_i b hb
        obtain ⟨r, hr, rfl⟩ := Option.map_eq_some_iff.mp hb
        obtain ⟨hfull, rfl⟩ := boundedPush_eq_some.mp hr
        obtain rfl := Option.some.inj h
        exact .route hpc (by simpa using heof) hfull
  | priority e =>
    simp only [hpc] at h
    split at h
    · obtain rfl := Option.some.inj h
      exact .schedule _ _
    · rename_i d hd
      obtain ⟨r, hr, rfl⟩ := Option.map_eq_some_iff.mp hd
      obtain ⟨hfull, rfl⟩ := boundedPush_eq_some.mp hr
      obtain rfl := Option.some.inj h
      exact .routePriority hpc hfull
  | leaving =>
    simp only [hpc, Option.some.injEq] at h
    subst h
    exact .leave hpc
  | finished => simp [hpc] at h

theorem workerStep_transition {s s' : State o} {w : o.Worker}
    (h : workerStep s w = some s') : Transition s (.run (.worker w)) s' := by
  unfold workerStep at h
  cases hpc : (s.worker w).pc with
  | popping =>
    simp only [hpc] at h
    split at h
    · obtain rfl := Option.some.inj h
      exact .schedule _ _
    · rename_i b hb
      obtain ⟨p, hp, he⟩ := Option.map_eq_some_iff.mp hb
      obtain ⟨hz, hd, rfl⟩ | ⟨hz, rfl⟩ := boundedPop_eq_some.mp hp
      · obtain ⟨-, rfl⟩ := Prod.mk.inj he
        obtain rfl := Option.some.inj h
        simpa using Transition.workerEnd w hpc hz hd
      · cases he
    · rename_i e b hb
      obtain ⟨p, hp, he⟩ := Option.map_eq_some_iff.mp hb
      obtain ⟨hz, hd, rfl⟩ | ⟨hz, rfl⟩ := boundedPop_eq_some.mp hp
      · cases he
      · cases he
        obtain rfl := Option.some.inj h
        exact .workerPop w hpc hz
  | updating source hits =>
    simp only [hpc, Option.some.injEq] at h
    subst h
    exact .workerHits w hpc
  | atBarrier =>
    simp only [hpc] at h
    split at h
    · rename_i hall
      obtain rfl := Option.some.inj h
      exact .workerExit w hpc hall
    · cases h
  | exiting =>
    simp only [hpc, Option.some.injEq] at h
    subst h
    exact .workerDestructor w hpc
  | terminated => simp [hpc] at h

theorem analyzerStep_transition {s s' : State o} {l : Level}
    (h : analyzerStep s l = some s') : Transition s (.run (.analyzer l)) s' := by
  unfold analyzerStep at h
  cases hpc : s.analyzer l with
  | joining =>
    simp only [hpc] at h
    split at h
    · rename_i hall
      obtain rfl := Option.some.inj h
      exact .analyzerTop3 l hpc hall
    · cases h
  | publishing =>
    simp only [hpc, Option.some.injEq] at h
    subst h
    exact .analyzerReady l hpc
  | posting =>
    simp only [hpc, Option.some.injEq] at h
    subst h
    exact .analyzerPost l hpc
  | finished => simp [hpc] at h

theorem aggregatorStep_transition {s s' : State o}
    (h : aggregatorStep s = some s') : Transition s (.run .aggregator) s' := by
  unfold aggregatorStep at h
  cases hpc : s.aggregator with
  | draining =>
    simp only [hpc] at h
    split at h
    · obtain rfl := Option.some.inj h
      exact .schedule _ _
    · rename_i d hd
      obtain ⟨p, hp, he⟩ := Option.map_eq_some_iff.mp hd
      obtain ⟨hz, hd, rfl⟩ | ⟨hz, rfl⟩ := boundedPop_eq_some.mp hp
      · obtain ⟨-, rfl⟩ := Prod.mk.inj he
        obtain rfl := Option.some.inj h
        exact .aggregatorMove _ s.levelReady
      · cases he
    · rename_i e d hd
      obtain ⟨p, hp, he⟩ := Option.map_eq_some_iff.mp hd
      obtain ⟨hz, hd, rfl⟩ | ⟨hz, rfl⟩ := boundedPop_eq_some.mp hp
      · cases he
      · cases he
        obtain rfl := Option.some.inj h
        exact .aggregatorPop hpc hz
  | collecting ls =>
    cases ls with
    | nil => simp [hpc] at h
    | cons l rest =>
      simp only [hpc] at h
      split at h
      · obtain rfl := Option.some.inj h
        exact .aggregatorMove _ s.levelReady
      · obtain rfl := Option.some.inj h
        exact .schedule _ _
  | semWait l rest =>
    simp only [hpc] at h
    split at h
    · cases h
    · obtain rfl := Option.some.inj h
      exact .aggregatorMove _ _

theorem threadStep_transition {s s' : State o} {th : Thread o}
    (h : threadStep s th = some s') : Transition s (.run th) s' := by
  cases th with
  | reader p => exact readerThreadStep_transition h
  | readerMain r => exact readerMainStep_transition h
  | parser r => exact parserStep_transition h
  | dispatcher => exact dispatcherStep_transition h
  | worker w => exact workerStep_transition h
  | analyzer l => exact analyzerStep_transition h
  | aggregator => exact aggregatorStep_transition h

theorem dispatcherPopping_iff {pc : DispatcherPc} :
    dispatcherPopping pc = true ↔ pc = .popping := by
  cases pc <;> simp [dispatcherPopping]

theorem step_transition {s s' : State o} {a : Action o} (h : step s a = some s') :
    Transition s a s' := by
  cases a with
  | run th =>
    simp only [step] at h
    split at h
    · cases h
    · exact threadStep_transition h
  | wake th =>
    simp only [step] at h
    split at h
    · obtain rfl := Option.some.inj h
      exact .schedule _ _
    · cases h
  | timeout =>
    simp only [step] at h
    split at h
    · rename_i hs
      obtain rfl := Option.some.inj h
      exact .timeout _ (dispatcherPopping_iff.mp hs.2)
    · cases h

end SysProg.HW4

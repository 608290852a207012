import SysProg.HW4.LogEntry
import SysProg.Lib.Execution
import SysProg.Lib.RingBuffer

/-!
# The log pipeline as a transition system

Reader threads fill a private buffer per reader process, its parser thread
moves entries to Region A, the dispatcher routes them to one Region B queue per
level and copies of priority sources to Region D, workers of each level score
them, and the aggregator drains Region D and waits for the four results.

One action runs one mutex-protected critical section of one thread together
with the thread-local code around it. A critical section returns `none` when
its wait loop finds the condition it waits on; the thread is then asleep on the
condition variable. `wake` stands for every way out of that sleep, so what holds
of all runs here needs no signal; `Signals` adds the signals themselves. The
dispatcher's `ETIMEDOUT` is the action `timeout`, which may come while entries
are queued. Statistics that are only printed and thread ids are left out.
-/

namespace SysProg.HW4
open SysProg.Lib

/-- The options after `parse_args`, which also asks for capacities of at least 4, 4 and 2;
of its checks the model keeps what the results need. -/
structure Options where
  readerThreads : ℕ
  workerThreads : ℕ
  capacityA : ℕ
  capacityB : ℕ
  capacityD : ℕ
  numFiles : ℕ
  keywords : List (List Char)
  prioritySources : List (List Char)
  workerThreads_pos : 0 < workerThreads
  capacityA_pos : 0 < capacityA
  capacityB_pos : 0 < capacityB
  capacityD_pos : 0 < capacityD
  numFiles_pos : 0 < numFiles
  keywords_ne : ∀ k ∈ keywords, k ≠ []

namespace Options
variable (o : Options)
abbrev Reader := Fin o.numFiles
abbrev ReaderThread := Fin o.numFiles × Fin o.readerThreads
abbrev Worker := Level × Fin o.workerThreads

/-- The well-formed lines that each reader thread finds in its byte range. -/
abbrev Input := o.ReaderThread → List ParsedLine

def numKeywords : ℕ := o.keywords.length
def keyword (k : ℕ) : List Char := o.keywords.getD k []
end Options

/-! ### Shared regions and their critical sections -/

structure PrivateBuffer where
  ring : RingBuffer LogEntry
  producersDone : Bool

structure RegionA where
  ring : RingBuffer LogEntry
  totalReaders : ℕ
  eofCountPerLevel : Level → ℕ

structure RegionB where
  ring : RingBuffer LogEntry
  eofPosted : Bool

structure RegionD where
  ring : RingBuffer LogEntry
  dispatcherDone : Bool

/-- The body shared by all producers: wait while full, then append. -/
def boundedPush (ring : RingBuffer LogEntry) (e : LogEntry) : Option (RingBuffer LogEntry) :=
  if ring.count = ring.capacity then none else some (ring.push e)

/-- The body shared by consumers with an end flag: wait while empty and not
ended, report the end, or take the first element. -/
def boundedPop (ring : RingBuffer LogEntry) (ended : Bool) :
    Option (Option LogEntry × RingBuffer LogEntry) :=
  if ring.count = 0 then
    if ended then some (none, ring) else none
  else some (some ring.front, ring.pop)

def privateBufferPush (b : PrivateBuffer) (e : LogEntry) : Option PrivateBuffer :=
  (boundedPush b.ring e).map (fun r => { b with ring := r })

def privateBufferPop (b : PrivateBuffer) : Option (Option LogEntry × PrivateBuffer) :=
  (boundedPop b.ring b.producersDone).map (fun p => (p.1, { b with ring := p.2 }))

/-- The only push that also counts: end markers per level, at push time. -/
def pushRegionA (a : RegionA) (e : LogEntry) : Option RegionA :=
  (boundedPush a.ring e).map (fun r =>
    { a with
      ring := r
      eofCountPerLevel :=
        if e.isEof then
          Function.update a.eofCountPerLevel e.levelIndex (a.eofCountPerLevel e.levelIndex + 1)
        else a.eofCountPerLevel })

/-- Region A has no end flag: its consumer leaves an empty queue by a timeout. -/
def popRegionA (a : RegionA) : Option (LogEntry × RegionA) :=
  if a.ring.count = 0 then none else some (a.ring.front, { a with ring := a.ring.pop })

def pushRegionB (b : RegionB) (e : LogEntry) : Option RegionB :=
  (boundedPush b.ring e).map (fun r => { b with ring := r })

def pushRegionD (d : RegionD) (e : LogEntry) : Option RegionD :=
  (boundedPush d.ring e).map (fun r => { d with ring := r })

def popLevelEntry (b : RegionB) : Option (Option LogEntry × RegionB) :=
  (boundedPop b.ring b.eofPosted).map (fun p => (p.1, { b with ring := p.2 }))

def popRegionD (d : RegionD) : Option (Option LogEntry × RegionD) :=
  (boundedPop d.ring d.dispatcherDone).map (fun p => (p.1, { d with ring := p.2 }))

def sourceIsPriority (o : Options) (source : List Char) : Bool :=
  o.prioritySources.any (· == source)

/-! ### Scores -/

def maxSources : ℕ := 256

/-- `source_names` and `source_hits` up to `source_count`. -/
abbrev SourceTable := List (List Char × ℕ)

def updateSourceHits (table : SourceTable) (source : List Char) (hits : ℕ) : SourceTable :=
  match table.findIdx? (fun row => row.1 == source) with
  | some i => table.modify i (fun row => (row.1, row.2 + hits))
  | none => if table.length < maxSources then table ++ [(source.take 63, hits)] else table

structure Top3 where
  names : Fin 3 → List Char
  hits : Fin 3 → ℕ

def Top3.zero : Top3 := ⟨fun _ => [], fun _ => 0⟩

/-- Entries from rank `j` on move down by one; the last one is dropped. -/
def Top3.insertAt (b : Top3) (j : Fin 3) (name : List Char) (hits : ℕ) : Top3 where
  names := fun m => if m < j then b.names m else if m = j then name else b.names (m - 1)
  hits := fun m => if m < j then b.hits m else if m = j then hits else b.hits (m - 1)

def Top3.offer (b : Top3) (row : List Char × ℕ) : Top3 :=
  match (List.finRange 3).find? (fun j => b.hits j < row.2) with
  | some j => b.insertAt j row.1 row.2
  | none => b

def computeTop3 (table : SourceTable) : Top3 := table.foldl Top3.offer Top3.zero

structure LevelResult where
  totalEntries : ℕ
  totalWeightedScore : ℕ
  perKeywordScore : ℕ → ℕ
  perThreadScore : ℕ → ℕ
  top : Top3
  ready : Bool

def LevelResult.zero : LevelResult := ⟨0, 0, fun _ => 0, fun _ => 0, Top3.zero, false⟩

/-- What one entry adds to the score of keyword `k`. -/
def weightedMatches (o : Options) (l : Level) (e : LogEntry) (k : ℕ) : ℕ :=
  let found := countOverlappingKeyword e.message (o.keyword k)
  if 0 < found then found * levelWeight l else 0

def totalForEntry (o : Options) (l : Level) (e : LogEntry) : ℕ :=
  ((List.range o.numKeywords).map (weightedMatches o l e)).sum

inductive WorkerPc where
  | popping
  | updating (source : List Char) (hits : ℕ)
  | atBarrier
  | exiting
  | terminated

structure WorkerState where
  pc : WorkerPc
  scores : ℕ → ℕ
  entries : ℕ

/-- The loop body of `worker_main` after a successful pop, up to the source table. -/
def WorkerState.score (o : Options) (l : Level) (w : WorkerState) (e : LogEntry) : WorkerState where
  pc := if 0 < totalForEntry o l e then .updating e.source (totalForEntry o l e) else .popping
  scores := fun k => if k < o.numKeywords then w.scores k + weightedMatches o l e k else w.scores k
  entries := w.entries + 1

def WorkerState.threadScore (o : Options) (w : WorkerState) : ℕ :=
  ((List.range o.numKeywords).map w.scores).sum

def tlsDestructor (o : Options) (r : LevelResult) (index : ℕ) (w : WorkerState) : LevelResult :=
  { r with
    perKeywordScore := fun k =>
      if k < o.numKeywords then r.perKeywordScore k + w.scores k else r.perKeywordScore k
    totalWeightedScore := r.totalWeightedScore + w.threadScore o
    perThreadScore := Function.update r.perThreadScore index (w.threadScore o)
    totalEntries := r.totalEntries + w.entries }

/-! ### Control locations -/

inductive ParserPc where
  | popping
  | pushing (e : LogEntry)
  | markers (rest : List Level)

inductive DispatcherPc where
  | popping
  | timedOut
  | routing (e : LogEntry)
  | priority (e : LogEntry)
  | leaving
  | finished

inductive AnalyzerPc where
  | joining
  | publishing
  | posting
  | finished
  deriving DecidableEq

inductive AggregatorPc where
  | draining
  | collecting (rest : List Level)
  | semWait (l : Level) (rest : List Level)

inductive Thread (o : Options) where
  | reader (p : o.ReaderThread)
  | readerMain (r : o.Reader)
  | parser (r : o.Reader)
  | dispatcher
  | worker (w : o.Worker)
  | analyzer (l : Level)
  | aggregator
  deriving DecidableEq

/-- Histories of the queue operations, in the order of their critical sections. -/
structure History where
  pushedA : List LogEntry
  routedB : List LogEntry
  routedD : List LogEntry
  popped : Level → List LogEntry

structure State (o : Options) where
  asleep : Thread o → Bool
  todo : o.ReaderThread → List LogEntry
  buffer : o.Reader → PrivateBuffer
  parser : o.Reader → ParserPc
  regionA : RegionA
  dispatcher : DispatcherPc
  eofSeen : Level → ℕ
  finishedLevels : ℕ
  regionB : Level → RegionB
  regionD : RegionD
  worker : o.Worker → WorkerState
  sources : Level → SourceTable
  analyzer : Level → AnalyzerPc
  results : Level → LevelResult
  levelReady : Level → ℕ
  aggregator : AggregatorPc
  highPriorityScore : ℕ
  highPriorityEntries : ℕ
  hist : History

variable {o : Options}

def State.block (s : State o) (th : Thread o) : State o :=
  { s with asleep := Function.update s.asleep th true }

/-! ### One critical section of each thread -/

def readerThreadStep (s : State o) (p : o.ReaderThread) : Option (State o) :=
  match s.todo p with
  | [] => none
  | e :: rest =>
    match privateBufferPush (s.buffer p.1) e with
    | none => some (s.block (.reader p))
    | some b => some { s with
        todo := Function.update s.todo p rest
        buffer := Function.update s.buffer p.1 b }

/-- `run_reader_process` after its `pthread_join` of all reader threads. -/
def readerMainStep (s : State o) (r : o.Reader) : Option (State o) :=
  if (∀ t, s.todo (r, t) = []) ∧ (s.buffer r).producersDone = false then
    some { s with
      buffer := Function.update s.buffer r { s.buffer r with producersDone := true } }
  else none

def parserStep (s : State o) (r : o.Reader) : Option (State o) :=
  match s.parser r with
  | .popping =>
    match privateBufferPop (s.buffer r) with
    | none => some (s.block (.parser r))
    | some (none, b) => some { s with
        buffer := Function.update s.buffer r b
        parser := Function.update s.parser r (.markers allLevels) }
    | some (some e, b) => some { s with
        buffer := Function.update s.buffer r b
        parser := Function.update s.parser r (.pushing e) }
  | .pushing e =>
    match pushRegionA s.regionA e with
    | none => some (s.block (.parser r))
    | some a => some { s with
        regionA := a
        parser := Function.update s.parser r .popping
        hist := { s.hist with pushedA := s.hist.pushedA ++ [e] } }
  | .markers [] => none
  | .markers (l :: rest) =>
    match pushRegionA s.regionA (eofEntry r l) with
    | none => some (s.block (.parser r))
    | some a => some { s with
        regionA := a
        parser := Function.update s.parser r (.markers rest) }

/-- The test at the head of the dispatcher's loop. -/
def loopHead (finishedLevels : ℕ) : DispatcherPc :=
  if finishedLevels < maxLevels then .popping else .leaving

def dispatcherStep (s : State o) : Option (State o) :=
  match s.dispatcher with
  | .popping =>
    match popRegionA s.regionA with
    | none => some (s.block .dispatcher)
    | some (e, a) => some { s with regionA := a, dispatcher := .routing e }
  | .timedOut =>
    if ∀ l, s.regionA.totalReaders ≤ s.regionA.eofCountPerLevel l then
      some { s with dispatcher := .leaving }
    else some { s with dispatcher := .popping }
  | .routing e =>
    if e.isEof then
      let l := e.levelIndex
      let seen := Function.update s.eofSeen l (s.eofSeen l + 1)
      if seen l = o.numFiles ∧ (s.regionB l).eofPosted = false then
        some { s with
          eofSeen := seen
          regionB := Function.update s.regionB l { s.regionB l with eofPosted := true }
          finishedLevels := s.finishedLevels + 1
          dispatcher := loopHead (s.finishedLevels + 1) }
      else some { s with eofSeen := seen, dispatcher := loopHead s.finishedLevels }
    else
      match pushRegionB (s.regionB e.levelIndex) e with
      | none => some (s.block .dispatcher)
      | some b => some { s with
          regionB := Function.update s.regionB e.levelIndex b
          dispatcher := if sourceIsPriority o e.source then .priority e
            else loopHead s.finishedLevels
          hist := { s.hist with routedB := s.hist.routedB ++ [e] } }
  | .priority e =>
    match pushRegionD s.regionD e with
    | none => some (s.block .dispatcher)
    | some d => some { s with
        regionD := d
        dispatcher := loopHead s.finishedLevels
        hist := { s.hist with routedD := s.hist.routedD ++ [e] } }
  | .leaving => some { s with
      regionD := { s.regionD with dispatcherDone := true }
      dispatcher := .finished }
  | .finished => none

def WorkerPc.atOrPastBarrier : WorkerPc → Bool
  | .atBarrier | .exiting | .terminated => true
  | _ => false

def WorkerPc.isTerminated : WorkerPc → Bool
  | .terminated => true
  | _ => false

def workerStep (s : State o) (w : o.Worker) : Option (State o) :=
  let ws := s.worker w
  match ws.pc with
  | .popping =>
    match popLevelEntry (s.regionB w.1) with
    | none => some (s.block (.worker w))
    | some (none, b) => some { s with
        regionB := Function.update s.regionB w.1 b
        worker := Function.update s.worker w { ws with pc := .atBarrier } }
    | some (some e, b) => some { s with
        regionB := Function.update s.regionB w.1 b
        worker := Function.update s.worker w (ws.score o w.1 e)
        hist := { s.hist with
          popped := Function.update s.hist.popped w.1 (s.hist.popped w.1 ++ [e]) } }
  | .updating source hits => some { s with
      sources := Function.update s.sources w.1 (updateSourceHits (s.sources w.1) source hits)
      worker := Function.update s.worker w { ws with pc := .popping } }
  | .atBarrier =>
    if ∀ v, (s.worker (w.1, v)).pc.atOrPastBarrier then
      some { s with worker := Function.update s.worker w { ws with pc := .exiting } }
    else none
  | .exiting => some { s with
      results := Function.update s.results w.1 (tlsDestructor o (s.results w.1) w.2 ws)
      worker := Function.update s.worker w { ws with pc := .terminated } }
  | .terminated => none

def analyzerStep (s : State o) (l : Level) : Option (State o) :=
  match s.analyzer l with
  | .joining =>
    if ∀ v, (s.worker (l, v)).pc.isTerminated then
      some { s with
        results := Function.update s.results l
          { s.results l with top := computeTop3 (s.sources l) }
        analyzer := Function.update s.analyzer l .publishing }
    else none
  | .publishing => some { s with
      results := Function.update s.results l { s.results l with ready := true }
      analyzer := Function.update s.analyzer l .posting }
  | .posting => some { s with
      levelReady := Function.update s.levelReady l (s.levelReady l + 1)
      analyzer := Function.update s.analyzer l .finished }
  | .finished => none

def aggregatorStep (s : State o) : Option (State o) :=
  match s.aggregator with
  | .draining =>
    match popRegionD s.regionD with
    | none => some (s.block .aggregator)
    | some (none, d) => some { s with regionD := d, aggregator := .collecting allLevels }
    | some (some e, d) => some { s with
        regionD := d
        highPriorityScore := s.highPriorityScore + ((List.range o.numKeywords).map (fun k =>
          countOverlappingKeyword e.message (o.keyword k) * levelWeight e.levelIndex)).sum
        highPriorityEntries := s.highPriorityEntries + 1 }
  | .collecting [] => none
  | .collecting (l :: rest) =>
    if (s.results l).ready then some { s with aggregator := .semWait l rest }
    else some (s.block .aggregator)
  | .semWait l rest =>
    if s.levelReady l = 0 then none
    else some { s with
      levelReady := Function.update s.levelReady l (s.levelReady l - 1)
      aggregator := .collecting rest }

def threadStep (s : State o) : Thread o → Option (State o)
  | .reader p => readerThreadStep s p
  | .readerMain r => readerMainStep s r
  | .parser r => parserStep s r
  | .dispatcher => dispatcherStep s
  | .worker w => workerStep s w
  | .analyzer l => analyzerStep s l
  | .aggregator => aggregatorStep s

inductive Action (o : Options) where
  | run (th : Thread o)
  | wake (th : Thread o)
  | timeout

/-- The dispatcher sleeps on a timed wait only inside `pop_region_a`. -/
def dispatcherPopping : DispatcherPc → Bool
  | .popping => true
  | _ => false

def step (s : State o) : Action o → Option (State o)
  | .run th => if s.asleep th then none else threadStep s th
  | .wake th =>
    if s.asleep th then some { s with asleep := Function.update s.asleep th false } else none
  | .timeout =>
    if s.asleep .dispatcher ∧ dispatcherPopping s.dispatcher then
      some { s with
        asleep := Function.update s.asleep .dispatcher false
        dispatcher := .timedOut }
    else none

def entriesOf (input : o.Input) (p : o.ReaderThread) : List LogEntry :=
  (input p).map (fun line => line.toEntry p.1)

/-- `init_shared_regions` and the state in which every thread starts. -/
def initial (input : o.Input) : State o where
  asleep := fun _ => false
  todo := entriesOf input
  buffer := fun _ => ⟨.empty o.capacityB (eofEntry 0 .error), false⟩
  parser := fun _ => .popping
  regionA := ⟨.empty o.capacityA (eofEntry 0 .error), o.numFiles, fun _ => 0⟩
  dispatcher := loopHead 0
  eofSeen := fun _ => 0
  finishedLevels := 0
  regionB := fun _ => ⟨.empty o.capacityB (eofEntry 0 .error), false⟩
  regionD := ⟨.empty o.capacityD (eofEntry 0 .error), false⟩
  worker := fun _ => ⟨.popping, fun _ => 0, 0⟩
  sources := fun _ => []
  analyzer := fun _ => .joining
  results := fun _ => .zero
  levelReady := fun _ => 0
  aggregator := .draining
  highPriorityScore := 0
  highPriorityEntries := 0
  hist := ⟨[], [], [], fun _ => []⟩

def machine (input : o.Input) : Machine (State o) (Action o) := ⟨initial input, step⟩

end SysProg.HW4

import SysProg.HW4.DispatcherExit
import SysProg.HW4.SourceTotals

/-!
# A level with more sources than rows

With one reader thread and one worker the entries of a file reach the source
table in their order in the file. `InLane` describes the state between two
entries; one round of seven critical sections takes the next entry from the
reader to the table, and a last round ends the level. A file with 257 sources
therefore leaves its last source without a row, whatever that source has scored.
-/

open scoped BigOperators
namespace SysProg.HW4
open SysProg.Lib

def laneThread : oneFile.ReaderThread := (firstReader, ⟨0, Nat.one_pos⟩)
def laneWorker : oneFile.Worker := (.error, ⟨0, Nat.one_pos⟩)

structure RingEmpty (ring : RingBuffer LogEntry) (capacity : ℕ) : Prop where
  count : ring.count = 0
  tail : ring.tail = ring.head
  capacity : ring.capacity = capacity

/-- Every queue on the way is empty, the reader has `rest` to read, and `calls` have been made. -/
structure InLane (s : State oneFile) (rest : List LogEntry) (calls : List (List Char × ℕ)) :
    Prop where
  awake : ∀ th, s.asleep th = false
  todo : s.todo laneThread = rest
  buffer : RingEmpty (s.buffer firstReader).ring 4
  running : (s.buffer firstReader).producersDone = false
  parser : s.parser firstReader = .popping
  regionA : RingEmpty s.regionA.ring 8
  dispatcher : s.dispatcher = .popping
  eofSeen : s.eofSeen .error = 0
  finished : s.finishedLevels = 0
  regionB : RingEmpty (s.regionB .error).ring 4
  posted : (s.regionB .error).eofPosted = false
  worker : (s.worker laneWorker).pc = .popping
  analyzer : s.analyzer .error = .joining
  table : s.sources .error = updateAll calls

theorem readerThread_eq (t : Fin oneFile.readerThreads) : (firstReader, t) = laneThread := by
  have ht : t.val < 1 := t.isLt
  exact congrArg _ (Fin.ext (Nat.lt_one_iff.mp ht))

theorem worker_eq (v : Fin oneFile.workerThreads) : (Level.error, v) = laneWorker := by
  have hv : v.val < 1 := v.isLt
  exact congrArg _ (Fin.ext (Nat.lt_one_iff.mp hv))

theorem inLane_initial (input : oneFile.Input) :
    InLane (initial input) (entriesOf input laneThread) [] := by
  constructor <;> first | exact fun _ => rfl | rfl | exact ⟨rfl, rfl, rfl⟩

def carryEntry : List (Action oneFile) :=
  [.run (.reader laneThread), .run (.parser firstReader), .run (.parser firstReader),
    .run .dispatcher, .run .dispatcher]

def scoreEntry : List (Action oneFile) := [.run (.worker laneWorker), .run (.worker laneWorker)]

theorem run_entry (input : oneFile.Input) {s : State oneFile} {e : LogEntry} {rest : List LogEntry}
    {calls : List (List Char × ℕ)} (h : InLane s (e :: rest) calls) (hlevel : e.levelIndex = .error)
    (heof : e.isEof = false) (hscores : 0 < totalForEntry oneFile .error e) :
    ∃ s', (machine input).run s (carryEntry ++ scoreEntry) = some s' ∧
      InLane s' rest (calls ++ [(e.source, totalForEntry oneFile .error e)]) := by
  obtain ⟨awake, todo, ⟨bc, bt, bk⟩, running, parser, ⟨ac, atl, ak⟩, dispatcher, eofSeen, finished,
    ⟨cc, ct, ck⟩, posted, worker, analyzer, table⟩ := h
  have hprio : sourceIsPriority oneFile e.source = false := rfl
  have hhead : loopHead 0 = .popping := rfl
  have hlane : laneThread.1 = firstReader := rfl
  have hlevelW : laneWorker.1 = .error := rfl
  generalize hrun : (machine input).run s (carryEntry ++ scoreEntry) = result
  simp only [carryEntry, scoreEntry, List.cons_append, List.nil_append, Machine.run, machine, step,
    threadStep, awake, readerThreadStep, hlane, todo, privateBufferPush, boundedPush, bc, bk,
    parserStep,
    parser, privateBufferPop, boundedPop, RingBuffer.push, RingBuffer.pop, RingBuffer.front, bt,
    pushRegionA, ac, atl, ak, heof, dispatcherStep, popRegionA, dispatcher, hlevel, pushRegionB, cc,
    ct, ck, hprio, finished, hhead, workerStep, hlevelW, worker, popLevelEntry, WorkerState.score,
    hscores,
    Option.bind_some, Option.map_some, Function.update_self, Bool.false_eq_true, ↓reduceIte,
    OfNat.zero_ne_ofNat, Nat.one_ne_zero, Nat.zero_add, Nat.sub_self] at hrun
  subst hrun
  refine ⟨_, rfl, ?_⟩
  constructor
  case awake => exact awake
  case dispatcher => rfl
  case eofSeen => exact eofSeen
  case finished => rfl
  case analyzer => exact analyzer
  case regionA => exact ⟨rfl, rfl, rfl⟩
  case table => simp only [Function.update_self, updateAll_concat, table]
  case buffer => simp only [Function.update_self]; exact ⟨rfl, rfl, rfl⟩
  case regionB => simp only [Function.update_self]; exact ⟨rfl, rfl, rfl⟩
  all_goals simp only [Function.update_self, running, posted]

def endLevel : List (Action oneFile) :=
  [.run (.readerMain firstReader), .run (.parser firstReader), .run (.parser firstReader),
    .run .dispatcher, .run .dispatcher]

def publish : List (Action oneFile) :=
  List.replicate 3 (.run (.worker laneWorker)) ++ List.replicate 2 (.run (.analyzer .error))

theorem run_end (input : oneFile.Input) {s : State oneFile} {calls : List (List Char × ℕ)}
    (h : InLane s [] calls) :
    ∃ s', (machine input).run s (endLevel ++ publish) = some s' ∧
      (s'.results .error).ready = true ∧ s'.sources .error = updateAll calls := by
  obtain ⟨awake, todo, ⟨bc, bt, bk⟩, running, parser, ⟨ac, atl, ak⟩, dispatcher, eofSeen, finished,
    ⟨cc, ct, ck⟩, posted, worker, analyzer, table⟩ := h
  have hfiles : oneFile.numFiles = 1 := rfl
  have hlevel : laneWorker.1 = .error := rfl
  generalize hrun : (machine input).run s (endLevel ++ publish) = result
  simp only [endLevel, publish, List.replicate, List.cons_append, List.nil_append, Machine.run,
    machine, step, threadStep, awake, readerMainStep, readerThread_eq, todo, running, parserStep,
    parser, privateBufferPop,
    boundedPop, bc, allLevels, pushRegionA, boundedPush, ac, ak, RingBuffer.push, RingBuffer.pop,
    RingBuffer.front, atl, eofEntry, dispatcherStep, popRegionA, dispatcher, eofSeen, posted,
    hfiles,
    workerStep, worker, popLevelEntry, cc, worker_eq, hlevel, WorkerPc.atOrPastBarrier,
    analyzerStep, analyzer,
    WorkerPc.isTerminated, Option.bind_some, Option.map_some, Function.update_self,
    Bool.false_eq_true,
    ↓reduceIte, OfNat.zero_ne_ofNat, Nat.one_ne_zero, Nat.zero_add, Nat.sub_self, implies_true,
    and_self] at hrun
  subst hrun
  refine ⟨_, rfl, ?_, table⟩
  simp only [Function.update_self]

/-- A lane takes any file of scoring lines of the level to a ready result, in file order. -/
theorem lane_ready {input : oneFile.Input}
    (h : ∀ e ∈ entriesOf input laneThread, e.levelIndex = .error ∧
    0 < totalForEntry oneFile .error e) :
    ∃ tr s, (machine input).Execution tr s ∧ (s.results .error).ready = true ∧
      s.sources .error =
        updateAll ((entriesOf input laneThread).filterMap (scoringCall oneFile .error)) := by
  have hrounds : ∀ es calls tr s, (machine input).Execution tr s → InLane s es calls →
      (∀ e ∈ es, e.isEof = false ∧ e.levelIndex = .error ∧ 0 < totalForEntry oneFile .error e) →
      ∃ tr s, (machine input).Execution tr s ∧
        InLane s [] (calls ++ es.filterMap (scoringCall oneFile .error)) := by
    intro es
    induction es with
    | nil =>
      intro calls tr s hexec hlane _
      rw [List.filterMap_nil, List.append_nil]
      exact ⟨tr, s, hexec, hlane⟩
    | cons e es ih =>
      intro calls tr s hexec hlane hes
      obtain ⟨heof, hlevel, hscores⟩ := hes e List.mem_cons_self
      obtain ⟨s', hrun, hlane'⟩ := run_entry input hlane hlevel heof hscores
      have hcall : scoringCall oneFile .error e = some (e.source, totalForEntry oneFile .error e) :=
        if_pos hscores
      rw [List.filterMap_cons_some hcall, List.append_cons]
      exact ih _ _ s' (hexec.append_run hrun) hlane' (fun x hx => hes x (List.mem_cons_of_mem _ hx))
  have hentries : ∀ e ∈ entriesOf input laneThread,
      e.isEof = false ∧ e.levelIndex = .error ∧ 0 < totalForEntry oneFile .error e := by
    intro e he
    obtain ⟨line, -, rfl⟩ := List.mem_map.mp he
    exact ⟨rfl, h _ he⟩
  obtain ⟨tr, s, hexec, hlane⟩ := hrounds _ [] []
      (initial input) .start (inLane_initial input) hentries
  rw [List.nil_append] at hlane
  obtain ⟨s', hrun, hready, htable⟩ := run_end input hlane
  exact ⟨_, s', hexec.append_run hrun, hready, htable⟩

/-! ### 257 sources, the best one last -/

def crowdName (i : ℕ) : List Char := List.replicate (i / 32 + 1) 'a' ++ List.replicate (i % 32) 'b'

def crowdLine (i : ℕ) : ParsedLine :=
  ⟨[], .error, crowdName i, if i = maxSources then ['x', 'x'] else ['x']⟩

def crowd : oneFile.Input := fun _ => (List.range (maxSources + 1)).map crowdLine

def crowdCall (i : ℕ) : List Char × ℕ := (crowdName i, if i = maxSources then 8 else 4)

theorem crowdName_injective : Function.Injective crowdName := by
  intro i j h
  have ha := congrArg (List.count 'a') h
  have hb := congrArg (List.count 'b') h
  simp only [crowdName, List.count_append, List.count_replicate] at ha hb
  simp at ha hb
  omega

theorem scoringCall_crowdLine (i : ℕ) :
    scoringCall oneFile .error ((crowdLine i).toEntry 0) = some (crowdCall i) := by
  unfold crowdLine crowdCall
  by_cases hi : i = maxSources
  · simp only [if_pos hi]
    rfl
  · simp only [if_neg hi]
    rfl

theorem entriesOf_crowd (p : oneFile.ReaderThread) :
    entriesOf crowd p = (List.range (maxSources + 1)).map (fun i => (crowdLine i).toEntry 0) := by
  have hp : (p.1 : ℕ) = 0 := Nat.lt_one_iff.mp p.1.isLt
  rw [entriesOf, crowd, List.map_map, hp]
  rfl

theorem levelEntries_crowd :
    levelEntries crowd .error = (entriesOf crowd laneThread : Multiset LogEntry) := by
  have hone : ∀ p : oneFile.ReaderThread, p = laneThread := by
    intro p
    have hr : p.1 = firstReader := Fin.ext (Nat.lt_one_iff.mp p.1.isLt)
    rw [← readerThread_eq p.2, ← hr]
  have hsum : produced crowd = (entriesOf crowd laneThread : Multiset LogEntry) :=
    Fintype.sum_eq_single laneThread (fun p hp => absurd (hone p) hp)
  rw [levelEntries, hsum, Multiset.filter_coe, List.filter_eq_self.mpr]
  intro e he
  rw [entriesOf_crowd] at he
  obtain ⟨i, -, rfl⟩ := List.mem_map.mp he
  rfl

theorem ShowsLargest.le_first {total : List Char → ℕ} {sources : List (List Char)} {top : Top3}
    (h : ShowsLargest total sources top) {source : List Char} (hs : source ∈ sources) :
    total source ≤ top.hits 0 := by
  obtain ⟨ranked, -, -, hlen, hordered, hfirst, hshown⟩ := h
  cases hr : ranked with
  | nil =>
    rw [hr, List.length_nil] at hlen
    have hpos := List.length_pos_of_mem hs
    omega
  | cons a rest =>
    subst hr
    have hhits : top.hits 0 = total a := (hshown 0).1
    rw [hhits]
    by_cases hmem : source ∈ a :: rest
    · rcases List.mem_cons.mp hmem with rfl | hmem
      · exact le_rfl
      · exact (List.pairwise_cons.mp hordered).1 source hmem
    · exact hfirst a List.mem_cons_self source hs hmem

theorem ShowsLargest.first_le {total : List Char → ℕ} {sources : List (List Char)} {top : Top3}
    (h : ShowsLargest total sources top) {n : ℕ} (hn : ∀ source ∈ sources, total source ≤ n) :
    top.hits 0 ≤ n := by
  obtain ⟨ranked, -, hsub, -, -, -, hshown⟩ := h
  rw [(hshown 0).1]
  cases ranked with
  | nil => exact Nat.zero_le n
  | cons a rest => exact hn a (hsub List.mem_cons_self)

theorem fitsName_crowdName {i : ℕ} (hi : i ≤ maxSources) : FitsName (crowdName i) := by
  have hbound : i ≤ 256 := hi
  constructor
  · simp only [crowdName, List.length_append, List.length_replicate]
    omega
  · simp [crowdName]

theorem crowd_hits_le {table : SourceTable}
    (h : table = updateAll ((List.range (maxSources + 1)).map crowdCall))
    (hnd : (((List.range (maxSources + 1)).map crowdCall).map Prod.fst).Nodup) :
    (computeTop3 table).hits 0 ≤ 4 := by
  have hmem : ∀ c ∈ (List.range (maxSources + 1)).map crowdCall, c.1.length ≤ 63 := by
    intro c hc
    obtain ⟨i, hi, rfl⟩ := List.mem_map.mp hc
    exact (fitsName_crowdName (Nat.le_of_lt_succ (List.mem_range.mp hi))).length_le
  have hkept : (arrivals ((List.range (maxSources + 1)).map crowdCall)).take maxSources =
      (List.range maxSources).map crowdName := by
    rw [arrivals, eraseDups_of_nodup hnd, List.map_map, ← List.map_take, List.take_range,
      min_eq_left (Nat.le_succ maxSources)]
    rfl
  have htotal : ∀ i < maxSources,
      keyTotal ((List.range (maxSources + 1)).map crowdCall) (crowdName i) = 4 := by
    intro i hi
    have hin : crowdCall i ∈ (List.range (maxSources + 1)).map crowdCall :=
      List.mem_map_of_mem (List.mem_range.mpr (Nat.lt_succ_of_lt hi))
    have hk : keyTotal ((List.range (maxSources + 1)).map crowdCall) (crowdCall i).1 =
        (crowdCall i).2 := keyTotal_of_nodup hnd hin
    rw [crowdCall, if_neg hi.ne] at hk
    exact hk
  rw [h, updateAll_eq hmem, hkept]
  refine (showsLargest_computeTop3 ?_ ?_).first_le ?_
  · exact List.nodup_range.map crowdName_injective
  · intro source hs
    obtain ⟨i, hi, rfl⟩ := List.mem_map.mp hs
    rw [htotal i (List.mem_range.mp hi)]
    exact Nat.succ_pos 3
  · intro source hs
    obtain ⟨i, hi, rfl⟩ := List.mem_map.mp hs
    exact (htotal i (List.mem_range.mp hi)).le

/-- A level with 257 scoring sources can end with a top source that is not the best one. -/
theorem crowd_not_showsLargest :
    ∃ tr s, (machine crowd).Execution tr s ∧ (s.results .error).ready = true ∧
      (∀ p, ∀ line ∈ crowd p, FitsName line.source) ∧
      ∀ sources : List (List Char), sources.Nodup →
        (∀ source, source ∈ sources ↔
          0 < sourceTotal oneFile .error (levelEntries crowd .error) source) →
        ¬ ShowsLargest (sourceTotal oneFile .error (levelEntries crowd .error)) sources
          (s.results .error).top := by
  have hcalls : (entriesOf crowd laneThread).filterMap (scoringCall oneFile .error) =
      (List.range (maxSources + 1)).map crowdCall := by
    rw [entriesOf_crowd, List.filterMap_map, ← List.filterMap_eq_map]
    apply List.filterMap_congr
    intro i _
    exact scoringCall_crowdLine i
  have hlane : ∀ e ∈ entriesOf crowd laneThread,
      e.levelIndex = .error ∧ 0 < totalForEntry oneFile .error e := by
    intro e he
    rw [entriesOf_crowd] at he
    obtain ⟨i, -, rfl⟩ := List.mem_map.mp he
    refine ⟨rfl, ?_⟩
    by_contra hzero
    have hcall := scoringCall_crowdLine i
    rw [scoringCall, if_neg hzero] at hcall
    cases hcall
  obtain ⟨tr, s, hexec, hready, htable⟩ := lane_ready hlane
  have hnames : ((List.range (maxSources + 1)).map crowdCall).map Prod.fst =
      (List.range (maxSources + 1)).map crowdName := by
    rw [List.map_map]
    rfl
  have hnd : (((List.range (maxSources + 1)).map crowdCall).map Prod.fst).Nodup := by
    rw [hnames]
    exact List.nodup_range.map crowdName_injective
  have htotal : ∀ i ≤ maxSources,
      sourceTotal oneFile .error (levelEntries crowd .error) (crowdName i) = (crowdCall i).2 := by
    intro i hi
    have hsame : (((List.range (maxSources + 1)).map crowdCall : List (List Char × ℕ)) :
        Multiset (List Char × ℕ)) = (levelEntries crowd .error).filterMap
        (scoringCall oneFile .error) := by
      rw [levelEntries_crowd, ← hcalls]
      rfl
    rw [← keyTotal_eq_sourceTotal hsame]
    exact keyTotal_of_nodup hnd (List.mem_map_of_mem (List.mem_range.mpr (Nat.lt_succ_of_le hi)))
  refine ⟨tr, s, hexec, hready, ?_, ?_⟩
  · intro p line hline
    obtain ⟨i, hi, rfl⟩ := List.mem_map.mp hline
    exact fitsName_crowdName (Nat.le_of_lt_succ (List.mem_range.mp hi))
  · intro sources _ hsources hshows
    have hbest := htotal maxSources le_rfl
    rw [crowdCall, if_pos rfl] at hbest
    have hin : crowdName maxSources ∈ sources := by
      rw [hsources, hbest]
      exact Nat.succ_pos 7
    have hj := (workersEnded_reachable hexec.reachable).ready .error hready
    have htop := (callsRecorded_execution hexec .error).ranked hj
    have hlow := crowd_hits_le (htable.trans (congrArg updateAll hcalls)) hnd
    have hhigh := hshows.le_first hin
    rw [htop, hbest] at hhigh
    omega

end SysProg.HW4

import SysProg.HW4.PipelineFlow
import Mathlib.Algebra.BigOperators.Ring.List

/-!
# The published result of a level

A worker leaves its loop only on a closed and empty queue, and a closed queue
receives nothing more. Scores move from the queue's history into the workers'
local arrays and from there, one destructor at a time, into the shared result;
the sum of both stays the score of the entries popped so far. A ready result is
therefore the reference computed from all entries of its level, whatever the
schedule and however the entries were spread over the workers.
-/

open scoped BigOperators
namespace SysProg.HW4
open SysProg.Lib
variable {o : Options}

/-! ### Workers leave a closed and empty queue -/

structure WorkersEnded (s : State o) : Prop where
  closed : ∀ w, (s.worker w).pc.atOrPastBarrier = true →
    (s.regionB w.1).eofPosted = true ∧ (s.regionB w.1).ring.count = 0
  joined : ∀ l, s.analyzer l ≠ .joining → ∀ v, (s.worker (l, v)).pc.isTerminated = true
  ready : ∀ l, (s.results l).ready = true → s.analyzer l ≠ .joining

theorem workersEnded_initial (input : o.Input) : WorkersEnded (initial input) where
  closed := by simp [initial, WorkerPc.atOrPastBarrier]
  joined := by simp [initial]
  ready := by simp [initial, LevelResult.zero]

theorem atOrPastBarrier_of_isTerminated {pc : WorkerPc} (h : pc.isTerminated = true) :
    pc.atOrPastBarrier = true := by
  cases pc <;> simp_all [WorkerPc.isTerminated, WorkerPc.atOrPastBarrier]

theorem workersEnded_worker {s : State o} (h : WorkersEnded s) (w : o.Worker) (x : WorkerState)
    (hold : (s.worker w).pc.isTerminated = false)
    (hnew : x.pc.atOrPastBarrier = true →
      (s.regionB w.1).eofPosted = true ∧ (s.regionB w.1).ring.count = 0) :
    WorkersEnded { s with worker := Function.update s.worker w x } := by
  refine ⟨?_, ?_, h.ready⟩
  · intro v hv
    by_cases hvw : v = w
    · subst hvw
      exact hnew (by simpa using hv)
    · exact h.closed v (by simpa only [Function.update_of_ne hvw] using hv)
  · intro l hl v
    have hterm := h.joined l hl v
    by_cases hvw : (l, v) = w
    · rw [hvw, hold] at hterm
      cases hterm
    · simpa only [Function.update_of_ne hvw] using hterm

theorem workersEnded_analyzer {s : State o} (h : WorkersEnded s) {l : Level} {p : AnalyzerPc}
    (hp : p ≠ .joining) (hall : ∀ v, (s.worker (l, v)).pc.isTerminated = true) :
    (∀ k, Function.update s.analyzer l p k ≠ .joining →
      ∀ v, (s.worker (k, v)).pc.isTerminated = true) ∧
    (∀ results : Level → LevelResult, (∀ k, k ≠ l → results k = s.results k) →
      ∀ k, (results k).ready = true → Function.update s.analyzer l p k ≠ .joining) := by
  constructor
  · intro k hk v
    by_cases hkl : k = l
    · subst hkl
      exact hall v
    · exact h.joined k (by simpa only [Function.update_of_ne hkl] using hk) v
  · intro results hsame k hr
    by_cases hkl : k = l
    · subst hkl
      simpa using hp
    · rw [Function.update_of_ne hkl]
      exact h.ready k (hsame k hkl ▸ hr)

/-- A queue that is still open or not yet empty may change: no worker of its level
has reached the barrier. -/
theorem WorkersEnded.closed_update {s : State o} (h : WorkersEnded s) {l : Level} (q : RegionB)
    (hopen : (s.regionB l).eofPosted = true → (s.regionB l).ring.count ≠ 0)
    {w : o.Worker} (hw : (s.worker w).pc.atOrPastBarrier = true) :
    (Function.update s.regionB l q w.1).eofPosted = true ∧
      (Function.update s.regionB l q w.1).ring.count = 0 := by
  have hold := h.closed w hw
  have hwl : w.1 ≠ l := by
    rintro rfl
    exact hopen hold.1 hold.2
  rw [Function.update_of_ne hwl]
  exact hold

theorem workersEnded_step {input : o.Input} {s s' : State o} {a : Action o}
    (h : Transition s a s') (hi : FlowInvariant input s) (hw : WorkersEnded s) :
    WorkersEnded s' := by
  cases h with
  | lastMarker hpc heof hlast hpost =>
    exact ⟨fun w => hw.closed_update _ (by simp [hpost]), hw.joined, hw.ready⟩
  | route hpc heof hfull =>
    rename_i e
    refine ⟨fun w => hw.closed_update _ (fun hpost => ?_), hw.joined, hw.ready⟩
    -- the queue is closed, so the dispatcher cannot hold an entry for it
    have hseen := (hi.markers.ended e.levelIndex).mp hpost
    have hheld := hi.markers.clear hseen e (by simp [inFlight, hpc, DispatcherPc.held])
    rw [heof] at hheld
    cases hheld
  | workerPop w hpc hne =>
    have hold : (s.worker w).pc.isTerminated = false := by rw [hpc]; rfl
    have hscore : ((s.worker w).score o w.1 (s.regionB w.1).ring.front).pc.atOrPastBarrier =
        false := by
      simp only [WorkerState.score]
      split_ifs <;> rfl
    have hmoved := workersEnded_worker hw w _ hold (fun hb => by rw [hscore] at hb; cases hb)
    exact ⟨fun v => hmoved.closed_update _ (fun _ => hne), hmoved.joined, hmoved.ready⟩
  | workerEnd w hpc hz hpost =>
    exact workersEnded_worker hw w _ (by rw [hpc]; rfl) (fun _ => ⟨hpost, hz⟩)
  | workerHits w hpc =>
    have hmoved := workersEnded_worker hw w { s.worker w with pc := .popping }
      (by rw [hpc]; rfl) (fun hb => by cases hb)
    exact ⟨hmoved.closed, hmoved.joined, hmoved.ready⟩
  | workerExit w hpc hall =>
    exact workersEnded_worker hw w _ (by rw [hpc]; rfl) (fun _ => hw.closed w (by rw [hpc]; rfl))
  | workerDestructor w hpc =>
    have hmoved := workersEnded_worker hw w { s.worker w with pc := .terminated }
      (by rw [hpc]; rfl) (fun _ => hw.closed w (by rw [hpc]; rfl))
    refine ⟨hmoved.closed, hmoved.joined, ?_⟩
    intro l hr
    by_cases hl : l = w.1
    · subst hl
      exact hw.ready w.1 (by simpa [tlsDestructor] using hr)
    · exact hw.ready l (by simpa only [Function.update_of_ne hl] using hr)
  | analyzerTop3 l hpc hall =>
    obtain ⟨hj, hr⟩ := workersEnded_analyzer hw (p := .publishing) (by simp) hall
    exact ⟨hw.closed, hj, hr _ (fun k hk => Function.update_of_ne hk _ _)⟩
  | analyzerReady l hpc =>
    obtain ⟨hj, hr⟩ := workersEnded_analyzer hw (p := .posting) (by simp)
      (hw.joined l (by simp [hpc]))
    exact ⟨hw.closed, hj, hr _ (fun k hk => Function.update_of_ne hk _ _)⟩
  | analyzerPost l hpc =>
    obtain ⟨hj, hr⟩ := workersEnded_analyzer hw (p := .finished) (by simp)
      (hw.joined l (by simp [hpc]))
    exact ⟨hw.closed, hj, hr _ (fun _ _ => rfl)⟩
  | _ => exact ⟨hw.closed, hw.joined, hw.ready⟩

/-! ### Scores on their way into the result -/

def WorkerState.pendingScore (k : ℕ) (w : WorkerState) : ℕ :=
  if w.pc.isTerminated then 0 else w.scores k

def WorkerState.pendingEntries (w : WorkerState) : ℕ :=
  if w.pc.isTerminated then 0 else w.entries

def WorkerState.publishedScore (o : Options) (w : WorkerState) : ℕ :=
  if w.pc.isTerminated then w.threadScore o else 0

theorem sum_worker_update {N : Type*} [AddCommMonoid N] (g : WorkerState → N)
    (f : o.Worker → WorkerState) (w : o.Worker) (x : WorkerState) :
    (∑ v, g (Function.update f w x (w.1, v))) + g (f w) = (∑ v, g (f (w.1, v))) + g x := by
  have hrow : ∀ v, Function.update f w x (w.1, v) =
      Function.update (fun u => f (w.1, u)) w.2 x v := by
    intro v
    by_cases hv : v = w.2
    · subst hv
      simp
    · have hne : (w.1, v) ≠ w := fun heq => hv (congrArg Prod.snd heq)
      rw [Function.update_of_ne hne, Function.update_of_ne hv]
  simp only [hrow]
  exact sum_update_add (fun _ => g) (fun u => f (w.1, u)) w.2 x

theorem worker_update_other (f : o.Worker → WorkerState) {w : o.Worker} (x : WorkerState)
    {l : Level} (hl : l ≠ w.1) (v : Fin o.workerThreads) :
    Function.update f w x (l, v) = f (l, v) :=
  Function.update_of_ne (fun heq => hl (congrArg Prod.fst heq)) _ _

/-- The accounts of one level: result, workers and history. -/
structure LevelBalanced (o : Options) (l : Level) (r : LevelResult)
    (worker : Fin o.workerThreads → WorkerState) (popped : List LogEntry) : Prop where
  keyword : ∀ k < o.numKeywords, r.perKeywordScore k + ∑ v, (worker v).pendingScore k =
    (popped.map (fun e => weightedMatches o l e k)).sum
  entries : r.totalEntries + ∑ v, (worker v).pendingEntries = popped.length
  thread : ∀ v : Fin o.workerThreads, r.perThreadScore v = (worker v).publishedScore o
  total : r.totalWeightedScore = ∑ v, (worker v).publishedScore o
  split : r.totalWeightedScore = ∑ k ∈ Finset.range o.numKeywords, r.perKeywordScore k

def ScoresBalanced (s : State o) : Prop :=
  ∀ l, LevelBalanced o l (s.results l) (fun v => s.worker (l, v)) (s.hist.popped l)

theorem scoresBalanced_initial (input : o.Input) : ScoresBalanced (initial input) := by
  intro l
  refine ⟨?_, ?_, ?_, ?_, ?_⟩ <;>
    simp [initial, LevelResult.zero, WorkerState.pendingScore, WorkerState.pendingEntries,
      WorkerState.publishedScore, WorkerPc.isTerminated]

theorem levelBalanced_pc {s : State o} (h : ScoresBalanced s) (w : o.Worker) (pc : WorkerPc)
    (hpc : pc.isTerminated = (s.worker w).pc.isTerminated) (l : Level) :
    LevelBalanced o l (s.results l)
      (fun v => Function.update s.worker w { s.worker w with pc := pc } (l, v))
      (s.hist.popped l) := by
  have hsame : ∀ k v, (Function.update s.worker w { s.worker w with pc := pc } v).pendingScore k =
      (s.worker v).pendingScore k := by
    intro k
    apply apply_update_of_eq (WorkerState.pendingScore k)
    simp [WorkerState.pendingScore, hpc]
  have hentries : ∀ v, (Function.update s.worker w { s.worker w with pc := pc } v).pendingEntries =
      (s.worker v).pendingEntries := by
    apply apply_update_of_eq WorkerState.pendingEntries
    simp [WorkerState.pendingEntries, hpc]
  have hpub : ∀ v, (Function.update s.worker w { s.worker w with pc := pc } v).publishedScore o =
      (s.worker v).publishedScore o := by
    apply apply_update_of_eq (WorkerState.publishedScore o)
    simp [WorkerState.publishedScore, WorkerState.threadScore, hpc]
  obtain ⟨hk, he, ht, htot, hs⟩ := h l
  exact ⟨by simpa only [hsame] using hk, by simpa only [hentries] using he,
    by simpa only [hpub] using ht, by simpa only [hpub] using htot, hs⟩

theorem LevelBalanced.congr_result {l : Level} {r r' : LevelResult}
    {worker : Fin o.workerThreads → WorkerState} {popped : List LogEntry}
    (h : LevelBalanced o l r worker popped) (hk : r'.perKeywordScore = r.perKeywordScore)
    (he : r'.totalEntries = r.totalEntries) (ht : r'.perThreadScore = r.perThreadScore)
    (hw : r'.totalWeightedScore = r.totalWeightedScore) : LevelBalanced o l r' worker popped := by
  obtain ⟨h1, h2, h3, h4, h5⟩ := h
  exact ⟨hk ▸ h1, he ▸ h2, ht ▸ h3, hw ▸ h4, by rw [hw, hk]; exact h5⟩

theorem scoresBalanced_workerPop {s : State o} (h : ScoresBalanced s) (w : o.Worker)
    (hpc : (s.worker w).pc = .popping) (e : LogEntry) :
    LevelBalanced o w.1 (s.results w.1)
      (fun v => Function.update s.worker w ((s.worker w).score o w.1 e) (w.1, v))
      (s.hist.popped w.1 ++ [e]) := by
  obtain ⟨hk, he, ht, htot, hs⟩ := h w.1
  have hold : (s.worker w).pc.isTerminated = false := by rw [hpc]; rfl
  have hnew : ((s.worker w).score o w.1 e).pc.isTerminated = false := by
    simp only [WorkerState.score]
    split_ifs <;> rfl
  have hpub : ∀ v, (Function.update s.worker w ((s.worker w).score o w.1 e) v).publishedScore o =
      (s.worker v).publishedScore o := by
    apply apply_update_of_eq (WorkerState.publishedScore o)
    simp [WorkerState.publishedScore, hold, hnew]
  refine ⟨?_, ?_, ?_, ?_, hs⟩
  · intro k hkn
    have hsum := sum_worker_update (WorkerState.pendingScore k) s.worker w
      ((s.worker w).score o w.1 e)
    have hadd : ((s.worker w).score o w.1 e).pendingScore k =
        (s.worker w).pendingScore k + weightedMatches o w.1 e k := by
      simp only [WorkerState.pendingScore, hold, hnew, Bool.false_eq_true, ↓reduceIte]
      simp [WorkerState.score, hkn]
    have hprev := hk k hkn
    simp only [List.map_append, List.sum_append, List.map_cons, List.map_nil, List.sum_singleton]
    omega
  · have hsum := sum_worker_update WorkerState.pendingEntries s.worker w
      ((s.worker w).score o w.1 e)
    have hadd : ((s.worker w).score o w.1 e).pendingEntries =
        (s.worker w).pendingEntries + 1 := by
      simp only [WorkerState.pendingEntries, hold, hnew, Bool.false_eq_true, ↓reduceIte]
      rfl
    simp only [List.length_append, List.length_singleton]
    omega
  · intro v
    rw [hpub]
    exact ht v
  · simpa only [hpub] using htot

theorem sum_map_range (f : ℕ → ℕ) (n : ℕ) :
    ((List.range n).map f).sum = ∑ k ∈ Finset.range n, f k := rfl

theorem scoresBalanced_destructor {s : State o} (h : ScoresBalanced s) (w : o.Worker)
    (hpc : (s.worker w).pc = .exiting) :
    LevelBalanced o w.1 (tlsDestructor o (s.results w.1) w.2 (s.worker w))
      (fun v => Function.update s.worker w { s.worker w with pc := .terminated } (w.1, v))
      (s.hist.popped w.1) := by
  obtain ⟨hk, he, ht, htot, hs⟩ := h w.1
  have hold : (s.worker w).pc.isTerminated = false := by rw [hpc]; rfl
  refine ⟨?_, ?_, ?_, ?_, ?_⟩
  · intro k hkn
    have hsum := sum_worker_update (WorkerState.pendingScore k) s.worker w
      { s.worker w with pc := .terminated }
    have hbefore : (s.worker w).pendingScore k = (s.worker w).scores k := by
      simp [WorkerState.pendingScore, hold]
    have hafter : WorkerState.pendingScore k { s.worker w with pc := .terminated } = 0 := rfl
    have hadd : (tlsDestructor o (s.results w.1) w.2 (s.worker w)).perKeywordScore k =
        (s.results w.1).perKeywordScore k + (s.worker w).scores k := by
      simp [tlsDestructor, hkn]
    have hprev := hk k hkn
    omega
  · have hsum := sum_worker_update WorkerState.pendingEntries s.worker w
      { s.worker w with pc := .terminated }
    have hbefore : (s.worker w).pendingEntries = (s.worker w).entries := by
      simp [WorkerState.pendingEntries, hold]
    have hafter : WorkerState.pendingEntries { s.worker w with pc := .terminated } = 0 := rfl
    have hadd : (tlsDestructor o (s.results w.1) w.2 (s.worker w)).totalEntries =
        (s.results w.1).totalEntries + (s.worker w).entries := rfl
    omega
  · intro v
    by_cases hv : v = w.2
    · subst hv
      simp only [tlsDestructor, Function.update_self]
      rfl
    · have hne : (w.1, v) ≠ w := fun heq => hv (congrArg Prod.snd heq)
      have hval : (v : ℕ) ≠ w.2 := fun heq => hv (Fin.ext heq)
      rw [Function.update_of_ne hne]
      simpa only [tlsDestructor, Function.update_of_ne hval] using ht v
  · have hsum := sum_worker_update (WorkerState.publishedScore o) s.worker w
      { s.worker w with pc := .terminated }
    have hbefore : (s.worker w).publishedScore o = 0 := by
      simp [WorkerState.publishedScore, hold]
    have hafter : WorkerState.publishedScore o { s.worker w with pc := .terminated } =
        (s.worker w).threadScore o := rfl
    have hadd : (tlsDestructor o (s.results w.1) w.2 (s.worker w)).totalWeightedScore =
        (s.results w.1).totalWeightedScore + (s.worker w).threadScore o := rfl
    omega
  · have hsplit : ∑ k ∈ Finset.range o.numKeywords,
        (if k < o.numKeywords then (s.results w.1).perKeywordScore k + (s.worker w).scores k
          else (s.results w.1).perKeywordScore k) =
        ∑ k ∈ Finset.range o.numKeywords,
          ((s.results w.1).perKeywordScore k + (s.worker w).scores k) := by
      refine Finset.sum_congr rfl (fun k hk => ?_)
      rw [if_pos (Finset.mem_range.mp hk)]
    simp only [tlsDestructor, hsplit, Finset.sum_add_distrib, ← hs, WorkerState.threadScore,
      sum_map_range]

theorem scoresBalanced_step {s s' : State o} {a : Action o} (h : Transition s a s')
    (hb : ScoresBalanced s) : ScoresBalanced s' := by
  cases h with
  | workerPop w hpc hne =>
    intro l
    by_cases hl : l = w.1
    · subst hl
      simpa only [Function.update_self] using scoresBalanced_workerPop hb w hpc _
    · simpa only [Function.update_of_ne hl, worker_update_other _ _ hl] using hb l
  | workerEnd w hpc hz hpost => exact levelBalanced_pc hb w _ (by rw [hpc]; rfl)
  | workerHits w hpc => exact levelBalanced_pc hb w _ (by rw [hpc]; rfl)
  | workerExit w hpc hall => exact levelBalanced_pc hb w _ (by rw [hpc]; rfl)
  | workerDestructor w hpc =>
    intro l
    by_cases hl : l = w.1
    · subst hl
      simpa only [Function.update_self] using scoresBalanced_destructor hb w hpc
    · simpa only [Function.update_of_ne hl, worker_update_other _ _ hl] using hb l
  | analyzerTop3 l hpc hall =>
    intro k
    by_cases hk : k = l
    · subst hk
      exact (hb k).congr_result (by simp) (by simp) (by simp) (by simp)
    · simpa only [Function.update_of_ne hk] using hb k
  | analyzerReady l hpc =>
    intro k
    by_cases hk : k = l
    · subst hk
      exact (hb k).congr_result (by simp) (by simp) (by simp) (by simp)
    · simpa only [Function.update_of_ne hk] using hb k
  | _ => exact hb

theorem workersEnded_reachable {input : o.Input} {s : State o}
    (h : (machine input).Reachable s) : WorkersEnded s :=
  h.invariant (workersEnded_initial input) (fun _ _ _ hr hi hs =>
    workersEnded_step (step_transition hs) (flowInvariant_reachable hr) hi)

theorem scoresBalanced_reachable {input : o.Input} {s : State o}
    (h : (machine input).Reachable s) : ScoresBalanced s :=
  h.invariant (scoresBalanced_initial input)
    (fun _ _ _ _ hi hs => scoresBalanced_step (step_transition hs) hi)

/-! ### The reference and the published result -/

def levelEntries (input : o.Input) (l : Level) : Multiset LogEntry :=
  (produced input).filter (fun e => e.levelIndex = l)

structure MatchesReference (o : Options) (l : Level) (es : Multiset LogEntry)
    (r : LevelResult) : Prop where
  totalEntries : r.totalEntries = es.card
  perKeyword : ∀ k < o.numKeywords, r.perKeywordScore k =
    levelWeight l * (es.map (fun e => occurrences (o.keyword k) e.message)).sum
  byKeyword : r.totalWeightedScore = ∑ k ∈ Finset.range o.numKeywords, r.perKeywordScore k
  byThread : r.totalWeightedScore = ∑ v : Fin o.workerThreads, r.perThreadScore v

theorem weightedMatches_eq (l : Level) (e : LogEntry) {k : ℕ} (hk : k < o.numKeywords) :
    weightedMatches o l e k = levelWeight l * occurrences (o.keyword k) e.message := by
  have hword : o.keyword k ≠ [] := by
    have hmem : k < o.keywords.length := hk
    simp only [Options.keyword, List.getD_eq_getElem?_getD, List.getElem?_eq_getElem hmem,
      Option.getD_some]
    exact o.keywords_ne _ (List.getElem_mem hmem)
  simp only [weightedMatches, countOverlappingKeyword_eq hword]
  split_ifs with hpos
  · exact Nat.mul_comm _ _
  · simp [Nat.eq_zero_of_not_pos hpos]

/-- A level that has been closed has let everything of its readers through. -/
theorem popped_eq_levelEntries {input : o.Input} {s : State o} {l : Level}
    (hi : FlowInvariant input s) (hpost : (s.regionB l).eofPosted = true)
    (hz : (s.regionB l).ring.count = 0) :
    (s.hist.popped l : Multiset LogEntry) = levelEntries input l := by
  have hseen := (hi.markers.ended l).mp hpost
  have hposted : ∀ r, (s.parser r).posted l = true := by
    apply (sum_indicator_eq_card _).mp
    have hsum := hi.markers.seen l
    have hle := postedCount_le s.parser l
    simp only [postedCount, Fintype.card_fin] at hsum hle ⊢
    omega
  have hup : upstream s = 0 := by
    have hmark : ∀ r, ∃ ls, s.parser r = .markers ls := by
      intro r
      have hr := hposted r
      cases hp : s.parser r with
      | markers ls => exact ⟨ls, rfl⟩
      | popping => simp [hp, ParserPc.posted] at hr
      | pushing e => simp [hp, ParserPc.posted] at hr
    have htodo : ∀ p, s.todo p = [] := by
      intro p
      obtain ⟨ls, hls⟩ := hmark p.1
      exact hi.readers.joined p.1 (hi.readers.drained p.1 ls hls).1 p.2
    have hbuf : ∀ r, (s.buffer r).ring.toList = [] := by
      intro r
      obtain ⟨ls, hls⟩ := hmark r
      exact (RingBuffer.toList_eq_nil_iff _).mpr (hi.readers.drained r ls hls).2.1
    have hheld : ∀ r, (s.parser r).held = [] := by
      intro r
      obtain ⟨ls, hls⟩ := hmark r
      simp [hls, ParserPc.held]
    simp [upstream, htodo, hbuf, hheld]
  have hpush : s.hist.pushedA = s.hist.routedB := by
    have hnone : (inFlight s).filter (fun e => !e.isEof) = [] := by
      rw [List.filter_eq_nil_iff]
      intro e he
      simp [hi.markers.clear hseen e he]
    simpa [hnone] using hi.entries.routed
  have hpop := hi.entries.popped l
  rw [(RingBuffer.toList_eq_nil_iff _).mpr hz, List.append_nil, ← hpush] at hpop
  have hsup := hi.entries.supply
  rw [hup, zero_add] at hsup
  rw [hpop, levelEntries, ← hsup]
  simp

/-- Whenever a result is marked ready, the workers of its level have taken every
entry of the level exactly once, and the result is the reference. -/
theorem readyResult_matchesReference {input : o.Input} {s : State o} {l : Level}
    (h : (machine input).Reachable s) (hready : (s.results l).ready = true) :
    (s.hist.popped l : Multiset LogEntry) = levelEntries input l ∧
      MatchesReference o l (levelEntries input l) (s.results l) := by
  have hi := flowInvariant_reachable h
  have hw := workersEnded_reachable h
  have hterm := hw.joined l (hw.ready l hready)
  obtain ⟨hpost, hz⟩ := hw.closed (l, ⟨0, o.workerThreads_pos⟩)
    (atOrPastBarrier_of_isTerminated (hterm _))
  have hpop := popped_eq_levelEntries hi hpost hz
  obtain ⟨hk, he, ht, htot, hs⟩ := scoresBalanced_reachable h l
  refine ⟨hpop, ?_, ?_, hs, ?_⟩
  · rw [← hpop, Multiset.coe_card]
    simpa [WorkerState.pendingEntries, hterm] using he
  · intro k hkn
    have hsum : (s.results l).perKeywordScore k =
        ((s.hist.popped l).map (fun e => weightedMatches o l e k)).sum := by
      simpa [WorkerState.pendingScore, hterm] using hk k hkn
    rw [hsum, ← hpop, Multiset.map_coe, Multiset.sum_coe, ← List.sum_map_mul_left]
    simp only [weightedMatches_eq l _ hkn]
  · rw [htot]
    exact Finset.sum_congr rfl (fun v _ => (ht v).symm)

/-! ### Two readers and two workers -/

def twoFiles : Options where
  readerThreads := 1
  workerThreads := 2
  capacityA := 4
  capacityB := 4
  capacityD := 2
  numFiles := 2
  keywords := [['x'], ['x', 'x']]
  prioritySources := []
  workerThreads_pos := Nat.two_pos
  capacityA_pos := Nat.succ_pos _
  capacityB_pos := Nat.succ_pos _
  capacityD_pos := Nat.two_pos
  numFiles_pos := Nat.two_pos
  keywords_ne := by decide

def twoLines : twoFiles.Input := fun p =>
  if p.1.val = 0 then [⟨[], .error, ['d', 'b'], ['x', 'x', 'x']⟩]
  else [⟨[], .info, ['u', 'i'], ['x']⟩, ⟨[], .error, ['u', 'i'], ['x']⟩]

def readAll (r : twoFiles.Reader) (lines : ℕ) : List (Action twoFiles) :=
  List.replicate lines (.run (.reader (r, ⟨0, Nat.one_pos⟩))) ++ [.run (.readerMain r)]

def passOn (r : twoFiles.Reader) (lines : ℕ) : List (Action twoFiles) :=
  (List.replicate lines [.run (.parser r), .run (.parser r), .run .dispatcher,
    .run .dispatcher]).flatten ++ .run (.parser r) ::
  (List.replicate 4 [.run (.parser r), .run .dispatcher, .run .dispatcher]).flatten

def firstFile : twoFiles.Reader := ⟨0, Nat.two_pos⟩
def secondFile : twoFiles.Reader := ⟨1, Nat.one_lt_two⟩

def firstWorker : Action twoFiles := .run (.worker (.error, ⟨0, Nat.two_pos⟩))
def secondWorker : Action twoFiles := .run (.worker (.error, ⟨1, Nat.one_lt_two⟩))

def toReady : List (Action twoFiles) :=
  readAll firstFile 1 ++ readAll secondFile 2 ++ passOn secondFile 2 ++ passOn firstFile 1 ++
    [firstWorker, secondWorker, firstWorker, secondWorker, firstWorker, secondWorker,
      secondWorker, firstWorker, firstWorker, secondWorker] ++
    [.run (.analyzer .error), .run (.analyzer .error)]

theorem toReady_isSome : ((machine twoLines).run (machine twoLines).init toReady).isSome := by
  decide

theorem readyResult_toReady : ∃ s, (machine twoLines).Reachable s ∧
    (s.results .error).ready = true ∧ (s.results .error).totalWeightedScore = 24 ∧
    (s.hist.popped .error : Multiset LogEntry) = levelEntries twoLines .error ∧
    MatchesReference twoFiles .error (levelEntries twoLines .error) (s.results .error) := by
  have hreach := (Machine.execution_of_isSome toReady_isSome).reachable
  have hready : ((((machine twoLines).run (machine twoLines).init toReady).get
      toReady_isSome).results .error).ready = true := by decide
  exact ⟨_, hreach, hready, by decide, readyResult_matchesReference hreach hready⟩

end SysProg.HW4

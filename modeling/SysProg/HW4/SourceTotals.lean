import SysProg.HW4.PipelineResult
import SysProg.HW4.TopSources
import SysProg.Lib.BoundedTally

/-!
# Source totals of a level

Each worker takes an entry from the queue, adds up its keyword hits, and passes
them to `update_source_hits` in a later critical section, so the shared table is
filled in an order that the schedule decides. The calls made so far, together
with those that workers still hold, are the scoring entries popped so far. The
table has 256 rows: it keeps the sources that came first and drops the others,
and `compute_top3` ranks the rows it finds.
-/

open scoped BigOperators
namespace SysProg.HW4
open SysProg.Lib
variable {o : Options}

/-! ### Calls of `update_source_hits` -/

def scoringCall (o : Options) (l : Level) (e : LogEntry) : Option (List Char × ℕ) :=
  if 0 < totalForEntry o l e then some (e.source, totalForEntry o l e) else none

def updateCall (l : Level) (p : State o × Action o) : Option (List Char × ℕ) :=
  match p.2 with
  | .run (.worker w) =>
    match (p.1.worker w).pc with
    | .updating source hits => if w.1 = l then some (source, hits) else none
    | _ => none
  | _ => none

def updateCalls (l : Level) (tr : List (State o × Action o)) : List (List Char × ℕ) :=
  tr.filterMap (updateCall l)

def WorkerState.pendingCall (w : WorkerState) : Multiset (List Char × ℕ) :=
  match w.pc with
  | .updating source hits => {(source, hits)}
  | _ => 0

def updateAll (calls : List (List Char × ℕ)) : SourceTable :=
  calls.foldl (fun table c => updateSourceHits table c.1 c.2) []

/-- The accounts of one level: the calls made, the calls held, and the entries popped. -/
structure CallsRecorded (s : State o) (l : Level) (calls : List (List Char × ℕ)) : Prop where
  table : s.sources l = updateAll calls
  taken : (calls : Multiset (List Char × ℕ)) + ∑ v, (s.worker (l, v)).pendingCall =
    ((s.hist.popped l).filterMap (scoringCall o l) : List (List Char × ℕ))
  ranked : s.analyzer l ≠ .joining → (s.results l).top = computeTop3 (s.sources l)

theorem updateCall_of_updating {s : State o} {w : o.Worker} {source : List Char} {hits : ℕ}
    (hpc : (s.worker w).pc = .updating source hits) (l : Level) :
    updateCall l (s, .run (.worker w)) = if w.1 = l then some (source, hits) else none := by
  simp only [updateCall, hpc]

theorem updateCall_cases (s : State o) (a : Action o) :
    (∃ w source hits, a = .run (.worker w) ∧ (s.worker w).pc = .updating source hits) ∨
      ∀ l, updateCall l (s, a) = none := by
  by_cases hcall : ∃ w source hits, a = .run (.worker w) ∧
      (s.worker w).pc = .updating source hits
  · exact .inl hcall
  · right
    intro l
    unfold updateCall
    split
    · rename_i w ha
      split
      · rename_i source hits hpc
        exact absurd ⟨w, source, hits, ha, hpc⟩ hcall
      · rfl
    · rfl

theorem step_of_updating {s s' : State o} {w : o.Worker} {source : List Char} {hits : ℕ}
    (hpc : (s.worker w).pc = .updating source hits) (h : step s (.run (.worker w)) = some s') :
    s' = { s with
      sources := Function.update s.sources w.1 (updateSourceHits (s.sources w.1) source hits)
      worker := Function.update s.worker w { s.worker w with pc := .popping } } := by
  simp only [step, threadStep, workerStep, hpc] at h
  split at h
  · cases h
  · exact (Option.some.inj h).symm

theorem callsRecorded_initial (input : o.Input) (l : Level) :
    CallsRecorded (initial input) l [] where
  table := rfl
  taken := by simp [initial, WorkerState.pendingCall]
  ranked := by simp [initial]

theorem updateAll_concat (calls : List (List Char × ℕ)) (source : List Char) (hits : ℕ) :
    updateAll (calls ++ [(source, hits)]) = updateSourceHits (updateAll calls) source hits := by
  rw [updateAll, List.foldl_append]
  rfl

theorem callsRecorded_call {s : State o} {l : Level} {calls : List (List Char × ℕ)}
    (h : CallsRecorded s l calls) (hw : WorkersEnded s) {w : o.Worker} {source : List Char}
    {hits : ℕ} (hpc : (s.worker w).pc = .updating source hits) :
    CallsRecorded { s with
      sources := Function.update s.sources w.1 (updateSourceHits (s.sources w.1) source hits)
      worker := Function.update s.worker w { s.worker w with pc := .popping } } l
      (calls ++ (updateCall l (s, .run (.worker w))).toList) := by
  rw [updateCall_of_updating hpc]
  by_cases hl : w.1 = l
  · subst hl
    rw [if_pos rfl, Option.toList_some]
    refine ⟨?_, ?_, ?_⟩
    · rw [updateAll_concat, ← h.table]
      exact Function.update_self ..
    · have hsum := sum_worker_update WorkerState.pendingCall s.worker w
        { s.worker w with pc := .popping }
      have hbefore : (s.worker w).pendingCall = {(source, hits)} := by
        simp only [WorkerState.pendingCall, hpc]
      have hafter : WorkerState.pendingCall { s.worker w with pc := .popping } = 0 := rfl
      rw [hbefore, hafter, add_zero] at hsum
      rw [← h.taken, ← hsum, ← Multiset.coe_add, Multiset.coe_singleton]
      abel
    · intro hj
      -- after the join no worker of the level has a call left
      have hterm := hw.joined w.1 hj w.2
      rw [hpc] at hterm
      cases hterm
  · rw [if_neg hl, Option.toList_none, List.append_nil]
    have hl' : l ≠ w.1 := Ne.symm hl
    refine ⟨?_, ?_, ?_⟩
    · simpa only [Function.update_of_ne hl'] using h.table
    · simpa only [worker_update_other _ _ hl'] using h.taken
    · simpa only [Function.update_of_ne hl'] using h.ranked

theorem callsRecorded_pc {s : State o} {l : Level} {calls : List (List Char × ℕ)}
    (h : CallsRecorded s l calls) (w : o.Worker) (pc : WorkerPc)
    (hold : (s.worker w).pendingCall = 0)
    (hnew : WorkerState.pendingCall { s.worker w with pc := pc } = 0) :
    CallsRecorded { s with worker := Function.update s.worker w { s.worker w with pc := pc } } l
      calls := by
  have hsame : ∀ v, (Function.update s.worker w { s.worker w with pc := pc } v).pendingCall =
      (s.worker v).pendingCall := by
    apply apply_update_of_eq WorkerState.pendingCall
    rw [hold, hnew]
  refine ⟨h.table, ?_, h.ranked⟩
  simpa only [hsame] using h.taken

theorem pendingCall_score (l : Level) (w : WorkerState) (e : LogEntry) :
    (w.score o l e).pendingCall = ((scoringCall o l e).toList : Multiset (List Char × ℕ)) := by
  simp only [WorkerState.pendingCall, WorkerState.score, scoringCall]
  split_ifs <;> rfl

theorem callsRecorded_workerPop {s : State o} {calls : List (List Char × ℕ)} (w : o.Worker)
    (h : CallsRecorded s w.1 calls) (hpc : (s.worker w).pc = .popping) (e : LogEntry) :
    (calls : Multiset (List Char × ℕ)) +
        ∑ v, (Function.update s.worker w ((s.worker w).score o w.1 e) (w.1, v)).pendingCall =
      ((s.hist.popped w.1 ++ [e]).filterMap (scoringCall o w.1) : List (List Char × ℕ)) := by
  have hsum := sum_worker_update WorkerState.pendingCall s.worker w ((s.worker w).score o w.1 e)
  have hbefore : (s.worker w).pendingCall = 0 := by simp only [WorkerState.pendingCall, hpc]
  rw [hbefore, add_zero, pendingCall_score] at hsum
  rw [hsum, ← add_assoc, h.taken, List.filterMap_append, ← Multiset.coe_add]
  congr 2

theorem joined_of_update {f : Level → AnalyzerPc} {k l : Level} {p : AnalyzerPc}
    (hk : f k ≠ .joining) (h : Function.update f k p l ≠ .joining) : f l ≠ .joining := by
  by_cases hl : l = k
  · subst hl
    exact hk
  · rwa [Function.update_of_ne hl] at h

theorem callsRecorded_other {s s' : State o} {a : Action o} (ht : Transition s a s') {l : Level}
    {calls : List (List Char × ℕ)} (h : CallsRecorded s l calls)
    (hno : ∀ w source hits, a = .run (.worker w) → (s.worker w).pc ≠ .updating source hits) :
    CallsRecorded s' l calls := by
  cases ht with
  | workerPop w hpc hne =>
    by_cases hl : l = w.1
    · subst hl
      refine ⟨h.table, ?_, h.ranked⟩
      simpa only [Function.update_self] using callsRecorded_workerPop w h hpc _
    · refine ⟨h.table, ?_, h.ranked⟩
      simpa only [worker_update_other _ _ hl, Function.update_of_ne hl] using h.taken
  | workerHits w hpc => exact absurd hpc (hno w _ _ rfl)
  | workerEnd w hpc hz hpost =>
    exact callsRecorded_pc h w _ (by simp only [WorkerState.pendingCall, hpc]) rfl
  | workerExit w hpc hall =>
    exact callsRecorded_pc h w _ (by simp only [WorkerState.pendingCall, hpc]) rfl
  | workerDestructor w hpc =>
    have hmoved := callsRecorded_pc h w .terminated
        (by simp only [WorkerState.pendingCall, hpc]) rfl
    refine ⟨hmoved.table, hmoved.taken, fun hj => ?_⟩
    rw [← h.ranked hj]
    exact apply_update_of_eq LevelResult.top (by rfl) l
  | analyzerTop3 k hpc hall =>
    refine ⟨h.table, h.taken, fun hj => ?_⟩
    by_cases hk : l = k
    · subst hk
      simp only [Function.update_self]
    · simp only [Function.update_of_ne hk] at hj ⊢
      exact h.ranked hj
  | analyzerReady k hpc =>
    refine ⟨h.table, h.taken, fun hj => ?_⟩
    rw [← h.ranked (joined_of_update (by simp [hpc]) hj)]
    exact apply_update_of_eq LevelResult.top (by rfl) l
  | analyzerPost k hpc =>
    exact ⟨h.table, h.taken, fun hj => h.ranked (joined_of_update (by simp [hpc]) hj)⟩
  | _ => exact ⟨h.table, h.taken, h.ranked⟩

theorem callsRecorded_execution {input : o.Input} {tr : List (State o × Action o)} {s : State o}
    (h : (machine input).Execution tr s) (l : Level) : CallsRecorded s l (updateCalls l tr) := by
  induction h with
  | start => exact callsRecorded_initial input l
  | @next tr s s' a prior hs ih =>
    have hcalls : updateCalls l (tr ++ [(s, a)]) =
        updateCalls l tr ++ (updateCall l (s, a)).toList := by
      simp only [updateCalls, List.filterMap_append, List.filterMap_cons, List.filterMap_nil]
      cases updateCall l (s, a) <;> rfl
    rw [hcalls]
    rcases updateCall_cases s a with ⟨w, source, hits, rfl, hpc⟩ | hnone
    · obtain rfl := step_of_updating hpc hs
      exact callsRecorded_call ih (workersEnded_reachable prior.reachable) hpc
    · rw [hnone l, Option.toList_none, List.append_nil]
      apply callsRecorded_other (step_transition hs) ih
      rintro w source hits rfl hpc
      have hcall := updateCall_of_updating hpc w.1
      rw [hnone, if_pos rfl] at hcall
      cases hcall

/-- When a result is ready, the calls of the level are those of all its entries. -/
theorem updateCalls_of_ready {input : o.Input} {tr : List (State o × Action o)} {s : State o}
    (h : (machine input).Execution tr s) {l : Level} (hready : (s.results l).ready = true) :
    (updateCalls l tr : Multiset (List Char × ℕ)) =
        (levelEntries input l).filterMap (scoringCall o l) ∧
      (s.results l).top = computeTop3 (updateAll (updateCalls l tr)) := by
  have hw := workersEnded_reachable h.reachable
  have hj := hw.ready l hready
  have hcalls := callsRecorded_execution h l
  have hnone : ∀ v, (s.worker (l, v)).pendingCall = 0 := by
    intro v
    have hterm := hw.joined l hj v
    cases hpc : (s.worker (l, v)).pc with
    | terminated => simp only [WorkerState.pendingCall, hpc]
    | _ => simp [hpc, WorkerPc.isTerminated] at hterm
  constructor
  · have htaken := hcalls.taken
    simp only [hnone, Finset.sum_const_zero, add_zero] at htaken
    rw [htaken, ← (readyResult_matchesReference h.reachable hready).1]
    rfl
  · rw [hcalls.ranked hj, hcalls.table]

/-! ### Totals over a collection of entries -/

def entryScore (o : Options) (l : Level) (e : LogEntry) : ℕ :=
  ∑ k ∈ Finset.range o.numKeywords, levelWeight l * occurrences (o.keyword k) e.message

def sourceTotal (o : Options) (l : Level) (es : Multiset LogEntry) (source : List Char) : ℕ :=
  ((es.filter (fun e => e.source = source)).map (entryScore o l)).sum

theorem totalForEntry_eq (l : Level) (e : LogEntry) : totalForEntry o l e = entryScore o l e := by
  rw [totalForEntry, sum_map_range, entryScore]
  apply Finset.sum_congr rfl
  intro k hk
  exact weightedMatches_eq l e (Finset.mem_range.mp hk)

theorem sourceTotal_cons (l : Level) (e : LogEntry) (es : Multiset LogEntry) (source : List Char) :
    sourceTotal o l (e ::ₘ es) source =
      (if e.source = source then entryScore o l e else 0) + sourceTotal o l es source := by
  unfold sourceTotal
  by_cases hs : (fun x : LogEntry => x.source = source) e
  · rw [if_pos hs, Multiset.filter_cons_of_pos es hs, Multiset.map_cons, Multiset.sum_cons]
  · rw [if_neg hs, Multiset.filter_cons_of_neg es hs, zero_add]

theorem keyTotal_cons (c : List Char × ℕ) (calls : List (List Char × ℕ)) (source : List Char) :
    keyTotal (c :: calls) source = (if c.1 = source then c.2 else 0) + keyTotal calls source := by
  unfold keyTotal
  by_cases hs : c.1 = source
  · simp [hs]
  · simp [hs]

/-- The calls for a collection of entries carry its source totals, in any order. -/
theorem keyTotal_eq_sourceTotal {l : Level} {es : Multiset LogEntry} {calls : List (List Char × ℕ)}
    (h : (calls : Multiset (List Char × ℕ)) = es.filterMap (scoringCall o l)) (source : List Char) :
    keyTotal calls source = sourceTotal o l es source := by
  induction es using Quotient.inductionOn with
  | h xs =>
    have hperm : calls.Perm (xs.filterMap (scoringCall o l)) := Multiset.coe_eq_coe.mp h
    rw [keyTotal_perm hperm]
    clear h hperm
    induction xs with
    | nil => rfl
    | cons e xs ih =>
      have hcons := sourceTotal_cons (o := o) l e (xs : Multiset LogEntry) source
      rw [Multiset.cons_coe] at hcons
      change _ = sourceTotal o l ((e :: xs : List LogEntry) : Multiset LogEntry) source
      change _ = sourceTotal o l (xs : Multiset LogEntry) source at ih
      rw [hcons, ← ih]
      by_cases hpos : 0 < entryScore o l e
      · have hcall : scoringCall o l e = some (e.source, entryScore o l e) := by
          rw [scoringCall, totalForEntry_eq, if_pos hpos]
        rw [List.filterMap_cons_some hcall, keyTotal_cons]
      · have hcall : scoringCall o l e = none := by
          rw [scoringCall, totalForEntry_eq, if_neg hpos]
        rw [List.filterMap_cons_none hcall, Nat.eq_zero_of_not_pos hpos, ite_self, zero_add]

theorem call_of_mem {l : Level} {es : Multiset LogEntry} {calls : List (List Char × ℕ)}
    (h : (calls : Multiset (List Char × ℕ)) = es.filterMap (scoringCall o l))
    {c : List Char × ℕ} (hc : c ∈ calls) : 0 < c.2 ∧ ∃ e ∈ es, e.source = c.1 := by
  have hmem : c ∈ es.filterMap (scoringCall o l) := h ▸ hc
  obtain ⟨e, he, hcall⟩ := (Multiset.mem_filterMap _ _).mp hmem
  unfold scoringCall at hcall
  split_ifs at hcall with hpos
  obtain rfl := Option.some.inj hcall
  exact ⟨hpos, e, he, rfl⟩

theorem mem_arrivals_iff {l : Level} {es : Multiset LogEntry} {calls : List (List Char × ℕ)}
    (h : (calls : Multiset (List Char × ℕ)) = es.filterMap (scoringCall o l)) (source : List Char) :
    source ∈ arrivals calls ↔ 0 < sourceTotal o l es source := by
  rw [← keyTotal_eq_sourceTotal h, mem_arrivals]
  constructor
  · intro hsource
    obtain ⟨c, hc, rfl⟩ := List.mem_map.mp hsource
    have hin : c.2 ∈ (calls.filter (fun d => d.1 = c.1)).map Prod.snd :=
      List.mem_map_of_mem (List.mem_filter.mpr ⟨hc, by simp⟩)
    exact (call_of_mem h hc).1.trans_le (List.le_sum_of_mem hin)
  · intro hpos
    by_contra hnot
    rw [← mem_arrivals] at hnot
    exact hpos.ne' (keyTotal_eq_zero hnot)

/-! ### The table and its three largest rows -/

theorem updateSourceHits_eq_tally {source : List Char} (h : source.length ≤ 63)
    (table : SourceTable) (hits : ℕ) :
    updateSourceHits table source hits = tally maxSources table source hits := by
  have hfind : (fun row : List Char × ℕ => row.1 == source) = fun row =>
      decide (row.1 = source) := by
    funext row
    rw [Bool.eq_iff_iff, beq_iff_eq, decide_eq_true_eq]
  have htake : source.take 63 = source := List.take_of_length_le h
  cases hfound : table.findIdx? (fun row => decide (row.1 = source)) with
  | none => simp only [updateSourceHits, tally, htake, hfind, hfound]
  | some i => simp only [updateSourceHits, tally, hfind, hfound]

theorem updateAll_eq {calls : List (List Char × ℕ)} (h : ∀ c ∈ calls, c.1.length ≤ 63) :
    updateAll calls =
      ((arrivals calls).take maxSources).map (fun source => (source, keyTotal calls source)) := by
  rw [← foldl_tally, updateAll]
  apply List.foldl_ext
  intro table c hc
  exact updateSourceHits_eq_tally (h c hc) table c.2

/-- The three places show the largest totals among the sources, each beside its own source,
and zeros with empty names when there are fewer than three. -/
def ShowsLargest (total : List Char → ℕ) (sources : List (List Char)) (top : Top3) : Prop :=
  ∃ ranked : List (List Char),
    ranked.Nodup ∧ ranked ⊆ sources ∧ ranked.length = min 3 sources.length ∧
    ranked.Pairwise (fun a b => total b ≤ total a) ∧
    (∀ a ∈ ranked, ∀ b ∈ sources, b ∉ ranked → total b ≤ total a) ∧
    ∀ r : Fin 3, top.hits r = (ranked[(r : ℕ)]?.map total).getD 0 ∧
      top.names r = ranked[(r : ℕ)]?.getD []

theorem showsLargest_computeTop3 {total : List Char → ℕ} {sources : List (List Char)}
    (hnd : sources.Nodup) (hpos : ∀ source ∈ sources, 0 < total source) :
    ShowsLargest total sources
    (computeTop3 (sources.map (fun source => (source, total source)))) := by
  let row : List Char → List Char × ℕ := fun source => (source, total source)
  obtain ⟨best, hranks, hwindow⟩ := foldl_offerTo_ranks (hitsKey ∘ row) 3 sources
  have hrows : ∀ p ∈ sources.map row, 0 < p.2 := by
    intro p hp
    obtain ⟨source, hs, rfl⟩ := List.mem_map.mp hp
    exact hpos source hs
  have hmap := foldl_offerTo_map hitsKey row 3 sources []
  rw [List.map_nil, hwindow] at hmap
  have htop := computeTop3_eq_ofWindow hrows
  rw [hmap] at htop
  have hbefore : ∀ {i j}, RanksBefore (hitsKey ∘ row) sources i j →
      total (sources.get j) ≤ total (sources.get i) := by
    rintro i j (hij | ⟨hij, _⟩)
    · exact (OrderDual.toDual_lt_toDual.mp hij).le
    · exact (OrderDual.toDual_inj.mp hij).ge
  have hinj := List.nodup_iff_injective_get.mp hnd
  refine ⟨best.map sources.get, ?_, ?_, ?_, ?_, ?_, ?_⟩
  · exact hranks.nodup.map hinj
  · intro a ha
    obtain ⟨i, _, rfl⟩ := List.mem_map.mp ha
    exact List.get_mem sources i
  · rw [List.length_map, hranks.length_eq]
  · rw [List.pairwise_map]
    exact hranks.ordered.imp hbefore
  · intro a ha b hb hnot
    obtain ⟨i, hi, rfl⟩ := List.mem_map.mp ha
    obtain ⟨j, rfl⟩ := List.get_of_mem hb
    exact hbefore (hranks.first i hi j (fun hj => hnot (List.mem_map_of_mem hj)))
  · intro r
    change (computeTop3 (sources.map row)).hits r = _ ∧ (computeTop3 (sources.map row)).names r = _
    rw [htop]
    simp only [Top3.ofWindow, List.getElem?_map, Option.map_map]
    cases best[(r : ℕ)]? <;> exact ⟨rfl, rfl⟩

/-! ### The ready result -/

theorem exists_line_of_levelEntries {input : o.Input} {l : Level} {e : LogEntry}
    (h : e ∈ levelEntries input l) : ∃ p, ∃ line ∈ input p, line.source = e.source := by
  have hmem : e ∈ produced input := Multiset.mem_of_le (Multiset.filter_le _ _) h
  obtain ⟨p, _, hp⟩ := Multiset.mem_sum.mp hmem
  obtain ⟨line, hline, rfl⟩ := List.mem_map.mp (Multiset.mem_coe.mp hp)
  exact ⟨p, line, hline, rfl⟩

/-- When a result is ready, the sources that came first, as many as the table has rows, are
ranked by their totals over all entries of the level. -/
theorem readyResult_showsLargest {input : o.Input}
    (hfits : ∀ p, ∀ line ∈ input p, FitsName line.source) {tr : List (State o × Action o)}
    {s : State o} (h : (machine input).Execution tr s) {l : Level}
    (hready : (s.results l).ready = true) :
    (arrivals (updateCalls l tr)).Nodup ∧
    (∀ source, source ∈ arrivals (updateCalls l tr) ↔
      0 < sourceTotal o l (levelEntries input l) source) ∧
    ShowsLargest (sourceTotal o l (levelEntries input l))
      ((arrivals (updateCalls l tr)).take maxSources) (s.results l).top := by
  obtain ⟨hcalls, htop⟩ := updateCalls_of_ready h hready
  have hshort : ∀ c ∈ updateCalls l tr, c.1.length ≤ 63 := by
    intro c hc
    obtain ⟨_, e, he, hsource⟩ := call_of_mem hcalls hc
    obtain ⟨p, line, hline, hl⟩ := exists_line_of_levelEntries he
    rw [← hsource, ← hl]
    exact (hfits p line hline).length_le
  have hmem := mem_arrivals_iff hcalls
  refine ⟨nodup_arrivals _, hmem, ?_⟩
  rw [htop, updateAll_eq hshort]
  simp only [keyTotal_eq_sourceTotal hcalls]
  apply showsLargest_computeTop3
  · exact (nodup_arrivals _).sublist (List.take_sublist _ _)
  · intro source hsource
    exact (hmem source).mp (List.mem_of_mem_take hsource)

instance (text : List Char) : Decidable (FitsName text) :=
  decidable_of_iff (text.length ≤ 63 ∧ '\x00' ∉ text) ⟨fun h => ⟨h.1, h.2⟩, fun h => ⟨h.1, h.2⟩⟩

theorem readyResult_showsLargest_toReady :
    ∃ tr s, (machine twoLines).Execution tr s ∧ (s.results .error).ready = true ∧
      (arrivals (updateCalls .error tr)).Nodup ∧
      (∀ source, source ∈ arrivals (updateCalls .error tr) ↔
        0 < sourceTotal twoFiles .error (levelEntries twoLines .error) source) ∧
      ShowsLargest (sourceTotal twoFiles .error (levelEntries twoLines .error))
        ((arrivals (updateCalls .error tr)).take maxSources) (s.results .error).top := by
  have hready : ((((machine twoLines).run (machine twoLines).init toReady).get
      toReady_isSome).results .error).ready = true := by decide
  have hexec := Machine.execution_of_isSome toReady_isSome
  exact ⟨_, _, hexec, hready, readyResult_showsLargest (by decide) hexec hready⟩

end SysProg.HW4

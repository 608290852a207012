import SysProg.HW4.Aggregator
import SysProg.HW4.FileSplit
import SysProg.HW4.LogLine
import SysProg.Lib.ComparatorSort
import Mathlib.Algebra.BigOperators.Fin
import Mathlib.Data.Prod.Lex

/-!
# The text report

The aggregator writes one report from Region C: the totals, a table of the
levels in descending order of their scores, the top sources of each level and
the scores of its threads. Scores are whole numbers, so `%.1f` prints their
digits and `.0`. The part up to the end of the table is the one of a plain sum
over the entries, under every schedule and with every correct `qsort`; so runs
over the same entries print the same table.
-/

open scoped BigOperators
namespace SysProg.HW4
open SysProg.Lib
variable {o : Options}

/-! ### `write_text_output` -/

/-- `%.1f` of a whole number. -/
def fixedOne (score : ℕ) : List Char := Nat.toDigits 10 score ++ ".0".toList

/-- `level_sort_item_t` -/
structure LevelSortItem where
  levelIndex : Level
  score : ℕ
  deriving DecidableEq

def Level.index : Level → ℕ
  | .error => 0
  | .warn => 1
  | .info => 2
  | .debug => 3

def cmpLevelDesc (lhs rhs : LevelSortItem) : ℤ :=
  if lhs.score < rhs.score then 1
  else if rhs.score < lhs.score then -1
  else (lhs.levelIndex.index : ℤ) - rhs.levelIndex.index

abbrev Qsort := (LevelSortItem → LevelSortItem → ℤ) → List LevelSortItem → List LevelSortItem

def sortItems (results : Level → LevelResult) : List LevelSortItem :=
  allLevels.map (fun i => ⟨i, (results i).totalWeightedScore⟩)

def keywordList (o : Options) : List Char := (o.keywords.intersperse [',']).flatten

/-- `"%-7s  %7s  %14s"` and a column for each keyword. -/
def tableRow (level entries score : List Char) (columns : List (List Char)) : List Char :=
  level.rightpad 7 ' ' ++ "  ".toList ++ entries.leftpad 7 ' ' ++ "  ".toList ++
    score.leftpad 14 ' ' ++ columns.flatMap ("  ".toList ++ ·) ++ ['\n']

def levelRow (o : Options) (l : Level) (r : LevelResult) : List Char :=
  tableRow (levelName l) (Nat.toDigits 10 r.totalEntries) (fixedOne r.totalWeightedScore)
    ((List.range o.numKeywords).map (fun k => fixedOne (r.perKeywordScore k)))

def scoreTable (o : Options) (order : List Level) (results : Level → LevelResult)
    (highPriorityScore : ℕ) : List Char :=
  "KEYWORD_LIST: ".toList ++ keywordList o ++ ['\n'] ++
  "FILES: ".toList ++ Nat.toDigits 10 o.numFiles ++ ['\n'] ++
  "TOTAL_WEIGHTED_SCORE: ".toList ++
    fixedOne (allLevels.map (fun i => (results i).totalWeightedScore)).sum ++ ['\n'] ++
  "HIGH_PRIORITY_SCORE: ".toList ++ fixedOne highPriorityScore ++ ['\n'] ++
  "# Levels sorted by total_weighted_score DESC\n".toList ++
  tableRow "LEVEL".toList "ENTRIES".toList "WEIGHTED_SCORE".toList o.keywords ++
  order.flatMap (fun i => levelRow o i (results i))

def topSourceRow (l : Level) (r : LevelResult) : List Char :=
  "  ".toList ++ levelName l ++ (List.finRange 3).flatMap (fun j =>
    ' ' :: (if r.top.names j = [] then ['-'] else r.top.names j) ++
      ':' :: Nat.toDigits 10 (r.top.hits j)) ++ ['\n']

def threadRow (o : Options) (l : Level) (r : LevelResult) : List Char :=
  "  ".toList ++ levelName l ++ (List.range o.workerThreads).flatMap (fun k =>
    " thread_".toList ++ Nat.toDigits 10 k ++ ':' :: fixedOne (r.perThreadScore k)) ++ ['\n']

def sourceAndThreadRows (o : Options) (results : Level → LevelResult) : List Char :=
  "# Top-3 sources per level\n".toList ++
  allLevels.flatMap (fun i => topSourceRow i (results i)) ++
  "# Per-thread contributions (weighted score)\n".toList ++
  allLevels.flatMap (fun i => threadRow o i (results i))

def writeTextOutput (qsort : Qsort) (o : Options) (results : Level → LevelResult)
    (highPriorityScore : ℕ) : List Char :=
  scoreTable o ((qsort cmpLevelDesc (sortItems results)).map LevelSortItem.levelIndex) results
      highPriorityScore ++
    sourceAndThreadRows o results

/-! ### The order of the table -/

def LevelSortItem.key (item : LevelSortItem) : ℕᵒᵈ ×ₗ ℕ :=
  toLex (OrderDual.toDual item.score, item.levelIndex.index)

theorem index_injective {l k : Level} (h : l.index = k.index) : l = k := by
  cases l <;> cases k <;> first | rfl | cases h

theorem key_injective {a b : LevelSortItem} (h : a.key = b.key) : a = b := by
  obtain ⟨hscore, hindex⟩ := Prod.mk.inj (toLex.injective h)
  obtain ⟨l, x⟩ := a
  obtain ⟨k, y⟩ := b
  obtain rfl : l = k := index_injective hindex
  obtain rfl : x = y := OrderDual.toDual.injective hscore
  rfl

theorem cmpLevelDesc_comparesBy (items : List LevelSortItem) :
    ComparesBy LevelSortItem.key cmpLevelDesc items := by
  intro a _ b _
  simp only [cmpLevelDesc, LevelSortItem.key, Prod.Lex.toLex_lt_toLex, OrderDual.toDual_lt_toDual,
    EmbeddingLike.apply_eq_iff_eq]
  split_ifs with hab hba
  · omega
  · omega
  · omega

/-- The levels by descending score, and by index where scores are equal. -/
def descendingLevels (score : Level → ℕ) : List Level :=
  (stableSort LevelSortItem.key (allLevels.map (fun i => ⟨i, score i⟩))).map
    LevelSortItem.levelIndex

theorem qsort_levels {qsort : Qsort} (hq : LawfulQsort qsort) (results : Level → LevelResult) :
    (qsort cmpLevelDesc (sortItems results)).map LevelSortItem.levelIndex =
      descendingLevels (fun i => (results i).totalWeightedScore) := by
  have hsorted := hq.sortedBy (cmpLevelDesc_comparesBy (sortItems results))
  have hstable : SortedBy LevelSortItem.key (stableSort LevelSortItem.key (sortItems results)) :=
    sortedBy_stableSort _
  have hperm : (qsort cmpLevelDesc (sortItems results)).Perm
      (stableSort LevelSortItem.key (sortItems results)) :=
    (hq.perm _ _).trans (List.mergeSort_perm _ _).symm
  have hsame := hperm.eq_of_pairwise
    (fun a b _ _ hab hba => key_injective (le_antisymm hab hba)) hsorted hstable
  rw [hsame]
  rfl

/-! ### The reference -/

def referenceResult (o : Options) (es : Multiset LogEntry) (l : Level) : LevelResult :=
  let own := es.filter (fun e => e.levelIndex = l)
  let perKeyword := fun k =>
    levelWeight l * (own.map (fun e => occurrences (o.keyword k) e.message)).sum
  { LevelResult.zero with
    totalEntries := own.card
    totalWeightedScore := ∑ k ∈ Finset.range o.numKeywords, perKeyword k
    perKeywordScore := perKeyword }

def referencePriority (o : Options) (es : Multiset LogEntry) : ℕ :=
  ((es.filter (fun e => o.prioritySources.contains e.source)).map
    (fun e => levelWeight e.levelIndex *
    ∑ k ∈ Finset.range o.numKeywords, occurrences (o.keyword k) e.message)).sum

/-- The table that the entries alone determine. -/
def referenceTable (o : Options) (es : Multiset LogEntry) : List Char :=
  scoreTable o (descendingLevels (fun i => (referenceResult o es i).totalWeightedScore))
    (referenceResult o es) (referencePriority o es)

theorem scoreTable_congr {order : List Level} {results results' : Level → LevelResult} {n : ℕ}
    (hentries : ∀ l, (results l).totalEntries = (results' l).totalEntries)
    (htotal : ∀ l, (results l).totalWeightedScore = (results' l).totalWeightedScore)
    (hkeyword : ∀ l, ∀ k < o.numKeywords,
      (results l).perKeywordScore k = (results' l).perKeywordScore k) :
    scoreTable o order results n = scoreTable o order results' n := by
  have hrow : ∀ l, levelRow o l (results l) = levelRow o l (results' l) := by
    intro l
    have hcolumns : (List.range o.numKeywords).map
        (fun k => fixedOne ((results l).perKeywordScore k))
        = (List.range o.numKeywords).map (fun k => fixedOne ((results' l).perKeywordScore k)) := by
      apply List.map_congr_left
      intro k hk
      rw [hkeyword l k (List.mem_range.mp hk)]
    unfold levelRow
    rw [hentries l, htotal l, hcolumns]
  have hsum : allLevels.map (fun i => (results i).totalWeightedScore) =
      allLevels.map (fun i => (results' i).totalWeightedScore) :=
    List.map_congr_left (fun l _ => htotal l)
  have hrows : order.flatMap (fun i => levelRow o i (results i)) =
      order.flatMap (fun i => levelRow o i (results' i)) := by
    congr 1
    funext l
    exact hrow l
  unfold scoreTable
  rw [hsum, hrows]

theorem result_eq_reference {input : o.Input} {s : State o} (h : (machine input).Reachable s)
    (hdue : ReportDue s) (l : Level) :
    (s.results l).totalEntries = (referenceResult o (produced input) l).totalEntries ∧
      (∀ k < o.numKeywords, (s.results l).perKeywordScore k =
        (referenceResult o (produced input) l).perKeywordScore k) ∧
      (s.results l).totalWeightedScore =
        (referenceResult o (produced input) l).totalWeightedScore := by
  have hw := workersEnded_reachable h
  have hterm := hw.joined l (hw.ready l ((reportGate_reachable h).all_ready hdue l))
  obtain ⟨hpost, hz⟩ := all_closed h hdue l
  have hpop := popped_eq_levelEntries (flowInvariant_reachable h) hpost hz
  obtain ⟨hkeyword, hentries, -, -, htotal⟩ := scoresBalanced_reachable h l
  have hscore : ∀ k < o.numKeywords, (s.results l).perKeywordScore k =
      (referenceResult o (produced input) l).perKeywordScore k := by
    intro k hk
    have hsum := hkeyword k hk
    simp only [WorkerState.pendingScore, hterm, if_true, Finset.sum_const_zero,
      Nat.add_zero] at hsum
    calc (s.results l).perKeywordScore k
        = ((s.hist.popped l : Multiset LogEntry).map (fun e => weightedMatches o l e k)).sum := by
          rw [hsum, Multiset.map_coe, Multiset.sum_coe]
      _ = ((levelEntries input l).map (fun e =>
            levelWeight l * occurrences (o.keyword k) e.message)).sum := by
          rw [hpop]
          simp only [weightedMatches_eq l _ hk]
      _ = levelWeight l *
            ((levelEntries input l).map (fun e => occurrences (o.keyword k) e.message)).sum :=
          Multiset.sum_map_mul_left
  refine ⟨?_, hscore, ?_⟩
  · have hcard := congrArg Multiset.card hpop
    simp only [WorkerState.pendingEntries, hterm, if_true, Finset.sum_const_zero,
      Nat.add_zero] at hentries
    rw [hentries, ← Multiset.coe_card, hcard]
    rfl
  · rw [htotal]
    apply Finset.sum_congr rfl
    intro k hk
    exact hscore k (Finset.mem_range.mp hk)

theorem priorityScore_eq_reference {input : o.Input} {s : State o}
    (h : (machine input).Reachable s) (hdue : ReportDue s) :
    s.highPriorityScore = referencePriority o (produced input) := by
  obtain ⟨scored, hall, -, hscore⟩ := priorityScored_of_reportDue h hdue
  rw [hscore, highPriorityHits_eq, referencePriority, ← Multiset.sum_coe, ← Multiset.map_coe, hall]
  rfl

/-- Under every schedule, with every correct sort, the report begins with the
table of the reference and ends with the rows of the sources and threads. -/
theorem report_eq_reference {qsort : Qsort} (hq : LawfulQsort qsort) {input : o.Input}
    {s : State o} (h : (machine input).Reachable s) (hdue : ReportDue s) :
    writeTextOutput qsort o s.results s.highPriorityScore =
      referenceTable o (produced input) ++ sourceAndThreadRows o s.results := by
  have href := result_eq_reference h hdue
  have horder : (fun i => (s.results i).totalWeightedScore) =
      fun i => (referenceResult o (produced input) i).totalWeightedScore :=
    funext (fun l => (href l).2.2)
  rw [writeTextOutput, qsort_levels hq, priorityScore_eq_reference h hdue, horder, referenceTable,
    scoreTable_congr (fun l => (href l).1) (fun l => (href l).2.2) (fun l => (href l).2.1)]

/-! ### From the log files to the report -/

/-- `memset(&entry, 0, sizeof(entry))` -/
def blankEntry : LogEntry := ⟨[], [], [], [], .error, false, 0⟩

def readEntry (readerId : ℕ) (line : List Char) : Option LogEntry :=
  (parseLogLine (line.takeWhile (· != '\x00')) blankEntry).map
    (fun entry => { entry with readerId := readerId })

def ParsedLine.ofEntry (e : LogEntry) : ParsedLine :=
    ⟨e.timestamp, e.levelIndex, e.source, e.message⟩

def fileInput (o : Options) (files : o.Reader → List Char) : o.Input := fun p =>
  ((readerThreadLines (files p.1) o.readerThreads p.2).filterMap (readEntry p.1)).map
    ParsedLine.ofEntry

def fileEntries {n : ℕ} (files : Fin n → List Char) : Multiset LogEntry :=
  ∑ r, ((sequentialLines (files r)).filterMap (readEntry r) : Multiset LogEntry)

theorem toEntry_ofEntry {readerId : ℕ} {line : List Char} {e : LogEntry}
    (h : readEntry readerId line = some e) : (ParsedLine.ofEntry e).toEntry readerId = e := by
  obtain ⟨parsed, hparsed, rfl⟩ := Option.map_eq_some_iff.mp h
  obtain ⟨timestamp, level, source, rest, -, -, rfl⟩ := isLogLine_of_parseLogLine hparsed
  rfl

theorem entriesOf_fileInput (files : o.Reader → List Char) (p : o.ReaderThread) :
    entriesOf (fileInput o files) p =
      (readerThreadLines (files p.1) o.readerThreads p.2).filterMap (readEntry p.1) := by
  rw [entriesOf, fileInput, List.map_map]
  refine (List.map_congr_left ?_).trans (List.map_id _)
  intro e he
  obtain ⟨line, -, hline⟩ := List.mem_filterMap.mp he
  exact toEntry_ofEntry hline

theorem readerThreadLines_sum (file : List Char) {readerThreads : ℕ} (h : 1 ≤ readerThreads) :
    ∑ i : Fin readerThreads, (readerThreadLines file readerThreads i : Multiset (List Char)) =
      sequentialLines file := by
  obtain ⟨n, rfl⟩ := Nat.exists_eq_add_of_le' h
  have hmono : Monotone (fun i => (threadRange file.length (n + 1) i).startOffset) :=
    fun i j hij => Nat.mul_le_mul_right _ hij
  have hpieces := fun m => flatMap_ranges Prod.fst hmono (by simp [threadRange])
    (sequentialLoop ⟨0, file⟩) m
  have hinner : ∀ m ≤ n, ∑ i ∈ Finset.range m,
      (readerThreadLines file (n + 1) i : Multiset (List Char)) =
        (((sequentialLoop ⟨0, file⟩).takeWhile (fun l =>
          l.1 < (threadRange file.length (n + 1) m).startOffset)).map Prod.snd :) := by
    intro m hm
    induction m with
    | zero => simp [← hpieces 0]
    | succ m ih =>
      rw [Finset.sum_range_succ, ih (by omega), readerThreadLines_inner (by omega),
          ← hpieces (m + 1),
        ← hpieces m, List.range_succ, List.flatMap_append, List.map_append, List.flatMap_singleton,
        Multiset.coe_add]
  rw [Fin.sum_univ_eq_sum_range
    (fun i => (readerThreadLines file (n + 1) i : Multiset (List Char))), Finset.sum_range_succ,
    hinner n le_rfl, readerThreadLines_last, Multiset.coe_add, ← List.map_append,
    List.takeWhile_append_dropWhile]
  rfl

theorem sum_filterMap {ι α β : Type*} [Fintype ι] (f : α → Option β) (xs : ι → List α) :
    ∑ i, (((xs i).filterMap f : List β) : Multiset β) =
      Multiset.filterMap f (∑ i, (xs i : Multiset α)) := by
  let filterMapHom : Multiset α →+ Multiset β :=
    { toFun := Multiset.filterMap f
      map_zero' := rfl
      map_add' := Multiset.filterMap_add f }
  exact (map_sum filterMapHom (fun i => (xs i : Multiset α)) Finset.univ).symm

theorem produced_fileInput (files : o.Reader → List Char) (h : 1 ≤ o.readerThreads) :
    produced (fileInput o files) = fileEntries files := by
  rw [produced, Fintype.sum_prod_type, fileEntries]
  apply Finset.sum_congr rfl
  intro r _
  simp only [entriesOf_fileInput]
  rw [sum_filterMap, readerThreadLines_sum (files r) h]
  rfl

/-- The report on any log files: under every schedule, with any number of reader
threads and workers, any capacities and any correct sort, it begins with the
table of the entries that sequential reads of the files give. -/
theorem report_of_files {qsort : Qsort} (hq : LawfulQsort qsort) (files : o.Reader → List Char)
    (hthreads : 1 ≤ o.readerThreads) {s : State o} (h : (machine (fileInput o files)).Reachable s)
    (hdue : ReportDue s) :
    writeTextOutput qsort o s.results s.highPriorityScore =
      referenceTable o (fileEntries files) ++ sourceAndThreadRows o s.results := by
  rw [← produced_fileInput files hthreads]
  exact report_eq_reference hq h hdue

def watchedText : List Char := "[2026-01-01 00:00:00] [ERROR] [db] xax\n".toList

theorem sequentialLoop_watchedText : sequentialLoop ⟨0, watchedText⟩ = [(0, watchedText)] := by
  have hcut : cutLine watchedText = (watchedText, []) := by decide +kernel
  rw [sequentialLoop_cons (by decide), hcut, sequentialLoop_nil]

theorem readEntry_watchedText : readEntry 0 watchedText = some
    (ParsedLine.toEntry ⟨"2026-01-01 00:00:00".toList, .error, "db".toList, "xax".toList⟩ 0) := by
  decide +kernel

theorem fileInput_watchedText : fileInput watchedFile (fun _ => watchedText) = watchedLine := by
  funext p
  obtain ⟨r, i⟩ := p
  have hr : (r : ℕ) = 0 := Nat.lt_one_iff.mp r.isLt
  have hi : (i : ℕ) = 0 := Nat.lt_one_iff.mp i.isLt
  have hlines : readerThreadLines watchedText 1 0 = [watchedText] := by
    rw [readerThreadLines_last, sequentialLoop_watchedText]
    rfl
  have hthreads : watchedFile.readerThreads = 1 := rfl
  simp only [fileInput, hthreads, hr, hi, hlines, List.filterMap_cons, readEntry_watchedText]
  rfl

theorem report_of_watchedText :
    ∃ s, (machine (fileInput watchedFile fun _ => watchedText)).Reachable s ∧
    ReportDue s ∧ writeTextOutput comparatorSort watchedFile s.results s.highPriorityScore =
      referenceTable watchedFile (fileEntries fun _ : Fin 1 => watchedText) ++
        sourceAndThreadRows watchedFile s.results := by
  have hreached : ∃ s, (machine watchedLine).Reachable s ∧ ReportDue s :=
    ⟨_, (Machine.execution_of_isSome toReport_isSome).reachable, reportDue_toReport⟩
  rw [← fileInput_watchedText] at hreached
  obtain ⟨s, hreach, hdue⟩ := hreached
  exact ⟨s, hreach, hdue, report_of_files lawfulQsort_comparatorSort _ le_rfl hreach hdue⟩

end SysProg.HW4

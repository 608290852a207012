import SysProg.HW4.CommandLine

/-!
# From the command line to the summary

The parent starts the processes with the options that it has parsed and, when all
of them have ended, adds up the results of the four analyzers. The table of the
report and the whole summary depend on the arguments and the files alone.
-/

namespace SysProg.HW4
open SysProg.Lib
variable {o : Options}

def ProgramOptions.toOptions (opts : ProgramOptions) (h : opts.Bounded) : Options where
  readerThreads := opts.readerThreads.toNat
  workerThreads := opts.workerThreads.toNat
  capacityA := opts.capacityA.toNat
  capacityB := opts.capacityB.toNat
  capacityD := opts.capacityD.toNat
  numFiles := opts.files.length
  keywords := opts.keywords
  prioritySources := opts.prioritySources
  workerThreads_pos := Int.lt_toNat.mpr h.workerThreads.1
  capacityA_pos := Int.lt_toNat.mpr (lt_of_lt_of_le (by decide) h.capacityA.1)
  capacityB_pos := Int.lt_toNat.mpr (lt_of_lt_of_le (by decide) h.capacityB.1)
  capacityD_pos := Int.lt_toNat.mpr (lt_of_lt_of_le (by decide) h.capacityD.1)
  numFiles_pos := List.length_pos_iff.mpr h.files_ne
  keywords_ne := fun text ht => (h.keywords text ht).ne_nil

def addResults (results : Level → LevelResult) : List Level → ℕ × ℕ → ℕ × ℕ
  | [], totals => totals
  | i :: rest, totals => addResults results rest
      (totals.1 + (results i).totalEntries, totals.2 + (results i).totalWeightedScore)

def summaryRule : List Char := List.replicate 50 '=' ++ ['\n']

def summaryRow (i : Level) (entries score : ℕ) : List Char :=
  levelName i ++ " : ".toList ++ Nat.toDigits 10 entries ++ " entries, score: ".toList ++
    fixedOne score ++ ['\n']

def summaryText (opts : ProgramOptions) (totals : ℕ × ℕ) (highPriorityScore : ℕ)
    (rows : Level → ℕ × ℕ) : List Char :=
  summaryRule ++ "SYSTEM SUMMARY\n".toList ++
    "Keywords : ".toList ++ ", ".toList.intercalate opts.keywords ++ ['\n'] ++
    "Log files : ".toList ++ Nat.toDigits 10 opts.files.length ++ ['\n'] ++
    "Total entries : ".toList ++ Nat.toDigits 10 totals.1 ++ ['\n'] ++
    "Total weighted : ".toList ++ fixedOne totals.2 ++ ['\n'] ++
    "High-priority : ".toList ++ fixedOne highPriorityScore ++ " (source filter: ".toList ++
    opts.filterFile ++ ")\n".toList ++
    allLevels.flatMap (fun i => summaryRow i (rows i).1 (rows i).2) ++
    summaryRule ++ "Program terminated successfully.\n".toList

/-- What `main` prints when the watchdog has been joined. -/
def systemSummary (opts : ProgramOptions) (results : Level → LevelResult)
    (highPriorityScore : ℕ) : List Char :=
  summaryText opts (addResults results allLevels (0, 0)) highPriorityScore
    (fun i => ((results i).totalEntries, (results i).totalWeightedScore))

/-! ### The numbers of the summary -/

def weightedCount (o : Options) (e : LogEntry) : ℕ :=
  levelWeight e.levelIndex * ∑ k ∈ Finset.range o.numKeywords, occurrences (o.keyword k) e.message

def scoreSum (o : Options) (es : Multiset LogEntry) : ℕ := (es.map (weightedCount o)).sum

def referenceSummary (opts : ProgramOptions) (o : Options) (es : Multiset LogEntry) : List Char :=
  summaryText opts (es.card, scoreSum o es)
    (scoreSum o (es.filter (fun e => o.prioritySources.contains e.source)))
    (fun i => ((es.filter (fun e => e.levelIndex = i)).card,
      scoreSum o (es.filter (fun e => e.levelIndex = i))))

theorem addResults_eq (results : Level → LevelResult) (levels : List Level) (totals : ℕ × ℕ) :
    addResults results levels totals =
      (totals.1 + (levels.map (fun i => (results i).totalEntries)).sum,
        totals.2 + (levels.map (fun i => (results i).totalWeightedScore)).sum) := by
  induction levels generalizing totals with
  | nil => rfl
  | cons i levels ih =>
    rw [addResults, ih]
    simp only [List.map_cons, List.sum_cons, Nat.add_assoc]

def levelSum (f : LogEntry → ℕ) (es : Multiset LogEntry) (i : Level) : ℕ :=
  ((es.filter (fun e => e.levelIndex = i)).map f).sum

theorem levelSum_cons (f : LogEntry → ℕ) (e : LogEntry) (es : Multiset LogEntry) (i : Level) :
    levelSum f (e ::ₘ es) i = (if e.levelIndex = i then f e else 0) + levelSum f es i := by
  unfold levelSum
  split_ifs with hlevel
  · rw [Multiset.filter_cons_of_pos es hlevel, Multiset.map_cons, Multiset.sum_cons]
  · rw [Multiset.filter_cons_of_neg es hlevel, Nat.zero_add]

theorem sum_levelSum (f : LogEntry → ℕ) (es : Multiset LogEntry) :
    (allLevels.map (levelSum f es)).sum = (es.map f).sum := by
  induction es using Multiset.induction with
  | empty => rfl
  | cons e es ih =>
    rw [Multiset.map_cons, Multiset.sum_cons, ← ih]
    simp only [allLevels, List.map_cons, List.map_nil, List.sum_cons, List.sum_nil, levelSum_cons]
    cases e.levelIndex <;> simp only [reduceCtorEq, if_true, if_false] <;> omega

theorem totalWeightedScore_reference (o : Options) (es : Multiset LogEntry) (l : Level) :
    (referenceResult o es l).totalWeightedScore =
      scoreSum o (es.filter (fun e => e.levelIndex = l)) := by
  simp only [referenceResult, scoreSum]
  induction es using Multiset.induction with
  | empty => simp
  | cons e es ih =>
    by_cases hlevel : e.levelIndex = l
    · rw [Multiset.filter_cons_of_pos es hlevel]
      simp only [Multiset.map_cons, Multiset.sum_cons, Nat.mul_add, Finset.sum_add_distrib, ih,
        ← Finset.mul_sum, weightedCount, hlevel]
    · rw [Multiset.filter_cons_of_neg es hlevel]
      exact ih

theorem systemSummary_eq_reference (opts : ProgramOptions) {input : o.Input} {s : State o}
    (h : (machine input).Reachable s) (hdue : ReportDue s) :
    systemSummary opts s.results s.highPriorityScore =
    referenceSummary opts o (produced input) := by
  have href := result_eq_reference h hdue
  have hentries :
      (fun i => (s.results i).totalEntries) = levelSum (fun _ => 1) (produced input) := by
    funext i
    rw [(href i).1]
    simp [referenceResult, levelSum]
  have hscores : (fun i => (s.results i).totalWeightedScore) =
      levelSum (weightedCount o) (produced input) := by
    funext i
    rw [(href i).2.2, totalWeightedScore_reference]
    rfl
  have hcard : ∀ es : Multiset LogEntry, es.card = (es.map (fun _ => 1)).sum := by simp
  have hpriority := priorityScore_eq_reference h hdue
  rw [systemSummary, referenceSummary, addResults_eq, hentries, hscores, sum_levelSum, sum_levelSum,
    ← hcard, Nat.zero_add, Nat.zero_add, hpriority]
  have hrows : (fun i => ((s.results i).totalEntries, (s.results i).totalWeightedScore)) =
      fun i => (((produced input).filter (fun e => e.levelIndex = i)).card,
        scoreSum o ((produced input).filter (fun e => e.levelIndex = i))) := by
    funext i
    rw [hcard]
    exact Prod.ext (congrFun hentries i) (congrFun hscores i)
  rw [hrows]
  rfl

/-- From the command line to the report and the summary: when all log files open,
the table of the report and the whole summary of every run depend on the arguments
and the files alone. -/
theorem output_of_commandLine {fopen : List Char → Option (List Char)}
    {args : List (Char × List Char)} {opts : ProgramOptions}
    (hparse : parseArgs fopen args = .ok opts)
    (hlogs : ∀ i : Fin opts.files.length, (fopen (opts.files.get i)).isSome)
    {qsort : Qsort} (hq : LawfulQsort qsort) :
    let o := opts.toOptions (bounded_of_parseArgs hparse)
    let logs : o.Reader → List Char := fun i => (fopen (opts.files.get i)).get (hlogs i)
    ∀ s, (machine (fileInput o logs)).Reachable s → ReportDue s →
      writeTextOutput qsort o s.results s.highPriorityScore =
        referenceTable o (fileEntries logs) ++ sourceAndThreadRows o s.results ∧
      systemSummary opts s.results s.highPriorityScore =
        referenceSummary opts o (fileEntries logs) := by
  intro o logs s h hdue
  have hthreads : 1 ≤ o.readerThreads :=
    Int.lt_toNat.mpr (bounded_of_parseArgs hparse).readerThreads.1
  rw [← produced_fileInput logs hthreads]
  exact ⟨report_eq_reference hq h hdue, systemSummary_eq_reference opts h hdue⟩

theorem parseArgs_watchedDisk :
    parseArgs watchedDisk watchedOptions.arguments = .ok watchedOptions :=
  (parseArgs_arguments_iff bounded_watchedOptions onDisk_watchedOptions).mpr
    trimNewline_watchedOptions

theorem watchedDisk_logs (i : Fin watchedOptions.files.length) :
    watchedDisk (watchedOptions.files.get i) = some watchedText := by
  have hi : i = ⟨0, Nat.one_pos⟩ := Fin.ext (Nat.lt_one_iff.mp i.isLt)
  rw [hi]
  rfl

theorem watchedDisk_opens (i : Fin watchedOptions.files.length) :
    (watchedDisk (watchedOptions.files.get i)).isSome := by
  rw [watchedDisk_logs i]
  rfl

theorem output_of_watchedDisk : ∃ s : State watchedFile, ReportDue s ∧
    systemSummary watchedOptions s.results s.highPriorityScore =
      referenceSummary watchedOptions watchedFile (fileEntries fun _ : Fin 1 => watchedText) := by
  have hlogs : (fun i : watchedFile.Reader =>
      (watchedDisk (watchedOptions.files.get i)).get (watchedDisk_opens i)) = fun _ =>
      watchedText := by
    funext i
    exact Option.get_of_eq_some (watchedDisk_opens i) (watchedDisk_logs i)
  have hreached : ∃ s, (machine (fileInput watchedFile (fun i =>
      (watchedDisk (watchedOptions.files.get i)).get (watchedDisk_opens i)))).Reachable s ∧
      ReportDue s := by
    rw [hlogs, fileInput_watchedText]
    exact ⟨_, (Machine.execution_of_isSome toReport_isSome).reachable, reportDue_toReport⟩
  obtain ⟨s, hreach, hdue⟩ := hreached
  have hsummary : systemSummary watchedOptions s.results s.highPriorityScore =
      referenceSummary watchedOptions watchedFile (fileEntries (fun i : watchedFile.Reader =>
        (watchedDisk (watchedOptions.files.get i)).get (watchedDisk_opens i))) :=
    (output_of_commandLine parseArgs_watchedDisk watchedDisk_opens lawfulQsort_comparatorSort
      s hreach hdue).2
  rw [hlogs] at hsummary
  exact ⟨s, hdue, hsummary⟩

end SysProg.HW4

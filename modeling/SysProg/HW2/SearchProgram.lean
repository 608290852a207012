import SysProg.Lib.OptionArgs
import SysProg.HW2.MatchCount
import SysProg.HW2.TreeReading

/-!
# The search program

From the arguments to what the parent prints: it searches a root without
subdirectories itself and has workers search the others, whose result files and
exit codes it reads when all of them are reaped. In a tree with legible names the
printed tree lists the matching files that were reported, each once, in byte order,
and the summary counts them and all regular files of the tree.
-/

namespace SysProg.HW2
open SysProg.Lib

/-! ### Arguments -/

/-- `(long)strtol(text, NULL, 10)` -/
def atol (text : List Char) : ℤ := (scanNumber text).elim 0 Prod.fst

structure Arguments where
  rootDir : Option (List Char) := none
  numWorkers : ℤ := 0
  pattern : Option (List Char) := none
  minSize : ℤ := -1
  deriving DecidableEq

/-- On the option characters and arguments of `getopt`; `none` is `return 1`. -/
def parseArguments : Arguments → List (Char × List Char) → Option Arguments
  | a, [] => some a
  | a, ('d', optarg) :: rest => parseArguments { a with rootDir := some optarg } rest
  | a, ('n', optarg) :: rest => parseArguments { a with numWorkers := atoi optarg } rest
  | a, ('f', optarg) :: rest => parseArguments { a with pattern := some optarg } rest
  | a, ('s', optarg) :: rest => parseArguments { a with minSize := atol optarg } rest
  | _, _ :: _ => none

def minWorkers : ℕ := 2

structure Search where
  rootDir : List Char
  numWorkers : ℕ
  query : Query

/-- `main` up to `opendir`; `none` is `return 1`. -/
def startSearch (fs : FileSystem) (isDirectory : List Char → Bool)
    (args : List (Char × List Char)) : Option Search :=
  match parseArguments {} args with
  | none => none
  | some a =>
    match a.rootDir, a.pattern with
    | some rootDir, some pattern =>
      if a.numWorkers = 0 then none
      else if a.numWorkers < minWorkers ∨ maxWorkers < a.numWorkers then none
      else if !isDirectory rootDir then none
      else match fs.opendir rootDir with
        | none => none
        | some _ => some ⟨rootDir, a.numWorkers.toNat, ⟨pattern, a.minSize⟩⟩
    | _, _ => none

/-! ### Output -/

def resultLine (r : WorkerResult) : List Char :=
  "Worker PID ".toList ++ (decimal r.workerPid ++ (" : ".toList ++ (decimal r.matchCount ++
    (if r.matchCount = 1 then " match\n" else " matches\n").toList)))

/-- `print_summary` -/
def summaryText (numWorkers totalScanned totalMatches : ℕ) (results : List WorkerResult) :
    List Char :=
  "\n--- Summary ---\n".toList ++ ("Total workers used  : ".toList ++ (decimal numWorkers ++
    ("\nTotal files scanned : ".toList ++ (decimal totalScanned ++
      ("\nTotal matches found : ".toList ++ (decimal totalMatches ++
        '\n' :: results.flatMap resultLine))))))

/-- `"[Worker PID:%d] MATCH: %s (%ld bytes)\n"` -/
def matchLine (pid : ℕ) (x : List Char × ℕ) : List Char :=
  "[Worker PID:".toList ++ (decimal pid ++ ("] MATCH: ".toList ++ (x.1 ++
    (" (".toList ++ (decimal x.2 ++ " bytes)\n".toList)))))

section
variable (fs : FileSystem) (qsort : (MatchEntry → MatchEntry → ℤ) → List MatchEntry →
    List MatchEntry)
  (search : Search)

def resultFile (w pid : ℕ) : List Char :=
  (matchedBy fs search.query search.numWorkers search.rootDir w).flatMap (matchLine pid)

def fewerText (used numWorkers : ℕ) : List Char :=
  "Notice: only ".toList ++ (decimal used ++ (" subdirector".toList ++
    ((if used = 1 then "y" else "ies").toList ++ (" found; using ".toList ++ (decimal used ++
      (" worker".toList ++ ((if used = 1 then "" else "s").toList ++ (" instead of ".toList ++
        (decimal numWorkers ++ ".\n".toList)))))))))

/-- What the parent prints after its workers are reaped, in the state that it is left in;
`none` when the walk that counts the files does not return. -/
def workersOutput (fuel : ℕ) (s : ParentState) : Option (List Char) :=
  (countTotalFiles fs fuel search.rootDir).map fun totalScanned =>
    let used := workersUsed fs search.numWorkers search.rootDir
    let entries := readMatchFiles (s.childPids.mapIdx fun w pid => resultFile fs search w pid)
    (if used < search.numWorkers then fewerText used search.numWorkers else []) ++
      '\n' :: (printTree qsort search.rootDir entries ++
        summaryText used totalScanned (totalMatches s) s.workerResults)

def ownOutput (fuel pid : ℕ) : Option (List Char) := do
  let entries ← collectMatches fs search.query pid fuel search.rootDir []
  let totalScanned ← countTotalFiles fs fuel search.rootDir
  some ("Notice: no subdirectories found; parent will search root directly.\n".toList ++
    (printTree qsort search.rootDir entries ++
      summaryText 0 totalScanned entries.length [⟨pid, entries.length⟩]))

end

/-! ### What the arguments say -/

def Arguments.given (a : Arguments) (args : List (Char × List Char)) : Arguments where
  rootDir := lastGiven 'd' some a.rootDir args
  numWorkers := lastGiven 'n' atoi a.numWorkers args
  pattern := lastGiven 'f' some a.pattern args
  minSize := lastGiven 's' atol a.minSize args

def optionLetters : List Char := ['d', 'n', 'f', 's']

theorem parseArguments_cons (a : Arguments) (arg : Char × List Char)
    (rest : List (Char × List Char)) : parseArguments a (arg :: rest) =
      if arg.1 ∈ optionLetters then parseArguments (a.given [arg]) rest else none := by
  obtain ⟨letter, optarg⟩ := arg
  by_cases hknown : letter ∈ optionLetters
  · rw [if_pos hknown]
    simp only [optionLetters, List.mem_cons, List.not_mem_nil, or_false] at hknown
    rcases hknown with rfl | rfl | rfl | rfl <;> rfl
  · rw [if_neg hknown]
    simp only [optionLetters, List.mem_cons, List.not_mem_nil, or_false, not_or] at hknown
    rw [parseArguments] <;> simp_all

theorem parseArguments_iff {a a' : Arguments} {args : List (Char × List Char)} :
    parseArguments a args = some a' ↔
      (∀ arg ∈ args, arg.1 ∈ optionLetters) ∧ a.given args = a' := by
  induction args generalizing a with
  | nil => simp [parseArguments, Arguments.given, lastGiven]
  | cons arg rest ih =>
    have hcons : a.given (arg :: rest) = (a.given [arg]).given rest := rfl
    rw [parseArguments_cons, hcons, List.forall_mem_cons]
    split_ifs with hknown
    · rw [ih, and_assoc]
      exact (and_iff_right hknown).symm
    · simp [hknown]

/-- A search is started exactly on known options with a directory that can be opened, a
pattern and two to eight workers. -/
theorem startSearch_iff {fs : FileSystem} {isDirectory : List Char → Bool}
    {args : List (Char × List Char)} {search : Search} :
    startSearch fs isDirectory args = some search ↔
      (∀ arg ∈ args, arg.1 ∈ optionLetters) ∧
      Arguments.given {} args =
        ⟨some search.rootDir, search.numWorkers, some search.query.pattern, search.query.minSize⟩ ∧
      minWorkers ≤ search.numWorkers ∧ search.numWorkers ≤ maxWorkers ∧
      isDirectory search.rootDir = true ∧ (fs.opendir search.rootDir).isSome = true := by
  unfold startSearch
  constructor
  · intro h
    cases hparsed : parseArguments {} args with
    | none => simp [hparsed] at h
    | some a =>
      obtain ⟨hletters, hgiven⟩ := parseArguments_iff.mp hparsed
      rcases hroot : a.rootDir with _ | rootDir
      · simp [hparsed, hroot] at h
      · rcases hpattern : a.pattern with _ | pattern
        · simp [hparsed, hroot, hpattern] at h
        · simp only [hparsed, hroot, hpattern] at h
          split_ifs at h with hzero hrange hdir
          cases hopen : fs.opendir rootDir with
          | none => simp [hopen] at h
          | some names =>
            simp only [hopen, Option.some.injEq] at h
            subst h
            have hcount : (a.numWorkers.toNat : ℤ) = a.numWorkers := by
              simp only [minWorkers] at hrange
              omega
            refine ⟨hletters, ?_, ?_, ?_, by simpa using hdir, by simp [hopen]⟩
            · rw [hgiven, ← hroot, ← hpattern, hcount]
            · dsimp only
              omega
            · dsimp only
              omega
  · rintro ⟨hletters, hgiven, hmin, hmax, hdir, hopen⟩
    obtain ⟨names, hnames⟩ := Option.isSome_iff_exists.mp hopen
    have hparsed := parseArguments_iff.mpr ⟨hletters, hgiven⟩
    have hpos : ¬ (search.numWorkers : ℤ) = 0 := by
      simp only [minWorkers] at hmin
      omega
    have hrange :
        ¬ ((search.numWorkers : ℤ) < minWorkers ∨ (maxWorkers : ℤ) < search.numWorkers) := by
      omega
    simp only [hparsed, hpos, hrange, hdir, hnames, if_false, Bool.not_true, Bool.false_eq_true]
    rfl

/-! ### Names below the root -/

/-- File systems have no empty names and none with a NUL or of more than 255 bytes. -/
def FileSystem.PlainNames (fs : FileSystem) : Prop :=
  ∀ path, ∀ name ∈ fs.listing path, name ≠ [] ∧ '\x00' ∉ name ∧ name.length ≤ 255

theorem FileSystem.PlainNames.plain {fs : FileSystem} (h : fs.PlainNames) {path name : List Char}
    (hmem : name ∈ fs.listing path) : PlainName name :=
  ⟨(h path name hmem).1, noSlash_of_mem hmem, (h path name hmem).2.1⟩

theorem names_of_file {fs : FileSystem} {path : List Char} {f : Find}
    (h : FileIn fs path f) (hfits : f.Fits) : ∃ dirs : List (List Char),
      fullPath f.dir f.name = fullPath path (joinLines '/' dirs f.name) ∧
        ∀ x ∈ dirs ++ [f.name], ∃ dir, x ∈ fs.listing dir := by
  induction h with
  | @here path name size hentry hstat =>
    refine ⟨[], rfl, ?_⟩
    intro x hx
    rw [List.mem_singleton.mp hx]
    exact ⟨path, hentry.1⟩
  | @deeper path name f hentry hstat hlt hf ih =>
    obtain ⟨dirs, hpath, hnames⟩ := ih hfits
    have hcut : cutPath path name = fullPath path name := by
      apply cutPath_of_fits
      by_contra hlong
      have hmem := mem_scannedFiles.mpr hf
      rw [scannedFiles_full (length_cutPath_of_not_fits hlong) hstat] at hmem
      cases hmem
    refine ⟨name :: dirs, ?_, ?_⟩
    · rw [hpath, hcut]
      simp [fullPath, joinLines_cons]
    · intro x hx
      rcases List.mem_cons.mp hx with rfl | hx
      · exact ⟨path, hentry.1⟩
      · exact hnames x hx

def searchRoot (root : List Char) (hnul : '\x00' ∉ root) : SearchRoot where
  dir := root
  base := root ++ ['/']
  base_eq := Or.inl rfl
  base_nul := by simpa using hnul

structure NamedPath (fs : FileSystem) (root path : List Char) : Prop where
  names : ∃ dirs name, path = fullPath root (joinLines '/' dirs name) ∧
    ∀ x ∈ dirs ++ [name], ∃ dir, x ∈ fs.listing dir
  fits : path.length < 4096

structure Legible (root : List Char) (paths : List (List Char)) : Prop where
  oneLine : ∀ path ∈ paths, '\n' ∉ path
  shallow : ∀ path ∈ paths, path.count '/' ≤ root.count '/' + 30

theorem count_joinLines {dirs : List (List Char)} {name : List Char}
    (h : ∀ x ∈ dirs ++ [name], '/' ∉ x) : (joinLines '/' dirs name).count '/' = dirs.length := by
  induction dirs with
  | nil => simpa [joinLines] using List.count_eq_zero.mpr (h name (by simp))
  | cons dir dirs ih =>
    rw [List.cons_append, List.forall_mem_cons] at h
    rw [joinLines_cons, List.count_append, List.count_append, ih h.2,
      List.count_eq_zero.mpr h.1, List.length_cons]
    simp [Nat.add_comm]

theorem mem_joinLines {dirs : List (List Char)} {name x : List Char} (h : x ∈ dirs ++ [name]) :
    x ⊆ joinLines '/' dirs name := by
  induction dirs with
  | nil =>
    rw [List.mem_singleton.mp h]
    simp [joinLines]
  | cons dir dirs ih =>
    rw [joinLines_cons]
    rcases List.mem_cons.mp h with rfl | h
    · exact fun c hc => List.mem_append_left _ (List.mem_append_left _ hc)
    · exact fun c hc => List.mem_append_right _ (ih h hc)

theorem exists_foundFile {fs : FileSystem} (hplain : fs.PlainNames) {root : List Char}
    (hnul : '\x00' ∉ root) {path : List Char} (hpath : NamedPath fs root path)
    (hline : '\n' ∉ path) (hdepth : path.count '/' ≤ root.count '/' + 30) (size pid : ℤ) :
    ∃ f : FoundFile (searchRoot root hnul), f.entry = ⟨path, size, pid⟩ ∧ f.path = path ∧
      (∀ x ∈ f.dirs ++ [f.name], x.length ≤ 255) ∧ (∀ x ∈ f.dirs ++ [f.name], '\n' ∉ x) ∧
      f.node.depth ≤ 30 := by
  obtain ⟨⟨dirs, name, rfl, hnames⟩, hfits⟩ := hpath
  have hsplit : (root ++ ['/']) ++ joinLines '/' dirs name =
      fullPath root (joinLines '/' dirs name) := by
    simp [fullPath]
  have hnamed : ∀ x ∈ dirs ++ [name], PlainName x := by
    intro x hx
    obtain ⟨dir, hdir⟩ := hnames x hx
    exact hplain.plain hdir
  refine ⟨⟨dirs, name, size, pid, hnamed, by rw [searchRoot, hsplit]; exact hfits⟩, ?_, hsplit,
    ?_, ?_, ?_⟩
  · exact congrArg (fun p => MatchEntry.mk p size pid) hsplit
  · intro x hx
    obtain ⟨dir, hdir⟩ := hnames x hx
    exact (hplain dir x hdir).2.2
  · intro x hx hnewline
    apply hline
    rw [fullPath]
    exact List.mem_append_right _ (List.mem_cons_of_mem _ (mem_joinLines hx hnewline))
  · have hcount := count_joinLines (fun x hx => (hnamed x hx).slash)
    rw [fullPath, List.count_append, List.count_cons, hcount] at hdepth
    simp only [FoundFile.node, TreeNode.depth]
    simp only [BEq.rfl, if_true] at hdepth
    omega

theorem exists_map_eq {α β : Type*} {f : α → β} {P : α → Prop} {l : List β}
    (h : ∀ b ∈ l, ∃ a, f a = b ∧ P a) : ∃ as : List α, as.map f = l ∧ ∀ a ∈ as, P a := by
  induction l with
  | nil => exact ⟨[], rfl, by simp⟩
  | cons b l ih =>
    rw [List.forall_mem_cons] at h
    obtain ⟨a, ha, hP⟩ := h.1
    obtain ⟨as, has, hall⟩ := ih h.2
    refine ⟨a :: as, by rw [List.map_cons, ha, has], ?_⟩
    rw [List.forall_mem_cons]
    exact ⟨hP, hall⟩

/-- What is read from the printed tree: every path once, in byte order. -/
structure TreeTells (root : List Char) (hnul : '\x00' ∉ root) (tree : List Char)
    (paths : List (List Char)) : Prop where
  each : (recoverPaths (searchRoot root hnul) tree).Perm paths
  inOrder : (recoverPaths (searchRoot root hnul) tree).Pairwise fun p p' => strcmp p p' < 0

theorem treeTells {fs : FileSystem} (hplain : fs.PlainNames) {root : List Char}
    (hnul : '\x00' ∉ root)
    {qsort : (MatchEntry → MatchEntry → ℤ) → List MatchEntry → List MatchEntry}
    (hq : LawfulQsort qsort) {entries : List MatchEntry}
    (hnamed : ∀ e ∈ entries, NamedPath fs root e.path)
    (hlegible : Legible root (entries.map MatchEntry.path))
    (hdistinct : (entries.map MatchEntry.path).Nodup) :
    TreeTells root hnul (printTree qsort root entries) (entries.map MatchEntry.path) := by
  have hfile : ∀ e ∈ entries, ∃ f : FoundFile (searchRoot root hnul), f.entry = e ∧
      (∀ x ∈ f.dirs ++ [f.name], x.length ≤ 255) ∧ (∀ x ∈ f.dirs ++ [f.name], '\n' ∉ x) ∧
      f.node.depth ≤ 30 := by
    intro e he
    have hmem := List.mem_map_of_mem (f := MatchEntry.path) he
    obtain ⟨f, hentry, -, hf⟩ := exists_foundFile hplain hnul (hnamed e he)
      (hlegible.oneLine _ hmem) (hlegible.shallow _ hmem) e.size e.workerPid
    exact ⟨f, hentry, hf⟩
  obtain ⟨files, rfl, hfiles⟩ := exists_map_eq hfile
  have hpaths : (files.map FoundFile.entry).map MatchEntry.path = files.map FoundFile.path := by
    rw [List.map_map]
    rfl
  rw [hpaths] at hdistinct ⊢
  have hrecovered := recoverPaths_printTree hq hdistinct (fun f hf => (hfiles f hf).1)
    (fun f hf => (hfiles f hf).2.1) (fun f hf => (hfiles f hf).2.2)
  have hperm : ((inOrder files).map FoundFile.path).Perm (files.map FoundFile.path) :=
    (inOrder_perm files).map _
  constructor
  · exact hrecovered ▸ hperm
  · have hsorted := inOrder_sorted files
    have hnodup := hperm.nodup_iff.mpr hdistinct
    change (recoverPaths (searchRoot root hnul) (printTree qsort (searchRoot root hnul).dir
      (files.map FoundFile.entry))).Pairwise _
    rw [hrecovered, List.pairwise_map]
    refine (hsorted.and (List.pairwise_map.mp hnodup)).imp ?_
    rintro f g ⟨hle, hne⟩
    apply lt_of_le_of_ne hle
    intro hzero
    exact hne (eq_of_strcmp_eq_zero f.nul_notMem_path g.nul_notMem_path hzero)

/-! ### The matches of the root itself -/

section Own
variable {fs : FileSystem} {q : Query} {root : List Char}

def findPath (f : Find) : List Char := fullPath f.dir f.name

theorem nodup_findPath (fs : FileSystem) (q : Query) (root : List Char) :
    ((finds fs q root).map findPath).Nodup := by
  apply (nodup_finds root).map_on
  intro f hf g hg hpath
  obtain ⟨hf, hfstat, -⟩ := find_entry hf
  obtain ⟨hg, hgstat, -⟩ := find_entry hg
  obtain ⟨hdir, hname⟩ := fullPath_inj (noSlash_of_mem hf.1) (noSlash_of_mem hg.1) hpath
  obtain ⟨fdir, fname, fsize⟩ := f
  obtain ⟨gdir, gname, gsize⟩ := g
  dsimp only at hdir hname hfstat hgstat
  subst hdir hname
  rw [hfstat] at hgstat
  rw [FileStat.regular.inj (Option.some.inj hgstat)]

theorem namedPath_of_find {f : Find} (hf : f ∈ finds fs q root) (hfits : f.Fits) :
    NamedPath fs root (findPath f) := by
  obtain ⟨dirs, hpath, hnames⟩ := names_of_file (mem_finds.mp hf).1 hfits
  exact ⟨⟨dirs, f.name, hpath, hnames⟩, hfits⟩

theorem collect_all (hshallow : Shallow fs root) (hfits : ∀ f ∈ finds fs q root, f.Fits)
    (hroom : (finds fs q root).length ≤ maxMatches) (pid : ℤ) {fuel : ℕ} (hfuel : 4096 ≤ fuel) :
    collectMatches fs q pid fuel root [] =
      some ((finds fs q root).map (fun f => ⟨findPath f, f.size, pid⟩)) := by
  obtain ⟨fuel, rfl⟩ := Nat.exists_eq_add_of_le' (Nat.le_of_add_left_le hfuel : 1 ≤ fuel)
  obtain ⟨result, hresult⟩ := @collect_returns fs q pid root hshallow fuel (by omega) []
  rw [hresult, collect_eq (Nat.zero_le _) hresult, List.nil_append,
    List.take_of_length_le (by simpa using hroom)]
  congr 1
  apply List.map_congr_left
  intro f hf
  rw [Find.entry, cutPath_of_fits (hfits f hf)]
  rfl

theorem count_all (hshallow : Shallow fs root) {fuel : ℕ} (hfuel : 4096 ≤ fuel) :
    countTotalFiles fs fuel root = some (scannedFiles fs root).length := by
  obtain ⟨fuel, rfl⟩ := Nat.exists_eq_add_of_le' (Nat.le_of_add_left_le hfuel : 1 ≤ fuel)
  obtain ⟨total, htotal⟩ := countTotalFiles_returns hshallow (by omega : 4095 ≤ root.length + fuel)
  rw [htotal, countTotalFiles_eq htotal]

end Own

/-! ### The matches of the workers -/

section Workers
variable {fs : FileSystem} {q : Query} {numWorkers : ℕ} {root : List Char}

theorem lstat_of_reported {x : List Char × ℕ} (h : x ∈ allReported fs q root) :
    fs.lstat x.1 = some (.regular x.2) := by
  obtain ⟨dir, -, hx⟩ := List.mem_flatMap.mp h
  obtain ⟨f, hf, hfits, rfl⟩ := mem_reported.mp hx
  exact (find_entry hf).2.1

theorem nodup_reportedPaths : ((allReported fs q root).map Prod.fst).Nodup := by
  apply (nodup_allReported root).map_on
  intro x hx y hy hpath
  have hsize := lstat_of_reported hx
  rw [hpath, lstat_of_reported hy] at hsize
  exact Prod.ext hpath (FileStat.regular.inj (Option.some.inj hsize)).symm

theorem mem_reportedPaths {path : List Char} : path ∈ (allReported fs q root).map Prod.fst ↔
    ∃ dir ∈ subdirs fs root, ∃ f ∈ finds fs q dir, f.Fits ∧ findPath f = path := by
  simp only [allReported, List.mem_map, List.mem_flatMap, mem_reported]
  constructor
  · rintro ⟨x, ⟨dir, hdir, f, hf, hfits, rfl⟩, rfl⟩
    refine ⟨dir, hdir, f, hf, hfits, ?_⟩
    rw [pair_of_fits hfits]
    rfl
  · rintro ⟨dir, hdir, f, hf, hfits, rfl⟩
    refine ⟨f.pair, ⟨dir, hdir, f, hf, hfits, rfl⟩, ?_⟩
    rw [pair_of_fits hfits]
    rfl

theorem namedPath_of_reported {path : List Char} (h : path ∈ (allReported fs q root).map Prod.fst) :
    NamedPath fs root path := by
  obtain ⟨dir, hdir, f, hf, hfits, rfl⟩ := mem_reportedPaths.mp h
  obtain ⟨name, hentry, hstat, rfl⟩ := mem_subdirs hdir
  have hlt : root.length < (cutPath root name).length := by
    by_contra hnot
    have hfull := length_eq_of_entry hentry hnot
    rw [cutPath_of_full hfull] at hstat hf
    rw [finds_full hfull hstat] at hf
    cases hf
  obtain ⟨hfile, hsel⟩ := mem_finds.mp hf
  exact namedPath_of_find (mem_finds.mpr ⟨.deeper hentry hstat hlt hfile, hsel⟩) hfits

theorem workerDirs_sublist (w : ℕ) :
    (workerDirs fs numWorkers root w).Sublist (subdirs fs root) := by
  rw [workerDirs, dealDirs_eq]
  have hsub := (List.filter_sublist (p := fun d => d.2 % workersUsed fs numWorkers root = w)
    (l := (subdirs fs root).zipIdx)).map Prod.fst
  rwa [List.zipIdx_map_fst] at hsub

theorem nodup_matchedBy (w : ℕ) : (matchedBy fs q numWorkers root w).Nodup := by
  rw [matchedBy, runWorker_eq]
  exact ((workerDirs_sublist w).flatMap (reported fs q)).nodup (nodup_allReported root)

theorem matchedBy_perm (hworkers : 0 < numWorkers) (hroot : subdirs fs root ≠ []) :
    ((List.range (workersUsed fs numWorkers root)).flatMap (matchedBy fs q numWorkers root)).Perm
      (allReported fs q root) := by
  refine (List.perm_ext_iff_of_nodup ?_ (nodup_allReported root)).mpr ?_
  · rw [List.nodup_flatMap]
    refine ⟨fun w _ => nodup_matchedBy w, ?_⟩
    refine List.nodup_range.imp_of_mem ?_
    intro w w' _ _ hne x hx hx'
    exact hne (matchedBy_unique hx hx')
  · intro x
    rw [mem_allReported hworkers hroot, List.mem_flatMap]
    simp only [List.mem_range]

/-! ### The result files -/

theorem line_eq (r : MatchRecord) : r.line = matchLine r.pid (r.path, r.size) := by
  have hshape : ∀ a b c d e p t n : List Char,
      ((a ++ ' ' :: b ++ p ++ c ++ ' ' :: d ++ [' ']) ++ (t ++ ' ' :: '(' :: n)) ++
          ' ' :: e ++ ['\n'] =
        (a ++ ' ' :: b) ++ (p ++ ((c ++ ' ' :: (d ++ [' '])) ++ (t ++ ([' ', '('] ++ (n ++
          (' ' :: (e ++ ['\n']))))))) := by simp
  exact hshape "[Worker".toList "PID:".toList "]".toList "MATCH:".toList "bytes)".toList
    (decimal r.pid) r.path (decimal r.size)

theorem readMatchFiles_eq (files : List (List Char)) :
    readMatchFiles files = (files.flatMap parsedLines).take maxMatches := by
  have hfold : ∀ entries : List MatchEntry, entries.length ≤ maxMatches →
      files.foldl readMatchFile entries =
        (entries ++ files.flatMap parsedLines).take maxMatches := by
    induction files with
    | nil =>
      intro entries hroom
      simp [List.take_of_length_le hroom]
    | cons file files ih =>
      intro entries hroom
      rw [List.foldl_cons, readMatchFile_eq hroom, ih _ (List.length_take_le _ _),
        List.flatMap_cons, ← List.append_assoc]
      exact take_take_append _ _ _
  exact hfold [] (Nat.zero_le _)

/-- A match whose line the parent can read: one word of a path that leaves room for the
rest of the line, and a size of a file. -/
structure Readable (x : List Char × ℕ) : Prop where
  nonempty : x.1 ≠ []
  noSpace : ∀ c ∈ x.1, isSpace c = false
  noNul : '\x00' ∉ x.1
  short : x.1.length < 460
  size : x.2 < 2 ^ 63

theorem Readable.record {x : List Char × ℕ} (h : Readable x) {pid : ℕ} (hpid : pid < 2 ^ 31) :
    ∃ r : MatchRecord, (r.path, r.size) = x ∧ r.pid = pid ∧ r.Survives := by
  have hlong : x.1.length < 4096 := h.short.trans (by decide)
  refine ⟨⟨pid, x.1, x.2, hpid, h.noNul, hlong, h.size⟩, rfl, rfl, h.nonempty, h.noSpace, ?_⟩
  have hheader := length_header ⟨pid, x.1, x.2, hpid, h.noNul, hlong, h.size⟩
  have hsize := length_size ⟨pid, x.1, x.2, hpid, h.noNul, hlong, h.size⟩
  have hshort := h.short
  rw [length_lead]
  dsimp only at hsize ⊢
  omega

theorem parsedLines_matchLines {xs : List (List Char × ℕ)} (h : ∀ x ∈ xs, Readable x) {pid : ℕ}
    (hpid : pid < 2 ^ 31) :
    parsedLines (xs.flatMap (matchLine pid)) = xs.map (fun x => ⟨x.1, x.2, pid⟩) := by
  obtain ⟨records, rfl, hrecords⟩ := exists_map_eq (fun x hx => (h x hx).record hpid)
  have hlines : (records.map (fun r => (r.path, r.size))).flatMap (matchLine pid) =
      records.flatMap MatchRecord.line := by
    rw [List.flatMap_map]
    apply List.flatMap_congr
    intro r hr
    rw [line_eq, (hrecords r hr).1]
  rw [hlines, parsedLines_records (fun r hr => (hrecords r hr).2), List.map_map]
  apply List.map_congr_left
  intro r hr
  simp [MatchRecord.entry, (hrecords r hr).1]

def workerEntries (fs : FileSystem) (search : Search) (pids : List ℕ) : List MatchEntry :=
  (pids.mapIdx fun w pid => (matchedBy fs search.query search.numWorkers search.rootDir w).map
    fun x => ⟨x.1, x.2, pid⟩).flatten

theorem parsedLines_resultFiles {search : Search} {pids : List ℕ}
    (hworkers : 0 < search.numWorkers) (hroot : subdirs fs search.rootDir ≠ [])
    (hlen : pids.length = workersUsed fs search.numWorkers search.rootDir)
    (hreadable : ∀ x ∈ allReported fs search.query search.rootDir, Readable x)
    (hpids : ∀ pid ∈ pids, pid < 2 ^ 31) :
    (pids.mapIdx fun w pid => resultFile fs search w pid).flatMap parsedLines =
      workerEntries fs search pids := by
  rw [workerEntries, List.flatMap_def]
  congr 1
  apply List.ext_getElem
  · simp
  · intro w hw hw'
    simp only [List.length_map, List.length_mapIdx] at hw
    simp only [List.getElem_map, List.getElem_mapIdx, resultFile]
    apply parsedLines_matchLines ?_ (hpids _ (List.getElem_mem hw))
    intro x hx
    exact hreadable x ((mem_allReported hworkers hroot).mpr ⟨w, hlen ▸ hw, hx⟩)

theorem workerEntries_paths (search : Search) (pids : List ℕ) :
    (workerEntries fs search pids).map MatchEntry.path =
      ((List.range pids.length).flatMap
        (matchedBy fs search.query search.numWorkers search.rootDir)).map Prod.fst := by
  rw [workerEntries, List.map_flatten, List.map_flatMap, List.flatMap_def]
  congr 1
  apply List.ext_getElem
  · simp
  · intro w hw hw'
    simp only [List.getElem_map, List.getElem_mapIdx, List.getElem_range, List.map_map]
    rfl

end Workers

/-! ### The whole program -/

def CountsFiles (fs : FileSystem) (root : List Char) (total : ℕ) : Prop :=
  ∃ files : List Find, files.Nodup ∧ (∀ f, f ∈ files ↔ FileIn fs root f) ∧ total = files.length

theorem countsFiles (fs : FileSystem) (root : List Char) :
    CountsFiles fs root (scannedFiles fs root).length :=
  ⟨scannedFiles fs root, nodup_scannedFiles root, fun _ => mem_scannedFiles, rfl⟩

theorem ownOutput_tells {fs : FileSystem} {search : Search} (hplain : fs.PlainNames)
    (hnul : '\x00' ∉ search.rootDir) (hshallow : Shallow fs search.rootDir)
    {qsort : (MatchEntry → MatchEntry → ℤ) → List MatchEntry → List MatchEntry}
    (hq : LawfulQsort qsort) (hfits : ∀ f ∈ finds fs search.query search.rootDir, f.Fits)
    (hroom : (finds fs search.query search.rootDir).length ≤ maxMatches)
    (hlegible : Legible search.rootDir ((finds fs search.query search.rootDir).map findPath))
    {fuel : ℕ} (hfuel : 4096 ≤ fuel) (pid : ℕ) :
    ∃ tree total, CountsFiles fs search.rootDir total ∧
      TreeTells search.rootDir hnul tree
        ((finds fs search.query search.rootDir).map findPath) ∧
      ownOutput fs qsort search fuel pid =
        some ("Notice: no subdirectories found; parent will search root directly.\n".toList ++
          (tree ++ summaryText 0 total (finds fs search.query search.rootDir).length
            [⟨pid, (finds fs search.query search.rootDir).length⟩])) := by
  have hentries := collect_all hshallow hfits hroom pid hfuel
  have hpaths : ((finds fs search.query search.rootDir).map
      (fun f => (⟨findPath f, f.size, pid⟩ : MatchEntry))).map MatchEntry.path =
        (finds fs search.query search.rootDir).map findPath := by
    rw [List.map_map]
    rfl
  have hnamed : ∀ e ∈ (finds fs search.query search.rootDir).map
      (fun f => (⟨findPath f, f.size, pid⟩ : MatchEntry)), NamedPath fs search.rootDir e.path := by
    intro e he
    obtain ⟨f, hf, rfl⟩ := List.mem_map.mp he
    exact namedPath_of_find hf (hfits f hf)
  have htells := treeTells hplain hnul hq hnamed (hpaths ▸ hlegible)
    (hpaths ▸ nodup_findPath fs search.query search.rootDir)
  rw [hpaths] at htells
  refine ⟨_, _, countsFiles fs search.rootDir, htells, ?_⟩
  rw [ownOutput, hentries, count_all hshallow hfuel]
  simp

theorem workersOutput_tells {fs : FileSystem} {search : Search} (hplain : fs.PlainNames)
    (hnul : '\x00' ∉ search.rootDir) (hshallow : Shallow fs search.rootDir)
    {qsort : (MatchEntry → MatchEntry → ℤ) → List MatchEntry → List MatchEntry}
    (hq : LawfulQsort qsort) (hworkers : 0 < search.numWorkers)
    (hmax : search.numWorkers ≤ maxWorkers) (hroot : subdirs fs search.rootDir ≠ [])
    (hreadable : ∀ x ∈ allReported fs search.query search.rootDir, Readable x)
    (hdepth : ∀ x ∈ allReported fs search.query search.rootDir,
      x.1.count '/' ≤ search.rootDir.count '/' + 30)
    (hroom : (allReported fs search.query search.rootDir).length ≤ maxMatches)
    {tr : List (ParentState × ParentAction)} {s : ParentState}
    (hrun : (parent (workersUsed fs search.numWorkers search.rootDir)).Execution tr s)
    (hexit : ∀ x ∈ tr, NormalExit fs search.query search.numWorkers search.rootDir x.1 x.2)
    (hpc : s.pc = .finished) (hpids : ∀ pid ∈ s.childPids, pid < 2 ^ 31) {fuel : ℕ}
    (hfuel : 4096 ≤ fuel) :
    ∃ tree total, CountsFiles fs search.rootDir total ∧
      TreeTells search.rootDir hnul tree
        ((allReported fs search.query search.rootDir).map Prod.fst) ∧
      s.workerResults.Perm (s.childPids.mapIdx fun w pid =>
        ⟨pid, matchesFound fs search.query search.numWorkers search.rootDir w % 256⟩) ∧
      workersOutput fs qsort search fuel s =
        some ((if workersUsed fs search.numWorkers search.rootDir < search.numWorkers then
          fewerText (workersUsed fs search.numWorkers search.rootDir) search.numWorkers else []) ++
            '\n' :: (tree ++ summaryText (workersUsed fs search.numWorkers search.rootDir) total
              (∑ w ∈ Finset.range (workersUsed fs search.numWorkers search.rootDir),
                matchesFound fs search.query search.numWorkers search.rootDir w % 256)
              s.workerResults)) := by
  have hused := (workersUsed_le fs search.numWorkers search.rootDir).trans hmax
  have hledger := ledger_reachable hused hrun.reachable
  have hlen : s.childPids.length = workersUsed fs search.numWorkers search.rootDir :=
    hledger.started (by rw [hpc]; rfl)
  have hresults := results_perm hledger (ownStatus_execution hused hrun hexit) hpc
  have hperm : ((workerEntries fs search s.childPids).map MatchEntry.path).Perm
      ((allReported fs search.query search.rootDir).map Prod.fst) := by
    rw [workerEntries_paths, hlen]
    exact (matchedBy_perm hworkers hroot).map _
  have hread : readMatchFiles (s.childPids.mapIdx fun w pid => resultFile fs search w pid) =
      workerEntries fs search s.childPids := by
    rw [readMatchFiles_eq, parsedLines_resultFiles hworkers hroot hlen hreadable hpids,
      List.take_of_length_le]
    have hcount := hperm.length_eq
    simp only [List.length_map] at hcount
    omega
  have hmember : ∀ path, path ∈ (workerEntries fs search s.childPids).map MatchEntry.path →
      ∃ x ∈ allReported fs search.query search.rootDir, x.1 = path := by
    intro path hpath
    obtain ⟨x, hx, rfl⟩ := List.mem_map.mp (hperm.subset hpath)
    exact ⟨x, hx, rfl⟩
  have htells := treeTells hplain hnul hq
    (fun e he => namedPath_of_reported (hperm.subset (List.mem_map_of_mem he))) ?_
    (hperm.nodup_iff.mpr nodup_reportedPaths)
  · refine ⟨_, _, countsFiles fs search.rootDir, ⟨htells.each.trans hperm, htells.inOrder⟩,
      hresults, ?_⟩
    rw [workersOutput, count_all hshallow hfuel, hread, total_of_perm hresults, hlen]
    rfl
  · constructor
    · intro path hpath hnewline
      obtain ⟨x, hx, rfl⟩ := hmember path hpath
      have hspace := (hreadable x hx).noSpace _ hnewline
      cases hspace
    · intro path hpath
      obtain ⟨x, hx, rfl⟩ := hmember path hpath
      exact hdepth x hx

def sampleSearch (root : String) : Search := ⟨root.toList, 2, ⟨"a".toList, -1⟩⟩

def sampleArgs (root : String) : List (Char × List Char) :=
  [('d', root.toList), ('n', "2".toList), ('f', "a".toList)]

theorem finds_sampleTree : finds sampleTree ⟨"a".toList, -1⟩ "/r/d".toList =
    [⟨"/r/d".toList, "a".toList, 5⟩] := by
  have hlisting : sampleTree.listing "/r/d".toList = ["a".toList] := by decide
  have hstat : sampleTree.lstat (cutPath "/r/d".toList "a".toList) = some (.regular 5) := by decide
  have hdot : isDot "a".toList = false := by decide
  have hsel : Query.selects ⟨"a".toList, -1⟩ "a".toList 5 = true := by decide
  rw [finds_eq, hlisting, List.flatMap_singleton, findsAt, hstat]
  simp only [hdot, hsel, if_true, Bool.false_eq_true, if_false]

theorem allReported_sampleTree : allReported sampleTree ⟨"a".toList, -1⟩ "/r".toList =
    [("/r/d/a".toList, 5)] := by
  have hsubdirs : subdirs sampleTree "/r".toList = ["/r/d".toList] := by decide
  rw [allReported, hsubdirs, List.flatMap_singleton, reported, finds_sampleTree]
  decide

theorem sampleTree_used : workersUsed sampleTree 2 "/r".toList = 1 := by decide

theorem sampleTree_found : matchesFound sampleTree ⟨"a".toList, -1⟩ 2 "/r".toList 0 = 1 := by
  have hdirs : workerDirs sampleTree 2 "/r".toList 0 = ["/r/d".toList] := by decide
  have hall := allReported_sampleTree
  have hsubdirs : subdirs sampleTree "/r".toList = ["/r/d".toList] := by decide
  rw [allReported, hsubdirs, List.flatMap_singleton] at hall
  rw [matchesFound, matchedBy, runWorker_eq, hdirs, List.flatMap_singleton, hall]
  rfl

theorem sampleTree_plainNames : sampleTree.PlainNames := by
  intro path name hname
  simp only [Directories.listing, sampleTree] at hname
  split_ifs at hname
  · simp only [Option.getD_some, List.mem_cons, List.not_mem_nil, or_false] at hname
    rcases hname with rfl | rfl | rfl | rfl <;> decide
  · rw [List.mem_singleton.mp hname]
    decide
  · cases hname

theorem sampleTree_shallow_below : Shallow sampleTree "/r/d".toList := by
  intro path _ hfull _ name hentry
  rcases sampleTree_entry hentry with ⟨rfl, -⟩ | ⟨rfl, -⟩ <;> exact absurd hfull (by decide)

end SysProg.HW2

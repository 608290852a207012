import SysProg.Lib.FileReads
import SysProg.Lib.OptionArgs
import SysProg.HW4.Report

/-!
# The command line

`parse_args` fills the options from the arguments that `getopt` finds, checks
them and loads the two files that they name. What it accepts is in the bounds
that the rest of the program relies on, and it reads back the options that are
written out.
-/

namespace SysProg.HW4
open SysProg.Lib

def maxKeywords : ℕ := 8
def maxWorkers : ℕ := 64

/-- `program_options_t`; a text is what stands before the zero of its buffer. -/
structure ProgramOptions where
  readerThreads : ℤ := 0
  workerThreads : ℤ := 0
  capacityA : ℤ := 0
  capacityB : ℤ := 0
  capacityD : ℤ := 0
  timeoutSec : ℤ := 0
  configFile : List Char := []
  filterFile : List Char := []
  outputFile : List Char := []
  binaryFile : List Char := []
  keywords : List (List Char) := []
  files : List (List Char) := []
  prioritySources : List (List Char) := []
  deriving DecidableEq, Repr

/-- What the program ends with before it starts. -/
inductive Exit where
  | usage
  | message (text : List Char)
  | errno (text : List Char)
  deriving DecidableEq, Repr

/-- The tokens of `strtok_r` at commas. -/
def commaTokens (text : List Char) : List (List Char) :=
  (text.splitOn ',').filter (· != [])

/-- The loop of `parse_keywords`. -/
def addKeywords : List (List Char) → List (List Char) → Except Exit (List (List Char))
  | keywords, [] => .ok keywords
  | keywords, token :: rest =>
    if maxKeywords ≤ keywords.length then .error (.message "Too many keywords".toList)
    else addKeywords (keywords ++ [token.take 63]) rest

def parseKeywords (opts : ProgramOptions) (arg : List Char) : Except Exit ProgramOptions :=
  match addKeywords opts.keywords (commaTokens (arg.take 511)) with
  | .error e => .error e
  | .ok keywords =>
    if keywords = [] then .error (.message "At least one keyword required".toList)
    else .ok { opts with keywords := keywords }

/-- The loop that reads a file into a buffer of `room + 2` bytes. -/
def loadLines (room maxCount : ℕ) (store : List Char → List Char) (full : List Char)
    (out : List (List Char)) (file : List Char) : Except Exit (List (List Char)) :=
  if h : file = [] then .ok out
  else
    let read := fgets (room + 1) file
    have : read.2.length < file.length := fgets_shorter h
    let line := trimNewline (cString read.1)
    if line = [] then loadLines room maxCount store full out read.2
    else if maxCount ≤ out.length then .error (.message full)
    else loadLines room maxCount store full (out ++ [store line]) read.2
termination_by file.length

def loadFilePaths : List (List Char) → List Char → Except Exit (List (List Char)) :=
  loadLines 510 maxFiles (·.take 511) "Too many lines in config/filter".toList

def loadSourcesSimple : List (List Char) → List Char → Except Exit (List (List Char)) :=
  loadLines 126 maxSources (·.take 63) "Too many lines in filter".toList

/-- One round of the `switch`, on the option character and its argument. -/
def applyOption (opts : ProgramOptions) : Char × List Char → Except Exit ProgramOptions
  | ('c', optarg) => .ok { opts with configFile := optarg.take 511 }
  | ('f', optarg) => .ok { opts with filterFile := optarg.take 511 }
  | ('k', optarg) => parseKeywords opts optarg
  | ('t', optarg) => .ok { opts with readerThreads := atoi optarg }
  | ('w', optarg) => .ok { opts with workerThreads := atoi optarg }
  | ('a', optarg) => .ok { opts with capacityA := atoi optarg }
  | ('b', optarg) => .ok { opts with capacityB := atoi optarg }
  | ('d', optarg) => .ok { opts with capacityD := atoi optarg }
  | ('T', optarg) => .ok { opts with timeoutSec := atoi optarg }
  | ('o', optarg) => .ok { opts with outputFile := optarg.take 511 }
  | ('O', optarg) => .ok { opts with binaryFile := optarg.take 511 }
  | _ => .error .usage

def applyOptions : ProgramOptions → List (Char × List Char) → Except Exit ProgramOptions
  | opts, [] => .ok opts
  | opts, arg :: rest =>
    match applyOption opts arg with
    | .error e => .error e
    | .ok opts => applyOptions opts rest

def ProgramOptions.Incomplete (opts : ProgramOptions) : Prop :=
  opts.configFile = [] ∨ opts.filterFile = [] ∨ opts.keywords.length = 0 ∨
    opts.readerThreads < 1 ∨ opts.workerThreads < 1 ∨ maxWorkers < opts.workerThreads ∨
    opts.capacityA < 4 ∨ opts.capacityB < 4 ∨ opts.capacityD < 2 ∨ opts.timeoutSec < 1 ∨
    opts.outputFile = [] ∨ opts.binaryFile = []

instance (opts : ProgramOptions) : Decidable opts.Incomplete := inferInstanceAs (Decidable (_ ∨ _))

def loadFrom (fopen : List Char → Option (List Char)) (path failure : List Char)
    (load : List (List Char) → List Char → Except Exit (List (List Char))) :
    Except Exit (List (List Char)) :=
  match fopen path with
  | none => .error (.errno failure)
  | some file => load [] file

def parseArgs (fopen : List Char → Option (List Char)) (args : List (Char × List Char)) :
    Except Exit ProgramOptions :=
  (applyOptions { timeoutSec := 10 } args).bind fun opts =>
    if opts.Incomplete then .error .usage
    else
      (loadFrom fopen opts.configFile "fopen config/filter".toList loadFilePaths).bind fun files =>
        (loadFrom fopen opts.filterFile "fopen filter".toList loadSourcesSimple).bind fun sources =>
          if files = [] then
            .error (.message "Config file must list at least one log file".toList)
          else .ok { opts with files := files, prioritySources := sources }

/-! ### What the arguments say -/

def keywordsOf (arg : Char × List Char) : List (List Char) :=
  if arg.1 = 'k' then (commaTokens (arg.2.take 511)).map (·.take 63) else []

def ProgramOptions.given (opts : ProgramOptions) (args : List (Char × List Char)) :
    ProgramOptions :=
  { opts with
    configFile := lastGiven 'c' (·.take 511) opts.configFile args
    filterFile := lastGiven 'f' (·.take 511) opts.filterFile args
    keywords := opts.keywords ++ args.flatMap keywordsOf
    readerThreads := lastGiven 't' atoi opts.readerThreads args
    workerThreads := lastGiven 'w' atoi opts.workerThreads args
    capacityA := lastGiven 'a' atoi opts.capacityA args
    capacityB := lastGiven 'b' atoi opts.capacityB args
    capacityD := lastGiven 'd' atoi opts.capacityD args
    timeoutSec := lastGiven 'T' atoi opts.timeoutSec args
    outputFile := lastGiven 'o' (·.take 511) opts.outputFile args
    binaryFile := lastGiven 'O' (·.take 511) opts.binaryFile args }

def optionLetters : List Char := ['c', 'f', 'k', 't', 'w', 'a', 'b', 'd', 'T', 'o', 'O']

/-- All letters are known, the first list of keywords is not empty and there are
at most eight keywords. -/
structure Understood (keywords : List (List Char)) (args : List (Char × List Char)) : Prop where
  letters : ∀ arg ∈ args, arg.1 ∈ optionLetters
  first : ∀ before arg after, args = before ++ arg :: after → arg.1 = 'k' →
    keywords ++ (before ++ [arg]).flatMap keywordsOf ≠ []
  count : (keywords ++ args.flatMap keywordsOf).length ≤ maxKeywords

theorem addKeywords_eq {keywords : List (List Char)} (hroom : keywords.length ≤ maxKeywords)
    (tokens : List (List Char)) : addKeywords keywords tokens =
      if (keywords ++ tokens).length ≤ maxKeywords then .ok (keywords ++ tokens.map (·.take 63))
      else .error (.message "Too many keywords".toList) := by
  induction tokens generalizing keywords with
  | nil => simp [addKeywords, hroom]
  | cons token rest ih =>
    rw [addKeywords]
    split_ifs with hfull hfits hfits
    · rw [List.length_append, List.length_cons] at hfits
      omega
    · rfl
    · rw [ih (by rw [List.length_append, List.length_singleton]; omega), if_pos]
      · rw [List.append_assoc]
        rfl
      · simpa using hfits
    · rw [ih (by rw [List.length_append, List.length_singleton]; omega), if_neg]
      simpa using hfits

theorem given_nil (opts : ProgramOptions) : opts.given [] = opts := by
  cases opts
  simp [ProgramOptions.given, lastGiven]

theorem given_cons (opts : ProgramOptions) (arg : Char × List Char)
    (rest : List (Char × List Char)) :
    opts.given (arg :: rest) = (opts.given [arg]).given rest := by
  simp [ProgramOptions.given, lastGiven]

structure Taken (keywords : List (List Char)) (arg : Char × List Char) : Prop where
  letter : arg.1 ∈ optionLetters
  first : arg.1 = 'k' → keywords ++ keywordsOf arg ≠ []
  count : (keywords ++ keywordsOf arg).length ≤ maxKeywords

theorem understood_cons {keywords : List (List Char)} {arg : Char × List Char}
    {rest : List (Char × List Char)} : Understood keywords (arg :: rest) ↔
      Taken keywords arg ∧ Understood (keywords ++ keywordsOf arg) rest := by
  constructor
  · intro h
    have hcount := h.count
    rw [List.flatMap_cons, ← List.append_assoc] at hcount
    refine ⟨⟨h.letters arg List.mem_cons_self, ?_, ?_⟩,
      ⟨fun a ha => h.letters a (List.mem_cons_of_mem _ ha), ?_, hcount⟩⟩
    · intro hk
      have hfirst := h.first [] arg rest rfl hk
      simpa using hfirst
    · rw [List.length_append] at hcount
      omega
    · rintro before a after rfl hk
      have hfirst := h.first (arg :: before) a after rfl hk
      simpa using hfirst
  · rintro ⟨htaken, hrest⟩
    refine ⟨?_, ?_, ?_⟩
    · intro a ha
      rcases List.mem_cons.mp ha with rfl | ha
      · exact htaken.letter
      · exact hrest.letters a ha
    · intro before a after hsplit hk
      cases before with
      | nil =>
        obtain ⟨rfl, rfl⟩ := List.cons.inj hsplit
        simpa using htaken.first hk
      | cons b before =>
        obtain ⟨rfl, rfl⟩ := List.cons.inj hsplit
        simpa using hrest.first before a after rfl hk
    · rw [List.flatMap_cons, ← List.append_assoc]
      exact hrest.count

theorem applyOption_unknown (opts : ProgramOptions) {letter : Char}
    (hletter : letter ∉ optionLetters) (optarg : List Char) :
    applyOption opts (letter, optarg) = .error .usage := by
  simp only [optionLetters, List.mem_cons, List.not_mem_nil, or_false, not_or] at hletter
  unfold applyOption
  split
  any_goals
    rename_i heq
    obtain ⟨rfl, -⟩ := Prod.mk.inj heq
    simp at hletter
  rfl

theorem applyOption_known (opts : ProgramOptions) {letter : Char} (hk : letter ≠ 'k')
    (hletter : letter ∈ optionLetters) (optarg : List Char) :
    applyOption opts (letter, optarg) = .ok (opts.given [(letter, optarg)]) := by
  have hnone : keywordsOf (letter, optarg) = [] := if_neg hk
  simp only [ProgramOptions.given, lastGiven, List.flatMap_singleton, hnone, List.append_nil]
  simp only [optionLetters, List.mem_cons, List.not_mem_nil, or_false] at hletter
  rcases hletter with rfl | rfl | rfl | rfl | rfl | rfl | rfl | rfl | rfl | rfl | rfl
  all_goals first | exact absurd rfl hk | rfl

theorem parseKeywords_eq {opts : ProgramOptions} (hroom : opts.keywords.length ≤ maxKeywords)
    (optarg : List Char) : parseKeywords opts optarg =
      if (opts.keywords ++ keywordsOf ('k', optarg)).length ≤ maxKeywords then
        if opts.keywords ++ keywordsOf ('k', optarg) = [] then
          .error (.message "At least one keyword required".toList)
        else .ok (opts.given [('k', optarg)])
      else .error (.message "Too many keywords".toList) := by
  have htokens : keywordsOf ('k', optarg) = (commaTokens (optarg.take 511)).map (·.take 63) :=
    if_pos rfl
  have hgiven : opts.given [('k', optarg)] =
      { opts with keywords := opts.keywords ++ keywordsOf ('k', optarg) } := by
    simp only [ProgramOptions.given, List.flatMap_singleton]
    rfl
  have hlength : (opts.keywords ++ keywordsOf ('k', optarg)).length =
      (opts.keywords ++ commaTokens (optarg.take 511)).length := by
    rw [htokens, List.length_append, List.length_append, List.length_map]
  rw [hgiven, hlength, parseKeywords, addKeywords_eq hroom, ← htokens]
  by_cases hcount : (opts.keywords ++ commaTokens (optarg.take 511)).length ≤ maxKeywords
  · rw [if_pos hcount, if_pos hcount]
  · rw [if_neg hcount, if_neg hcount]

theorem applyOption_ok_iff {opts : ProgramOptions} (hroom : opts.keywords.length ≤ maxKeywords)
    {arg : Char × List Char} {opts' : ProgramOptions} :
    applyOption opts arg = .ok opts' ↔ Taken opts.keywords arg ∧ opts.given [arg] = opts' := by
  obtain ⟨letter, optarg⟩ := arg
  by_cases hk : letter = 'k'
  · subst hk
    rw [applyOption, parseKeywords_eq hroom]
    constructor
    · intro h
      split_ifs at h with hcount hempty
      exact ⟨⟨by simp [optionLetters], fun _ => hempty, hcount⟩, Except.ok.inj h⟩
    · rintro ⟨⟨-, hfirst, hcount⟩, rfl⟩
      rw [if_pos hcount, if_neg (hfirst rfl)]
  · have hnone : keywordsOf (letter, optarg) = [] := if_neg hk
    constructor
    · intro h
      have hletter : letter ∈ optionLetters := by
        by_contra hunknown
        rw [applyOption_unknown opts hunknown] at h
        cases h
      rw [applyOption_known opts hk hletter] at h
      refine ⟨⟨hletter, fun heq => absurd heq hk, ?_⟩, Except.ok.inj h⟩
      rwa [hnone, List.append_nil]
    · rintro ⟨⟨hletter, -, -⟩, rfl⟩
      exact applyOption_known opts hk hletter optarg

theorem keywords_given (opts : ProgramOptions) (args : List (Char × List Char)) :
    (opts.given args).keywords = opts.keywords ++ args.flatMap keywordsOf := rfl

theorem applyOptions_ok_iff {opts : ProgramOptions} (hroom : opts.keywords.length ≤ maxKeywords)
    {args : List (Char × List Char)} {opts' : ProgramOptions} :
    applyOptions opts args = .ok opts' ↔
      Understood opts.keywords args ∧ opts.given args = opts' := by
  induction args generalizing opts with
  | nil =>
    rw [applyOptions, given_nil]
    constructor
    · intro h
      refine ⟨⟨by simp, ?_, by simpa using hroom⟩, Except.ok.inj h⟩
      intro before arg after hsplit
      simp at hsplit
    · rintro ⟨-, rfl⟩
      rfl
  | cons arg rest ih =>
    rw [understood_cons, given_cons, and_assoc]
    have happly : ∀ next : ProgramOptions, applyOption opts arg = .ok next ↔
        Taken opts.keywords arg ∧ opts.given [arg] = next := fun next => applyOption_ok_iff hroom
    rw [applyOptions]
    cases htry : applyOption opts arg with
    | error e =>
      have hnot : ¬ Taken opts.keywords arg := fun htaken => by
        rw [(happly _).mpr ⟨htaken, rfl⟩] at htry
        cases htry
      simp [hnot]
    | ok next =>
      obtain ⟨htaken, rfl⟩ := (happly next).mp htry
      have hkeywords : (opts.given [arg]).keywords = opts.keywords ++ keywordsOf arg := by
        rw [keywords_given, List.flatMap_singleton]
      dsimp only
      rw [ih (hkeywords ▸ htaken.count), hkeywords]
      simp [htaken]

/-! ### What the files list -/

def keptLine (buffer : List Char) : List (List Char) :=
  let line := trimNewline (cString buffer)
  if line = [] then [] else [line]

/-- The entries of a file, whose lines may fill the buffer several times. -/
def listedLines (room : ℕ) (file : List Char) : List (List Char) :=
  (fileLines file).flatMap (fun line => (blocks room line).flatMap keptLine)

theorem newlineBlind_keptLine : NewlineBlind keptLine := by
  apply @newlineBlind_cString _ (fun text =>
    if trimNewline text = [] then [] else [trimNewline text])
  · simp [trimNewline]
  · intro text _
    have htrim : trimNewline (text ++ ['\n']) = trimNewline text :=
      List.rdropWhile_concat_pos _ _ _ (by decide)
    rw [htrim]

theorem loadLines_reads (room maxCount : ℕ) (store : List Char → List Char) (full : List Char)
    {out : List (List Char)} (hroom : out.length ≤ maxCount) (file : List Char) :
    loadLines room maxCount store full out file =
      if (out ++ (readsOf room file).flatMap keptLine).length ≤ maxCount then
        .ok (out ++ ((readsOf room file).flatMap keptLine).map store)
      else .error (.message full) := by
  by_cases h : file = []
  · subst h
    rw [loadLines, dif_pos rfl, readsOf_nil, List.flatMap_nil, List.map_nil, List.append_nil,
      if_pos hroom]
  · rw [loadLines, dif_neg h, readsOf_read room h, List.flatMap_cons]
    dsimp only
    set rest := fgets (room + 1) file with hrest
    by_cases hempty : trimNewline (cString rest.1) = []
    · have hskip : keptLine rest.1 = [] := if_pos hempty
      rw [if_pos hempty, hskip, List.nil_append]
      exact loadLines_reads room maxCount store full hroom rest.2
    · have hkeep : keptLine rest.1 = [trimNewline (cString rest.1)] := if_neg hempty
      rw [if_neg hempty, hkeep, List.singleton_append, List.map_cons]
      by_cases hfull : maxCount ≤ out.length
      · rw [if_pos hfull, if_neg]
        rw [List.length_append, List.length_cons]
        omega
      · have hnext : (out ++ [store (trimNewline (cString rest.1))]).length ≤ maxCount := by
          rw [List.length_append, List.length_singleton]
          omega
        rw [if_neg hfull, loadLines_reads room maxCount store full hnext rest.2]
        simp only [List.length_append, List.length_cons, List.append_assoc, List.singleton_append]
termination_by file.length
decreasing_by all_goals exact fgets_shorter h

theorem loadLines_ok_iff {room maxCount : ℕ} {store : List Char → List Char} {full file : List Char}
    {lines : List (List Char)} : loadLines room maxCount store full [] file = .ok lines ↔
      (listedLines room file).length ≤ maxCount ∧ (listedLines room file).map store = lines := by
  have hlist : (readsOf room file).flatMap keptLine = listedLines room file :=
    flatMap_readsOf_file newlineBlind_keptLine room file
  rw [loadLines_reads room maxCount store full (Nat.zero_le _), List.nil_append, List.nil_append,
    hlist]
  split_ifs with hcount
  · simp [hcount]
  · simp [hcount]

structure TextLine (size : ℕ) (line : List Char) : Prop where
  ne_nil : line ≠ []
  length_le : line.length ≤ size
  no_newline : '\n' ∉ line
  no_nul : '\x00' ∉ line

theorem mem_keptLine {line buffer : List Char} :
    line ∈ keptLine buffer ↔ line ≠ [] ∧ trimNewline (cString buffer) = line := by
  simp only [keptLine]
  split_ifs with hempty
  · simp only [List.not_mem_nil, false_iff, hempty]
    rintro ⟨hne, rfl⟩
    exact hne rfl
  · rw [List.mem_singleton]
    constructor
    · rintro rfl
      exact ⟨hempty, rfl⟩
    · rintro ⟨-, rfl⟩
      rfl

theorem no_newline_fileLines {file line : List Char} (h : line ∈ fileLines file) : '\n' ∉ line := by
  obtain ⟨hlines, htail⟩ := sep_notMem_cutLines '\n' file
  rcases List.mem_append.mp h with hline | hline
  · exact hlines line hline
  · rwa [List.mem_singleton.mp hline]

theorem textLine_of_mem_listedLines {room : ℕ} {file line : List Char}
    (h : line ∈ listedLines room file) : TextLine (room + 1) line ∧ trimNewline line = line := by
  obtain ⟨whole, hwhole, hline⟩ := List.mem_flatMap.mp h
  obtain ⟨block, hblock, hkept⟩ := List.mem_flatMap.mp hline
  obtain ⟨hne, rfl⟩ := mem_keptLine.mp hkept
  obtain ⟨hlen, hsub⟩ := blocks_fit room whole block hblock
  have hkept : trimNewline (cString block) <+: cString block := List.rdropWhile_prefix _ _
  have hcut : cString block <+: block := List.takeWhile_prefix _
  refine ⟨⟨hne, ?_, ?_, ?_⟩, List.rdropWhile_idempotent _ _⟩
  · exact ((hkept.trans hcut).length_le).trans hlen
  · intro hmem
    exact no_newline_fileLines hwhole (hsub (hcut.subset (hkept.subset hmem)))
  · intro hmem
    simpa using List.mem_takeWhile_imp (hkept.subset hmem)

/-! ### What is accepted -/

theorem take_of_textLine {size : ℕ} {lines : List (List Char)}
    (h : ∀ line ∈ lines, TextLine size line) : lines.map (·.take size) = lines := by
  apply (List.map_congr_left _).trans (List.map_id _)
  intro line hline
  exact List.take_of_length_le (h line hline).length_le

theorem loadFilePaths_ok_iff {file : List Char} {files : List (List Char)} :
    loadFilePaths [] file = .ok files ↔
      (listedLines 510 file).length ≤ maxFiles ∧ listedLines 510 file = files := by
  rw [loadFilePaths, loadLines_ok_iff,
    take_of_textLine (fun line hline => (textLine_of_mem_listedLines hline).1)]

theorem loadSourcesSimple_ok_iff {file : List Char} {sources : List (List Char)} :
    loadSourcesSimple [] file = .ok sources ↔ (listedLines 126 file).length ≤ maxSources ∧
      (listedLines 126 file).map (·.take 63) = sources := loadLines_ok_iff

theorem loadFrom_ok_iff {fopen : List Char → Option (List Char)} {path failure : List Char}
    {load : List (List Char) → List Char → Except Exit (List (List Char))}
    {lines : List (List Char)} : loadFrom fopen path failure load = .ok lines ↔
      ∃ file, fopen path = some file ∧ load [] file = .ok lines := by
  rw [loadFrom]
  cases fopen path with
  | none => simp
  | some file => simp

theorem except_bind_ok_iff {ε α β : Type*} {x : Except ε α} {f : α → Except ε β} {b : β} :
    x.bind f = .ok b ↔ ∃ a, x = .ok a ∧ f a = .ok b := by
  cases x with
  | error e => simp [Except.bind]
  | ok a => simp [Except.bind]

/-- What `parse_args` reads: the arguments, and the lines of the two files. -/
structure ReadFrom (fopen : List Char → Option (List Char)) (args : List (Char × List Char))
    (opts : ProgramOptions) (config filter : List Char) : Prop where
  understood : Understood [] args
  given : ({ timeoutSec := 10 } : ProgramOptions).given args =
    { opts with files := [], prioritySources := [] }
  complete : ¬ opts.Incomplete
  config_opens : fopen opts.configFile = some config
  filter_opens : fopen opts.filterFile = some filter
  files : opts.files = listedLines 510 config
  files_count : opts.files.length ≤ maxFiles
  files_ne : opts.files ≠ []
  sources : opts.prioritySources = (listedLines 126 filter).map (·.take 63)
  sources_count : opts.prioritySources.length ≤ maxSources

theorem parseArgs_ok_iff {fopen : List Char → Option (List Char)} {args : List (Char × List Char)}
    {opts : ProgramOptions} :
    parseArgs fopen args = .ok opts ↔ ∃ config filter, ReadFrom fopen args opts config filter := by
  have happly := fun read => @applyOptions_ok_iff { timeoutSec := 10 } (Nat.zero_le _) args read
  simp only [parseArgs, except_bind_ok_iff, happly]
  constructor
  · rintro ⟨read, ⟨hunderstood, hgiven⟩, hrest⟩
    split_ifs at hrest with hincomplete
    simp only [except_bind_ok_iff, loadFrom_ok_iff, loadFilePaths_ok_iff,
      loadSourcesSimple_ok_iff] at hrest
    obtain ⟨files, ⟨config, hopen, hcount, rfl⟩, sources, ⟨filter, hopen', hcount', rfl⟩, hlast⟩ :=
      hrest
    split_ifs at hlast with hempty
    obtain rfl := Except.ok.inj hlast
    have hread : { read with files := [], prioritySources := [] } = read := by
      rw [← hgiven]
      rfl
    exact ⟨config, filter, hunderstood, hgiven.trans hread.symm, hincomplete, hopen, hopen', rfl,
      hcount, hempty, rfl, by rwa [List.length_map]⟩
  · rintro ⟨config, filter, h⟩
    have hfiles := h.files
    have hsources := h.sources
    have hcount := h.sources_count
    rw [hsources, List.length_map] at hcount
    have hcomplete :
        ¬ ({ opts with files := [], prioritySources := [] } : ProgramOptions).Incomplete :=
      h.complete
    refine ⟨_, ⟨h.understood, h.given⟩, ?_⟩
    rw [if_neg hcomplete]
    simp only [except_bind_ok_iff, loadFrom_ok_iff, loadFilePaths_ok_iff, loadSourcesSimple_ok_iff]
    refine ⟨opts.files, ⟨config, h.config_opens, hfiles ▸ h.files_count, hfiles.symm⟩,
      opts.prioritySources, ⟨filter, h.filter_opens, hcount, hsources.symm⟩, ?_⟩
    rw [if_neg h.files_ne]

/-! ### The bounds of the options -/

structure Keyword (text : List Char) : Prop where
  ne_nil : text ≠ []
  length_le : text.length ≤ 63
  no_comma : ',' ∉ text

structure ProgramOptions.Bounded (opts : ProgramOptions) : Prop where
  readerThreads : 1 ≤ opts.readerThreads ∧ opts.readerThreads ≤ intMax
  workerThreads : 1 ≤ opts.workerThreads ∧ opts.workerThreads ≤ maxWorkers
  capacityA : 4 ≤ opts.capacityA ∧ opts.capacityA ≤ intMax
  capacityB : 4 ≤ opts.capacityB ∧ opts.capacityB ≤ intMax
  capacityD : 2 ≤ opts.capacityD ∧ opts.capacityD ≤ intMax
  timeoutSec : 1 ≤ opts.timeoutSec ∧ opts.timeoutSec ≤ intMax
  configFile : opts.configFile ≠ [] ∧ opts.configFile.length ≤ 511
  filterFile : opts.filterFile ≠ [] ∧ opts.filterFile.length ≤ 511
  outputFile : opts.outputFile ≠ [] ∧ opts.outputFile.length ≤ 511
  binaryFile : opts.binaryFile ≠ [] ∧ opts.binaryFile.length ≤ 511
  keywords_ne : opts.keywords ≠ []
  keywords_count : opts.keywords.length ≤ maxKeywords
  keywords : ∀ text ∈ opts.keywords, Keyword text
  files_ne : opts.files ≠ []
  files_count : opts.files.length ≤ maxFiles
  files : ∀ line ∈ opts.files, TextLine 511 line ∧ trimNewline line = line
  sources_count : opts.prioritySources.length ≤ maxSources
  sources : ∀ line ∈ opts.prioritySources, TextLine 63 line

theorem sep_notMem_splitOn {α : Type*} [DecidableEq α] (sep : α) (xs : List α) :
    ∀ piece ∈ xs.splitOn sep, sep ∉ piece := by
  induction xs with
  | nil => simp
  | cons x xs ih =>
    rw [List.splitOn_cons_eq_if_modifyHead]
    split_ifs with hx
    · simpa using ih
    · have hne : ¬ sep = x := fun heq => hx (beq_iff_eq.mpr heq.symm)
      obtain ⟨piece, pieces, hsplit⟩ := List.exists_cons_of_ne_nil (List.splitOn_ne_nil sep xs)
      rw [hsplit] at ih ⊢
      simpa [hne] using ih

theorem keyword_of_mem_keywordsOf {arg : Char × List Char} {text : List Char}
    (h : text ∈ keywordsOf arg) : Keyword text := by
  unfold keywordsOf at h
  split_ifs at h
  · obtain ⟨token, htoken, rfl⟩ := List.mem_map.mp h
    obtain ⟨hpiece, hne⟩ := List.mem_filter.mp htoken
    refine ⟨by simpa using hne, List.length_take_le _ _, ?_⟩
    intro hcomma
    exact sep_notMem_splitOn ',' _ token hpiece (List.mem_of_mem_take hcomma)
  · cases h

theorem bounded_of_parseArgs {fopen : List Char → Option (List Char)}
    {args : List (Char × List Char)} {opts : ProgramOptions} (h : parseArgs fopen args = .ok opts) :
    opts.Bounded := by
  obtain ⟨config, filter, h⟩ := parseArgs_ok_iff.mp h
  have hcomplete := h.complete
  simp only [ProgramOptions.Incomplete, not_or, not_lt] at hcomplete
  obtain ⟨hconfig, hfilter, hkeywords, hreader, hworker, hworkerMax, hcapA, hcapB, hcapD, htimeout,
    houtput, hbinary⟩ := hcomplete
  have hnumber : ∀ letter (value : ℤ), value ≤ intMax →
      lastGiven letter atoi value args ≤ intMax := fun letter value hvalue =>
    lastGiven_induction (P := fun x => x ≤ intMax) atoi_le hvalue args
  have hpath : ∀ letter, (lastGiven letter (·.take 511) [] args).length ≤ 511 := fun letter =>
    lastGiven_induction (P := fun x : List Char => x.length ≤ 511)
      (fun text => List.length_take_le 511 text) (Nat.zero_le _) args
  obtain ⟨eReader, eWorker, eA, eB, eD, eTimeout, eConfig, eFilter, eOutput, eBinary,
      eKeywords, -⟩ :=
    ProgramOptions.mk.inj h.given
  rw [List.nil_append] at eKeywords
  have hcount := h.understood.count
  rw [List.nil_append, eKeywords] at hcount
  refine ⟨⟨hreader, eReader ▸ hnumber _ _ (by decide)⟩, ⟨hworker, hworkerMax⟩,
    ⟨hcapA, eA ▸ hnumber _ _ (by decide)⟩, ⟨hcapB, eB ▸ hnumber _ _ (by decide)⟩,
    ⟨hcapD, eD ▸ hnumber _ _ (by decide)⟩, ⟨htimeout, eTimeout ▸ hnumber _ _ (by decide)⟩,
    ⟨hconfig, eConfig ▸ hpath _⟩, ⟨hfilter, eFilter ▸ hpath _⟩, ⟨houtput, eOutput ▸ hpath _⟩,
    ⟨hbinary, eBinary ▸ hpath _⟩, ?_, hcount, ?_, h.files_ne, h.files_count, ?_, h.sources_count,
    ?_⟩
  · intro hnone
    exact hkeywords (by rw [hnone]; rfl)
  · intro text htext
    rw [← eKeywords] at htext
    obtain ⟨arg, -, harg⟩ := List.mem_flatMap.mp htext
    exact keyword_of_mem_keywordsOf harg
  · intro line hline
    rw [h.files] at hline
    exact textLine_of_mem_listedLines hline
  · intro line hline
    rw [h.sources] at hline
    obtain ⟨whole, hwhole, rfl⟩ := List.mem_map.mp hline
    have htext := (textLine_of_mem_listedLines hwhole).1
    refine ⟨by simpa using htext.ne_nil, List.length_take_le _ _, ?_, ?_⟩
    · exact fun hmem => htext.no_newline (List.mem_of_mem_take hmem)
    · exact fun hmem => htext.no_nul (List.mem_of_mem_take hmem)

/-! ### Options that are written out -/

def ProgramOptions.arguments (opts : ProgramOptions) : List (Char × List Char) :=
  [('c', opts.configFile), ('f', opts.filterFile), ('k', [','].intercalate opts.keywords),
    ('t', decimal opts.readerThreads), ('w', decimal opts.workerThreads),
    ('a', decimal opts.capacityA), ('b', decimal opts.capacityB), ('d', decimal opts.capacityD),
    ('T', decimal opts.timeoutSec), ('o', opts.outputFile), ('O', opts.binaryFile)]

structure ProgramOptions.OnDisk (opts : ProgramOptions)
    (fopen : List Char → Option (List Char)) : Prop where
  config : fopen opts.configFile = some (joinLines '\n' opts.files [])
  filter : fopen opts.filterFile = some (joinLines '\n' opts.prioritySources [])

theorem length_intercalate {texts : List (List Char)} (hne : texts ≠ [])
    (h : ∀ text ∈ texts, text.length ≤ 63) :
    ([','].intercalate texts).length + 1 ≤ 64 * texts.length := by
  induction texts with
  | nil => exact absurd rfl hne
  | cons text texts ih =>
    have htext := h text List.mem_cons_self
    cases texts with
    | nil =>
      rw [List.intercalate_singleton, List.length_singleton]
      omega
    | cons next texts =>
      have hrest := ih (List.cons_ne_nil _ _) fun t ht => h t (List.mem_cons_of_mem _ ht)
      rw [List.intercalate_cons_cons]
      simp only [List.length_append, List.length_cons, List.length_nil] at hrest ⊢
      omega

theorem keywordsOf_intercalate {opts : ProgramOptions} (h : opts.Bounded) :
    keywordsOf ('k', [','].intercalate opts.keywords) = opts.keywords := by
  have hlen := length_intercalate h.keywords_ne fun text ht => (h.keywords text ht).length_le
  have hcount := h.keywords_count
  simp only [maxKeywords] at hcount
  have hsplit : ([','].intercalate opts.keywords).splitOn ',' = opts.keywords :=
    List.splitOn_intercalate ',' (fun text ht => (h.keywords text ht).no_comma) h.keywords_ne
  have hpieces : opts.keywords.filter (· != []) = opts.keywords :=
    List.filter_eq_self.mpr fun text ht => by simpa using (h.keywords text ht).ne_nil
  have hfits : ([','].intercalate opts.keywords).take 511 = [','].intercalate opts.keywords :=
    List.take_of_length_le (by omega)
  rw [keywordsOf, if_pos rfl, hfits, commaTokens, hsplit, hpieces]
  apply (List.map_congr_left _).trans (List.map_id _)
  intro text ht
  exact List.take_of_length_le (h.keywords text ht).length_le

theorem keptLine_textLine {size : ℕ} {line : List Char} (h : TextLine size line) :
    keptLine line = if trimNewline line = [] then [] else [trimNewline line] := by
  rw [keptLine, cString_of_notMem h.no_nul]

theorem listedLines_joinLines {room : ℕ} {lines : List (List Char)}
    (h : ∀ line ∈ lines, TextLine (room + 1) line) :
    listedLines room (joinLines '\n' lines []) = lines.flatMap keptLine := by
  have hempty : keptLine [] = [] := newlineBlind_keptLine.nil
  have hshort : ∀ line ∈ lines ++ [[]], line.length ≤ room + 1 := by
    intro line hline
    rcases List.mem_append.mp hline with hmem | hmem
    · exact (h line hmem).length_le
    · simp [List.mem_singleton.mp hmem]
  rw [listedLines, fileLines_joinLines fun line hline => (h line hline).no_newline,
    flatMap_blocks_short room hempty hshort, List.flatMap_append, List.flatMap_singleton, hempty,
    List.append_nil]

theorem flatMap_keptLine {size : ℕ} {lines : List (List Char)}
    (h : ∀ line ∈ lines, TextLine size line ∧ trimNewline line = line) :
    lines.flatMap keptLine = lines := by
  induction lines with
  | nil => rfl
  | cons line lines ih =>
    obtain ⟨htext, htrim⟩ := h line List.mem_cons_self
    rw [List.flatMap_cons, keptLine_textLine htext, htrim, if_neg htext.ne_nil,
      ih fun l hl => h l (List.mem_cons_of_mem _ hl)]
    rfl

theorem mem_arguments_keywords {opts : ProgramOptions} {arg : Char × List Char}
    (h : arg ∈ opts.arguments) (hk : arg.1 = 'k') :
    arg = ('k', [','].intercalate opts.keywords) := by
  simp only [ProgramOptions.arguments, List.mem_cons, List.not_mem_nil, or_false] at h
  rcases h with rfl | rfl | rfl | rfl | rfl | rfl | rfl | rfl | rfl | rfl | rfl
  all_goals first | rfl | simp at hk

theorem flatMap_arguments {opts : ProgramOptions} (h : opts.Bounded) :
    opts.arguments.flatMap keywordsOf = opts.keywords := by
  have hnone : ∀ letter optarg, letter ≠ 'k' → keywordsOf (letter, optarg) = [] :=
    fun _ _ hne => if_neg hne
  simp only [ProgramOptions.arguments, List.flatMap_cons, List.flatMap_nil,
    keywordsOf_intercalate h]
  simp [hnone]

theorem understood_arguments {opts : ProgramOptions} (h : opts.Bounded) :
    Understood [] opts.arguments := by
  refine ⟨?_, ?_, ?_⟩
  · intro arg harg
    have hletters : opts.arguments.map Prod.fst = optionLetters := rfl
    rw [← hletters]
    exact List.mem_map_of_mem harg
  · intro before arg after hsplit hk
    have harg := mem_arguments_keywords (by rw [hsplit]; simp) hk
    rw [harg, List.flatMap_append, List.flatMap_singleton, keywordsOf_intercalate h]
    simp [h.keywords_ne]
  · rw [flatMap_arguments h]
    exact h.keywords_count

theorem given_arguments {opts : ProgramOptions} (h : opts.Bounded) :
    ({ timeoutSec := 10 } : ProgramOptions).given opts.arguments =
      { opts with files := [], prioritySources := [] } := by
  have hnumber : ∀ {x : ℤ}, 1 ≤ x ∧ x ≤ intMax → atoi (decimal x) = x := fun hx =>
    atoi_decimal (by omega) hx.2
  have hpath : ∀ {path : List Char}, path ≠ [] ∧ path.length ≤ 511 → path.take 511 = path :=
    fun hlen => List.take_of_length_le hlen.2
  have hA := h.capacityA
  have hB := h.capacityB
  have hD := h.capacityD
  rw [ProgramOptions.given, flatMap_arguments h]
  congr 1
  · exact hnumber h.readerThreads
  · exact hnumber ⟨h.workerThreads.1, h.workerThreads.2.trans (by decide)⟩
  · exact hnumber ⟨by omega, hA.2⟩
  · exact hnumber ⟨by omega, hB.2⟩
  · exact hnumber ⟨by omega, hD.2⟩
  · exact hnumber h.timeoutSec
  · exact hpath h.configFile
  · exact hpath h.filterFile
  · exact hpath h.outputFile
  · exact hpath h.binaryFile

theorem not_incomplete_of_bounded {opts : ProgramOptions} (h : opts.Bounded) :
    ¬ opts.Incomplete := by
  have hkeywords : opts.keywords.length ≠ 0 := fun hnone =>
    h.keywords_ne (List.length_eq_zero_iff.mp hnone)
  simp only [ProgramOptions.Incomplete, not_or, not_lt]
  exact ⟨h.configFile.1, h.filterFile.1, hkeywords, h.readerThreads.1, h.workerThreads.1,
    h.workerThreads.2, h.capacityA.1, h.capacityB.1, h.capacityD.1, h.timeoutSec.1, h.outputFile.1,
    h.binaryFile.1⟩

/-- Options that are written out are read back unless a source ends like a line. -/
theorem parseArgs_arguments_iff {fopen : List Char → Option (List Char)} {opts : ProgramOptions}
    (h : opts.Bounded) (hdisk : opts.OnDisk fopen) :
    parseArgs fopen opts.arguments = .ok opts ↔
      ∀ line ∈ opts.prioritySources, trimNewline line = line := by
  have hwide : ∀ line ∈ opts.prioritySources, TextLine (126 + 1) line := by
    intro line hline
    obtain ⟨hne, hlen, hnewline, hnul⟩ := h.sources line hline
    exact ⟨hne, by omega, hnewline, hnul⟩
  have hlisted : listedLines 126 (joinLines '\n' opts.prioritySources []) =
      opts.prioritySources.flatMap keptLine := listedLines_joinLines hwide
  have hfiles : listedLines 510 (joinLines '\n' opts.files []) = opts.files := by
    rw [listedLines_joinLines fun line hline => (h.files line hline).1, flatMap_keptLine h.files]
  rw [parseArgs_ok_iff]
  constructor
  · rintro ⟨config, filter, hread⟩ line hline
    obtain rfl := Option.some.inj (hdisk.filter.symm.trans hread.filter_opens)
    have hsources := hread.sources
    rw [hlisted] at hsources
    rw [hsources] at hline
    obtain ⟨kept, hkept, rfl⟩ := List.mem_map.mp hline
    obtain ⟨source, hsource, hmem⟩ := List.mem_flatMap.mp hkept
    obtain ⟨-, rfl⟩ := mem_keptLine.mp hmem
    rw [cString_of_notMem (h.sources source hsource).no_nul]
    have hlen : (trimNewline source).length ≤ 63 :=
      (List.rdropWhile_prefix _ _).length_le.trans (h.sources source hsource).length_le
    rw [List.take_of_length_le hlen]
    exact List.rdropWhile_idempotent _ _
  · intro htrim
    have hback : opts.prioritySources.flatMap keptLine = opts.prioritySources :=
      flatMap_keptLine fun line hline => ⟨h.sources line hline, htrim line hline⟩
    refine ⟨_, _, understood_arguments h, given_arguments h, not_incomplete_of_bounded h,
      hdisk.config, hdisk.filter, hfiles.symm, h.files_count, h.files_ne, ?_, h.sources_count⟩
    rw [hlisted, hback, take_of_textLine h.sources]

/-- The options that `parse_args` comes back with are those that the arguments and
the lines of the two files give; they are in their bounds; and all options in
bounds are read back as they are written out, unless a source ends like a line. -/
theorem parseArgs_options (fopen : List Char → Option (List Char)) (args : List (Char × List Char))
    (opts : ProgramOptions) :
    (parseArgs fopen args = .ok opts ↔ ∃ config filter, ReadFrom fopen args opts config filter) ∧
      (parseArgs fopen args = .ok opts → opts.Bounded) ∧
      (opts.Bounded → opts.OnDisk fopen → (parseArgs fopen opts.arguments = .ok opts ↔
        ∀ line ∈ opts.prioritySources, trimNewline line = line)) :=
  ⟨parseArgs_ok_iff, bounded_of_parseArgs, parseArgs_arguments_iff⟩

/-! ### One log file -/

def watchedOptions : ProgramOptions where
  readerThreads := 1
  workerThreads := 1
  capacityA := 8
  capacityB := 4
  capacityD := 2
  timeoutSec := 10
  configFile := ['c']
  filterFile := ['f']
  outputFile := ['o']
  binaryFile := ['b']
  keywords := [['x']]
  files := [['l']]
  prioritySources := [['d', 'b']]

theorem bounded_watchedOptions : watchedOptions.Bounded := by
  constructor
  case keywords =>
    intro text htext
    rw [List.mem_singleton.mp htext]
    constructor <;> decide
  case files =>
    intro line hline
    rw [List.mem_singleton.mp hline]
    exact ⟨by constructor <;> decide, by decide⟩
  case sources =>
    intro line hline
    rw [List.mem_singleton.mp hline]
    constructor <;> decide
  all_goals decide

def watchedDisk (path : List Char) : Option (List Char) :=
  if path = ['c'] then some ['l', '\n']
  else if path = ['f'] then some ['d', 'b', '\n']
  else if path = ['l'] then some watchedText
  else none

theorem onDisk_watchedOptions : watchedOptions.OnDisk watchedDisk := ⟨rfl, rfl⟩

theorem trimNewline_watchedOptions :
    ∀ line ∈ watchedOptions.prioritySources, trimNewline line = line := by decide

theorem options_of_watchedDisk :
    parseArgs watchedDisk watchedOptions.arguments = .ok watchedOptions :=
  ((parseArgs_options watchedDisk [] watchedOptions).2.2 bounded_watchedOptions
    onDisk_watchedOptions).mpr trimNewline_watchedOptions

end SysProg.HW4

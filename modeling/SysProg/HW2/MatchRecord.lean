import SysProg.Lib.FileReads
import SysProg.Lib.ScanFormat

/-!
# From a match to its line and back

A worker prints a match with `%s`; the parent reads the file through a buffer of
512 bytes and scans with `%4095s`, which ends at white space. A record survives
when its path has none and the line fits up to the last digit of the size.
Bytes are characters; `fgets` and the character classes are those of the C
locale.
-/

namespace SysProg.HW2
open SysProg.Lib

def maxMatches : ℕ := 4096

structure MatchEntry where
  path : List Char
  size : ℤ
  workerPid : ℤ
  deriving DecidableEq

/-- `"[Worker PID:%d] MATCH: %4095s (%ld bytes)"` -/
def matchFormat : List Directive :=
  literal "[Worker".toList ++ .space :: literal "PID:".toList ++ .int :: literal "]".toList ++
    .space :: literal "MATCH:".toList ++ .space :: .string 4095 :: .space :: .text '(' ::
    .long :: .space :: literal "bytes)".toList

def parseMatchLine (line : List Char) : Option MatchEntry :=
  match sscanf matchFormat line with
  | [.number pid, .string path, .number size] => some ⟨path.take 4095, size, pid⟩
  | _ => none

/-! ### Writing and reading a result file -/

/-- What a worker knows of a match: a process id, a C string that fits a path buffer and
the size of a file. -/
structure MatchRecord where
  pid : ℕ
  path : List Char
  size : ℕ
  pid_lt : pid < 2 ^ 31
  path_nul : '\x00' ∉ path
  path_lt : path.length < 4096
  size_lt : size < 2 ^ 63

namespace MatchRecord

def entry (r : MatchRecord) : MatchEntry := ⟨r.path, r.size, r.pid⟩

/-- `"[Worker PID:%d] MATCH: "`, split at its spaces. -/
def header (r : MatchRecord) : List Char :=
  "[Worker".toList ++ ' ' :: "PID:".toList ++ decimal r.pid ++ "]".toList ++
    ' ' :: "MATCH:".toList ++ [' ']

def lead (r : MatchRecord) : List Char := r.header ++ (r.path ++ ' ' :: '(' :: decimal r.size)

def body (r : MatchRecord) : List Char := r.lead ++ ' ' :: "bytes)".toList

/-- `"[Worker PID:%d] MATCH: %s (%ld bytes)\n"` -/
def line (r : MatchRecord) : List Char := r.body ++ ['\n']

end MatchRecord

/-- `while (fgets(line, sizeof(line), fp))` with its body. -/
def readMatchFile (entries : List MatchEntry) (file : List Char) : List MatchEntry :=
  if h : file = [] then entries
  else
    let r := fgets 511 file
    have : r.2.length < file.length := fgets_shorter h
    match parseMatchLine (chomp r.1) with
    | some e => readMatchFile (if entries.length < maxMatches then entries ++ [e] else entries) r.2
    | none => readMatchFile entries r.2
termination_by file.length

def readMatchFiles (files : List (List Char)) : List MatchEntry := files.foldl readMatchFile []

/-! ### The format -/

def pathFormat : List Directive :=
  .string 4095 :: .space :: .text '(' :: .long :: .space :: literal "bytes)".toList

theorem matchFormat_eq : matchFormat = literal "[Worker".toList ++ .space ::
    (literal "PID:".toList ++ .int :: (literal "]".toList ++ .space ::
      (literal "MATCH:".toList ++ .space :: pathFormat))) := by
  simp only [matchFormat, pathFormat, List.append_assoc, List.cons_append]

theorem header_eq (r : MatchRecord) (x : List Char) : r.header ++ x = "[Worker".toList ++ ' ' ::
    ("PID:".toList ++ (decimal r.pid ++ ("]".toList ++ ' ' :: ("MATCH:".toList ++ ' ' :: x)))) := by
  have hshape : ∀ a b c d e : List Char, a ++ ' ' :: b ++ c ++ d ++ ' ' :: e ++ [' '] ++ x =
      a ++ ' ' :: (b ++ (c ++ (d ++ ' ' :: (e ++ ' ' :: x)))) := by simp
  exact hshape _ _ _ _ _

theorem sscanf_header (r : MatchRecord) {x : List Char} (hx : x.dropWhile isSpace = x) :
    sscanf matchFormat (r.header ++ x) = .number r.pid :: sscanf pathFormat x := by
  obtain ⟨hne, hdigits, hvalue⟩ := decimal_digits r.pid
  have hpid : scanNumber (decimal r.pid ++ ("]".toList ++ ' ' :: ("MATCH:".toList ++ ' ' :: x))) =
      some ((r.pid : ℤ), "]".toList ++ ' ' :: ("MATCH:".toList ++ ' ' :: x)) := by
    rw [scanNumber_digits hne hdigits rfl, hvalue, clampLong_of_lt (by have := r.pid_lt; omega)]
  rw [header_eq, matchFormat_eq, sscanf_literal, sscanf_space _ rfl, sscanf_literal, sscanf, hpid]
  simp only
  rw [sscanf_literal, sscanf_space _ rfl, sscanf_literal, sscanf_space _ hx, int32_of_lt r.pid_lt]

theorem sscanf_path (r : MatchRecord) {t y : List Char} (hne : t ≠ [])
    (ht : ∀ c ∈ t, isSpace c = false) (hlen : t.length ≤ 4095)
    (hy : y.takeWhile (fun c => !isSpace c) = []) :
    sscanf matchFormat (r.header ++ (t ++ y)) = .number r.pid :: .string t ::
      sscanf (.space :: .text '(' :: .long :: .space :: literal "bytes)".toList) y := by
  rw [sscanf_header r (dropWhile_isSpace hne ht), pathFormat, sscanf_string hne ht hlen hy]

theorem sscanf_size {ds x : List Char} (hne : ds ≠ []) (hds : ∀ c ∈ ds, c.isDigit = true)
    (hx : x.takeWhile Char.isDigit = []) :
    sscanf (.space :: .text '(' :: .long :: .space :: literal "bytes)".toList)
        (' ' :: '(' :: (ds ++ x)) =
      [.number (clampLong (Nat.ofDigitChars 10 ds 0 : ℕ))] := by
  rw [sscanf_space _ rfl, sscanf, if_pos rfl, sscanf, scanNumber_digits hne hds hx]
  simp only [sscanf]
  rw [sscanf_no_assignment]
  intro d hd
  obtain ⟨c, -, rfl⟩ := List.mem_map.mp hd
  exact .inl ⟨c, rfl⟩

/-- A record whose line can be scanned: a path that is one token, and no digit of the size
behind the reach of the buffer. -/
structure MatchRecord.Survives (r : MatchRecord) : Prop where
  nonempty : r.path ≠ []
  noSpace : ∀ c ∈ r.path, isSpace c = false
  fits : r.lead.length ≤ 511

theorem parse_lead {r : MatchRecord} (hne : r.path ≠ []) (hpath : ∀ c ∈ r.path, isSpace c = false)
    {x : List Char} (hx : x.takeWhile Char.isDigit = []) :
    parseMatchLine (r.lead ++ x) = some r.entry := by
  obtain ⟨hdne, hdigits, hvalue⟩ := decimal_digits r.size
  have hline : r.lead ++ x = r.header ++ (r.path ++ ' ' :: '(' :: (decimal r.size ++ x)) := by
    simp [MatchRecord.lead]
  have hlen : r.path.length ≤ 4095 := Nat.le_of_lt_succ r.path_lt
  rw [parseMatchLine, hline, sscanf_path r hne hpath hlen rfl, sscanf_size hdne hdigits hx, hvalue,
    clampLong_of_lt r.size_lt]
  simp only [List.take_of_length_le hlen]
  rfl

/-! ### Lines of a result file -/

def parsedLines (file : List Char) : List MatchEntry :=
  (readsOf 510 file).flatMap fun buffer => (parseMatchLine (chomp buffer)).toList

theorem parsedLines_nil : parsedLines [] = [] := by
  rw [parsedLines, readsOf_nil, List.flatMap_nil]

theorem parsedLines_read {file : List Char} (h : file ≠ []) :
    parsedLines file =
      (parseMatchLine (chomp (fgets 511 file).1)).toList ++ parsedLines (fgets 511 file).2 := by
  rw [parsedLines, readsOf_read 510 h, List.flatMap_cons]
  rfl

theorem readMatchFile_eq {entries : List MatchEntry} (hroom : entries.length ≤ maxMatches)
    (file : List Char) :
    readMatchFile entries file = (entries ++ parsedLines file).take maxMatches := by
  by_cases h : file = []
  · subst h
    rw [readMatchFile, parsedLines_nil, List.append_nil, List.take_of_length_le hroom]
    rfl
  · rw [readMatchFile, dif_neg h, parsedLines_read h]
    dsimp only
    split
    case h_1 e he =>
      have hnext : (if entries.length < maxMatches then entries ++ [e] else entries).length ≤
          maxMatches := by
        split_ifs with hless
        · rw [List.length_append]
          exact hless
        · exact hroom
      rw [readMatchFile_eq hnext (fgets 511 file).2, he]
      split_ifs with hless
      · simp
      · have hfull : entries.length = maxMatches := by omega
        rw [List.take_append_of_le_length hfull.ge, List.take_append_of_le_length hfull.ge]
    case h_2 hnone =>
      rw [hnone]
      exact readMatchFile_eq hroom (fgets 511 file).2
termination_by file.length
decreasing_by all_goals exact fgets_shorter h

theorem take_take_append {α : Type*} (n : ℕ) (l m : List α) :
    (l.take n ++ m).take n = (l ++ m).take n := by
  rw [List.take_append, List.take_append, List.take_take, min_self, List.length_take]
  congr 2
  omega

theorem notMem_body (r : MatchRecord) {c : Char} (hdigit : c.isDigit = false)
    (htext : c ∉ "[Worker PID:] MATCH: ( bytes)".toList) (hpath : c ∉ r.path) : c ∉ r.body := by
  have hdecimal : ∀ n : ℕ, c ∉ decimal n := by
    intro n hmem
    rw [(decimal_digits n).2.1 c hmem] at hdigit
    cases hdigit
  have hpiece : ∀ {piece : List Char},
      piece.all (fun x => "[Worker PID:] MATCH: ( bytes)".toList.contains x) = true → c ∉ piece :=
    fun hsub hmem => htext (List.contains_iff_mem.mp (List.all_eq_true.mp hsub c hmem))
  have hspace : c ≠ ' ' := by
    rintro rfl
    exact htext (by decide)
  have hparen : c ≠ '(' := by
    rintro rfl
    exact htext (by decide)
  have hshape : ∀ {a b d e p q g : List Char}, c ∉ a → c ∉ b → c ∉ d → c ∉ e → c ∉ p → c ∉ q →
      c ∉ g → c ∉ a ++ ' ' :: b ++ p ++ d ++ ' ' :: e ++ [' '] ++ (r.path ++ ' ' :: '(' :: q) ++
        ' ' :: g := by
    intro a b d e p q g ha hb hd he hp hq hg
    simp [ha, hb, hd, he, hp, hq, hg, hspace, hparen, hpath]
  exact hshape (hpiece (by decide)) (hpiece (by decide)) (hpiece (by decide)) (hpiece (by decide))
    (hdecimal _) (hdecimal _) (hpiece (by decide))

theorem nul_notMem_body (r : MatchRecord) : '\x00' ∉ r.body :=
  notMem_body r (by decide) (by decide) r.path_nul

theorem newline_notMem_body {r : MatchRecord} (h : ∀ c ∈ r.path, isSpace c = false) :
    '\n' ∉ r.body := by
  refine notMem_body r (by decide) (by decide) ?_
  intro hmem
  exact absurd (h _ hmem) (by decide)

theorem takeWhile_isDigit_cut (k : ℕ) :
    ((' ' :: "bytes)".toList).take k).takeWhile Char.isDigit = [] := by
  cases k with
  | zero => rfl
  | succ k =>
    rw [List.take_succ_cons, List.takeWhile_cons_of_neg (by decide)]

theorem parse_of_head {x : List Char} (h : ∀ c ∈ x, c ≠ '[') : parseMatchLine x = none := by
  obtain ⟨ds, hds⟩ : ∃ ds, matchFormat = .text '[' :: ds := ⟨_, rfl⟩
  cases x with
  | nil => rw [parseMatchLine, hds, sscanf]
  | cons c x => rw [parseMatchLine, hds, sscanf, if_neg (h c List.mem_cons_self)]

theorem parsedLines_line {r : MatchRecord} (h : r.Survives) (rest : List Char) :
    parsedLines (r.line ++ rest) = r.entry :: parsedLines rest := by
  have hnul := nul_notMem_body r
  have hnewline := newline_notMem_body h.noSpace
  have hne : r.line ++ rest ≠ [] := by simp [MatchRecord.line]
  rw [parsedLines_read hne]
  by_cases hshort : r.body.length < 511
  · rw [MatchRecord.line, fgets_line hnewline hshort rest]
    simp only
    rw [chomp_line hnul, MatchRecord.body, parse_lead h.nonempty h.noSpace rfl]
    rfl
  · -- the buffer is full before the newline, but holds every digit
    have hlong : 511 ≤ r.body.length := not_lt.mp hshort
    have hfirst : r.body.take 511 =
        r.lead ++ (' ' :: "bytes)".toList).take (511 - r.lead.length) := by
      rw [MatchRecord.body, List.take_append, List.take_of_length_le h.fits]
    have hsecond : r.body.drop 511 = (' ' :: "bytes)".toList).drop (511 - r.lead.length) := by
      rw [MatchRecord.body, List.drop_append, List.drop_eq_nil_of_le h.fits, List.nil_append]
    rw [MatchRecord.line, List.append_assoc, fgets_full hnewline hlong]
    simp only
    rw [chomp_tail (fun hmem => hnul (List.mem_of_mem_take hmem))
      (fun hmem => hnewline (List.mem_of_mem_take hmem)), hfirst,
      parse_lead h.nonempty h.noSpace (takeWhile_isDigit_cut _)]
    have htail : (r.body.drop 511).length < 511 := by
      rw [hsecond, List.length_drop]
      exact (Nat.sub_le _ _).trans_lt (by decide)
    have hread : fgets 511 (r.body.drop 511 ++ (['\n'] ++ rest)) =
        (r.body.drop 511 ++ ['\n'], rest) := by
      rw [← List.append_assoc]
      exact fgets_line (fun hmem => hnewline (List.mem_of_mem_drop hmem)) htail rest
    rw [parsedLines_read (by simp), hread]
    simp only
    rw [chomp_line (fun hmem => hnul (List.mem_of_mem_drop hmem)), parse_of_head]
    · rfl
    · intro c hc
      rw [hsecond] at hc
      have hmem := List.mem_of_mem_drop hc
      rintro rfl
      exact absurd hmem (by decide)

/-! ### Records that are lost -/

theorem parse_path {x : List Char} {e : MatchEntry} (h : parseMatchLine x = some e) :
    e.path ≠ [] ∧ (∀ c ∈ e.path, isSpace c = false) ∧ e.path.length ≤ x.length := by
  unfold parseMatchLine at h
  split at h
  case h_1 pid path size hscan =>
    have hmem : .string path ∈ sscanf matchFormat x := by
      rw [hscan]
      simp
    obtain ⟨hne, hspace, hlen⟩ := sscanf_token hmem
    cases h
    refine ⟨?_, ?_, (List.length_take_le' _ _).trans hlen⟩
    · simpa using hne
    · intro c hc
      exact hspace c (List.mem_of_mem_take hc)
  case h_2 => cases h

theorem parsedLines_path {file : List Char} {e : MatchEntry} (h : e ∈ parsedLines file) :
    e.path ≠ [] ∧ (∀ c ∈ e.path, isSpace c = false) ∧ e.path.length ≤ file.length := by
  by_cases hfile : file = []
  · rw [hfile, parsedLines_nil] at h
    cases h
  · have hsplit := congrArg List.length (fgets_append 511 file)
    rw [List.length_append] at hsplit
    rw [parsedLines_read hfile] at h
    rcases List.mem_append.mp h with hfirst | hlater
    · obtain ⟨hne, hspace, hlen⟩ := parse_path (Option.mem_toList.mp hfirst)
      have hchomp := chomp_length (fgets 511 file).1
      exact ⟨hne, hspace, by omega⟩
    · obtain ⟨hne, hspace, hlen⟩ := parsedLines_path hlater
      exact ⟨hne, hspace, by omega⟩
termination_by file.length
decreasing_by exact fgets_shorter hfile

theorem length_header (r : MatchRecord) : r.header.length ≤ 31 := by
  have hpid : (decimal r.pid).length ≤ 10 :=
    length_decimal (by decide) (r.pid_lt.trans (by norm_num))
  have hshape : ∀ a b c d e : List Char, (a ++ ' ' :: b ++ c ++ d ++ ' ' :: e ++ [' ']).length =
      a.length + b.length + c.length + d.length + e.length + 3 := by
    intros
    simp only [List.length_append, List.length_cons, List.length_nil]
    omega
  have hlen : r.header.length = 7 + 4 + (decimal r.pid).length + 1 + 6 + 3 := hshape _ _ _ _ _
  omega

theorem length_size (r : MatchRecord) : (decimal r.size).length ≤ 19 :=
  length_decimal (by decide) (r.size_lt.trans (by norm_num))

theorem length_lead (r : MatchRecord) :
    r.lead.length = r.header.length + r.path.length + 2 + (decimal r.size).length := by
  simp only [MatchRecord.lead, List.length_append, List.length_cons]
  omega

theorem sscanf_size_cut {size k : ℕ} (hk : k < 2 + (decimal size).length) {v : ℤ}
    (h : .number v ∈ sscanf (.space :: .text '(' :: .long :: .space :: literal "bytes)".toList)
      ((' ' :: '(' :: decimal size).take k)) (hsize : size < 2 ^ 63) : v < size := by
  obtain ⟨-, hdigits, -⟩ := decimal_digits size
  match k with
  | 0 => cases h
  | 1 => cases h
  | 2 => cases h
  | k + 3 =>
    have hne : decimal size ≠ [] := (decimal_digits size).1
    have hfront : (decimal size).take (k + 1) ≠ [] := by simpa using hne
    have hback : (decimal size).drop (k + 1) ≠ [] := by
      rw [Ne, List.drop_eq_nil_iff]
      omega
    have hless : Nat.ofDigitChars 10 ((decimal size).take (k + 1)) 0 < size := by
      refine ofDigitChars_lt ?_ hfront hback
      rw [List.take_append_drop, decimal_natCast]
    rw [List.take_succ_cons, List.take_succ_cons, ← List.append_nil ((decimal size).take (k + 1)),
      sscanf_size hfront (fun c hc => hdigits c (List.mem_of_mem_take hc)) rfl,
      clampLong_of_lt (hless.trans hsize), List.mem_singleton] at h
    obtain rfl := ScanValue.number.inj h
    exact_mod_cast hless

theorem parse_cut {r : MatchRecord} (hne : r.path ≠ []) (hpath : ∀ c ∈ r.path, isSpace c = false)
    (hlong : 511 < r.lead.length) : parseMatchLine (r.lead.take 511) ≠ some r.entry := by
  have hheader := length_header r
  have hlead := length_lead r
  have hcut : r.lead.take 511 = r.header ++
      (r.path.take (511 - r.header.length) ++
        (' ' :: '(' :: decimal r.size).take (511 - r.header.length - r.path.length)) := by
    rw [MatchRecord.lead, List.take_append, List.take_of_length_le (by omega), List.take_append]
  have hfront : r.path.take (511 - r.header.length) ≠ [] := by
    rw [Ne, List.take_eq_nil_iff]
    rintro (hzero | hnil)
    · omega
    · exact hne hnil
  have hpathLen : (r.path.take (511 - r.header.length)).length ≤ 4095 :=
    (List.length_take_le' _ _).trans (Nat.le_of_lt_succ r.path_lt)
  have hspace : ((' ' :: '(' :: decimal r.size).take
      (511 - r.header.length - r.path.length)).takeWhile (fun c => !isSpace c) = [] := by
    cases 511 - r.header.length - r.path.length with
    | zero => rfl
    | succ k => rw [List.take_succ_cons, List.takeWhile_cons_of_neg (by decide)]
  intro hparse
  rw [parseMatchLine, hcut,
    sscanf_path r hfront (fun c hc => hpath c (List.mem_of_mem_take hc)) hpathLen hspace] at hparse
  split at hparse
  case h_1 pid path size hscan =>
    simp only [List.cons.injEq] at hscan
    have hsize : size < (r.size : ℤ) := by
      refine sscanf_size_cut (k := 511 - r.header.length - r.path.length) (by omega) ?_ r.size_lt
      rw [hscan.2.2]
      exact List.mem_cons_self
    have hentry : size = r.size := congrArg MatchEntry.size (Option.some.inj hparse)
    rw [hentry] at hsize
    exact lt_irrefl _ hsize
  case h_2 => cases hparse

theorem survives_of_mem {r : MatchRecord} (h : r.entry ∈ parsedLines r.line) : r.Survives := by
  obtain ⟨hne, hspace, -⟩ := parsedLines_path h
  refine ⟨hne, hspace, ?_⟩
  by_contra hfits
  have hlong : 511 < r.lead.length := not_le.mp hfits
  have hheader := length_header r
  have hsize := length_size r
  have hlead := length_lead r
  have hbody : r.body.length = r.lead.length + 7 := by
    rw [MatchRecord.body, List.length_append]
    rfl
  have hnul := nul_notMem_body r
  have hnewline := newline_notMem_body hspace
  have hfirst : r.body.take 511 = r.lead.take 511 :=
    List.take_append_of_le_length hlong.le
  rw [parsedLines_read (by simp [MatchRecord.line]), MatchRecord.line,
    fgets_full hnewline (by omega)] at h
  simp only at h
  rw [chomp_tail (fun hmem => hnul (List.mem_of_mem_take hmem))
    (fun hmem => hnewline (List.mem_of_mem_take hmem)), hfirst] at h
  rcases List.mem_append.mp h with hhead | hlater
  · exact parse_cut hne hspace hlong (Option.mem_toList.mp hhead)
  · -- what is left of the line is shorter than the path
    have hlen : r.path.length ≤ (r.body.drop 511 ++ ['\n']).length := (parsedLines_path hlater).2.2
    rw [List.length_append, List.length_drop, List.length_singleton] at hlen
    omega

theorem parsedLines_records {rs : List MatchRecord} (h : ∀ r ∈ rs, r.Survives) :
    parsedLines (rs.flatMap MatchRecord.line) = rs.map MatchRecord.entry := by
  induction rs with
  | nil => exact parsedLines_nil
  | cons r rs ih =>
    rw [List.flatMap_cons, parsedLines_line (h r List.mem_cons_self),
      ih (fun q hq => h q (List.mem_cons_of_mem r hq)), List.map_cons]

theorem foldl_readMatchFile {files : List (List MatchRecord)}
    (h : ∀ file ∈ files, ∀ r ∈ file, r.Survives) {entries : List MatchEntry}
    (hroom : entries.length ≤ maxMatches) :
    (files.map fun file => file.flatMap MatchRecord.line).foldl readMatchFile entries =
      (entries ++ files.flatten.map MatchRecord.entry).take maxMatches := by
  induction files generalizing entries with
  | nil => simp [List.take_of_length_le hroom]
  | cons file files ih =>
    rw [List.map_cons, List.foldl_cons, readMatchFile_eq hroom,
      parsedLines_records (h file List.mem_cons_self),
      ih (fun f hf => h f (List.mem_cons_of_mem file hf)) (List.length_take_le _ _),
      List.flatten_cons, List.map_append, ← List.append_assoc]
    exact take_take_append _ _ _

/-! ### The round trip -/

/-- A record comes back from the file it is written to exactly when its path is one token and
the line fits the buffer up to the last digit of the size. Files of such records give the
tree one entry for each match, up to the bound on their number. -/
theorem record_round_trip (r : MatchRecord) (files : List (List MatchRecord)) :
    (readMatchFile [] r.line = [r.entry] ↔ r.Survives) ∧
    ((∀ file ∈ files, ∀ r' ∈ file, r'.Survives) →
      readMatchFiles (files.map fun file => file.flatMap MatchRecord.line) =
        (files.flatten.map MatchRecord.entry).take maxMatches) := by
  constructor
  · rw [readMatchFile_eq (Nat.zero_le _), List.nil_append]
    constructor
    · intro hread
      refine survives_of_mem (List.mem_of_mem_take (i := maxMatches) ?_)
      rw [hread]
      exact List.mem_singleton_self _
    · intro hsurvives
      have hline := parsedLines_line hsurvives []
      rw [List.append_nil, parsedLines_nil] at hline
      rw [hline]
      rfl
  · exact fun h => foldl_readMatchFile h (Nat.zero_le _)

def plainRecord : MatchRecord :=
  ⟨7, "/src/a.c".toList, 3, by decide, by decide, by decide, by decide⟩

theorem record_round_trip_plain : plainRecord.Survives ∧
    readMatchFile [] plainRecord.line = [plainRecord.entry] ∧
    readMatchFiles [plainRecord.line, plainRecord.line ++ plainRecord.line] =
      [plainRecord.entry, plainRecord.entry, plainRecord.entry] := by
  have hspace : plainRecord.path.all (fun c => !isSpace c) = true := by decide
  have hsurvives : plainRecord.Survives :=
    ⟨by decide, fun c hc => by simpa using List.all_eq_true.mp hspace c hc, by decide⟩
  obtain ⟨hline, hfiles⟩ :=
    record_round_trip plainRecord [[plainRecord], [plainRecord, plainRecord]]
  have hentries := hfiles (by simp [hsurvives])
  simp only [List.map_cons, List.map_nil, List.flatMap_cons, List.flatMap_nil, List.append_nil,
    List.flatten_cons, List.flatten_nil, List.cons_append, List.nil_append] at hentries
  exact ⟨hsurvives, hline.mpr hsurvives, hentries⟩

def spacedRecord : MatchRecord :=
  ⟨7, "/src/a b".toList, 3, by decide, by decide, by decide, by decide⟩

/-- The scan ends the path at its space and finds no parenthesis behind it. -/
theorem spaced_record_lost : readMatchFile [] spacedRecord.line = [] ∧
    readMatchFile [] spacedRecord.line ≠ [spacedRecord.entry] := by
  have hrest : (fgets 511 spacedRecord.line).2 = [] := by decide
  have hparse : parseMatchLine (chomp (fgets 511 spacedRecord.line).1) = none := by decide
  have hread : readMatchFile [] spacedRecord.line = [] := by
    rw [readMatchFile_eq (Nat.zero_le _), parsedLines_read (by decide), hrest, hparse,
      parsedLines_nil]
    rfl
  refine ⟨hread, ?_⟩
  rw [hread]
  exact (List.cons_ne_nil _ _).symm

end SysProg.HW2

import SysProg.Lib.CText
import SysProg.Lib.LineStream

/-!
# Files that are read line by line into a buffer

A loop over `fgets` sees a file as the contents its buffer takes, one after the
other. When what is made of a buffer does not depend on the newline at its end,
the file counts as its lines, and a line as blocks that fill the buffer.
-/

namespace SysProg.Lib
variable {β : Type*}

/-- `fgets` with room for this many characters: what is read, and what is left. -/
def fgets : ℕ → List Char → List Char × List Char
  | 0, input => ([], input)
  | _ + 1, [] => ([], [])
  | n + 1, c :: rest =>
    if c = '\n' then ([c], rest)
    else
      let r := fgets n rest
      (c :: r.1, r.2)

def chomp (input : List Char) : List Char :=
  let text := cString input
  if text.getLast? = some '\n' then text.dropLast else text

theorem fgets_append (n : ℕ) (input : List Char) :
    (fgets n input).1 ++ (fgets n input).2 = input := by
  induction n generalizing input with
  | zero => rfl
  | succ n ih =>
    cases input with
    | nil => rfl
    | cons c rest =>
      simp only [fgets]
      split_ifs
      · rfl
      · simp [ih]

theorem fgets_shorter {n : ℕ} {input : List Char} (h : input ≠ []) :
    (fgets (n + 1) input).2.length < input.length := by
  have hread : 0 < (fgets (n + 1) input).1.length := by
    obtain ⟨c, rest, rfl⟩ := List.exists_cons_of_ne_nil h
    simp only [fgets]
    split_ifs <;> simp
  have hlen := congrArg List.length (fgets_append (n + 1) input)
  rw [List.length_append] at hlen
  omega

theorem fgets_line {n : ℕ} {line : List Char} (hline : '\n' ∉ line) (hlen : line.length < n)
    (rest : List Char) : fgets n (line ++ ['\n'] ++ rest) = (line ++ ['\n'], rest) := by
  induction line generalizing n with
  | nil =>
    obtain ⟨m, rfl⟩ := Nat.exists_eq_add_one_of_ne_zero (Nat.ne_of_gt hlen)
    simp [fgets]
  | cons c line ih =>
    simp only [List.mem_cons, not_or] at hline
    obtain ⟨m, rfl⟩ := Nat.exists_eq_add_one_of_ne_zero (Nat.ne_zero_of_lt hlen)
    rw [List.length_cons] at hlen
    simp only [List.cons_append, fgets, if_neg (Ne.symm hline.1),
        ih hline.2 (Nat.lt_of_succ_lt_succ hlen)]

theorem fgets_tail {n : ℕ} {tail : List Char} (htail : '\n' ∉ tail) (hlen : tail.length ≤ n) :
    fgets n tail = (tail, []) := by
  induction tail generalizing n with
  | nil => cases n <;> rfl
  | cons c tail ih =>
    simp only [List.mem_cons, not_or] at htail
    rw [List.length_cons] at hlen
    obtain ⟨m, rfl⟩ := Nat.exists_eq_add_one_of_ne_zero (by omega : n ≠ 0)
    simp only [fgets, if_neg (Ne.symm htail.1), ih htail.2 (Nat.le_of_succ_le_succ hlen)]

theorem fgets_full {a : List Char} (ha : '\n' ∉ a) {n : ℕ} (hn : n ≤ a.length) (b : List Char) :
    fgets n (a ++ b) = (a.take n, a.drop n ++ b) := by
  induction a generalizing n with
  | nil =>
    obtain rfl : n = 0 := Nat.le_zero.mp hn
    rfl
  | cons c a ih =>
    simp only [List.mem_cons, not_or] at ha
    cases n with
    | zero => rfl
    | succ n =>
      simp only [List.cons_append, fgets, if_neg (Ne.symm ha.1),
        ih ha.2 (Nat.le_of_succ_le_succ hn), List.take_succ_cons, List.drop_succ_cons]

theorem newline_notMem_fgets (n : ℕ) (input : List Char) :
    '\n' ∉ (fgets n input).1.dropLast := by
  induction n generalizing input with
  | zero => simp [fgets]
  | succ n ih =>
    cases input with
    | nil => simp [fgets]
    | cons c rest =>
      simp only [fgets]
      split_ifs with hc
      · simp
      · cases hr : (fgets n rest).1 with
        | nil => simp
        | cons d more =>
          have hrest := ih rest
          rw [hr] at hrest
          simp only [List.dropLast_cons_cons, List.mem_cons, not_or]
          exact ⟨Ne.symm hc, hrest⟩

theorem chomp_line {line : List Char} (hnul : '\x00' ∉ line) : chomp (line ++ ['\n']) = line := by
  have hc : cString (line ++ ['\n']) = line ++ ['\n'] := cString_of_notMem (by simp [hnul])
  simp [chomp, hc]

theorem chomp_tail {tail : List Char} (hnul : '\x00' ∉ tail) (hnl : '\n' ∉ tail) :
    chomp tail = tail := by
  rw [chomp, cString_of_notMem hnul, if_neg]
  exact fun hlast => hnl (List.mem_of_getLast? hlast)

theorem newline_notMem_chomp {n : ℕ} {input : List Char} (hnul : '\x00' ∉ input) :
    '\n' ∉ chomp (fgets n input).1 := by
  have hread : '\x00' ∉ (fgets n input).1 := by
    intro hmem
    rw [← fgets_append n input] at hnul
    exact hnul (List.mem_append_left _ hmem)
  have hinner := newline_notMem_fgets n input
  rw [chomp, cString_of_notMem hread]
  split_ifs with hlast
  · exact hinner
  · intro hmem
    have hne : (fgets n input).1 ≠ [] := List.ne_nil_of_mem hmem
    rw [← List.dropLast_append_getLast hne, List.mem_append, List.mem_singleton] at hmem
    rcases hmem with hmem | hmem
    · exact hinner hmem
    · exact hlast (by rw [List.getLast?_eq_some_getLast hne, hmem])

theorem chomp_length (x : List Char) : (chomp x).length ≤ x.length := by
  have hcut : cString x <+: x := List.takeWhile_prefix _
  have htext := hcut.length_le
  unfold chomp
  dsimp only
  split_ifs
  · rw [List.length_dropLast]
    omega
  · exact htext

/-! ### The contents of the buffer -/

def fileLines (file : List Char) : List (List Char) :=
  (cutLines '\n' file).1 ++ [(cutLines '\n' file).2]

theorem newline_notMem_fileLines {file line : List Char} (h : line ∈ fileLines file) :
    '\n' ∉ line := by
  obtain ⟨hlines, htail⟩ := sep_notMem_cutLines '\n' file
  rcases List.mem_append.mp h with hline | hlast
  · exact hlines line hline
  · rw [List.mem_singleton.mp hlast]
    exact htail

/-- The contents of a buffer of `room + 2` bytes. -/
def readsOf (room : ℕ) (file : List Char) : List (List Char) :=
  if h : file = [] then []
  else
    have : (fgets (room + 1) file).2.length < file.length := fgets_shorter h
    (fgets (room + 1) file).1 :: readsOf room (fgets (room + 1) file).2
termination_by file.length

def blocks (room : ℕ) (line : List Char) : List (List Char) :=
  if h : line = [] then []
  else
    have : (line.drop (room + 1)).length < line.length := by
      have hpos := List.length_pos_iff.mpr h
      rw [List.length_drop]
      omega
    line.take (room + 1) :: blocks room (line.drop (room + 1))
termination_by line.length

theorem readsOf_nil (room : ℕ) : readsOf room [] = [] := by
  rw [readsOf, dif_pos rfl]

theorem readsOf_read (room : ℕ) {file : List Char} (h : file ≠ []) :
    readsOf room file = (fgets (room + 1) file).1 :: readsOf room (fgets (room + 1) file).2 := by
  rw [readsOf, dif_neg h]

theorem blocks_nil (room : ℕ) : blocks room [] = [] := by
  rw [blocks, dif_pos rfl]

theorem blocks_cons (room : ℕ) {line : List Char} (h : line ≠ []) :
    blocks room line = line.take (room + 1) :: blocks room (line.drop (room + 1)) := by
  rw [blocks, dif_neg h]

theorem blocks_short (room : ℕ) {line : List Char} (h : line ≠ []) (hlen : line.length ≤ room + 1) :
    blocks room line = [line] := by
  rw [blocks_cons room h, List.take_of_length_le hlen, List.drop_of_length_le hlen, blocks_nil]

theorem blocks_fit (room : ℕ) (line : List Char) :
    ∀ block ∈ blocks room line, block.length ≤ room + 1 ∧ block ⊆ line := by
  intro block hblock
  by_cases h : line = []
  · rw [h, blocks_nil] at hblock
    cases hblock
  · rw [blocks_cons room h] at hblock
    rcases List.mem_cons.mp hblock with rfl | hrest
    · exact ⟨List.length_take_le _ _, List.take_subset _ _⟩
    · obtain ⟨hlen, hsub⟩ := blocks_fit room (line.drop (room + 1)) block hrest
      exact ⟨hlen, List.Subset.trans hsub (List.drop_subset _ _)⟩
termination_by line.length
decreasing_by
  have hpos := List.length_pos_iff.mpr h
  rw [List.length_drop]
  omega

theorem readsOf_tail (room : ℕ) {line : List Char} (hline : '\n' ∉ line) :
    readsOf room line = blocks room line := by
  by_cases h : line = []
  · rw [h, readsOf_nil, blocks_nil]
  · have hrest : '\n' ∉ line.drop (room + 1) := fun hmem => hline (List.mem_of_mem_drop hmem)
    rw [readsOf_read room h, blocks_cons room h]
    rcases Nat.le_total line.length (room + 1) with hshort | hlong
    · rw [fgets_tail hline hshort, List.take_of_length_le hshort, List.drop_of_length_le hshort,
        readsOf_nil, blocks_nil]
    · have hfull := fgets_full hline hlong []
      rw [List.append_nil, List.append_nil] at hfull
      rw [hfull, readsOf_tail room hrest]
termination_by line.length
decreasing_by
  rw [List.length_drop]
  omega

/-! ### What is made of the buffers -/

structure NewlineBlind (read : List Char → List β) : Prop where
  nil : read [] = []
  newline : ∀ text, read (text ++ ['\n']) = read text

section Read
variable {read : List Char → List β} (hread : NewlineBlind read)

include hread in
theorem flatMap_readsOf_line (room : ℕ) {line : List Char} (hline : '\n' ∉ line)
    (rest : List Char) : (readsOf room (line ++ ['\n'] ++ rest)).flatMap read =
      (blocks room line).flatMap read ++ (readsOf room rest).flatMap read := by
  have hfile : line ++ ['\n'] ++ rest ≠ [] := by simp
  rcases Nat.lt_or_ge line.length (room + 1) with hshort | hlong
  · rw [readsOf_read room hfile, fgets_line hline hshort, List.flatMap_cons, hread.newline]
    by_cases h : line = []
    · rw [h, hread.nil, blocks_nil]
      rfl
    · rw [blocks_short room h hshort.le, List.flatMap_singleton]
  · have h : line ≠ [] := by
      rintro rfl
      exact absurd hlong (by simp)
    have hrest : '\n' ∉ line.drop (room + 1) := fun hmem => hline (List.mem_of_mem_drop hmem)
    have hnext := flatMap_readsOf_line room hrest rest
    rw [readsOf_read room hfile, blocks_cons room h, List.append_assoc line,
      fgets_full hline hlong]
    simp only [List.flatMap_cons]
    rw [← List.append_assoc (line.drop (room + 1)), hnext, List.append_assoc]
termination_by line.length
decreasing_by
  rw [List.length_drop]
  omega

include hread in
/-- A file counts as its lines, and a line as its blocks. -/
theorem flatMap_readsOf_file (room : ℕ) (file : List Char) :
    (readsOf room file).flatMap read =
      (fileLines file).flatMap (fun line => (blocks room line).flatMap read) := by
  have hjoin : ∀ (lines : List (List Char)) (tail : List Char), (∀ line ∈ lines, '\n' ∉ line) →
      '\n' ∉ tail → (readsOf room (joinLines '\n' lines tail)).flatMap read =
        (lines ++ [tail]).flatMap (fun line => (blocks room line).flatMap read) := by
    intro lines tail hlines htail
    induction lines with
    | nil =>
      change (readsOf room tail).flatMap read = _
      rw [readsOf_tail room htail, List.nil_append, List.flatMap_singleton]
    | cons line lines ih =>
      rw [joinLines_cons, flatMap_readsOf_line hread room (hlines line List.mem_cons_self),
        ih fun l hl => hlines l (List.mem_cons_of_mem _ hl), List.cons_append, List.flatMap_cons]
  obtain ⟨hlines, htail⟩ := sep_notMem_cutLines '\n' file
  have hcut := hjoin _ _ hlines htail
  rwa [joinLines_cutLines] at hcut

end Read

theorem newlineBlind_cString {scan : List Char → List β} (hnil : scan [] = [])
    (hnewline : ∀ text, '\x00' ∉ text → scan (text ++ ['\n']) = scan text) :
    NewlineBlind (fun buffer => scan (cString buffer)) where
  nil := hnil
  newline := by
    intro text
    by_cases hnul : '\x00' ∈ text
    · rw [cString_append_of_mem hnul]
    · rw [cString_of_notMem hnul, cString_of_notMem (by simp [hnul])]
      exact hnewline text hnul

theorem flatMap_blocks_short (room : ℕ) {read : List Char → List β} (hnil : read [] = [])
    {lines : List (List Char)} (hlines : ∀ line ∈ lines, line.length ≤ room + 1) :
    lines.flatMap (fun line => (blocks room line).flatMap read) = lines.flatMap read := by
  apply List.flatMap_congr
  intro line hmem
  by_cases h : line = []
  · rw [h, blocks_nil, hnil]
    rfl
  · rw [blocks_short room h (hlines line hmem), List.flatMap_singleton]

theorem fileLines_joinLines {lines : List (List Char)} (hlines : ∀ line ∈ lines, '\n' ∉ line) :
    fileLines (joinLines '\n' lines []) = lines ++ [[]] := by
  rw [fileLines, cutLines_joinLines hlines (by simp)]

theorem flatten_readsOf (room : ℕ) (file : List Char) : (readsOf room file).flatten = file := by
  by_cases h : file = []
  · rw [h, readsOf_nil, List.flatten_nil]
  · rw [readsOf_read room h, List.flatten_cons, flatten_readsOf room (fgets (room + 1) file).2,
      fgets_append]
termination_by file.length
decreasing_by exact fgets_shorter h

end SysProg.Lib

import SysProg.HW2.MatchRecord
import SysProg.Lib.LineStream
import SysProg.Lib.StringOrder
import SysProg.Lib.TreeListing

/-!
# Printing the matches as a tree

`print_tree` sorts the matches by path and prints, before each match, the
directories on the way to it that it has not printed yet. It finds the names by
scanning the path behind the root again for every level, and it remembers the
first 64 directories only.
-/

namespace SysProg.HW2
open SysProg.Lib

/-! ### Helpers of the printer -/

def relativePath (rootDir fullPath : List Char) : List Char :=
  match fullPath.drop rootDir.length with
  | '/' :: rel => rel
  | rel => rel

/-- The number of dashes; `int` wraps around. -/
def printIndent (depth : ℕ) : ℕ :=
  let depth := if depth ≤ 0 then 1 else depth
  let power := (fun p => int32 (p * 2))^[depth] 1
  (int32 (2 * int32 (power - 1))).toNat

/-- The name on a level, counted from where the scan stands, cut to `char[256]`. -/
def getComponent : List Char → ℕ → Option (List Char)
  | _, 0 => none
  | scan, level + 1 =>
    if scan = [] then none
    else if level = 0 then some ((scan.takeWhile (· ≠ '/')).take 255)
    else
      match scan.dropWhile (· ≠ '/') with
      | [] => none
      | _ :: rest => getComponent rest level

def pathDepth (rel : List Char) : ℕ := 1 + rel.count '/'

def entryCmp (a b : MatchEntry) : ℤ := strcmp a.path b.path

def strncat (dest src : List Char) (n : ℕ) : List Char := dest ++ src.take n

/-- The loop over the levels that builds `partial_path`, with `n` rounds left. -/
def appendLevels (rel : List Char) : ℕ → ℕ → List Char → List Char
  | 0, _, path => path
  | n + 1, level, path =>
    match getComponent rel level with
    | none => path
    | some partName =>
      let path := if 1 < level then strncat path ['/'] (4095 - path.length) else path
      appendLevels rel n (level + 1) (strncat path partName (4095 - path.length))

def partialPath (rel : List Char) (depth : ℕ) : List Char := appendLevels rel depth 1 []

/-! ### The lines -/

/-- What `print_indent` and the next `printf` print; a match has its size and its worker. -/
structure TreeLine where
  dashes : ℕ
  name : List Char
  info : Option (ℤ × ℤ)
  deriving DecidableEq

/-- `" (%ld bytes) [Worker %d]"` -/
def matchLabel : Option (ℤ × ℤ) → List Char
  | none => []
  | some (size, workerPid) => ' ' :: '(' ::
      (decimal size ++ (" bytes) [Worker ".toList ++ (decimal workerPid ++ [']'])))

def TreeLine.body (l : TreeLine) : List Char :=
  '|' :: (List.replicate l.dashes '-' ++ ' ' :: (l.name ++ matchLabel l.info))

def maxPrintedDirs : ℕ := 64

structure TreeState where
  printedDirs : List (List Char)
  lines : List TreeLine

def printDir (rel : List Char) (depth : ℕ) (dirName : List Char) (st : TreeState) : TreeState :=
  let path := partialPath rel depth
  if st.printedDirs.contains path then st
  else
    { printedDirs := if st.printedDirs.length < maxPrintedDirs
        then st.printedDirs ++ [path.take 4095]
        else st.printedDirs
      lines := st.lines ++ [⟨printIndent depth, dirName, none⟩] }

/-- The loop over the depths above the match, with `n` rounds left. -/
def printDirs (rel : List Char) : ℕ → ℕ → TreeState → TreeState
  | 0, _, st => st
  | n + 1, depth, st =>
    match getComponent rel depth with
    | none => st
    | some dirName => printDirs rel n (depth + 1) (printDir rel depth dirName st)

def printEntry (rootDir : List Char) (st : TreeState) (e : MatchEntry) : TreeState :=
  let rel := relativePath rootDir e.path
  let totalDepth := pathDepth rel
  let st := printDirs rel (totalDepth - 1) 1 st
  match getComponent rel totalDepth with
  | none => st
  | some filename =>
    { st with
      lines := st.lines ++ [⟨printIndent totalDepth, filename, some (e.size, e.workerPid)⟩] }

section Output
variable (qsort : (MatchEntry → MatchEntry → ℤ) → List MatchEntry → List MatchEntry)

def treeLines (rootDir : List Char) (entries : List MatchEntry) : List TreeLine :=
  ((qsort entryCmp entries).foldl (printEntry rootDir) ⟨[], []⟩).lines

def printTree (rootDir : List Char) (entries : List MatchEntry) : List Char :=
  rootDir ++ '\n' ::
    (if entries = [] then "No matching files found.\n".toList
    else (treeLines qsort rootDir entries).flatMap (fun l => l.body ++ ['\n']))

end Output

/-! ### Whatever the names are -/

theorem getComponent_length {scan name : List Char} {level : ℕ}
    (h : getComponent scan level = some name) : name.length ≤ 255 := by
  induction level generalizing scan with
  | zero => cases h
  | succ level ih =>
    rw [getComponent] at h
    split_ifs at h with hscan hlevel
    · obtain rfl := Option.some.inj h
      exact List.length_take_le _ _
    · cases hrest : scan.dropWhile (· ≠ '/') with
      | nil =>
        rw [hrest] at h
        cases h
      | cons c rest =>
        rw [hrest] at h
        exact ih h

theorem printIndent_lt (depth : ℕ) : printIndent depth < 2 ^ 31 := by
  have hle := int32_le
    (2 * int32 ((fun p => int32 (p * 2))^[if depth ≤ 0 then 1 else depth] 1 - 1))
  simp only [printIndent, intMax] at *
  omega

structure TreeLine.FromBuffers (l : TreeLine) : Prop where
  name : l.name.length ≤ 255
  dashes : l.dashes < 2 ^ 31

theorem fromBuffers_printDirs (rel : List Char) (n depth : ℕ) {st : TreeState}
    (h : ∀ l ∈ st.lines, l.FromBuffers) :
    ∀ l ∈ (printDirs rel n depth st).lines, l.FromBuffers := by
  induction n generalizing depth st with
  | zero => exact h
  | succ n ih =>
    rw [printDirs]
    cases hname : getComponent rel depth with
    | none => exact h
    | some dirName =>
      apply ih
      intro l hl
      simp only [printDir] at hl
      split_ifs at hl
      · exact h l hl
      all_goals
        rcases List.mem_append.mp hl with hl | hl
        · exact h l hl
        · rw [List.mem_singleton.mp hl]
          exact ⟨getComponent_length hname, printIndent_lt depth⟩

theorem fromBuffers_printEntry {rootDir : List Char} {st : TreeState} (e : MatchEntry)
    (h : ∀ l ∈ st.lines, l.FromBuffers) : ∀ l ∈ (printEntry rootDir st e).lines, l.FromBuffers := by
  intro l hl
  rw [printEntry] at hl
  have hdirs := fromBuffers_printDirs (relativePath rootDir e.path)
    (pathDepth (relativePath rootDir e.path) - 1) 1 h
  cases hname : getComponent (relativePath rootDir e.path)
      (pathDepth (relativePath rootDir e.path)) with
  | none =>
    simp only [hname] at hl
    exact hdirs l hl
  | some filename =>
    simp only [hname] at hl
    rcases List.mem_append.mp hl with hl | hl
    · exact hdirs l hl
    · rw [List.mem_singleton.mp hl]
      exact ⟨getComponent_length hname, printIndent_lt _⟩

theorem fromBuffers_treeLines
    (qsort : (MatchEntry → MatchEntry → ℤ) → List MatchEntry → List MatchEntry)
    (rootDir : List Char) (entries : List MatchEntry) :
    ∀ l ∈ treeLines qsort rootDir entries, l.FromBuffers := by
  have hfold : ∀ (es : List MatchEntry) (st : TreeState), (∀ l ∈ st.lines, l.FromBuffers) →
      ∀ l ∈ (es.foldl (printEntry rootDir) st).lines, l.FromBuffers := by
    intro es
    induction es with
    | nil => exact fun st h => h
    | cons e es ih => exact fun st h => ih _ (fromBuffers_printEntry e h)
  apply hfold
  intro l hl
  cases hl

end SysProg.HW2

import SysProg.Lib.TreeWalk
import SysProg.HW2.MatchRecord
import SysProg.HW2.Pattern
import Mathlib.Logic.Function.Basic

/-!
# The two searches

The parent lists the subdirectories of the root and deals them to the workers, which
walk them with `search_dir`; without a subdirectory it walks the root itself, with
`collect_matches`. Both build a path for every entry in a buffer of 4096 bytes: the
workers skip an entry whose path does not fit, the parent goes on with the part that
does. The tree does not change during a search, and no signal arrives.
-/

namespace SysProg.HW2
open SysProg.Lib

def maxSubdirs : ℕ := 512

inductive FileStat where
  | directory
  | regular (size : ℕ)
  | other
  deriving DecidableEq

/-- What `readdir` and `lstat` report of every path. -/
structure FileSystem extends Directories (List Char) (List Char) where
  lstat : List Char → Option FileStat
  noSlash : ∀ path names, opendir path = some names → ∀ name ∈ names, '/' ∉ name
  pathMax : ∀ path, 4096 ≤ path.length → opendir path = none

structure Query where
  pattern : List Char
  minSize : ℤ

/-- `min_size >= 0 && file_stat.st_size < (off_t)min_size` -/
def Query.tooSmall (q : Query) (size : ℕ) : Bool := 0 ≤ q.minSize && (size : ℤ) < q.minSize

def isDot (name : List Char) : Bool := name == ".".toList || name == "..".toList

/-- `"%s/%s"` -/
def fullPath (path name : List Char) : List Char := path ++ '/' :: name

theorem length_fullPath (path name : List Char) :
    (fullPath path name).length = path.length + name.length + 1 := by
  simp only [fullPath, List.length_append, List.length_cons]
  omega

/-- The same through `snprintf` with a buffer of 4096 bytes. -/
def cutPath (path name : List Char) : List Char := (fullPath path name).take 4095

/-! ### Workers -/

/-- What a worker has printed, and its `match_count`. -/
structure WorkerOutput where
  matched : List (List Char × ℕ)
  matchCount : ℕ
  deriving DecidableEq

section
variable (fs : FileSystem) (q : Query)

def searchDir (path : List Char) (out : WorkerOutput) : WorkerOutput :=
  match fs.opendir path with
  | none => out
  | some names => names.foldl (fun out name =>
      if isDot name then out
      else if _ : 4096 ≤ (fullPath path name).length then out
      else match fs.lstat (fullPath path name) with
        | some .directory => searchDir (fullPath path name) out
        | some (.regular size) =>
          if q.tooSmall size then out
          else if matchPattern q.pattern name then
            ⟨out.matched ++ [(fullPath path name, size)], out.matchCount + 1⟩
          else out
        | _ => out) out
termination_by 4096 - path.length
decreasing_by
  rename_i h
  simp only [fullPath, List.length_append, List.length_cons] at h ⊢
  omega

def runWorker (dirs : List (List Char)) : WorkerOutput :=
  dirs.foldl (fun out dir => searchDir fs q dir out) ⟨[], 0⟩

/-- The argument of `exit`. -/
def exitCode (dirs : List (List Char)) : ℕ := (runWorker fs q dirs).matchCount % 256

/-! ### Parent -/

def listSubdirs (root : List Char) : List (List Char) → List (List Char) → List (List Char)
  | [], subdirs => subdirs
  | name :: names, subdirs =>
    if subdirs.length < maxSubdirs then
      if isDot name then listSubdirs root names subdirs
      else if fs.lstat (cutPath root name) = some .directory then
        listSubdirs root names (subdirs ++ [cutPath root name])
      else listSubdirs root names subdirs
    else subdirs

def subdirs (root : List Char) : List (List Char) :=
  listSubdirs fs root ((fs.opendir root).getD []) []

/-- `wdirs[i % num_workers][...] = subdirs[i]` -/
def dealDirs (numWorkers : ℕ) (dirs : List (List Char)) : ℕ → List (List Char) :=
  dirs.zipIdx.foldl (fun wdirs d =>
    Function.update wdirs (d.2 % numWorkers) (wdirs (d.2 % numWorkers) ++ [d.1])) fun _ => []

def workersUsed (numWorkers : ℕ) (root : List Char) : ℕ :=
  if (subdirs fs root).length < numWorkers then (subdirs fs root).length else numWorkers

def workerDirs (numWorkers : ℕ) (root : List Char) (w : ℕ) : List (List Char) :=
  dealDirs (workersUsed fs numWorkers root) (subdirs fs root) w

/-- `none` when the recursion goes deeper than `fuel`. -/
def collectMatches (pid : ℤ) : ℕ → List Char → List MatchEntry → Option (List MatchEntry)
  | 0, _, _ => none
  | fuel + 1, path, entries =>
    match fs.opendir path with
    | none => some entries
    | some names => names.foldlM (fun entries name =>
        if isDot name then some entries
        else match fs.lstat (cutPath path name) with
          | some .directory => collectMatches pid fuel (cutPath path name) entries
          | some (.regular size) =>
            if q.tooSmall size then some entries
            else if matchPattern q.pattern name && entries.length < maxMatches then
              some (entries ++ [⟨(cutPath path name).take 4095, size, pid⟩])
            else some entries
          | _ => some entries) entries

end

end SysProg.HW2

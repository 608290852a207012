import Mathlib.Data.Nat.Bitwise
import SysProg.Lib.OptionArgs
import SysProg.HW1.FileName
import SysProg.HW2.Search

/-!
# The search for files

`myFind` takes its criteria from the command line, the last argument of an option
counting, and walks the tree below a path depth first. It prints every entry
that meets all criteria, indented by its depth, and goes below every directory,
whether or not the directory is printed. Entries without attributes and those
whose path does not fit the buffer are skipped with all that is below them.
-/

namespace SysProg.HW1
open SysProg.Lib
open SysProg.HW2 (isDot fullPath length_fullPath matchRec matchRec_iff_mem_language
  patternAtoms patternLanguage)

inductive FileType where
  | directory | socket | block | character | regular | fifo | symlink
  deriving DecidableEq, Repr

structure FileStat where
  type : FileType
  mode : ℕ
  size : ℤ
  nlink : BitVec 64
  deriving DecidableEq, Repr

/-- What `readdir` and `lstat` report of every path. -/
structure FileSystem extends Directories (List Char) (List Char) where
  lstat : List Char → Option FileStat

/-- `struct criteria` after `init_criteria`. -/
structure Criteria where
  path : Option (List Char) := none
  filename : Option (List Char) := none
  size : ℤ := -1
  type : Char := '\x00'
  permissions : Option (List Char) := none
  nlinks : ℤ := -1
  deriving DecidableEq, Repr

/-- On the option characters and arguments of `getopt`; `none` is `exit(1)`. -/
def parseCriteria : Criteria → List (Char × List Char) → Option Criteria
  | c, [] => some c
  | c, ('w', optarg) :: rest => parseCriteria { c with path := some optarg } rest
  | c, ('f', optarg) :: rest => parseCriteria { c with filename := some optarg } rest
  | c, ('b', optarg) :: rest => parseCriteria { c with size := atoi optarg } rest
  | c, ('t', optarg) :: rest => parseCriteria { c with type := optarg.headD '\x00' } rest
  | c, ('p', optarg) :: rest =>
    if optarg.length ≠ 9 then none else parseCriteria { c with permissions := some optarg } rest
  | c, ('l', optarg) :: rest => parseCriteria { c with nlinks := atoi optarg } rest
  -- `"Invalid criteria."`
  | c, _ :: rest => parseCriteria c rest

def matchType (type : FileType) : Char → Bool
  | 'd' => type = .directory
  | 's' => type = .socket
  | 'b' => type = .block
  | 'c' => type = .character
  | 'f' => type = .regular
  | 'p' => type = .fifo
  | 'l' => type = .symlink
  | _ => false

def parsePermission (permission : List Char) : List Bool := permission.map (· != '-')

/-- `S_IRUSR` to `S_IWOTH`, in the order of `macros`. -/
def permissionBits : List ℕ := [0o400, 0o200, 0o100, 0o040, 0o020, 0o010, 0o004, 0o002, 0o001]

/-- The loop of `match_permission`. -/
def matchBits (mode : ℕ) : List (Bool × ℕ) → Bool
  | [] => true
  | (true, bit) :: rest => if mode &&& bit = 0 then false else matchBits mode rest
  | (false, bit) :: rest => if mode &&& bit ≠ 0 then false else matchBits mode rest

def matchPermission (stat : FileStat) (permissions : List Char) : Bool :=
  matchBits stat.mode ((parsePermission permissions).zip permissionBits)

def checkCriteria (stat : FileStat) (c : Criteria) (filename : List Char) : Bool :=
  if c.size ≠ -1 ∧ stat.size ≠ c.size then false
  else if c.filename.any (fun pattern => !matchFilename pattern filename) then false
  else if c.type ≠ '\x00' ∧ matchType stat.type c.type = false then false
  else if c.permissions.any (fun permissions => !matchPermission stat permissions) then false
  else if c.nlinks ≠ -1 ∧ stat.nlink ≠ BitVec.ofInt 64 c.nlinks then false
  else true

inductive Line where
  | result (name : List Char) (depth : ℕ)
  | cannotOpen (path : List Char)
  | tooLong (path name : List Char)
  | lstatFailed (path : List Char)
  deriving DecidableEq

/-- `print_result` -/
def resultText (name : List Char) (depth : ℕ) : List Char :=
  '|' :: List.replicate (depth * 4 - 2) '-' ++ name ++ ['\n']

structure Output where
  lines : List Line
  found : ℕ
  deriving DecidableEq

def Output.report (out : Output) (line : Line) : Output := { out with lines := out.lines ++ [line] }

section
variable (fs : FileSystem) (c : Criteria)

def search (path : List Char) (depth : ℕ) (out : Output) : Output :=
  match fs.opendir path with
  | none => out.report (.cannotOpen path)
  | some names => names.foldl (fun out name =>
      if isDot name then out
      else if _ : 1024 ≤ (fullPath path name).length then out.report (.tooLong path name)
      else match fs.lstat (fullPath path name) with
        | none => out.report (.lstatFailed (fullPath path name))
        | some stat =>
          let out := if checkCriteria stat c name then
              { out.report (.result name depth) with found := out.found + 1 }
            else out
          if stat.type = .directory then search (fullPath path name) (depth + 1) out else out) out
termination_by 1024 - path.length
decreasing_by
  rename_i hlong _
  simp only [fullPath, List.length_append, List.length_cons] at hlong ⊢
  omega

end

def Line.stdout : Line → List Char
  | result name depth => resultText name depth
  | _ => []

def Output.stdout (out : Output) : List Char := out.lines.flatMap Line.stdout

/-- `main`: what it prints to `stdout`, and its exit code. -/
def myFind (fs : FileSystem) (args : List (Char × List Char)) : List Char × ℕ :=
  match parseCriteria {} args with
  | none => ([], 1)
  | some c =>
    match c.path with
    | none => ([], 1)
    | some path =>
      let out := search fs c path 1 ⟨[], 0⟩
      (if out.found = 0 then out.stdout ++ "No file found!\n".toList else out.stdout, 0)

/-! ### What the criteria say -/

def typeLetter : FileType → Char
  | .directory => 'd'
  | .socket => 's'
  | .block => 'b'
  | .character => 'c'
  | .regular => 'f'
  | .fifo => 'p'
  | .symlink => 'l'

structure Meets (c : Criteria) (stat : FileStat) (name : List Char) : Prop where
  size : c.size ≠ -1 → stat.size = c.size
  filename : ∀ pattern, c.filename = some pattern → name ∈ patternLanguage pattern
  type : c.type ≠ '\x00' → typeLetter stat.type = c.type
  permissions : ∀ permissions, c.permissions = some permissions →
    ∀ i < 9, ∀ letter, permissions[i]? = some letter → stat.mode.testBit (8 - i) = (letter != '-')
  nlinks : c.nlinks ≠ -1 → stat.nlink = BitVec.ofInt 64 c.nlinks

def Criteria.Plain (c : Criteria) : Prop :=
  ∀ pattern, c.filename = some pattern → SelfFree (patternAtoms pattern)

theorem matchType_iff (type : FileType) (letter : Char) :
    matchType type letter = true ↔ typeLetter type = letter := by
  constructor
  · intro h
    unfold matchType at h
    split at h <;> simp_all [typeLetter]
  · rintro rfl
    cases type <;> rfl

theorem matchBits_iff (mode : ℕ) (bits : List (Bool × ℕ)) :
    matchBits mode bits = true ↔ ∀ b ∈ bits, (mode &&& b.2 ≠ 0 ↔ b.1 = true) := by
  induction bits with
  | nil => simp [matchBits]
  | cons b bits ih =>
    obtain ⟨set, bit⟩ := b
    cases set with
    | true => by_cases hbit : mode &&& bit = 0 <;> simp [matchBits, hbit, ih]
    | false => by_cases hbit : mode &&& bit = 0 <;> simp [matchBits, hbit, ih]

theorem and_two_pow_ne_zero (mode k : ℕ) : mode &&& 2 ^ k ≠ 0 ↔ mode.testBit k = true := by
  rw [Nat.and_two_pow]
  cases mode.testBit k <;> simp

theorem getElem?_permissionBits (i bit : ℕ) :
    permissionBits[i]? = some bit ↔ i < 9 ∧ 2 ^ (8 - i) = bit := by
  have hbits : permissionBits = (List.range 9).map (fun i => 2 ^ (8 - i)) := by decide
  rw [hbits, List.getElem?_map, Option.map_eq_some_iff]
  constructor
  · rintro ⟨j, hj, hbit⟩
    obtain ⟨hlt, heq⟩ := List.getElem?_eq_some_iff.mp hj
    rw [List.getElem_range] at heq
    exact ⟨by simpa using hlt, heq ▸ hbit⟩
  · rintro ⟨hlt, hbit⟩
    exact ⟨i, List.getElem?_range hlt, hbit⟩

theorem matchPermission_iff (permissions : List Char) (stat : FileStat) :
    matchPermission stat permissions = true ↔
      ∀ i < 9, ∀ letter, permissions[i]? = some letter →
        stat.mode.testBit (8 - i) = (letter != '-') := by
  have hentry : ∀ b : Bool × ℕ, b ∈ (parsePermission permissions).zip permissionBits ↔
      ∃ i < 9, ∃ letter, permissions[i]? = some letter ∧ b = (letter != '-', 2 ^ (8 - i)) := by
    intro b
    rw [List.mem_iff_getElem?]
    constructor
    · rintro ⟨i, hi⟩
      obtain ⟨hletter, hbit⟩ := List.getElem?_zip_eq_some.mp hi
      obtain ⟨hlt, hbit⟩ := (getElem?_permissionBits i b.2).mp hbit
      rw [parsePermission, List.getElem?_map, Option.map_eq_some_iff] at hletter
      obtain ⟨letter, hletter, hset⟩ := hletter
      exact ⟨i, hlt, letter, hletter, Prod.ext hset.symm hbit.symm⟩
    · rintro ⟨i, hlt, letter, hletter, rfl⟩
      refine ⟨i, List.getElem?_zip_eq_some.mpr ⟨?_, (getElem?_permissionBits i _).mpr ⟨hlt, rfl⟩⟩⟩
      rw [parsePermission, List.getElem?_map, hletter]
      rfl
  rw [matchPermission, matchBits_iff]
  constructor
  · intro h i hi letter hletter
    have hb := h (letter != '-', 2 ^ (8 - i)) ((hentry _).mpr ⟨i, hi, letter, hletter, rfl⟩)
    rwa [and_two_pow_ne_zero, ← Bool.eq_iff_iff] at hb
  · intro h b hb
    obtain ⟨i, hi, letter, hletter, rfl⟩ := (hentry b).mp hb
    rw [and_two_pow_ne_zero, h i hi letter hletter]

theorem guarded_iff {a b c d e : Prop} [Decidable a] [Decidable b] [Decidable c] [Decidable d]
    [Decidable e] : (if a then false else if b then false else if c then false
      else if d then false else if e then false else true) = true ↔ ¬a ∧ ¬b ∧ ¬c ∧ ¬d ∧ ¬e := by
  split_ifs <;> simp_all

theorem checkCriteria_iff (c : Criteria) (stat : FileStat) (name : List Char) :
    checkCriteria stat c name = true ↔ c.Plain ∧ Meets c stat name := by
  have hany : ∀ (given : Option (List Char)) (p : List Char → Bool),
      ¬ given.any (fun x => !p x) = true ↔ ∀ x, given = some x → p x = true := by
    intro given p
    cases given <;> simp
  have htype := matchType_iff stat.type c.type
  rw [checkCriteria, guarded_iff, hany, hany]
  constructor
  · rintro ⟨hsize, hname, hkind, hperm, hlinks⟩
    have hword := fun pattern hpattern =>
      (matchFilename_iff pattern name).mp (hname pattern hpattern)
    refine ⟨fun pattern hpattern => (hword pattern hpattern).1, ?_, ?_, ?_, ?_, ?_⟩
    · intro hgiven
      by_contra hne
      exact hsize ⟨hgiven, hne⟩
    · intro pattern hpattern
      exact (hword pattern hpattern).2
    · intro hgiven
      by_contra hne
      exact hkind ⟨hgiven, by rwa [← Bool.not_eq_true, htype]⟩
    · intro permissions hgiven
      exact (matchPermission_iff permissions stat).mp (hperm permissions hgiven)
    · intro hgiven
      by_contra hne
      exact hlinks ⟨hgiven, hne⟩
  · rintro ⟨hplain, h⟩
    refine ⟨fun hs => hs.2 (h.size hs.1), ?_, ?_, ?_, fun hl => hl.2 (h.nlinks hl.1)⟩
    · intro pattern hpattern
      exact (matchFilename_iff pattern name).mpr
          ⟨hplain pattern hpattern, h.filename pattern hpattern⟩
    · rintro ⟨hgiven, hno⟩
      rw [htype.mpr (h.type hgiven)] at hno
      cases hno
    · intro permissions hgiven
      exact (matchPermission_iff permissions stat).mpr (h.permissions permissions hgiven)

/-! ### What the arguments say -/

def Criteria.given (c : Criteria) (args : List (Char × List Char)) : Criteria where
  path := lastGiven 'w' some c.path args
  filename := lastGiven 'f' some c.filename args
  size := lastGiven 'b' atoi c.size args
  type := lastGiven 't' (·.headD '\x00') c.type args
  permissions := lastGiven 'p' some c.permissions args
  nlinks := lastGiven 'l' atoi c.nlinks args

theorem given_cons (c : Criteria) (arg : Char × List Char) (rest : List (Char × List Char)) :
    c.given (arg :: rest) = (c.given [arg]).given rest := rfl

theorem given_unknown (c : Criteria) {arg : Char × List Char}
    (h : ∀ letter ∈ ['w', 'f', 'b', 't', 'p', 'l'], arg.1 ≠ letter) : c.given [arg] = c := by
  simp only [List.mem_cons, List.not_mem_nil, or_false, forall_eq_or_imp, forall_eq] at h
  simp only [Criteria.given, lastGiven, h, if_false]

theorem parseCriteria_cons (c : Criteria) (arg : Char × List Char)
    (rest : List (Char × List Char)) : parseCriteria c (arg :: rest) =
      if arg.1 = 'p' ∧ arg.2.length ≠ 9 then none else parseCriteria (c.given [arg]) rest := by
  obtain ⟨letter, optarg⟩ := arg
  by_cases hknown : letter ∈ ['w', 'f', 'b', 't', 'p', 'l']
  · simp only [List.mem_cons, List.not_mem_nil, or_false] at hknown
    rcases hknown with rfl | rfl | rfl | rfl | rfl | rfl
    case inr.inr.inr.inr.inl =>
      rw [parseCriteria]
      simp only [true_and]
      rfl
    all_goals
      rw [if_neg (by simp)]
      rfl
  · have hunknown : ∀ l ∈ ['w', 'f', 'b', 't', 'p', 'l'], letter ≠ l := fun l hl heq =>
      hknown (heq ▸ hl)
    rw [given_unknown c hunknown, if_neg (fun h => hunknown 'p' (by simp) h.1)]
    simp only [List.mem_cons, List.not_mem_nil, or_false, not_or] at hknown
    rw [parseCriteria] <;> simp_all

theorem parseCriteria_iff {c c' : Criteria} {args : List (Char × List Char)} :
    parseCriteria c args = some c' ↔
      (∀ arg ∈ args, arg.1 = 'p' → arg.2.length = 9) ∧ c.given args = c' := by
  induction args generalizing c with
  | nil => simp [parseCriteria, Criteria.given, lastGiven]
  | cons arg rest ih =>
    rw [parseCriteria_cons, given_cons, List.forall_mem_cons]
    split_ifs with hbad
    · simp [hbad.1, hbad.2]
    · have hfits : arg.1 = 'p' → arg.2.length = 9 := fun hp => by
        by_contra hne
        exact hbad ⟨hp, hne⟩
      rw [ih, and_assoc]
      exact (and_iff_right hfits).symm

/-! ### The walk -/

/-- An entry with the names of the directories that lead to it from the root. -/
structure Visit where
  dirs : List (List Char)
  name : List Char
  stat : FileStat
  deriving DecidableEq

def Visit.under (name : List Char) (v : Visit) : Visit := { v with dirs := name :: v.dirs }

def Visit.Below (v w : Visit) : Prop := v.dirs ++ [v.name] <+: w.dirs

structure Listed (fs : FileSystem) (path name : List Char) (stat : FileStat) : Prop where
  mem : name ∈ fs.listing path
  dot : isDot name = false
  fits : (fullPath path name).length < 1024
  lstat : fs.lstat (fullPath path name) = some stat

inductive Visited (fs : FileSystem) : List Char → Visit → Prop where
  | entry {path name : List Char} {stat : FileStat} :
      Listed fs path name stat → Visited fs path ⟨[], name, stat⟩
  | deeper {path name : List Char} {stat : FileStat} {v : Visit} :
      Listed fs path name stat → stat.type = .directory → Visited fs (fullPath path name) v →
        Visited fs path (v.under name)

section
variable (fs : FileSystem)

def visits (path : List Char) : List Visit :=
  (fs.listing path).flatMap fun name =>
    if isDot name then []
    else if _ : 1024 ≤ (fullPath path name).length then []
    else match fs.lstat (fullPath path name) with
      | none => []
      | some stat => ⟨[], name, stat⟩ ::
          if stat.type = .directory then (visits (fullPath path name)).map (·.under name) else []
termination_by 1024 - path.length
decreasing_by
  rename_i hlong
  simp only [fullPath, List.length_append, List.length_cons] at hlong ⊢
  omega

def visitsAt (path name : List Char) : List Visit :=
  if isDot name then []
  else if 1024 ≤ (fullPath path name).length then []
  else match fs.lstat (fullPath path name) with
    | none => []
    | some stat => ⟨[], name, stat⟩ ::
        if stat.type = .directory then (visits fs (fullPath path name)).map (·.under name) else []

end

variable {fs : FileSystem} {c : Criteria}

theorem visits_eq (path : List Char) :
    visits fs path = (fs.listing path).flatMap (visitsAt fs path) := by
  rw [visits]
  rfl

theorem visitsAt_listed {path name : List Char} {stat : FileStat} (h : Listed fs path name stat) :
    visitsAt fs path name = ⟨[], name, stat⟩ ::
      if stat.type = .directory then (visits fs (fullPath path name)).map (·.under name)
      else [] := by
  simp only [visitsAt, h.dot, not_le.mpr h.fits, h.lstat, Bool.false_eq_true, if_false]

theorem visitsAt_unlisted {path name : List Char} (hmem : name ∈ fs.listing path)
    (h : ∀ stat, ¬ Listed fs path name stat) : visitsAt fs path name = [] := by
  unfold visitsAt
  split_ifs with hdot hlong
  · rfl
  · rfl
  · cases hstat : fs.lstat (fullPath path name) with
    | none => rfl
    | some stat =>
      exact absurd ⟨hmem, Bool.not_eq_true _ ▸ hdot, not_le.mp hlong, hstat⟩ (h stat)

theorem visitsAt_cases {path name : List Char} (hmem : name ∈ fs.listing path) :
    visitsAt fs path name = [] ∨ ∃ stat, Listed fs path name stat ∧
      ((stat.type ≠ .directory ∧ visitsAt fs path name = [⟨[], name, stat⟩]) ∨
        (stat.type = .directory ∧ visitsAt fs path name =
          ⟨[], name, stat⟩ :: (visits fs (fullPath path name)).map (·.under name))) := by
  by_cases h : ∃ stat, Listed fs path name stat
  · obtain ⟨stat, hlisted⟩ := h
    have hat := visitsAt_listed hlisted
    split_ifs at hat with hdir
    · exact Or.inr ⟨stat, hlisted, Or.inr ⟨hdir, hat⟩⟩
    · exact Or.inr ⟨stat, hlisted, Or.inl ⟨hdir, hat⟩⟩
  · exact Or.inl (visitsAt_unlisted hmem (not_exists.mp h))

/-- Every entry that is looked at has a longer path, and none fills the buffer. -/
theorem walk_induction (fs : FileSystem) {P : List Char → Prop}
    (hstep : ∀ path, (∀ name stat, Listed fs path name stat → P (fullPath path name)) → P path)
    (path : List Char) : P path := by
  apply hstep
  intro name stat hlisted
  exact walk_induction fs hstep (fullPath path name)
termination_by 1024 - path.length
decreasing_by
  have hlen := length_fullPath path name
  have hfits := hlisted.fits
  omega

def GoesOn (fs : FileSystem) (path name path' : List Char) : Prop :=
  ∃ stat, Listed fs path name stat ∧ stat.type = .directory ∧ path' = fullPath path name

theorem rank_of_goesOn {path name path' : List Char} (h : GoesOn fs path name path') :
    1024 - path'.length < 1024 - path.length := by
  obtain ⟨stat, hlisted, -, rfl⟩ := h
  have hlen := length_fullPath path name
  have hfits := hlisted.fits
  omega

theorem mem_visitsAt {path name : List Char} (hmem : name ∈ fs.listing path) {v : Visit} :
    v ∈ visitsAt fs path name ↔ (∃ stat, Listed fs path name stat ∧ v = ⟨[], name, stat⟩) ∨
      ∃ path' w, GoesOn fs path name path' ∧ w ∈ visits fs path' ∧ w.under name = v := by
  constructor
  · intro hv
    rcases visitsAt_cases hmem with hnone | ⟨stat, hlisted, ⟨-, hat⟩ | ⟨hdir, hat⟩⟩
    · rw [hnone] at hv
      cases hv
    · rw [hat, List.mem_singleton] at hv
      exact Or.inl ⟨stat, hlisted, hv⟩
    · rw [hat, List.mem_cons] at hv
      rcases hv with hv | hv
      · exact Or.inl ⟨stat, hlisted, hv⟩
      · obtain ⟨w, hw, hunder⟩ := List.mem_map.mp hv
        exact Or.inr ⟨_, w, ⟨stat, hlisted, hdir, rfl⟩, hw, hunder⟩
  · rintro (⟨stat, hlisted, rfl⟩ | ⟨_, w, ⟨stat, hlisted, hdir, rfl⟩, hw, rfl⟩)
    · rw [visitsAt_listed hlisted]
      exact List.mem_cons_self
    · rw [visitsAt_listed hlisted, if_pos hdir]
      exact List.mem_cons_of_mem _ (List.mem_map_of_mem hw)

theorem mem_visits {path : List Char} {v : Visit} : v ∈ visits fs path ↔ Visited fs path v := by
  refine @Directories.encounters_unique _ _ _ fs.toDirectories
    (fun path name v => ∃ stat, Listed fs path name stat ∧ v = ⟨[], name, stat⟩) (GoesOn fs)
    (fun name w => w.under name) (fun path v => v ∈ visits fs path) (Visited fs)
    (fun path => 1024 - path.length) rank_of_goesOn ?_ ?_ path v
  · intro path v
    rw [visits_eq, List.mem_flatMap]
    exact exists_congr fun name => and_congr_right fun hname => mem_visitsAt hname
  · intro path v
    constructor
    · rintro (hlisted | ⟨hlisted, hdir, hv⟩)
      · exact ⟨_, hlisted.mem, Or.inl ⟨_, hlisted, rfl⟩⟩
      · exact ⟨_, hlisted.mem, Or.inr ⟨_, _, ⟨_, hlisted, hdir, rfl⟩, hv, rfl⟩⟩
    · rintro ⟨name, -, ⟨stat, hlisted, rfl⟩ | ⟨_, w, ⟨stat, hlisted, hdir, rfl⟩, hw, rfl⟩⟩
      · exact .entry hlisted
      · exact .deeper hlisted hdir hw

/-! ### The order of the walk -/

/-- The entries below an entry are those that follow it directly. -/
def DepthFirst (walk : List Visit) : Prop :=
  ∀ v ∈ walk, ∃ before below after, walk = before ++ v :: (below ++ after) ∧
    (∀ w ∈ below, v.Below w) ∧ ∀ w ∈ before ++ after, ¬ v.Below w

theorem depthFirst_nil : DepthFirst [] := by
  intro v hv
  cases hv

def Visit.first (v : Visit) : List Char := v.dirs.headD v.name

theorem first_of_below {v w : Visit} (h : v.Below w) : v.first = w.first := by
  obtain ⟨rest, hrest⟩ := h
  cases hdirs : v.dirs with
  | nil => simp [Visit.first, ← hrest, hdirs]
  | cons name dirs => simp [Visit.first, ← hrest, hdirs]

theorem not_below_entry (v : Visit) (name : List Char) (stat : FileStat) :
    ¬ v.Below ⟨[], name, stat⟩ := by
  intro h
  have hnil := List.prefix_nil.mp h
  exact List.append_ne_nil_of_right_ne_nil _ (List.cons_ne_nil _ _) hnil

theorem below_under_iff (v w : Visit) (name : List Char) :
    (v.under name).Below (w.under name) ↔ v.Below w :=
  List.prefix_cons_inj name

theorem first_visitsAt {path name : List Char} (hmem : name ∈ fs.listing path) {v : Visit}
    (h : v ∈ visitsAt fs path name) : v.first = name := by
  rcases visitsAt_cases hmem with hnone | ⟨stat, -, ⟨-, hat⟩ | ⟨-, hat⟩⟩
  · rw [hnone] at h
    cases h
  · rw [hat, List.mem_singleton] at h
    rw [h]
    rfl
  · rw [hat, List.mem_cons] at h
    rcases h with rfl | h
    · rfl
    · obtain ⟨w, -, rfl⟩ := List.mem_map.mp h
      rfl

theorem depthFirst_directory {walk : List Visit} (h : DepthFirst walk) (name : List Char)
    (stat : FileStat) : DepthFirst (⟨[], name, stat⟩ :: walk.map (·.under name)) := by
  intro v hv
  rcases List.mem_cons.mp hv with rfl | hv
  · refine ⟨[], walk.map (·.under name), [], by simp, ?_, by simp⟩
    intro w hw
    obtain ⟨u, -, rfl⟩ := List.mem_map.mp hw
    exact ⟨u.dirs, rfl⟩
  · obtain ⟨u, hu, rfl⟩ := List.mem_map.mp hv
    obtain ⟨before, below, after, heq, hbelow, hother⟩ := h u hu
    refine ⟨⟨[], name, stat⟩ :: before.map (·.under name), below.map (·.under name),
      after.map (·.under name), by simp [heq], ?_, ?_⟩
    · intro w hw
      obtain ⟨x, hx, rfl⟩ := List.mem_map.mp hw
      exact (below_under_iff u x name).mpr (hbelow x hx)
    · intro w hw
      rw [List.cons_append, ← List.map_append, List.mem_cons] at hw
      rcases hw with rfl | hw
      · exact not_below_entry _ name stat
      · obtain ⟨x, hx, rfl⟩ := List.mem_map.mp hw
        rw [below_under_iff]
        exact hother x hx

theorem depthFirst_flatMap {names : List (List Char)} {walkAt : List Char → List Visit}
    (hnames : names.Nodup) (hfirst : ∀ name ∈ names, ∀ v ∈ walkAt name, v.first = name)
    (h : ∀ name ∈ names, DepthFirst (walkAt name)) : DepthFirst (names.flatMap walkAt) := by
  intro v hv
  obtain ⟨name, hname, hmet⟩ := List.mem_flatMap.mp hv
  obtain ⟨before, below, after, heq, hbelow, hother⟩ := h name hname v hmet
  obtain ⟨front, back, rfl⟩ := List.append_of_mem hname
  have hapart : ∀ other ∈ front ++ back, ∀ w ∈ walkAt other, ¬ v.Below w := by
    intro other hmem w hw hvw
    have hall : other ∈ front ++ name :: back := by
      rw [List.mem_append, List.mem_cons]
      exact (List.mem_append.mp hmem).imp_right Or.inr
    have hsame := first_of_below hvw
    rw [hfirst name hname v hmet, hfirst other hall w hw] at hsame
    exact (List.nodup_middle.mp hnames).notMem (hsame ▸ hmem)
  refine ⟨front.flatMap walkAt ++ before, below, after ++ back.flatMap walkAt, ?_, hbelow, ?_⟩
  · simp [heq]
  · intro w hw
    simp only [List.mem_append, List.mem_flatMap] at hw hother
    rcases hw with (⟨other, hmem, hw⟩ | hw) | (hw | ⟨other, hmem, hw⟩)
    · exact hapart other (List.mem_append_left _ hmem) w hw
    · exact hother w (Or.inl hw)
    · exact hother w (Or.inr hw)
    · exact hapart other (List.mem_append_right _ hmem) w hw

theorem visits_depthFirst (fs : FileSystem) (path : List Char) : DepthFirst (visits fs path) := by
  induction path using walk_induction fs with | _ path ih
  rw [visits_eq]
  apply depthFirst_flatMap (fs.nodup_listing path)
  · intro name hname v hv
    exact first_visitsAt hname hv
  · intro name hname
    rcases visitsAt_cases hname with hnone | ⟨stat, hlisted, ⟨-, hat⟩ | ⟨-, hat⟩⟩
    · rw [hnone]
      exact depthFirst_nil
    · rw [hat]
      exact depthFirst_directory depthFirst_nil name stat
    · rw [hat]
      exact depthFirst_directory (ih name stat hlisted) name stat

theorem flatMap_sublist {α : Type*} {f : α → List α} {l : List α}
    (h : ∀ a ∈ l, (f a).Sublist [a]) : (l.flatMap f).Sublist l := by
  induction l with
  | nil => exact List.Sublist.slnil
  | cons a l ih =>
    rw [List.forall_mem_cons] at h
    rw [List.flatMap_cons]
    exact h.1.append (ih h.2)

theorem flatMap_sublist_of_single {α β : Type*} [DecidableEq α] {f : α → List β} {l : List α}
    {m : List β} (hl : l.Nodup) (a : α) (hother : ∀ b ∈ l, b ≠ a → f b = [])
    (ha : a ∈ l → (f a).Sublist m) : (l.flatMap f).Sublist m := by
  by_cases hmem : a ∈ l
  · obtain ⟨front, back, rfl⟩ := List.append_of_mem hmem
    have hapart := (List.nodup_middle.mp hl).notMem
    have hnil : ∀ part : List α, (∀ b ∈ part, b ∈ front ++ back) → part.flatMap f = [] := by
      intro part hpart
      rw [List.flatMap_eq_nil_iff]
      intro b hb
      refine hother b ?_ (fun heq => hapart (heq ▸ hpart b hb))
      rw [List.mem_append, List.mem_cons]
      exact (List.mem_append.mp (hpart b hb)).imp_right Or.inr
    rw [List.flatMap_append, List.flatMap_cons, hnil front (fun b => List.mem_append_left back),
      hnil back (fun b => List.mem_append_right front), List.nil_append, List.append_nil]
    exact ha hmem
  · have hnil : l.flatMap f = [] := by
      rw [List.flatMap_eq_nil_iff]
      intro b hb
      exact hother b hb (fun heq => hmem (heq ▸ hb))
    rw [hnil]
    exact List.nil_sublist m

/-- The names of one directory come in the order of its listing. -/
theorem siblings_sublist (fs : FileSystem) (dirs : List (List Char)) (path : List Char) :
    (((visits fs path).filter (·.dirs = dirs)).map (·.name)).Sublist
      (fs.listing (dirs.foldl fullPath path)) := by
  induction dirs generalizing path with
  | nil =>
    rw [visits_eq, List.filter_flatMap, List.map_flatMap]
    apply flatMap_sublist
    intro name hname
    rcases visitsAt_cases hname with hnone | ⟨stat, -, ⟨-, hat⟩ | ⟨-, hat⟩⟩
    · simp [hnone]
    · simp [hat]
    · simp [hat, List.filter_map, Visit.under, Function.comp_def]
  | cons name dirs ih =>
    rw [visits_eq, List.filter_flatMap, List.map_flatMap]
    apply flatMap_sublist_of_single (fs.nodup_listing path) name
    · intro other hmem hne
      rw [List.map_eq_nil_iff, List.filter_eq_nil_iff]
      intro v hv hdirs
      have hfirst := first_visitsAt hmem hv
      rw [Visit.first, of_decide_eq_true hdirs] at hfirst
      exact hne hfirst.symm
    · intro hmem
      rcases visitsAt_cases hmem with hnone | ⟨stat, -, ⟨-, hat⟩ | ⟨-, hat⟩⟩
      · simp [hnone]
      · simp [hat]
      · simpa [hat, List.filter_map, Visit.under, Function.comp_def] using ih (fullPath path name)

/-! ### The output of the walk -/

def shown (c : Criteria) (walk : List Visit) : List Visit :=
  walk.filter (fun v => checkCriteria v.stat c v.name)

def Visit.text (depth : ℕ) (v : Visit) : List Char := resultText v.name (depth + v.dirs.length)

structure Adds (c : Criteria) (depth : ℕ) (walk : List Visit) (out out' : Output) : Prop where
  stdout : out'.stdout = out.stdout ++ (shown c walk).flatMap (Visit.text depth)
  found : out'.found = out.found + (shown c walk).length

theorem adds_nil (c : Criteria) (depth : ℕ) (out : Output) : Adds c depth [] out out := by
  constructor
  · exact (List.append_nil _).symm
  · rfl

theorem adds_append {depth : ℕ} {walk walk' : List Visit} {out out' out'' : Output}
    (h : Adds c depth walk out out') (h' : Adds c depth walk' out' out'') :
    Adds c depth (walk ++ walk') out out'' := by
  have hshown : shown c (walk ++ walk') = shown c walk ++ shown c walk' :=
    List.filter_append walk walk'
  constructor
  · rw [h'.stdout, h.stdout, hshown, List.flatMap_append, List.append_assoc]
  · rw [h'.found, h.found, hshown, List.length_append, Nat.add_assoc]

theorem adds_under {depth : ℕ} {walk : List Visit} {out out' : Output}
    (h : Adds c (depth + 1) walk out out') (name : List Char) :
    Adds c depth (walk.map (·.under name)) out out' := by
  have hshown : shown c (walk.map (·.under name)) = (shown c walk).map (·.under name) :=
    List.filter_map
  constructor
  · rw [h.stdout, hshown, List.flatMap_map]
    congr 2
    funext v
    simp only [Visit.text, Visit.under, List.length_cons]
    congr 1
    omega
  · rw [h.found, hshown, List.length_map]

theorem adds_report {depth : ℕ} {out : Output} {line : Line} (h : line.stdout = []) :
    Adds c depth [] out (out.report line) := by
  constructor
  · simp [Output.stdout, Output.report, h, shown]
  · rfl

theorem adds_entry (c : Criteria) (depth : ℕ) (name : List Char) (stat : FileStat) (out : Output) :
    Adds c depth [⟨[], name, stat⟩] out
      (if checkCriteria stat c name then
        { out.report (.result name depth) with found := out.found + 1 } else out) := by
  split_ifs with hmeets
  · constructor
    · simp [Output.stdout, Output.report, Line.stdout, shown, hmeets, Visit.text]
    · simp [shown, hmeets]
  · constructor
    · simp [shown, hmeets]
    · simp [shown, hmeets]

theorem adds_foldl {depth : ℕ} {walkAt : List Char → List Visit}
    {step : Output → List Char → Output} {names : List (List Char)}
    (h : ∀ name ∈ names, ∀ out, Adds c depth (walkAt name) out (step out name)) (out : Output) :
    Adds c depth (names.flatMap walkAt) out (names.foldl step out) := by
  induction names generalizing out with
  | nil => exact adds_nil c depth out
  | cons name names ih =>
    rw [List.forall_mem_cons] at h
    exact adds_append (h.1 out) (ih h.2 (step out name))

theorem search_adds (fs : FileSystem) (c : Criteria) (path : List Char) (depth : ℕ)
    (out : Output) : Adds c depth (visits fs path) out (search fs c path depth out) := by
  induction path using walk_induction fs generalizing depth out with | _ path ih
  rw [search, visits_eq, Directories.listing]
  cases hopen : fs.opendir path with
  | none => exact adds_report rfl
  | some names =>
    apply adds_foldl
    intro name hname out
    have hmem : name ∈ fs.listing path := by
      rw [Directories.listing, hopen]
      exact hname
    rw [visitsAt]
    cases hdot : isDot name with
    | true => exact adds_nil c depth out
    | false =>
      by_cases hlong : 1024 ≤ (fullPath path name).length
      · simpa [hlong] using adds_report rfl
      · cases hstat : fs.lstat (fullPath path name) with
        | none => simpa [hlong, hstat] using adds_report rfl
        | some stat =>
          have hentry := adds_entry c depth name stat out
          by_cases hdir : stat.type = .directory
          · have hlisted : Listed fs path name stat := ⟨hmem, hdot, not_le.mp hlong, hstat⟩
            have hbelow := fun out => adds_under (ih name stat hlisted (depth + 1) out) name
            simpa [hlong, hstat, hdir] using adds_append hentry (hbelow _)
          · simpa [hlong, hstat, hdir] using hentry

theorem meets_iff (c : Criteria) (stat : FileStat) (name : List Char) : Meets c stat name ↔
    checkCriteria stat { c with filename := none } name = true ∧
      ∀ pattern ∈ c.filename, matchRec pattern name = true := by
  rw [checkCriteria_iff]
  constructor
  · intro h
    refine ⟨⟨by simp [Criteria.Plain], h.size, by simp, h.type, h.permissions, h.nlinks⟩, ?_⟩
    intro pattern hpattern
    exact (matchRec_iff_mem_language pattern name).mpr (h.filename pattern hpattern)
  · rintro ⟨⟨-, h⟩, hname⟩
    refine ⟨h.size, ?_, h.type, h.permissions, h.nlinks⟩
    intro pattern hpattern
    exact (matchRec_iff_mem_language pattern name).mp (hname pattern hpattern)

instance (c : Criteria) (stat : FileStat) (name : List Char) : Decidable (Meets c stat name) :=
  decidable_of_iff _ (meets_iff c stat name).symm

theorem shown_of_plain {c : Criteria} (h : c.Plain) (walk : List Visit) :
    shown c walk = walk.filter (fun v => Meets c v.stat v.name) := by
  rw [shown]
  congr 1
  funext v
  rw [Bool.eq_iff_iff, checkCriteria_iff, decide_eq_true_iff, and_iff_right h]

theorem shown_of_not_plain {c : Criteria} (h : ¬ c.Plain) (walk : List Visit) :
    shown c walk = [] := by
  rw [shown, List.filter_eq_nil_iff]
  intro v _
  rw [checkCriteria_iff]
  exact fun hmeets => h hmeets.1

def report (found : List Visit) : List Char :=
  if found = [] then "No file found!\n".toList else found.flatMap (Visit.text 1)

theorem report_eq_none_iff (found : List Visit) : report [] = report found ↔ found = [] := by
  cases found with
  | nil => simp
  | cons v found => simp [report, Visit.text, resultText]

theorem myFind_eq {args : List (Char × List Char)} {root : List Char}
    (hargs : ∀ arg ∈ args, arg.1 = 'p' → arg.2.length = 9)
    (hroot : lastGiven 'w' some none args = some root) (fs : FileSystem) :
    myFind fs args = (report (shown (Criteria.given {} args) (visits fs root)), 0) := by
  have hparsed : parseCriteria {} args = some (Criteria.given {} args) :=
    parseCriteria_iff.mpr ⟨hargs, rfl⟩
  have hpath : (Criteria.given {} args).path = some root := hroot
  have hadds := search_adds fs (Criteria.given {} args) root 1 ⟨[], 0⟩
  have hstdout := hadds.stdout
  have hfound := hadds.found
  simp only [Output.stdout, List.flatMap_nil, List.nil_append, Nat.zero_add] at hstdout hfound
  simp only [myFind, hparsed, hpath, Output.stdout, hstdout, hfound, List.length_eq_zero_iff,
    report]
  split_ifs with hnone
  · rw [hnone, List.flatMap_nil, List.nil_append]
  · rfl

theorem myFind_fails {args : List (Char × List Char)}
    (h : (∃ arg ∈ args, arg.1 = 'p' ∧ arg.2.length ≠ 9) ∨ lastGiven 'w' some none args = none)
    (fs : FileSystem) : myFind fs args = ([], 1) := by
  unfold myFind
  cases hparsed : parseCriteria {} args with
  | none => rfl
  | some c =>
    obtain ⟨hargs, rfl⟩ := parseCriteria_iff.mp hparsed
    have hpath : (Criteria.given {} args).path = none := by
      rcases h with ⟨arg, hmem, hp, hlen⟩ | hnone
      · exact absurd (hargs arg hmem hp) hlen
      · exact hnone
    simp only [hpath]

/-- The walk has every entry that can be reached once, depth first and each directory
in the order of its listing. The matches among them are printed in this order, except
that a pattern which repeats a repeated letter has none. -/
theorem myFind_prints_matches (fs : FileSystem) (args : List (Char × List Char)) :
    (((∃ arg ∈ args, arg.1 = 'p' ∧ arg.2.length ≠ 9) ∨ lastGiven 'w' some none args = none) →
      myFind fs args = ([], 1)) ∧
    ∀ root, (∀ arg ∈ args, arg.1 = 'p' → arg.2.length = 9) →
      lastGiven 'w' some none args = some root → ∃ walk : List Visit,
        (∀ v, v ∈ walk ↔ Visited fs root v) ∧ DepthFirst walk ∧
        (∀ dirs, ((walk.filter (·.dirs = dirs)).map (·.name)).Sublist
          (fs.listing (dirs.foldl fullPath root))) ∧
        ∀ found, found = walk.filter (fun v => Meets (Criteria.given {} args) v.stat v.name) →
          (myFind fs args = (report found, 0) ↔ (Criteria.given {} args).Plain ∨ found = []) ∧
          (¬ (Criteria.given {} args).Plain → myFind fs args = (report [], 0)) := by
  constructor
  · intro h
    exact myFind_fails h fs
  · intro root hargs hroot
    refine ⟨visits fs root, fun v => mem_visits, visits_depthFirst fs root,
      fun dirs => siblings_sublist fs dirs root, ?_⟩
    rintro found hfound
    have hout := myFind_eq hargs hroot fs
    by_cases hplain : (Criteria.given {} args).Plain
    · rw [shown_of_plain hplain, ← hfound] at hout
      simp [hplain, hout]
    · rw [shown_of_not_plain hplain] at hout
      simp [hplain, hout, report_eq_none_iff]

/-- A file `aab` beside a directory that cannot be opened. -/
def aabTree : FileSystem where
  opendir path := if path = "/r".toList then some ["d".toList, "aab".toList] else none
  lstat path :=
    if path = "/r/aab".toList then some ⟨.regular, 0o644, 5, 1⟩
    else if path = "/r/d".toList then some ⟨.directory, 0o755, 0, 2⟩
    else none
  nodup path names h := by
    split_ifs at h
    obtain rfl := Option.some.inj h
    decide

def aabArgs (pattern : String) : List (Char × List Char) :=
  [('w', "/r".toList), ('f', pattern.toList)]

theorem myFind_aab : (∃ found, ⟨[], "aab".toList, ⟨.regular, 0o644, 5, 1⟩⟩ ∈ found ∧
      myFind aabTree (aabArgs "a+b") = (report found, 0)) ∧
    myFind aabTree (aabArgs "a+ab") = (report [], 0) := by
  constructor
  · obtain ⟨walk, hmem, -, -, hout⟩ :=
      (myFind_prints_matches aabTree (aabArgs "a+b")).2 "/r".toList (by decide) rfl
    have hlisted : Listed aabTree "/r".toList "aab".toList ⟨.regular, 0o644, 5, 1⟩ :=
      ⟨by decide, by decide, by decide, by decide⟩
    have hplain : (Criteria.given {} (aabArgs "a+b")).Plain := by
      rintro pattern hpattern
      obtain rfl := Option.some.inj hpattern
      simp [SelfFree, patternAtoms, Atom.key]
    have hfound := (hout _ rfl).1.mpr (.inl hplain)
    refine ⟨_, List.mem_filter.mpr ⟨(hmem _).mpr (.entry hlisted), ?_⟩, hfound⟩
    decide
  · obtain ⟨walk, -, -, -, hout⟩ :=
      (myFind_prints_matches aabTree (aabArgs "a+ab")).2 "/r".toList (by decide) rfl
    apply (hout _ rfl).2
    intro hplain
    have hfree := hplain "a+ab".toList rfl
    simp [SelfFree, patternAtoms, Atom.key] at hfree

end SysProg.HW1

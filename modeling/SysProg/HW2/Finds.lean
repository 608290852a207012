import SysProg.HW2.Scanned

/-!
# The matching files of a tree

`finds` lists the matching files below a directory, those of the scanned files that
the query selects. A worker reports those whose path fits its buffer; the parent's own
walk takes all of them, up to the bound on their number, unless it enters a directory
whose path fills the buffer.
-/

namespace SysProg.HW2
open SysProg.Lib

def Query.selects (q : Query) (name : List Char) (size : ℕ) : Bool :=
  !q.tooSmall size && matchPattern q.pattern name

section
variable (fs : FileSystem) (q : Query)

def finds (path : List Char) : List Find :=
  (fs.listing path).flatMap fun name =>
    if isDot name then []
    else match fs.lstat (cutPath path name) with
      | some .directory =>
        if _ : path.length < (cutPath path name).length then finds (cutPath path name) else []
      | some (.regular size) => if q.selects name size then [⟨path, name, size⟩] else []
      | _ => []
termination_by 4095 - path.length
decreasing_by
  rename_i h
  have := length_cutPath_le path name
  omega

def findsAt (path name : List Char) : List Find :=
  if isDot name then []
  else match fs.lstat (cutPath path name) with
    | some .directory =>
      if path.length < (cutPath path name).length then finds fs q (cutPath path name) else []
    | some (.regular size) => if q.selects name size then [⟨path, name, size⟩] else []
    | _ => []

def reported (path : List Char) : List (List Char × ℕ) :=
  ((finds fs q path).filter (·.Fits)).map Find.pair

end

variable {fs : FileSystem} {q : Query}

theorem finds_eq (path : List Char) :
    finds fs q path = (fs.listing path).flatMap (findsAt fs q path) := by
  rw [finds]
  rfl

theorem findsAt_eq_filter (path name : List Char) : findsAt fs q path name =
    (scannedAt fs path name).filter (fun f => q.selects f.name f.size) := by
  unfold findsAt scannedAt
  cases hdot : isDot name with
  | true => simp
  | false =>
    rcases hstat : fs.lstat (cutPath path name) with _ | _ | size | _
    · simp
    · by_cases hlt : path.length < (cutPath path name).length
      · simp only [hlt, if_true, Bool.false_eq_true, if_false]
        rw [finds_eq, scannedFiles_eq, List.filter_flatMap]
        congr 1
        funext below
        exact findsAt_eq_filter (cutPath path name) below
      · simp [hlt]
    · cases hsel : q.selects name size <;> simp [hsel]
    · simp
termination_by 4095 - path.length
decreasing_by
  have := length_cutPath_le path name
  omega

theorem finds_eq_filter (path : List Char) :
    finds fs q path = (scannedFiles fs path).filter (fun f => q.selects f.name f.size) := by
  rw [finds_eq, scannedFiles_eq, List.filter_flatMap]
  congr 1
  funext name
  exact findsAt_eq_filter path name

theorem mem_finds {path : List Char} {f : Find} :
    f ∈ finds fs q path ↔ FileIn fs path f ∧ q.selects f.name f.size = true := by
  rw [finds_eq_filter, List.mem_filter, mem_scannedFiles]

theorem find_entry {path : List Char} {f : Find} (h : f ∈ finds fs q path) :
    fs.IsEntry f.dir f.name ∧ fs.lstat (cutPath f.dir f.name) = some (.regular f.size) ∧
      q.selects f.name f.size = true := by
  obtain ⟨hfile, hsel⟩ := mem_finds.mp h
  obtain ⟨hentry, hstat⟩ := file_entry hfile
  exact ⟨hentry, hstat, hsel⟩

theorem prefix_of_find {path : List Char} {f : Find} (h : f ∈ finds fs q path) :
    path ++ ['/'] <+: f.dir ++ ['/'] := file_under (mem_finds.mp h).1

theorem find_sibling {path name : List Char} {size : ℕ} {f : Find} (h : f ∈ finds fs q path)
    (hentry : fs.IsEntry f.dir name) (hstat : fs.lstat (cutPath f.dir name) = some (.regular size))
    (hsel : q.selects name size = true) : ⟨f.dir, name, size⟩ ∈ finds fs q path :=
  mem_finds.mpr ⟨file_sibling (mem_finds.mp h).1 hentry hstat, hsel⟩

theorem finds_full {path : List Char} (h : path.length = 4095)
    (hstat : fs.lstat path = some .directory) : finds fs q path = [] := by
  rw [finds_eq_filter, scannedFiles_full h hstat, List.filter_nil]

theorem nodup_finds (path : List Char) : (finds fs q path).Nodup := by
  rw [finds_eq_filter]
  exact (nodup_scannedFiles path).filter _

/-! ### Workers -/

def reportedAt (fs : FileSystem) (q : Query) (path name : List Char) : List (List Char × ℕ) :=
  ((findsAt fs q path name).filter (·.Fits)).map Find.pair

theorem reported_eq (path : List Char) :
    reported fs q path = (fs.listing path).flatMap (reportedAt fs q path) := by
  rw [reported, finds_eq, List.filter_flatMap, List.map_flatMap]
  rfl

theorem reportedAt_dot {path name : List Char} (h : isDot name = true) :
    reportedAt fs q path name = [] := by
  simp [reportedAt, findsAt, h]

theorem reportedAt_not_fits {path name : List Char} (h : ¬(fullPath path name).length < 4096) :
    reportedAt fs q path name = [] := by
  have hlen := length_cutPath_of_not_fits h
  have hnone : (findsAt fs q path name).filter (·.Fits) = [] := by
    rw [List.filter_eq_nil_iff]
    intro f hf
    rw [findsAt_eq_filter] at hf
    rcases mem_scannedAt.mp (List.mem_of_mem_filter hf) with ⟨-, size, -, rfl⟩ | ⟨_, hgoes, hf⟩
    · simp only [Find.Fits, h, decide_false, Bool.false_eq_true, not_false_eq_true]
    · obtain ⟨-, hstat, -, rfl⟩ := hgoes
      rw [scannedFiles_full hlen hstat] at hf
      cases hf
  rw [reportedAt, hnone, List.map_nil]

theorem reportedAt_directory {path name : List Char} (hdot : isDot name = false)
    (hfits : (fullPath path name).length < 4096)
    (hstat : fs.lstat (fullPath path name) = some .directory) :
    reportedAt fs q path name = reported fs q (fullPath path name) := by
  have hlt : path.length < (fullPath path name).length := by
    rw [length_fullPath]
    omega
  simp [reportedAt, findsAt, hdot, cutPath_of_fits hfits, hstat, hlt, reported]

theorem reportedAt_regular {path name : List Char} {size : ℕ} (hdot : isDot name = false)
    (hfits : (fullPath path name).length < 4096)
    (hstat : fs.lstat (fullPath path name) = some (.regular size)) :
    reportedAt fs q path name =
      if q.selects name size then [(fullPath path name, size)] else [] := by
  have hcut := cutPath_of_fits hfits
  simp only [reportedAt, findsAt, hdot, hcut, hstat, Bool.false_eq_true, ↓reduceIte]
  split_ifs
  · simp [Find.Fits, hfits, Find.pair, hcut]
  · rfl

theorem reportedAt_special {path name : List Char} (hfits : (fullPath path name).length < 4096)
    (hstat : fs.lstat (fullPath path name) = none ∨ fs.lstat (fullPath path name) = some .other) :
    reportedAt fs q path name = [] := by
  unfold reportedAt findsAt
  rw [cutPath_of_fits hfits]
  rcases hstat with hstat | hstat <;> simp [hstat]

def WorkerOutput.add (out : WorkerOutput) (pairs : List (List Char × ℕ)) : WorkerOutput :=
  ⟨out.matched ++ pairs, out.matchCount + pairs.length⟩

theorem foldl_add {α : Type*} {step : WorkerOutput → α → WorkerOutput}
    {pairs : α → List (List Char × ℕ)} (hstep : ∀ out a, step out a = out.add (pairs a))
    (l : List α) (out : WorkerOutput) : l.foldl step out = out.add (l.flatMap pairs) := by
  induction l generalizing out with
  | nil => simp [WorkerOutput.add]
  | cons a l ih =>
    rw [List.foldl_cons, ih, hstep]
    simp [WorkerOutput.add, Nat.add_assoc]

theorem searchDir_eq (path : List Char) (out : WorkerOutput) :
    searchDir fs q path out = out.add (reported fs q path) := by
  rw [searchDir]
  cases hopen : fs.opendir path with
  | none => simp [WorkerOutput.add, reported_eq, Directories.listing, hopen]
  | some names =>
    rw [reported_eq, Directories.listing, hopen, Option.getD_some]
    refine foldl_add ?_ names out
    intro out name
    cases hdot : isDot name with
    | true => simp [reportedAt_dot hdot, WorkerOutput.add]
    | false =>
      by_cases hfits : (fullPath path name).length < 4096
      · have hlen := length_fullPath path name
        rw [dif_neg (not_le.mpr hfits)]
        rcases hstat : fs.lstat (fullPath path name) with _ | _ | size | _
        · simp [reportedAt_special hfits (.inl hstat), WorkerOutput.add]
        · rw [reportedAt_directory hdot hfits hstat]
          simp only [Bool.false_eq_true, ↓reduceIte]
          exact searchDir_eq (fullPath path name) out
        · rw [reportedAt_regular hdot hfits hstat]
          cases hsmall : q.tooSmall size <;> cases hmatch : matchPattern q.pattern name <;>
            simp [Query.selects, hsmall, hmatch, WorkerOutput.add]
        · simp [reportedAt_special hfits (.inr hstat), WorkerOutput.add]
      · simp [reportedAt_not_fits hfits, not_lt.mp hfits, WorkerOutput.add]
termination_by 4096 - path.length

theorem runWorker_eq (dirs : List (List Char)) : runWorker fs q dirs =
    ⟨dirs.flatMap (reported fs q), (dirs.flatMap (reported fs q)).length⟩ := by
  rw [runWorker, foldl_add (fun out dir => searchDir_eq dir out)]
  simp [WorkerOutput.add]

/-! ### The parent's own walk -/

def Find.entry (pid : ℤ) (f : Find) : MatchEntry := ⟨cutPath f.dir f.name, f.size, pid⟩

def store (q : Query) (pid : ℤ) (entries : List MatchEntry) (f : Find) : List MatchEntry :=
  if q.tooSmall f.size then entries
  else if matchPattern q.pattern f.name && entries.length < maxMatches then
    entries ++ [⟨(cutPath f.dir f.name).take 4095, f.size, pid⟩]
  else entries

theorem collectMatches_eq_walkTree (pid : ℤ) (fuel : ℕ) (path : List Char)
    (entries : List MatchEntry) :
    collectMatches fs q pid fuel path entries = walkTree fs (store q pid) fuel path entries := by
  induction fuel generalizing path entries with
  | zero => rfl
  | succ fuel ih =>
    have hstep : (fun entries name =>
        if isDot name then some entries
        else match fs.lstat (cutPath path name) with
          | some .directory => collectMatches fs q pid fuel (cutPath path name) entries
          | some (.regular size) =>
            if q.tooSmall size then some entries
            else if matchPattern q.pattern name && entries.length < maxMatches then
              some (entries ++ [⟨(cutPath path name).take 4095, size, pid⟩])
            else some entries
          | _ => some entries) =
        walkStep fs (store q pid) (walkTree fs (store q pid) fuel) path := by
      funext entries name
      unfold walkStep
      cases hdot : isDot name with
      | true => rfl
      | false =>
        rcases hstat : fs.lstat (cutPath path name) with _ | _ | size | _
        · rfl
        · simpa using ih (cutPath path name) entries
        · simp only [store, Bool.false_eq_true, if_false]
          split_ifs <;> rfl
        · rfl
    rw [collectMatches, walkTree, ← hstep, Directories.listing]
    cases fs.opendir path <;> rfl

theorem foldl_store (pid : ℤ) (files : List Find) {entries : List MatchEntry}
    (hroom : entries.length ≤ maxMatches) : files.foldl (store q pid) entries =
      (entries ++ (files.filter (fun f => q.selects f.name f.size)).map (Find.entry pid)).take
        maxMatches := by
  induction files generalizing entries with
  | nil => simp [List.take_of_length_le hroom]
  | cons f files ih =>
    have hpath : (cutPath f.dir f.name).take 4095 = cutPath f.dir f.name :=
      List.take_of_length_le (length_cutPath_le f.dir f.name)
    rw [List.foldl_cons]
    by_cases hsel : q.selects f.name f.size = true
    · rw [List.filter_cons, if_pos hsel, List.map_cons]
      simp only [Query.selects, Bool.and_eq_true, Bool.not_eq_true'] at hsel
      by_cases hless : entries.length < maxMatches
      · have hstore : store q pid entries f = entries ++ [f.entry pid] := by
          simp [store, hsel.1, hsel.2, hless, hpath, Find.entry]
        have hroom' : (entries ++ [f.entry pid]).length ≤ maxMatches := by
          rw [List.length_append]
          exact hless
        rw [hstore, ih hroom', List.append_assoc]
        rfl
      · have hfull : entries.length = maxMatches := by omega
        have hstore : store q pid entries f = entries := by
          simp [store, hsel.1, hless]
        rw [hstore, ih hroom, List.take_append_of_le_length hfull.ge,
          List.take_append_of_le_length hfull.ge]
    · have hstore : store q pid entries f = entries := by
        simp only [Query.selects, Bool.and_eq_true, Bool.not_eq_true', not_and,
          Bool.not_eq_true] at hsel
        unfold store
        cases hsmall : q.tooSmall f.size with
        | true => rfl
        | false => simp [hsel hsmall]
      rw [List.filter_cons, if_neg hsel, hstore, ih hroom]

theorem collect_eq {pid : ℤ} {fuel : ℕ} {path : List Char} {entries result : List MatchEntry}
    (hroom : entries.length ≤ maxMatches)
    (h : collectMatches fs q pid fuel path entries = some result) :
    result = (entries ++ (finds fs q path).map (Find.entry pid)).take maxMatches := by
  rw [collectMatches_eq_walkTree] at h
  rw [walkTree_eq h, foldl_store pid _ hroom, finds_eq_filter]

theorem collect_returns {pid : ℤ} {root : List Char} (h : Shallow fs root) {fuel : ℕ}
    (hfuel : 4095 ≤ root.length + fuel) (entries : List MatchEntry) :
    ∃ result, collectMatches fs q pid (fuel + 1) root entries = some result := by
  rw [collectMatches_eq_walkTree]
  exact walkTree_returns h .root hfuel entries

theorem collect_diverges {pid : ℤ} {root : List Char} (h : ¬Shallow fs root) (fuel : ℕ)
    (entries : List MatchEntry) : collectMatches fs q pid fuel root entries = none := by
  rw [collectMatches_eq_walkTree]
  exact walkTree_diverges h fuel entries

end SysProg.HW2

import SysProg.HW2.Search

/-!
# The regular files of a tree

`scannedFiles` lists the regular files below a directory in the order of the
listings, each once, with the directory and the name it is met under.
`collect_matches` and `count_total_files` are one walk over them with a
different action: it returns unless it enters a directory whose path fills the
buffer and that has an entry, and then it has acted on each file in turn.
-/

namespace SysProg.HW2
open SysProg.Lib

structure Find where
  dir : List Char
  name : List Char
  size : ℕ
  deriving DecidableEq

namespace Find

def pair (f : Find) : List Char × ℕ := (cutPath f.dir f.name, f.size)

def Fits (f : Find) : Prop := (fullPath f.dir f.name).length < 4096

instance : DecidablePred Fits := fun _ => Nat.decLt _ _

end Find

/-! ### Paths -/

theorem cutPath_of_fits {path name : List Char} (h : (fullPath path name).length < 4096) :
    cutPath path name = fullPath path name :=
  List.take_of_length_le (Nat.le_of_lt_succ h)

theorem length_cutPath_le (path name : List Char) : (cutPath path name).length ≤ 4095 :=
  List.length_take_le _ _

theorem length_cutPath_of_not_fits {path name : List Char}
    (h : ¬(fullPath path name).length < 4096) : (cutPath path name).length = 4095 := by
  rw [cutPath, List.length_take]
  omega

theorem cutPath_of_full {path : List Char} (h : path.length = 4095) (name : List Char) :
    cutPath path name = path := by
  rw [cutPath, fullPath, List.take_append_of_le_length h.ge, List.take_of_length_le h.le]

theorem slash_prefix_fullPath (path name : List Char) : path ++ ['/'] <+: fullPath path name :=
  ⟨name, by simp [fullPath]⟩

theorem slash_prefix_cutPath {path name : List Char}
    (h : path.length < (cutPath path name).length) :
    path ++ ['/'] <+: cutPath path name := by
  have hlen := length_cutPath_le path name
  rw [cutPath, List.prefix_take_iff]
  refine ⟨slash_prefix_fullPath path name, ?_⟩
  rw [List.length_append, List.length_singleton]
  omega

section
variable (fs : FileSystem)

/-- The regular files of the tree in the order of the listings. -/
def scannedFiles (path : List Char) : List Find :=
  (fs.listing path).flatMap fun name =>
    if isDot name then []
    else match fs.lstat (cutPath path name) with
      | some .directory =>
        if _ : path.length < (cutPath path name).length then scannedFiles (cutPath path name)
        else []
      | some (.regular size) => [⟨path, name, size⟩]
      | _ => []
termination_by 4095 - path.length
decreasing_by
  rename_i h
  have := length_cutPath_le path name
  omega

def scannedAt (path name : List Char) : List Find :=
  if isDot name then []
  else match fs.lstat (cutPath path name) with
    | some .directory =>
      if path.length < (cutPath path name).length then scannedFiles fs (cutPath path name) else []
    | some (.regular size) => [⟨path, name, size⟩]
    | _ => []

end

variable {fs : FileSystem} {q : Query}

theorem scannedFiles_eq (path : List Char) :
    scannedFiles fs path = (fs.listing path).flatMap (scannedAt fs path) := by
  rw [scannedFiles]
  rfl

def FileSystem.IsEntry (fs : FileSystem) (path name : List Char) : Prop :=
  name ∈ fs.listing path ∧ isDot name = false

theorem noSlash_of_mem {path name : List Char} (h : name ∈ fs.listing path) : '/' ∉ name := by
  unfold Directories.listing at h
  cases hopen : fs.opendir path with
  | none =>
    rw [hopen] at h
    cases h
  | some names =>
    rw [hopen] at h
    exact fs.noSlash path names hopen name h

def FileAt (fs : FileSystem) (path name : List Char) (f : Find) : Prop :=
  isDot name = false ∧
    ∃ size, fs.lstat (cutPath path name) = some (.regular size) ∧ f = ⟨path, name, size⟩

def GoesOn (fs : FileSystem) (path name path' : List Char) : Prop :=
  isDot name = false ∧ fs.lstat (cutPath path name) = some .directory ∧
    path.length < (cutPath path name).length ∧ path' = cutPath path name

theorem mem_scannedAt {path name : List Char} {f : Find} : f ∈ scannedAt fs path name ↔
    FileAt fs path name f ∨ ∃ path', GoesOn fs path name path' ∧ f ∈ scannedFiles fs path' := by
  unfold scannedAt FileAt GoesOn
  cases hdot : isDot name with
  | true => simp
  | false =>
    rcases hstat : fs.lstat (cutPath path name) with _ | _ | size | _ <;> simp

/-- The way from a directory to a regular file below it. -/
inductive FileIn (fs : FileSystem) : List Char → Find → Prop
  | here {path name : List Char} {size : ℕ} (hentry : fs.IsEntry path name)
      (hstat : fs.lstat (cutPath path name) = some (.regular size)) :
      FileIn fs path ⟨path, name, size⟩
  | deeper {path name : List Char} {f : Find} (hentry : fs.IsEntry path name)
      (hstat : fs.lstat (cutPath path name) = some .directory)
      (hlt : path.length < (cutPath path name).length)
      (hf : FileIn fs (cutPath path name) f) : FileIn fs path f

theorem rank_of_goesOn {path name path' : List Char} (h : GoesOn fs path name path') :
    4095 - path'.length < 4095 - path.length := by
  obtain ⟨-, -, hlt, rfl⟩ := h
  have hlen := length_cutPath_le path name
  omega

theorem mem_scannedFiles {path : List Char} {f : Find} :
    f ∈ scannedFiles fs path ↔ FileIn fs path f := by
  refine @Directories.encounters_unique _ _ _ fs.toDirectories (FileAt fs) (GoesOn fs)
    (fun _ f => f) (fun path f => f ∈ scannedFiles fs path) (FileIn fs)
    (fun path => 4095 - path.length) rank_of_goesOn ?_ ?_ path f
  · intro path f
    rw [scannedFiles_eq, List.mem_flatMap]
    simp only [mem_scannedAt, Directories.Encounters, exists_eq_right_right]
  · intro path f
    constructor
    · rintro (⟨⟨hmem, hdot⟩, hstat⟩ | ⟨⟨hmem, hdot⟩, hstat, hlt, hf⟩)
      · exact ⟨_, hmem, Or.inl ⟨hdot, _, hstat, rfl⟩⟩
      · exact ⟨_, hmem, Or.inr ⟨_, f, ⟨hdot, hstat, hlt, rfl⟩, hf, rfl⟩⟩
    · rintro ⟨name, hmem, ⟨hdot, size, hstat, rfl⟩ | ⟨path', c, ⟨hdot, hstat, hlt, rfl⟩, hf, rfl⟩⟩
      · exact .here ⟨hmem, hdot⟩ hstat
      · exact .deeper ⟨hmem, hdot⟩ hstat hlt hf

theorem file_entry {path : List Char} {f : Find} (h : FileIn fs path f) :
    fs.IsEntry f.dir f.name ∧ fs.lstat (cutPath f.dir f.name) = some (.regular f.size) := by
  induction h with
  | here hentry hstat => exact ⟨hentry, hstat⟩
  | deeper hentry hstat hlt hf ih => exact ih

theorem file_dir {path : List Char} {f : Find} (h : FileIn fs path f) :
    f.dir = path ∨ fs.lstat f.dir = some .directory := by
  induction h with
  | here => exact Or.inl rfl
  | deeper hentry hstat hlt hf ih =>
    rcases ih with hdir | hdir
    · exact Or.inr (hdir ▸ hstat)
    · exact Or.inr hdir

theorem file_sibling {path name : List Char} {size : ℕ} {f : Find} (h : FileIn fs path f)
    (hentry : fs.IsEntry f.dir name)
    (hstat : fs.lstat (cutPath f.dir name) = some (.regular size)) :
    FileIn fs path ⟨f.dir, name, size⟩ := by
  induction h with
  | here => exact .here hentry hstat
  | deeper hentry' hstat' hlt hf ih => exact .deeper hentry' hstat' hlt (ih hentry hstat)

theorem file_under {path : List Char} {f : Find} (h : FileIn fs path f) :
    path ++ ['/'] <+: f.dir ++ ['/'] := by
  induction h with
  | here hentry hstat => exact List.prefix_rfl
  | deeper hentry hstat hlt hf ih =>
    exact (slash_prefix_cutPath hlt).trans ((List.prefix_append _ _).trans ih)

/-- Behind a directory whose path fills the buffer there is only that directory again. -/
theorem scannedFiles_full {path : List Char} (h : path.length = 4095)
    (hstat : fs.lstat path = some .directory) : scannedFiles fs path = [] := by
  rw [scannedFiles_eq, List.flatMap_eq_nil_iff]
  intro name _
  unfold scannedAt
  rw [cutPath_of_full h, hstat]
  simp

/-- The name that follows `root` in a path. -/
def component (root path : List Char) : List Char :=
  (path.drop (root.length + 1)).takeWhile (· ≠ '/')

theorem drop_fullPath (root name rest : List Char) :
    (fullPath root name ++ rest).drop (root.length + 1) = name ++ rest := by
  have hsplit : fullPath root name ++ rest = (root ++ ['/']) ++ (name ++ rest) := by
    simp [fullPath]
  rw [hsplit, List.drop_left' (by simp)]

theorem component_fullPath {root name : List Char} (h : '/' ∉ name) :
    component root (fullPath root name) = name := by
  have hdrop := drop_fullPath root name []
  rw [List.append_nil, List.append_nil] at hdrop
  rw [component, hdrop, List.takeWhile_eq_self_iff]
  intro c hc
  simpa using ne_of_mem_of_not_mem hc h

theorem component_of_prefix {root name path : List Char} (h : '/' ∉ name)
    (hpath : fullPath root name ++ ['/'] <+: path) : component root path = name := by
  obtain ⟨rest, rfl⟩ := hpath
  rw [component, List.append_assoc, drop_fullPath, List.takeWhile_append_of_pos]
  · simp
  · intro c hc
    simpa using ne_of_mem_of_not_mem hc h

theorem fullPath_inj {dir dir' name name' : List Char} (hname : '/' ∉ name) (hname' : '/' ∉ name')
    (h : fullPath dir name = fullPath dir' name') : dir = dir' ∧ name = name' := by
  have hlast : ∀ {d n : List Char}, '/' ∉ n →
      (fullPath d n).reverse.takeWhile (· ≠ '/') = n.reverse := by
    intro d n hn
    rw [fullPath, List.reverse_append, List.reverse_cons, List.append_assoc,
      List.takeWhile_append_of_pos]
    · simp
    · intro c hc
      simpa using ne_of_mem_of_not_mem (List.mem_reverse.mp hc) hn
  have hnames : name = name' := by
    have hrev := congrArg (fun path => path.reverse.takeWhile (· ≠ '/')) h
    simp only [hlast hname, hlast hname'] at hrev
    exact List.reverse_injective hrev
  subst hnames
  exact ⟨List.append_cancel_right h, rfl⟩

theorem component_of_scannedAt {path name : List Char} (hname : name ∈ fs.listing path) {f : Find}
    (hf : f ∈ scannedAt fs path name) : component path (fullPath f.dir f.name) = name := by
  have hslash := noSlash_of_mem hname
  rcases mem_scannedAt.mp hf with ⟨-, size, -, rfl⟩ | ⟨_, ⟨-, hstat, -, rfl⟩, hf⟩
  · exact component_fullPath hslash
  · by_cases hfits : (fullPath path name).length < 4096
    · rw [cutPath_of_fits hfits] at hf
      exact component_of_prefix hslash
        ((file_under (mem_scannedFiles.mp hf)).trans (slash_prefix_fullPath f.dir f.name))
    · rw [scannedFiles_full (length_cutPath_of_not_fits hfits) hstat] at hf
      cases hf

theorem nodup_scannedFiles (path : List Char) : (scannedFiles fs path).Nodup := by
  rw [scannedFiles_eq, List.nodup_flatMap]
  constructor
  · intro name _
    unfold scannedAt
    cases hdot : isDot name with
    | true => exact List.nodup_nil
    | false =>
      rcases hstat : fs.lstat (cutPath path name) with _ | _ | size | _
      · exact List.nodup_nil
      · by_cases hlt : path.length < (cutPath path name).length
        · simpa [hlt] using nodup_scannedFiles (cutPath path name)
        · simp [hlt]
      · exact List.nodup_singleton _
      · exact List.nodup_nil
  · refine (fs.nodup_listing path).imp_of_mem ?_
    intro name name' hname hname' hne f hf hf'
    apply hne
    rw [← component_of_scannedAt hname hf, component_of_scannedAt hname' hf']
termination_by 4095 - path.length
decreasing_by
  have := length_cutPath_le path name
  omega

/-! ### The walk of the parent -/

section
variable (fs : FileSystem)

/-- `none` when the recursion goes deeper than `fuel`. -/
def countTotalFiles : ℕ → List Char → Option ℕ
  | 0, _ => none
  | fuel + 1, path =>
    match fs.opendir path with
    | none => some 0
    | some names => names.foldlM (fun count name =>
        if isDot name then some count
        else match fs.lstat (cutPath path name) with
          | some .directory => (countTotalFiles fuel (cutPath path name)).map (count + ·)
          | some (.regular _) => some (count + 1)
          | _ => some count) 0

section
variable {σ : Type} (act : σ → Find → σ)

/-- The loop over one directory: `act` at each regular file, `walk` at each directory. -/
def walkStep (walk : List Char → σ → Option σ) (path : List Char) (s : σ) (name : List Char) :
    Option σ :=
  if isDot name then some s
  else match fs.lstat (cutPath path name) with
    | some .directory => walk (cutPath path name) s
    | some (.regular size) => some (act s ⟨path, name, size⟩)
    | _ => some s

/-- What `collect_matches` and `count_total_files` have in common. -/
def walkTree : ℕ → List Char → σ → Option σ
  | 0, _, _ => none
  | fuel + 1, path, s => (fs.listing path).foldlM (walkStep fs act (walkTree fuel) path) s

end
end

section
variable {σ : Type} {act : σ → Find → σ}

theorem walkStep_directory {walk : List Char → σ → Option σ} {path name : List Char}
    (hdot : isDot name = false) (hstat : fs.lstat (cutPath path name) = some .directory) (s : σ) :
    walkStep fs act walk path s name = walk (cutPath path name) s := by
  simp [walkStep, hdot, hstat]

theorem length_eq_of_entry {path name : List Char} (hentry : fs.IsEntry path name)
    (h : ¬path.length < (cutPath path name).length) : path.length = 4095 := by
  have hopen : path.length < 4096 := by
    by_contra hlong
    have hnone := fs.pathMax path (not_lt.mp hlong)
    have hmem := hentry.1
    rw [Directories.listing, hnone] at hmem
    cases hmem
  have hlen := length_fullPath path name
  rw [cutPath, List.length_take] at h
  omega

/-- A directory whose path fills the buffer is entered again for each of its entries. -/
theorem walkTree_full {path name : List Char} (hfull : path.length = 4095)
    (hstat : fs.lstat path = some .directory) (hentry : fs.IsEntry path name) (fuel : ℕ) (s : σ) :
    walkTree fs act fuel path s = none := by
  induction fuel generalizing s with
  | zero => rfl
  | succ fuel ih =>
    refine foldlM_none hentry.1 ?_ s
    intro s
    have hcut := cutPath_of_full hfull name
    rw [walkStep_directory hentry.2 (by rw [hcut, hstat]), hcut]
    exact ih s

/-- Whenever the walk returns, it has acted on the regular files. -/
theorem walkTree_eq {fuel : ℕ} {path : List Char} {s t : σ}
    (h : walkTree fs act fuel path s = some t) : t = (scannedFiles fs path).foldl act s := by
  induction fuel generalizing path s t with
  | zero => cases h
  | succ fuel ih =>
    rw [walkTree] at h
    rw [scannedFiles_eq]
    refine foldlM_foldl ?_ h
    intro name hname s t hstep
    unfold walkStep at hstep
    unfold scannedAt
    cases hdot : isDot name with
    | true => simpa [hdot, eq_comm] using hstep
    | false =>
      rcases hstat : fs.lstat (cutPath path name) with _ | _ | size | _
      · simpa [hdot, hstat, eq_comm] using hstep
      · simp only [hdot, hstat, Bool.false_eq_true, if_false] at hstep
        by_cases hlt : path.length < (cutPath path name).length
        · simpa [hlt] using ih hstep
        · have hfull := length_eq_of_entry ⟨hname, hdot⟩ hlt
          rw [cutPath_of_full hfull] at hstat hstep
          rw [walkTree_full hfull hstat ⟨hname, hdot⟩] at hstep
          cases hstep
      · simpa [hdot, hstat, eq_comm] using hstep
      · simpa [hdot, hstat, eq_comm] using hstep

end

/-- The directories that `collect_matches` enters. -/
inductive Entered (fs : FileSystem) (root : List Char) : List Char → Prop
  | root : Entered fs root root
  | entry {path name : List Char} (hpath : Entered fs root path) (hentry : fs.IsEntry path name)
      (hstat : fs.lstat (cutPath path name) = some .directory) :
      Entered fs root (cutPath path name)

/-- No directory that the walk enters fills the buffer and has an entry. -/
def Shallow (fs : FileSystem) (root : List Char) : Prop :=
  ∀ path, Entered fs root path → path.length = 4095 → fs.lstat path = some .directory →
    ∀ name, ¬fs.IsEntry path name

theorem Shallow.lt {root path name : List Char} (h : Shallow fs root) (hpath : Entered fs root path)
    (hentry : fs.IsEntry path name) (hstat : fs.lstat (cutPath path name) = some .directory) :
    path.length < (cutPath path name).length := by
  by_contra hlt
  have hfull := length_eq_of_entry hentry hlt
  rw [cutPath_of_full hfull] at hstat
  exact h path hpath hfull hstat name hentry

section
variable {σ : Type} {act : σ → Find → σ}

theorem walkStep_returns {walk : List Char → σ → Option σ} {path name : List Char} {s : σ}
    (h : isDot name = false → fs.lstat (cutPath path name) = some .directory →
      ∃ t, walk (cutPath path name) s = some t) :
    ∃ t, walkStep fs act walk path s name = some t := by
  unfold walkStep
  cases hdot : isDot name with
  | true => exact ⟨s, rfl⟩
  | false =>
    rcases hstat : fs.lstat (cutPath path name) with _ | _ | size | _
    · exact ⟨s, rfl⟩
    · exact h hdot hstat
    · exact ⟨_, rfl⟩
    · exact ⟨s, rfl⟩

/-- Every step down makes the path longer, so the walk comes to an end. -/
theorem walkTree_returns {root : List Char} (h : Shallow fs root) {fuel : ℕ} {path : List Char}
    (hpath : Entered fs root path) (hfuel : 4095 ≤ path.length + fuel) (s : σ) :
    ∃ t, walkTree fs act (fuel + 1) path s = some t := by
  induction fuel generalizing path s with
  | zero =>
    refine foldlM_some ?_ s
    intro name hname s
    refine walkStep_returns ?_
    intro hdot hstat
    have hlt := h.lt hpath ⟨hname, hdot⟩ hstat
    have hlen := length_cutPath_le path name
    omega
  | succ fuel ih =>
    refine foldlM_some ?_ s
    intro name hname s
    refine walkStep_returns ?_
    intro hdot hstat
    have hlt := h.lt hpath ⟨hname, hdot⟩ hstat
    exact ih (hpath.entry ⟨hname, hdot⟩ hstat) (by omega) s

theorem walkTree_diverges {root : List Char} (h : ¬Shallow fs root) (fuel : ℕ) (s : σ) :
    walkTree fs act fuel root s = none := by
  simp only [Shallow, not_forall, not_not] at h
  obtain ⟨path, hpath, hfull, hstat, name, hentry⟩ := h
  have hloop : ∀ fuel s, walkTree fs act fuel path s = none := walkTree_full hfull hstat hentry
  clear hfull hstat hentry
  induction hpath generalizing fuel s with
  | root => exact hloop fuel s
  | entry hpath hentry hstat ih =>
    refine ih fuel s ?_
    intro fuel s
    cases fuel with
    | zero => rfl
    | succ fuel =>
      refine foldlM_none hentry.1 ?_ s
      intro s
      rw [walkStep_directory hentry.2 hstat]
      exact hloop fuel s

end

/-! ### The count -/

theorem walkTree_count (fs : FileSystem) (fuel : ℕ) (path : List Char) (n : ℕ) :
    walkTree fs (fun n _ => n + 1) fuel path n = (countTotalFiles fs fuel path).map (n + ·) := by
  induction fuel generalizing path n with
  | zero => rfl
  | succ fuel ih =>
    have hloop : ∀ names : List (List Char), ∀ n m,
        names.foldlM (walkStep fs (fun n _ => n + 1)
          (walkTree fs (fun n _ => n + 1) fuel) path) (n + m) =
        (names.foldlM (fun count name =>
          if isDot name then some count
          else match fs.lstat (cutPath path name) with
            | some .directory => (countTotalFiles fs fuel (cutPath path name)).map (count + ·)
            | some (.regular _) => some (count + 1)
            | _ => some count) m).map (n + ·) := by
      intro names
      induction names with
      | nil => intro n m; rfl
      | cons name names ihnames =>
        intro n m
        rw [List.foldlM_cons, List.foldlM_cons, walkStep]
        cases hdot : isDot name with
        | true => simpa using ihnames n m
        | false =>
          rcases hstat : fs.lstat (cutPath path name) with _ | _ | size | _
          · simpa using ihnames n m
          · simp only [Bool.false_eq_true, if_false, ih]
            cases countTotalFiles fs fuel (cutPath path name) with
            | none => rfl
            | some below => simpa [Nat.add_assoc] using ihnames n (m + below)
          · simpa [Nat.add_assoc] using ihnames n (m + 1)
          · simpa using ihnames n m
    have hstart := hloop (fs.listing path) n 0
    rw [walkTree, countTotalFiles]
    rw [Nat.add_zero] at hstart
    rw [hstart, Directories.listing]
    cases fs.opendir path <;> rfl

theorem countTotalFiles_eq {fuel : ℕ} {path : List Char} {total : ℕ}
    (h : countTotalFiles fs fuel path = some total) : total = (scannedFiles fs path).length := by
  have hwalk := walkTree_count fs fuel path 0
  rw [h, Option.map_some, Nat.zero_add] at hwalk
  have hcount : ∀ (files : List Find) n, files.foldl (fun n _ => n + 1) n = n + files.length := by
    intro files
    induction files with
    | nil => intro n; rfl
    | cons f files ih =>
      intro n
      rw [List.foldl_cons, ih, List.length_cons]
      omega
  rw [walkTree_eq hwalk, hcount, Nat.zero_add]

theorem countTotalFiles_returns {root : List Char} (h : Shallow fs root) {fuel : ℕ}
    (hfuel : 4095 ≤ root.length + fuel) :
    ∃ total, countTotalFiles fs (fuel + 1) root = some total := by
  have hreturns : ∃ t, walkTree fs (fun n _ => n + 1) (fuel + 1) root 0 = some t :=
    walkTree_returns h .root hfuel 0
  obtain ⟨t, ht⟩ := hreturns
  rw [walkTree_count] at ht
  obtain ⟨total, htotal, -⟩ := Option.map_eq_some_iff.mp ht
  exact ⟨total, htotal⟩

end SysProg.HW2

import SysProg.HW2.Finds
import Mathlib.Data.Finset.Card

/-!
# The workers' search and the parent's own

Every file that the workers report is reported by one of them. They report what the
walk from the root finds exactly when the walk finds nothing outside the listed
subdirectories: the workers never look at the files of the root itself.
-/

namespace SysProg.HW2
open SysProg.Lib
variable {fs : FileSystem} {q : Query}

/-! ### The listed subdirectories -/

def subdirOf (fs : FileSystem) (root name : List Char) : Option (List Char) :=
  if isDot name = false ∧ fs.lstat (cutPath root name) = some .directory then
    some (cutPath root name)
  else none

theorem listSubdirs_eq (root : List Char) (names : List (List Char)) {dirs : List (List Char)}
    (hroom : dirs.length ≤ maxSubdirs) : listSubdirs fs root names dirs =
      (dirs ++ names.filterMap (subdirOf fs root)).take maxSubdirs := by
  induction names generalizing dirs with
  | nil => rw [listSubdirs, List.filterMap_nil, List.append_nil, List.take_of_length_le hroom]
  | cons name names ih =>
    rw [listSubdirs]
    by_cases hless : dirs.length < maxSubdirs
    · rw [if_pos hless]
      cases hdot : isDot name with
      | true =>
        have hskip : subdirOf fs root name = none := by simp [subdirOf, hdot]
        rw [if_pos rfl, List.filterMap_cons_none hskip, ih hroom]
      | false =>
        rw [if_neg Bool.false_ne_true]
        by_cases hstat : fs.lstat (cutPath root name) = some .directory
        · have hlist : subdirOf fs root name = some (cutPath root name) := by
            simp [subdirOf, hdot, hstat]
          have hroom' : (dirs ++ [cutPath root name]).length ≤ maxSubdirs := by
            rw [List.length_append]
            exact hless
          rw [if_pos hstat, List.filterMap_cons_some hlist, ih hroom', List.append_assoc]
          rfl
        · have hskip : subdirOf fs root name = none := by simp [subdirOf, hstat]
          rw [if_neg hstat, List.filterMap_cons_none hskip, ih hroom]
    · have hfull : dirs.length = maxSubdirs := by omega
      rw [if_neg hless, List.take_append_of_le_length hfull.ge, List.take_of_length_le hroom]

theorem subdirs_eq (root : List Char) : subdirs fs root =
    ((fs.listing root).filterMap (subdirOf fs root)).take maxSubdirs := by
  rw [subdirs, listSubdirs_eq root _ (Nat.zero_le _), List.nil_append]
  rfl

theorem subdirOf_eq_some {root name dir : List Char} : subdirOf fs root name = some dir ↔
    (isDot name = false ∧ fs.lstat (cutPath root name) = some .directory) ∧
      cutPath root name = dir := by
  simp [subdirOf]

theorem mem_subdirs {root dir : List Char} (h : dir ∈ subdirs fs root) :
    ∃ name, fs.IsEntry root name ∧ fs.lstat (cutPath root name) = some .directory ∧
      dir = cutPath root name := by
  rw [subdirs_eq] at h
  obtain ⟨name, hname, hdir⟩ := List.mem_filterMap.mp (List.mem_of_mem_take h)
  obtain ⟨⟨hdot, hstat⟩, hdir⟩ := subdirOf_eq_some.mp hdir
  exact ⟨name, ⟨hname, hdot⟩, hstat, hdir.symm⟩

/-! ### One worker for each report -/

theorem mem_reported {path : List Char} {x : List Char × ℕ} : x ∈ reported fs q path ↔
    ∃ f ∈ finds fs q path, f.Fits ∧ f.pair = x := by
  simp only [reported, List.mem_map, List.mem_filter, decide_eq_true_eq, and_assoc]

theorem pair_of_fits {f : Find} (h : f.Fits) : f.pair = (fullPath f.dir f.name, f.size) := by
  rw [Find.pair, cutPath_of_fits h]

theorem reported_cutPath {root name : List Char} (hdot : isDot name = false)
    (hstat : fs.lstat (cutPath root name) = some .directory) :
    reported fs q (cutPath root name) = reportedAt fs q root name := by
  by_cases hfits : (fullPath root name).length < 4096
  · rw [cutPath_of_fits hfits] at hstat ⊢
    rw [reportedAt_directory hdot hfits hstat]
  · rw [reportedAt_not_fits hfits, reported, finds_full (length_cutPath_of_not_fits hfits) hstat]
    rfl

theorem component_of_reportedAt {root name : List Char} {x : List Char × ℕ}
    (hname : name ∈ fs.listing root) (hx : x ∈ reportedAt fs q root name) :
    component root x.1 = name := by
  obtain ⟨f, hf, rfl⟩ := List.mem_map.mp hx
  obtain ⟨hmem, hfits⟩ := List.mem_filter.mp hf
  rw [findsAt_eq_filter] at hmem
  rw [pair_of_fits (of_decide_eq_true hfits)]
  exact component_of_scannedAt hname (List.mem_of_mem_filter hmem)

theorem disjoint_reportedAt (path : List Char) :
    (fs.listing path).Pairwise (Function.onFun List.Disjoint (reportedAt fs q path)) := by
  refine (fs.nodup_listing path).imp_of_mem ?_
  intro name name' hname hname' hne x hx hx'
  refine hne ?_
  rw [← component_of_reportedAt hname hx, component_of_reportedAt hname' hx']

theorem pair_injOn {path : List Char} {f g : Find} (hf : f ∈ finds fs q path)
    (hg : g ∈ finds fs q path) (hffits : f.Fits) (hgfits : g.Fits) (h : f.pair = g.pair) :
    f = g := by
  rw [pair_of_fits hffits, pair_of_fits hgfits] at h
  obtain ⟨hpath, hsize⟩ := Prod.ext_iff.mp h
  obtain ⟨hdir, hname⟩ := fullPath_inj (noSlash_of_mem (find_entry hf).1.1)
    (noSlash_of_mem (find_entry hg).1.1) hpath
  obtain ⟨fdir, fname, fsize⟩ := f
  obtain ⟨gdir, gname, gsize⟩ := g
  exact Find.mk.injEq .. ▸ ⟨hdir, hname, hsize⟩

theorem nodup_reported (path : List Char) : (reported fs q path).Nodup := by
  apply ((nodup_finds path).filter _).map_on
  intro f hf g hg h
  rw [List.mem_filter, decide_eq_true_eq] at hf hg
  exact pair_injOn hf.1 hg.1 hf.2 hg.2 h

theorem disjoint_subdirs (root : List Char) :
    (subdirs fs root).Pairwise (Function.onFun List.Disjoint (reported fs q)) := by
  have hall : ((fs.listing root).filterMap (subdirOf fs root)).Pairwise
      (Function.onFun List.Disjoint (reported fs q)) := by
    rw [List.pairwise_filterMap]
    refine (disjoint_reportedAt (q := q) root).imp ?_
    intro name name' hdisjoint dir hdir dir' hdir'
    obtain ⟨⟨hdot, hstat⟩, rfl⟩ := subdirOf_eq_some.mp hdir
    obtain ⟨⟨hdot', hstat'⟩, rfl⟩ := subdirOf_eq_some.mp hdir'
    simp only [Function.onFun, reported_cutPath hdot hstat, reported_cutPath hdot' hstat']
    exact hdisjoint
  rw [subdirs_eq]
  exact hall.sublist (List.take_sublist _ _)

def allReported (fs : FileSystem) (q : Query) (root : List Char) : List (List Char × ℕ) :=
  (subdirs fs root).flatMap (reported fs q)

theorem nodup_allReported (root : List Char) : (allReported fs q root).Nodup := by
  rw [allReported, List.nodup_flatMap]
  exact ⟨fun dir _ => nodup_reported dir, disjoint_subdirs root⟩

def matchedBy (fs : FileSystem) (q : Query) (numWorkers : ℕ) (root : List Char) (w : ℕ) :
    List (List Char × ℕ) :=
  (runWorker fs q (workerDirs fs numWorkers root w)).matched

theorem dealDirs_eq (numWorkers : ℕ) (dirs : List (List Char)) (w : ℕ) :
    dealDirs numWorkers dirs w =
      (dirs.zipIdx.filter fun d => d.2 % numWorkers = w).map Prod.fst := by
  have hfold : ∀ (l : List (List Char × ℕ)) (wdirs : ℕ → List (List Char)),
      l.foldl (fun wdirs d =>
        Function.update wdirs (d.2 % numWorkers) (wdirs (d.2 % numWorkers) ++ [d.1])) wdirs w =
        wdirs w ++ (l.filter fun d => d.2 % numWorkers = w).map Prod.fst := by
    intro l
    induction l with
    | nil => simp
    | cons d l ih =>
      intro wdirs
      rw [List.foldl_cons, ih, List.filter_cons]
      by_cases hw : d.2 % numWorkers = w
      · simp [hw]
      · simp [hw, Function.update_of_ne (Ne.symm hw)]
  exact hfold _ _

theorem mem_matchedBy {numWorkers : ℕ} {root : List Char} {w : ℕ} {x : List Char × ℕ} :
    x ∈ matchedBy fs q numWorkers root w ↔ ∃ i, ∃ h : i < (subdirs fs root).length,
      i % workersUsed fs numWorkers root = w ∧ x ∈ reported fs q (subdirs fs root)[i] := by
  simp only [matchedBy, runWorker_eq, workerDirs, dealDirs_eq, List.mem_flatMap, List.mem_map,
    List.mem_filter, decide_eq_true_eq, Prod.exists, List.mem_zipIdx_iff_getElem?,
    List.getElem?_eq_some_iff]
  constructor
  · rintro ⟨dir, ⟨dir', i, ⟨⟨hi, hget⟩, hw⟩, rfl⟩, hx⟩
    rw [← hget] at hx
    exact ⟨i, hi, hw, hx⟩
  · rintro ⟨i, hi, hw, hx⟩
    exact ⟨_, ⟨_, i, ⟨⟨hi, rfl⟩, hw⟩, rfl⟩, hx⟩

theorem workersUsed_pos {numWorkers : ℕ} {root : List Char} (hworkers : 0 < numWorkers)
    (hroot : subdirs fs root ≠ []) : 0 < workersUsed fs numWorkers root := by
  unfold workersUsed
  split_ifs
  · exact List.length_pos_iff.mpr hroot
  · exact hworkers

theorem mem_allReported {numWorkers : ℕ} {root : List Char} (hworkers : 0 < numWorkers)
    (hroot : subdirs fs root ≠ []) {x : List Char × ℕ} : x ∈ allReported fs q root ↔
      ∃ w < workersUsed fs numWorkers root, x ∈ matchedBy fs q numWorkers root w := by
  simp only [allReported, List.mem_flatMap, mem_matchedBy]
  constructor
  · rintro ⟨dir, hdir, hx⟩
    obtain ⟨i, hi, rfl⟩ := List.getElem_of_mem hdir
    exact ⟨_, Nat.mod_lt i (workersUsed_pos hworkers hroot), i, hi, rfl, hx⟩
  · rintro ⟨w, -, i, hi, -, hx⟩
    exact ⟨_, List.getElem_mem hi, hx⟩

theorem matchedBy_unique {numWorkers : ℕ} {root : List Char} {w w' : ℕ} {x : List Char × ℕ}
    (h : x ∈ matchedBy fs q numWorkers root w) (h' : x ∈ matchedBy fs q numWorkers root w') :
    w = w' := by
  obtain ⟨i, hi, hw, hx⟩ := mem_matchedBy.mp h
  obtain ⟨j, hj, hw', hx'⟩ := mem_matchedBy.mp h'
  have hdisjoint := List.pairwise_iff_getElem.mp (@disjoint_subdirs fs q root)
  have hij : i = j := by
    rcases lt_trichotomy i j with hlt | heq | hgt
    · exact absurd hx' (hdisjoint i j hi hj hlt hx)
    · exact heq
    · exact absurd hx (hdisjoint j i hj hi hgt hx')
  rw [← hw, ← hw', hij]

/-! ### Finds that the workers report -/

/-- What the buffer holds of the name. -/
def Find.shortName (f : Find) : List Char := f.name.take (4094 - f.dir.length)

def Find.Inside (fs : FileSystem) (root : List Char) (f : Find) : Prop :=
  ∃ dir ∈ subdirs fs root, dir ++ ['/'] <+: fullPath f.dir f.name

/-- The name in the buffer is an entry of the same directory, and matches. -/
def Find.OwnName (fs : FileSystem) (q : Query) (f : Find) : Prop :=
  fs.IsEntry f.dir f.shortName ∧ q.selects f.shortName f.size = true

theorem cutPath_of_short {dir : List Char} (h : dir.length < 4095) (name : List Char) :
    cutPath dir name = fullPath dir (name.take (4094 - dir.length)) := by
  obtain ⟨k, hk⟩ : ∃ k, 4095 - dir.length = k + 1 := ⟨4094 - dir.length, by omega⟩
  have hk' : 4094 - dir.length = k := by omega
  rw [cutPath, fullPath, fullPath, List.take_append, List.take_of_length_le h.le, hk, hk',
    List.take_succ_cons]

theorem Shallow.length_lt {root : List Char} (h : Shallow fs root) (hroot : subdirs fs root ≠ []) :
    root.length < 4095 := by
  obtain ⟨dir, hdir⟩ := List.exists_mem_of_ne_nil _ hroot
  obtain ⟨name, hentry, hstat, -⟩ := mem_subdirs hdir
  exact (h.lt .root hentry hstat).trans_le (length_cutPath_le root name)

theorem length_dir_lt {root : List Char} (hroot : root.length < 4095) {f : Find}
    (hf : f ∈ finds fs q root) : f.dir.length < 4095 := by
  obtain ⟨hentry, hstat, -⟩ := find_entry hf
  rcases file_dir (mem_finds.mp hf).1 with hdir | hdir
  · rw [hdir]
    exact hroot
  · by_contra hlong
    have hfull : f.dir.length = 4095 := by
      refine length_eq_of_entry hentry ?_
      have hlen := length_cutPath_le f.dir f.name
      omega
    rw [cutPath_of_full hfull, hdir] at hstat
    cases hstat

theorem Shallow.subdir {root dir : List Char} (h : Shallow fs root) (hdir : dir ∈ subdirs fs root) :
    ∃ name, '/' ∉ name ∧ dir = fullPath root name := by
  have hroot := h.length_lt (List.ne_nil_of_mem hdir)
  obtain ⟨name, hentry, -, rfl⟩ := mem_subdirs hdir
  refine ⟨_, ?_, cutPath_of_short hroot name⟩
  intro hmem
  exact noSlash_of_mem hentry.1 (List.mem_of_mem_take hmem)

theorem find_of_inside {root : List Char} (h : Shallow fs root) {f : Find}
    (hf : f ∈ finds fs q root) (hinside : f.Inside fs root) :
    ∃ dir ∈ subdirs fs root, f ∈ finds fs q dir := by
  obtain ⟨dir, hdir, hpath⟩ := hinside
  refine ⟨dir, hdir, ?_⟩
  have hroot := h.length_lt (List.ne_nil_of_mem hdir)
  obtain ⟨name, hname, rfl⟩ := h.subdir hdir
  have hcomponent := component_of_prefix hname hpath
  obtain ⟨hfile, hsel⟩ := mem_finds.mp hf
  cases hfile with
  | @here _ found size hentry hstat =>
    -- a file of the root has no slash behind its name
    have hfound := noSlash_of_mem hentry.1
    rw [component_fullPath hfound] at hcomponent
    have hlen := hpath.length_le
    simp only [hcomponent, List.length_append, List.length_singleton] at hlen
    omega
  | @deeper _ entry _ hentry hstat hlt hdeep =>
    have hdeep := mem_finds.mpr ⟨hdeep, hsel⟩
    rw [cutPath_of_short hroot] at hdeep
    have hslash : '/' ∉ entry.take (4094 - root.length) := fun hmem =>
      noSlash_of_mem hentry.1 (List.mem_of_mem_take hmem)
    have hsame := component_of_prefix hslash
      ((prefix_of_find hdeep).trans (slash_prefix_fullPath f.dir f.name))
    rw [← hcomponent, hsame]
    exact hdeep

theorem pair_mem_allReported {root : List Char} (h : Shallow fs root)
    (hroot : subdirs fs root ≠ []) {f : Find} (hf : f ∈ finds fs q root) :
    f.pair ∈ allReported fs q root ↔ f.Inside fs root ∧ f.OwnName fs q := by
  have hshort := length_dir_lt (h.length_lt hroot) hf
  have hcut : cutPath f.dir f.name = fullPath f.dir f.shortName := cutPath_of_short hshort f.name
  obtain ⟨hentry, hstat, hsel⟩ := find_entry hf
  simp only [allReported, List.mem_flatMap, mem_reported]
  constructor
  · rintro ⟨dir, hdir, g, hg, hfits, hpair⟩
    obtain ⟨hgentry, -, hgsel⟩ := find_entry hg
    rw [pair_of_fits hfits, Find.pair, hcut, Prod.mk.injEq] at hpair
    obtain ⟨hpath, hsize⟩ := hpair
    have hslash : '/' ∉ f.shortName := fun hmem =>
      noSlash_of_mem hentry.1 (List.mem_of_mem_take hmem)
    obtain ⟨hdirs, hnames⟩ := fullPath_inj (noSlash_of_mem hgentry.1) hslash hpath
    refine ⟨⟨dir, hdir, ?_⟩, ?_, ?_⟩
    · rw [← hdirs]
      exact (prefix_of_find hg).trans (slash_prefix_fullPath g.dir f.name)
    · rw [← hdirs, ← hnames]
      exact hgentry
    · rw [← hnames, ← hsize]
      exact hgsel
  · rintro ⟨hinside, hown⟩
    obtain ⟨dir, hdir, hdeep⟩ := find_of_inside h hf hinside
    have hfits : (⟨f.dir, f.shortName, f.size⟩ : Find).Fits := by
      simp only [Find.Fits, length_fullPath, Find.shortName, List.length_take]
      omega
    have hcut' : cutPath f.dir f.shortName = cutPath f.dir f.name := by
      rw [cutPath_of_fits hfits, hcut]
    refine ⟨dir, hdir, ⟨f.dir, f.shortName, f.size⟩, ?_, hfits, ?_⟩
    · refine find_sibling hdeep hown.1 ?_ hown.2
      rw [hcut', hstat]
    · rw [Find.pair, Find.pair, hcut']

/-! ### Agreement -/

def Agrees (fs : FileSystem) (q : Query) (pid : ℤ) (numWorkers : ℕ) (root : List Char) : Prop :=
  (∃ fuel entries, collectMatches fs q pid fuel root [] = some entries ∧
    ∀ x : List Char × ℕ,
      (∃ w < workersUsed fs numWorkers root, x ∈ matchedBy fs q numWorkers root w) ↔
        ∃ e ∈ entries, e.path = x.1 ∧ e.size = x.2) ∧
  ∀ x : List Char × ℕ,
    (∃ w < workersUsed fs numWorkers root, x ∈ matchedBy fs q numWorkers root w) →
      ∃! w, w < workersUsed fs numWorkers root ∧ x ∈ matchedBy fs q numWorkers root w

def firstFinds (fs : FileSystem) (q : Query) (root : List Char) : List Find :=
  (finds fs q root).take maxMatches

structure Covered (fs : FileSystem) (q : Query) (root : List Char) : Prop where
  shallow : Shallow fs root
  /-- not in the root itself, nor in a subdirectory beyond the listed ones -/
  inside : ∀ f ∈ firstFinds fs q root, f.Inside fs root
  ownName : ∀ f ∈ firstFinds fs q root, f.OwnName fs q
  room : (((subdirs fs root).flatMap (finds fs q)).filter (·.Fits)).length ≤
    ((firstFinds fs q root).map Find.pair).dedup.length

theorem length_allReported (root : List Char) : (allReported fs q root).length =
    (((subdirs fs root).flatMap (finds fs q)).filter (·.Fits)).length := by
  rw [List.filter_flatMap, ← List.length_map (f := Find.pair), List.map_flatMap]
  rfl

theorem mem_entries {pid : ℤ} {root : List Char} {x : List Char × ℕ} :
    (∃ e ∈ ((finds fs q root).map (Find.entry pid)).take maxMatches, e.path = x.1 ∧ e.size = x.2) ↔
      x ∈ (firstFinds fs q root).map Find.pair := by
  rw [← List.map_take, List.mem_map]
  constructor
  · rintro ⟨e, he, hpath, hsize⟩
    obtain ⟨f, hf, rfl⟩ := List.mem_map.mp he
    exact ⟨f, hf, Prod.ext hpath (Int.ofNat.inj hsize)⟩
  · rintro ⟨f, hf, rfl⟩
    exact ⟨_, List.mem_map_of_mem hf, rfl, rfl⟩

theorem agrees_iff_same {pid : ℤ} {numWorkers : ℕ} {root : List Char} (hworkers : 0 < numWorkers)
    (hroot : subdirs fs root ≠ []) : Agrees fs q pid numWorkers root ↔
      Shallow fs root ∧
        ∀ x, x ∈ allReported fs q root ↔ x ∈ (firstFinds fs q root).map Find.pair := by
  constructor
  · rintro ⟨⟨fuel, entries, hcollect, hsame⟩, -⟩
    have hshallow : Shallow fs root := by
      by_contra hdeep
      rw [collect_diverges hdeep] at hcollect
      cases hcollect
    have hentries := collect_eq (Nat.zero_le _) hcollect
    rw [List.nil_append] at hentries
    refine ⟨hshallow, ?_⟩
    intro x
    rw [mem_allReported hworkers hroot, hsame, hentries, mem_entries]
  · rintro ⟨hshallow, hsame⟩
    constructor
    · have hreturns : ∃ entries, collectMatches fs q pid (4095 + 1) root [] = some entries :=
        collect_returns hshallow (Nat.le_add_left _ _) []
      obtain ⟨entries, hcollect⟩ := hreturns
      have hentries := collect_eq (Nat.zero_le _) hcollect
      rw [List.nil_append] at hentries
      refine ⟨_, entries, hcollect, ?_⟩
      intro x
      rw [← mem_allReported hworkers hroot, hsame, hentries, mem_entries]
    · rintro x ⟨w, hw, hx⟩
      refine ⟨w, ⟨hw, hx⟩, ?_⟩
      rintro w' ⟨-, hx'⟩
      exact matchedBy_unique hx' hx

theorem not_inside_of_root {root : List Char} (h : Shallow fs root) {f : Find}
    (hentry : fs.IsEntry f.dir f.name) (hdir : f.dir = root) : ¬f.Inside fs root := by
  rintro ⟨dir, hmem, hpath⟩
  obtain ⟨name, hname, rfl⟩ := h.subdir hmem
  have hcomponent := component_of_prefix hname hpath
  rw [hdir, component_fullPath (noSlash_of_mem hentry.1)] at hcomponent
  have hlen := hpath.length_le
  rw [hdir, hcomponent, List.length_append, List.length_singleton] at hlen
  omega

/-- The workers miss every matching file that the walk meets in the root itself. -/
theorem not_agrees_of_root_file {pid : ℤ} {numWorkers : ℕ} {root : List Char}
    (hworkers : 0 < numWorkers) (hroot : subdirs fs root ≠ []) {f : Find}
    (hf : f ∈ firstFinds fs q root) (hdir : f.dir = root) : ¬Agrees fs q pid numWorkers root := by
  rw [agrees_iff_same hworkers hroot]
  rintro ⟨hshallow, hsame⟩
  have hfound : f ∈ finds fs q root := List.mem_of_mem_take hf
  have hmem := (hsame f.pair).mpr (List.mem_map_of_mem hf)
  rw [pair_mem_allReported hshallow hroot hfound] at hmem
  exact not_inside_of_root hshallow (find_entry hfound).1 hdir hmem.1

theorem ownName_of_fits {root : List Char} {f : Find} (hf : f ∈ finds fs q root) (hfits : f.Fits) :
    f.OwnName fs q := by
  obtain ⟨hentry, -, hsel⟩ := find_entry hf
  have hname : f.shortName = f.name := by
    rw [Find.Fits, length_fullPath] at hfits
    exact List.take_of_length_le (by omega)
  rw [Find.OwnName, hname]
  exact ⟨hentry, hsel⟩

theorem allReported_subset {root : List Char} (h : Shallow fs root) :
    allReported fs q root ⊆ (finds fs q root).map Find.pair := by
  intro x hx
  obtain ⟨dir, hdir, hx⟩ := List.mem_flatMap.mp hx
  obtain ⟨f, hf, -, rfl⟩ := mem_reported.mp hx
  obtain ⟨name, hentry, hstat, rfl⟩ := mem_subdirs hdir
  obtain ⟨hfile, hsel⟩ := mem_finds.mp hf
  refine List.mem_map_of_mem (mem_finds.mpr ⟨?_, hsel⟩)
  exact .deeper hentry hstat (h.lt .root hentry hstat) hfile

/-- Where every path fits and `collect_matches` has room, only files of the root and
subdirectories beyond the listed ones are hidden. -/
theorem covered_iff_inside {root : List Char} (hfits : ∀ f ∈ finds fs q root, f.Fits)
    (hroom : (finds fs q root).length ≤ maxMatches) :
    Covered fs q root ↔ Shallow fs root ∧ ∀ f ∈ finds fs q root, f.Inside fs root := by
  have hall : firstFinds fs q root = finds fs q root := List.take_of_length_le hroom
  constructor
  · intro h
    rw [← hall]
    exact ⟨h.shallow, h.inside⟩
  · rintro ⟨hshallow, hinside⟩
    rw [← hall] at hinside
    refine ⟨hshallow, hinside, ?_, ?_⟩
    · intro f hf
      rw [hall] at hf
      exact ownName_of_fits hf (hfits f hf)
    · rw [← length_allReported, hall]
      refine (List.subperm_of_subset (nodup_allReported root) ?_).length_le
      intro x hx
      exact List.mem_dedup.mpr (allReported_subset hshallow hx)

/-- The workers agree with the walk exactly on the trees that hide nothing from them. -/
theorem parallel_search_agrees (fs : FileSystem) (q : Query) (pid : ℤ) (numWorkers : ℕ)
    (root : List Char) (hworkers : 2 ≤ numWorkers) (hroot : subdirs fs root ≠ []) :
    Agrees fs q pid numWorkers root ↔ Covered fs q root := by
  rw [agrees_iff_same (by omega) hroot]
  have hfinds : ∀ {f : Find}, f ∈ firstFinds fs q root → f ∈ finds fs q root :=
    List.mem_of_mem_take
  constructor
  · rintro ⟨hshallow, hsame⟩
    have hboth : ∀ f ∈ firstFinds fs q root, f.Inside fs root ∧ f.OwnName fs q := by
      intro f hf
      rw [← pair_mem_allReported hshallow hroot (hfinds hf), hsame]
      exact List.mem_map_of_mem hf
    refine ⟨hshallow, fun f hf => (hboth f hf).1, fun f hf => (hboth f hf).2, ?_⟩
    rw [← length_allReported]
    refine (List.subperm_of_subset (nodup_allReported root) ?_).length_le
    intro x hx
    exact List.mem_dedup.mpr ((hsame x).mp hx)
  · intro hcovered
    refine ⟨hcovered.shallow, ?_⟩
    have hsub : ((firstFinds fs q root).map Find.pair).toFinset ⊆
        (allReported fs q root).toFinset := by
      intro x hx
      obtain ⟨f, hf, rfl⟩ := List.mem_map.mp (List.mem_toFinset.mp hx)
      rw [List.mem_toFinset, pair_mem_allReported hcovered.shallow hroot (hfinds hf)]
      exact ⟨hcovered.inside f hf, hcovered.ownName f hf⟩
    have hcard : (allReported fs q root).toFinset.card ≤
        ((firstFinds fs q root).map Find.pair).toFinset.card := by
      have hroom := hcovered.room
      rw [← length_allReported] at hroom
      exact (List.toFinset_card_le _).trans (hroom.trans (List.card_toFinset _).ge)
    have hsame := Finset.eq_of_subset_of_card_le hsub hcard
    intro x
    rw [← List.mem_toFinset, ← List.mem_toFinset (l := (firstFinds fs q root).map Find.pair), hsame]

/-- A file `a` in the root beside a directory `d`, and a larger one in `d`. -/
def sampleTree : FileSystem where
  opendir path :=
    if path = "/r".toList then some [".".toList, "..".toList, "a".toList, "d".toList]
    else if path = "/r/d".toList then some ["a".toList]
    else none
  lstat path :=
    if path = "/r/a".toList then some (.regular 1)
    else if path = "/r/d".toList then some .directory
    else if path = "/r/d/a".toList then some (.regular 5)
    else none
  nodup path names h := by
    split_ifs at h <;> obtain rfl := Option.some.inj h <;> decide
  noSlash path names h := by
    split_ifs at h <;> obtain rfl := Option.some.inj h <;> decide
  pathMax path h := by
    have hr : path ≠ "/r".toList := by
      rintro rfl
      exact absurd h (by decide)
    have hd : path ≠ "/r/d".toList := by
      rintro rfl
      exact absurd h (by decide)
    rw [if_neg hr, if_neg hd]

theorem sampleTree_entry {path name : List Char} (h : sampleTree.IsEntry path name) :
    path = "/r".toList ∧ (name = "a".toList ∨ name = "d".toList) ∨
      path = "/r/d".toList ∧ name = "a".toList := by
  obtain ⟨hmem, hdot⟩ := h
  simp only [Directories.listing, sampleTree] at hmem
  split_ifs at hmem with hr hd
  · simp only [Option.getD_some, List.mem_cons, List.not_mem_nil, or_false] at hmem
    rcases hmem with rfl | rfl | rfl | rfl
    · exact absurd hdot (by decide)
    · exact absurd hdot (by decide)
    · exact .inl ⟨hr, .inl rfl⟩
    · exact .inl ⟨hr, .inr rfl⟩
  · exact .inr ⟨hd, List.mem_singleton.mp hmem⟩
  · cases hmem

theorem sampleTree_shallow : Shallow sampleTree "/r".toList := by
  intro path _ hfull _ name hentry
  rcases sampleTree_entry hentry with ⟨rfl, -⟩ | ⟨rfl, -⟩ <;> exact absurd hfull (by decide)

/-- With a least size of 3 only the file in `d` is looked for. -/
theorem parallel_search_agrees_sample : 2 ≤ 2 ∧ subdirs sampleTree "/r".toList ≠ [] ∧
    Agrees sampleTree ⟨"a".toList, 3⟩ 1 2 "/r".toList := by
  have hroot : subdirs sampleTree "/r".toList ≠ [] := by decide
  refine ⟨le_rfl, hroot, ?_⟩
  have hone : ∀ f ∈ finds sampleTree ⟨"a".toList, 3⟩ "/r".toList,
      f.dir = "/r/d".toList ∧ f.name = "a".toList := by
    intro f hf
    obtain ⟨hentry, hstat, hsel⟩ := find_entry hf
    rcases sampleTree_entry hentry with ⟨hdir, hname | hname⟩ | hfound
    · have hsize : some (FileStat.regular 1) = some (.regular f.size) := by
        rw [← hstat, hdir, hname]
        decide
      rw [← FileStat.regular.inj (Option.some.inj hsize), hname] at hsel
      exact absurd hsel (by decide)
    · have hdirectory : some FileStat.directory = some (.regular f.size) := by
        rw [← hstat, hdir, hname]
        decide
      cases hdirectory
    · exact hfound
  have hcollect : collectMatches sampleTree ⟨"a".toList, 3⟩ 1 2 "/r".toList [] =
      some [⟨"/r/d/a".toList, 5, 1⟩] := by decide
  have hlength := congrArg List.length (collect_eq (Nat.zero_le _) hcollect)
  rw [List.nil_append, List.length_take, List.length_map, List.length_singleton] at hlength
  rw [parallel_search_agrees sampleTree ⟨"a".toList, 3⟩ 1 2 "/r".toList le_rfl hroot,
    covered_iff_inside]
  · refine ⟨sampleTree_shallow, ?_⟩
    intro f hf
    refine ⟨"/r/d".toList, by decide, ?_⟩
    rw [(hone f hf).1]
    exact slash_prefix_fullPath _ _
  · intro f hf
    rw [Find.Fits, (hone f hf).1, (hone f hf).2]
    decide
  · rw [maxMatches] at hlength ⊢
    omega

/-- The file of the root is found by the walk and by no worker. -/
theorem root_file_missed : ¬Agrees sampleTree ⟨"a".toList, -1⟩ 1 2 "/r".toList := by
  have hcollect : collectMatches sampleTree ⟨"a".toList, -1⟩ 1 2 "/r".toList [] =
      some [⟨"/r/a".toList, 1, 1⟩, ⟨"/r/d/a".toList, 5, 1⟩] := by decide
  have hentries := collect_eq (Nat.zero_le _) hcollect
  rw [List.nil_append, ← List.map_take] at hentries
  obtain ⟨f, hf, hentry⟩ := List.mem_map.mp (hentries ▸ List.mem_cons_self)
  refine not_agrees_of_root_file (by decide) (by decide) hf ?_
  rcases sampleTree_entry (find_entry (List.mem_of_mem_take hf)).1 with ⟨hdir, -⟩ | ⟨hdir, hname⟩
  · exact hdir
  · have hpath := congrArg MatchEntry.path hentry
    simp only [Find.entry, hdir, hname] at hpath
    exact absurd hpath (by decide)

end SysProg.HW2

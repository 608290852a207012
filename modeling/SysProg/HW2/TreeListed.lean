import SysProg.HW2.TreeReading

/-!
# When the printed tree is a listing of the directories and matches

Below the limits of its buffers and of `int` the printer shows every directory
and every match in its place, and with them every path can be recovered. The
memory of 64 directories decides how often a directory is shown.
-/

namespace SysProg.HW2
open SysProg.Lib

section Listed
variable {qsort : (MatchEntry → MatchEntry → ℤ) → List MatchEntry → List MatchEntry}
  {root : SearchRoot} {files : List (FoundFile root)}

theorem shownNodes_treeLines (hq : LawfulQsort qsort) (hdistinct : (files.map FoundFile.path).Nodup)
    (hshort : ∀ f ∈ files, ∀ x ∈ f.dirs ++ [f.name], x.length ≤ 255)
    (hshallow : ∀ f ∈ files, f.node.depth ≤ 30) :
    shownNodes (treeLines qsort root.dir (files.map FoundFile.entry)) =
      listing maxPrintedDirs [] ((inOrder files).map FoundFile.node) := by
  rw [treeLines_eq hq hdistinct hshort]
  exact shownNodes_treeLine (depthFirst_inOrder files) (depth_listing hshallow)

theorem nodup_nodes (hdistinct : (files.map FoundFile.path).Nodup) :
    ((inOrder files).map FoundFile.node).Nodup := by
  have hpath : ((inOrder files).map FoundFile.node).map
      (fun n => root.base ++ joinLines '/' n.parent n.name) =
      (inOrder files).map FoundFile.path := by
    rw [List.map_map]
    rfl
  have hnd : ((inOrder files).map FoundFile.path).Nodup :=
    ((inOrder_perm files).map FoundFile.path).nodup_iff.mpr hdistinct
  rw [← hpath] at hnd
  exact hnd.of_map _

theorem count_file (hdistinct : (files.map FoundFile.path).Nodup) {f : FoundFile root}
    (hf : f ∈ files) :
    (listing maxPrintedDirs [] ((inOrder files).map FoundFile.node)).count f.node = 1 := by
  have hcount := List.count_filter (a := f.node) (p := fun n => n.leaf.isSome)
    (l := listing maxPrintedDirs [] ((inOrder files).map FoundFile.node)) rfl
  have hin : f.node ∈ (inOrder files).map FoundFile.node :=
    List.mem_map_of_mem ((inOrder_perm files).symm.subset hf)
  rw [filter_listing (leaves_inOrder files)] at hcount
  rw [← hcount]
  exact List.count_eq_one_of_mem (nodup_nodes hdistinct) hin

theorem listsTree_of_printable (hq : LawfulQsort qsort)
    (hdistinct : (files.map FoundFile.path).Nodup)
    (h : Printable files) :
    ListsTree root files (treeLines qsort root.dir (files.map FoundFile.entry))
      (printTree qsort root.dir (files.map FoundFile.entry)) := by
  have hshown := shownNodes_treeLines hq hdistinct h.short h.shallow
  have hnode : ∀ f ∈ files, f.node ∈ (inOrder files).map FoundFile.node :=
    fun f hf => List.mem_map_of_mem ((inOrder_perm files).symm.subset hf)
  exact {
    indents := by
      rw [hshown, treeLines_eq hq hdistinct h.short, List.map_map]
      apply List.map_congr_left
      intro n hn
      exact printIndent_eq (Nat.succ_pos _) (depth_listing h.shallow n hn)
    depth_first := by
      rw [hshown]
      exact depthFirst_inOrder files
    dir_once := by
      rw [hshown]
      exact dir_once_iff.mpr h.late
    dir_before := by
      intro f hf d hd
      rw [hshown]
      exact (ancestor_before [] (hnode f hf) hd).resolve_left List.not_mem_nil
    file_once := by
      intro f hf
      rw [hshown]
      exact count_file hdistinct hf
    nothing_else := by
      intro n hn
      rw [hshown] at hn
      obtain ⟨m, hm, hcases⟩ := mem_listing hn
      obtain ⟨f, hf, rfl⟩ := List.mem_map.mp hm
      exact ⟨f, (inOrder_perm files).subset hf, hcases⟩
    recovered := by
      intro path
      rw [recoverPaths_printTree hq hdistinct h.short h.oneLine h.shallow]
      exact ((inOrder_perm files).map FoundFile.path).mem_iff }

/-! ### What a listing requires -/

theorem line_of_shownNodes {lines : List TreeLine} {n : PathNode}
    (h : n ∈ shownNodes lines) : ∃ l ∈ lines, l.name = n.name := by
  have hspelled : ∀ (ls : List (ℕ × List Char × Option (ℤ × ℤ))) (above : List (ℕ × List Char)),
      n ∈ spelledNodes above ls → ∃ l ∈ ls, l.2.1 = n.name := by
    intro ls
    induction ls with
    | nil => exact fun above hn => absurd hn List.not_mem_nil
    | cons l ls ih =>
      intro above hn
      rcases List.mem_cons.mp hn with rfl | hn
      · exact ⟨l, List.mem_cons_self, rfl⟩
      · obtain ⟨k, hk, hname⟩ := ih _ hn
        exact ⟨k, List.mem_cons_of_mem l hk, hname⟩
  obtain ⟨triple, htriple, hname⟩ := hspelled _ _ h
  obtain ⟨l, hl, rfl⟩ := List.mem_map.mp htriple
  exact ⟨l, hl, hname⟩

theorem ancestor_of_mem_dirs {f : FoundFile root} {x : List Char} (h : x ∈ f.dirs) :
    ∃ d ∈ f.ancestors, d.name = x := by
  obtain ⟨front, back, hdirs⟩ := List.append_of_mem h
  refine ⟨⟨front, x, none⟩, ?_, rfl⟩
  apply mem_innerNodes.mpr
  exact ⟨rfl, front, back, hdirs, rfl⟩

variable {lines : List TreeLine} {output : List Char}

theorem ListsTree.file_shown (h : ListsTree root files lines output) {f : FoundFile root}
    (hf : f ∈ files) : f.node ∈ shownNodes lines := by
  apply List.count_pos_iff.mp
  rw [h.file_once f hf]
  exact Nat.one_pos

theorem ListsTree.short (h : ListsTree root files lines output)
    (hbuffers : ∀ l ∈ lines, l.FromBuffers) :
    ∀ f ∈ files, ∀ x ∈ f.dirs ++ [f.name], x.length ≤ 255 := by
  have hname : ∀ n ∈ shownNodes lines, n.name.length ≤ 255 := by
    intro n hn
    obtain ⟨l, hl, hname⟩ := line_of_shownNodes hn
    exact hname ▸ (hbuffers l hl).name
  intro f hf x hx
  rcases List.mem_append.mp hx with hx | hx
  · obtain ⟨d, hd, rfl⟩ := ancestor_of_mem_dirs hx
    apply hname d
    apply List.count_pos_iff.mp
    rw [h.dir_once f hf d hd]
    exact Nat.one_pos
  · rw [List.mem_singleton.mp hx]
    exact hname f.node (h.file_shown hf)

theorem ListsTree.shallow (h : ListsTree root files lines output)
    (hbuffers : ∀ l ∈ lines, l.FromBuffers) : ∀ f ∈ files, f.node.depth ≤ 30 := by
  intro f hf
  by_contra hdeep
  have hin : indentation f.node.depth ∈ lines.map TreeLine.dashes := by
    rw [h.indents]
    exact List.mem_map_of_mem (f := fun n => indentation n.depth) (h.file_shown hf)
  obtain ⟨l, hl, hdashes⟩ := List.mem_map.mp hin
  have hlt := (hbuffers l hl).dashes
  have hge : indentation 31 ≤ indentation f.node.depth :=
    indentation_strictMono.monotone (Nat.lt_of_not_le hdeep)
  have hvalue : indentation 31 = 2 ^ 32 - 2 := by decide
  omega

theorem ListsTree.oneLine (h : ListsTree root files lines output) :
    ∀ f ∈ files, ∀ x ∈ f.dirs ++ [f.name], '\n' ∉ x := by
  intro f hf x hx hnewline
  obtain ⟨rel, hpath, hrel⟩ := newline_notMem_recovered
    ((h.recovered f.path).mpr (List.mem_map_of_mem hf))
  have hsame : f.rel = rel := List.append_cancel_left hpath
  apply hrel
  rw [← hsame]
  rcases List.mem_append.mp hx with hx | hx
  · apply List.mem_append_left
    exact List.mem_flatMap.mpr ⟨x, hx, List.mem_append_left _ hnewline⟩
  · rw [List.mem_singleton.mp hx] at hnewline
    exact List.mem_append_right _ hnewline

theorem ListsTree.late (hq : LawfulQsort qsort) (hdistinct : (files.map FoundFile.path).Nodup)
    (h : ListsTree root files (treeLines qsort root.dir (files.map FoundFile.entry)) output) :
    ∀ d ∈ (directories files).drop maxPrintedDirs, files.countP (fun f => d ∈ f.ancestors) = 1 := by
  have hbuffers := fromBuffers_treeLines qsort root.dir (files.map FoundFile.entry)
  have honce := h.dir_once
  rw [shownNodes_treeLines hq hdistinct (h.short hbuffers) (h.shallow hbuffers)] at honce
  exact dir_once_iff.mp honce

/-- The lines behind the root are a depth-first listing from which the matches can be recovered
exactly when names and depths stay below the limits and no directory behind the first 64 has two
matches beneath it. -/
theorem printTree_listsTree_iff (hq : LawfulQsort qsort)
    (hdistinct : (files.map FoundFile.path).Nodup) :
    ListsTree root files (treeLines qsort root.dir (files.map FoundFile.entry))
      (printTree qsort root.dir (files.map FoundFile.entry)) ↔ Printable files := by
  constructor
  · intro h
    have hbuffers := fromBuffers_treeLines qsort root.dir (files.map FoundFile.entry)
    exact ⟨h.short hbuffers, h.oneLine, h.shallow hbuffers, h.late hq hdistinct⟩
  · exact listsTree_of_printable hq hdistinct

end Listed

/-! ### Sixty-five directories -/

def crowdRoot : SearchRoot where
  dir := ['r']
  base := ['r', '/']
  base_eq := .inl rfl
  base_nul := by decide

def crowdDirName (i : ℕ) : List Char := List.replicate (min i 64 + 1) 'd'

theorem plain_crowd (i : ℕ) (c : Char) (hc : c ≠ '/' ∧ c ≠ '\x00') :
    ∀ x ∈ [crowdDirName i] ++ [[c]], PlainName x := by
  intro x hx
  rcases List.mem_append.mp hx with hx | hx
  · rw [List.mem_singleton.mp hx]
    have hletter : ∀ e, e ≠ 'd' → e ∉ crowdDirName i := fun e he h =>
        he (List.eq_of_mem_replicate h)
    exact ⟨List.cons_ne_nil _ _, hletter '/' (by decide), hletter '\x00' (by decide)⟩
  · rw [List.mem_singleton.mp hx]
    refine ⟨List.cons_ne_nil _ _, ?_, ?_⟩
    · simpa using Ne.symm hc.1
    · simpa using Ne.symm hc.2

theorem crowd_fits (i : ℕ) (c : Char) :
    (crowdRoot.base ++ joinLines '/' [crowdDirName i] [c]).length < 4096 := by
  have hlen : (crowdDirName i).length = min i 64 + 1 := List.length_replicate
  simp only [crowdRoot, joinLines, List.flatMap_cons, List.flatMap_nil, List.append_nil,
    List.length_append, List.length_cons, List.length_nil, hlen]
  omega

def firstFile (i : ℕ) : FoundFile crowdRoot where
  dirs := [crowdDirName i]
  name := ['a']
  size := 1
  workerPid := 7
  plain := plain_crowd i 'a' (by decide)
  fits := crowd_fits i 'a'

def secondFile (i : ℕ) : FoundFile crowdRoot where
  dirs := [crowdDirName i]
  name := ['b']
  size := 1
  workerPid := 7
  plain := plain_crowd i 'b' (by decide)
  fits := crowd_fits i 'b'

/-- One match in each of 65 directories and another one in the last. -/
def crowdFiles : List (FoundFile crowdRoot) := (List.range 65).map firstFile ++ [secondFile 64]

def crowdDir (i : ℕ) : PathNode := ⟨[], crowdDirName i, none⟩

theorem crowdDir_injOn {i j : ℕ} (hi : i < 65) (hj : j < 65) (h : crowdDir i = crowdDir j) :
    i = j := by
  have hlen := congrArg (fun n => n.name.length) h
  simp only [crowdDir, crowdDirName, List.length_replicate] at hlen
  omega

theorem strcmp_crowd {i j : ℕ} (hij : i < j) (hj : j < 65) (c e : Char) :
    strcmp (crowdRoot.base ++ joinLines '/' [crowdDirName i] [c])
      (crowdRoot.base ++ joinLines '/' [crowdDirName j] [e]) < 0 := by
  have hlonger : crowdDirName j = crowdDirName i ++ 'd' :: List.replicate (j - i - 1) 'd' := by
    have hsum : min j 64 + 1 = (min i 64 + 1) + ((j - i - 1) + 1) := by omega
    rw [crowdDirName, crowdDirName, hsum, ← List.replicate_append_replicate]
    rfl
  have hjoin : ∀ (x : List Char) (c : Char), joinLines '/' [x] [c] = x ++ ['/', c] := by
    intro x c
    simp [joinLines]
  rw [strcmp_append, hjoin, hjoin, hlonger, List.append_assoc, strcmp_append,
    List.cons_append, strcmp, if_neg (by decide)]
  decide

theorem crowdFiles_sorted : crowdFiles.Pairwise fun f g => strcmp f.path g.path < 0 := by
  have hlast : strcmp (firstFile 64).path (secondFile 64).path < 0 := by decide
  rw [crowdFiles, List.pairwise_append]
  refine ⟨?_, List.pairwise_singleton _ _, ?_⟩
  · rw [List.pairwise_map]
    refine List.pairwise_lt_range.imp_of_mem ?_
    intro i j _ hj hij
    exact strcmp_crowd hij (List.mem_range.mp hj) 'a' 'a'
  · intro f hf g hg
    obtain ⟨i, hi, rfl⟩ := List.mem_map.mp hf
    rw [List.mem_singleton.mp hg]
    rcases Nat.lt_or_eq_of_le (Nat.le_of_lt_succ (List.mem_range.mp hi)) with hlt | rfl
    · exact strcmp_crowd hlt (by decide) 'a' 'b'
    · exact hlast

theorem crowdFiles_distinct : (crowdFiles.map FoundFile.path).Nodup := by
  rw [List.nodup_iff_pairwise_ne, List.pairwise_map]
  refine crowdFiles_sorted.imp ?_
  intro f g hlt heq
  have hself := strcmp_swap f.path f.path
  rw [← heq] at hlt
  omega

theorem directories_crowd : directories crowdFiles = (List.range 65).map crowdDir := by
  have hsorted : inOrder crowdFiles = crowdFiles := by
    apply List.mergeSort_of_pairwise
    exact crowdFiles_sorted.imp fun h => decide_eq_true (Int.le_of_lt h)
  have hdirs : crowdFiles.flatMap FoundFile.ancestors =
      (List.range 65).map crowdDir ++ [crowdDir 64] := by
    rw [crowdFiles, List.flatMap_append, List.flatMap_map]
    have hfirst : ∀ i, (firstFile i).ancestors = [crowdDir i] := fun i => rfl
    simp only [hfirst]
    rw [← List.map_eq_flatMap]
    rfl
  have hlast : crowdDir 64 ∈ (List.range 65).map crowdDir :=
    List.mem_map_of_mem (List.mem_range.mpr (by decide))
  have hnd : ((List.range 65).map crowdDir).Nodup := by
    apply List.Nodup.map_on _ List.nodup_range
    intro i hi j hj
    exact crowdDir_injOn (List.mem_range.mp hi) (List.mem_range.mp hj)
  rw [directories, hsorted, hdirs, eraseDups_concat, if_pos hlast, eraseDups_of_nodup hnd]

/-- The 65th directory gets a line for each of its two matches. -/
theorem crowd_not_listed :
    LawfulQsort (@comparatorSort MatchEntry) ∧ (crowdFiles.map FoundFile.path).Nodup ∧
    ¬ ListsTree crowdRoot crowdFiles
      (treeLines comparatorSort crowdRoot.dir (crowdFiles.map FoundFile.entry))
      (printTree comparatorSort crowdRoot.dir (crowdFiles.map FoundFile.entry)) := by
  refine ⟨lawfulQsort_comparatorSort, crowdFiles_distinct, ?_⟩
  intro h
  have hlate := h.late lawfulQsort_comparatorSort crowdFiles_distinct (crowdDir 64)
  have hrange : List.range 65 = List.range 64 ++ [64] := List.range_succ
  have hin : crowdDir 64 ∈ (directories crowdFiles).drop maxPrintedDirs := by
    have hlen : ((List.range 64).map crowdDir).length = maxPrintedDirs := by
      rw [List.length_map, List.length_range]
      rfl
    rw [directories_crowd, hrange, List.map_append, ← hlen, List.drop_left]
    exact List.mem_cons_self
  have hcount := hlate hin
  have htwo : ∀ f ∈ [firstFile 64, secondFile 64], decide (crowdDir 64 ∈ f.ancestors) = true := by
    intro f hf
    have hanc : f.ancestors = [crowdDir 64] := by
      rcases List.mem_pair.mp hf with rfl | rfl
      · rfl
      · rfl
    rw [hanc]
    exact decide_eq_true List.mem_cons_self
  have hsplit : crowdFiles = (List.range 64).map firstFile ++ [firstFile 64, secondFile 64] := by
    rw [crowdFiles, hrange, List.map_append, List.append_assoc]
    rfl
  rw [hsplit, List.countP_append, List.countP_eq_length.mpr htwo] at hcount
  simp at hcount

/-- Three matches beneath two directories. -/
theorem crowd_listed : ListsTree crowdRoot [firstFile 1, secondFile 0, firstFile 0]
    (treeLines comparatorSort crowdRoot.dir
      ([firstFile 1, secondFile 0, firstFile 0].map FoundFile.entry))
    (printTree comparatorSort crowdRoot.dir
      ([firstFile 1, secondFile 0, firstFile 0].map FoundFile.entry)) := by
  refine (printTree_listsTree_iff lawfulQsort_comparatorSort (by decide)).mpr
    ⟨by decide, by decide, by decide, ?_⟩
  intro d hd
  have hshort : (directories [firstFile 1, secondFile 0, firstFile 0]).length ≤ maxPrintedDirs :=
    (length_directories_le _).trans (by decide)
  rw [List.drop_eq_nil_of_le hshort] at hd
  exact absurd hd List.not_mem_nil

end SysProg.HW2

import Mathlib.Data.List.Perm.Subperm
import Mathlib.Data.List.Sort
import SysProg.HW2.TreeOutput

/-!
# What the printed tree tells

A reader of the tree takes the parent of a line from the nearest lines above it
that are indented less, and takes a line for a match when no deeper line
follows. Names of at most 255 characters without line breaks and at most 30
levels deep are printed so that every node and its place can be read. Every
directory then has one line for sure only among the first 64; a later one has a
line for each match beneath it.
-/

namespace SysProg.HW2
open SysProg.Lib

/-! ### Reading -/

def indentation (depth : ℕ) : ℕ := 2 * (2 ^ depth - 1)

/-- The nodes that the lines show, each below the nearest lines with fewer dashes. -/
def shownNodes (lines : List TreeLine) : List PathNode :=
  spelledNodes [] (lines.map fun l => (l.dashes, l.name, l.info))

/-- What stands before the last bracket that opens, and the blank before it. -/
def nameOfText (text : List Char) : List Char := ((text.reverse.dropWhile (· ≠ '(')).drop 2).reverse

def readLine : List Char → Option (ℕ × List Char)
  | '|' :: rest => some ((rest.takeWhile (· = '-')).length, (rest.dropWhile (· = '-')).drop 1)
  | _ => none

/-- The paths of the matches, from the text alone. -/
def recoverPaths (root : SearchRoot) (output : List Char) : List (List Char) :=
  (leafLines [] ((cutLines '\n' (output.drop (root.dir.length + 1))).1.filterMap readLine)).map
    fun p => root.base ++ pathString (p.1 ++ [nameOfText p.2])

/-- The lines are a depth-first listing of the directories and matches, and the matches can be
recovered from the output. -/
structure ListsTree (root : SearchRoot) (files : List (FoundFile root)) (lines : List TreeLine)
    (output : List Char) : Prop where
  indents : lines.map TreeLine.dashes = (shownNodes lines).map fun n => indentation n.depth
  depth_first : DepthFirst [] (shownNodes lines)
  dir_once : ∀ f ∈ files, ∀ d ∈ f.ancestors, (shownNodes lines).count d = 1
  dir_before : ∀ f ∈ files, ∀ d ∈ f.ancestors, [d, f.node].Sublist (shownNodes lines)
  file_once : ∀ f ∈ files, (shownNodes lines).count f.node = 1
  nothing_else : ∀ n ∈ shownNodes lines, ∃ f ∈ files, n = f.node ∨ n ∈ f.ancestors
  recovered : ∀ path, path ∈ recoverPaths root output ↔ path ∈ files.map FoundFile.path

section Condition
variable {root : SearchRoot}

def inOrder (files : List (FoundFile root)) : List (FoundFile root) :=
  files.mergeSort fun f g => decide (strcmp f.path g.path ≤ 0)

def directories (files : List (FoundFile root)) : List PathNode :=
  ((inOrder files).flatMap FoundFile.ancestors).eraseDups

/-- Short names on one line, at most 30 levels, and one match only beneath each directory that
comes when the memory is full. -/
structure Printable (files : List (FoundFile root)) : Prop where
  short : ∀ f ∈ files, ∀ x ∈ f.dirs ++ [f.name], x.length ≤ 255
  oneLine : ∀ f ∈ files, ∀ x ∈ f.dirs ++ [f.name], '\n' ∉ x
  shallow : ∀ f ∈ files, f.node.depth ≤ 30
  late : ∀ d ∈ (directories files).drop maxPrintedDirs,
    files.countP (fun f => d ∈ f.ancestors) = 1

end Condition

/-! ### Indentation -/

theorem indentation_strictMono : StrictMono indentation := by
  apply strictMono_nat_of_lt_succ
  intro depth
  have hpos : 0 < 2 ^ depth := Nat.two_pow_pos depth
  have hdouble : 2 ^ (depth + 1) = 2 ^ depth * 2 := pow_succ 2 depth
  simp only [indentation]
  omega

theorem power_eq {depth : ℕ} (h : depth ≤ 30) :
    (fun p : ℤ => int32 (p * 2))^[depth] 1 = ((2 ^ depth : ℕ) : ℤ) := by
  induction depth with
  | zero => rfl
  | succ depth ih =>
    have hlt : 2 ^ (depth + 1) < 2 ^ 31 := Nat.pow_lt_pow_right (by decide) (by omega)
    have hstep : ((2 ^ depth : ℕ) : ℤ) * 2 = ((2 ^ (depth + 1) : ℕ) : ℤ) := by
      rw [pow_succ, Nat.cast_mul]
      rfl
    rw [Function.iterate_succ_apply', ih (by omega), hstep, int32_of_lt hlt]

theorem printIndent_eq {depth : ℕ} (hpos : 0 < depth) (h : depth ≤ 30) :
    printIndent depth = indentation depth := by
  have hle : 2 ^ depth ≤ 2 ^ 30 := Nat.pow_le_pow_right (by decide) h
  have hone : 1 ≤ 2 ^ depth := Nat.one_le_two_pow
  have hless : ((2 ^ depth : ℕ) : ℤ) - 1 = ((2 ^ depth - 1 : ℕ) : ℤ) := by omega
  have hdouble : (2 : ℤ) * ((2 ^ depth - 1 : ℕ) : ℤ) = ((2 * (2 ^ depth - 1) : ℕ) : ℤ) := by omega
  simp only [printIndent, if_neg (Nat.not_le.mpr hpos), power_eq h, indentation]
  rw [hless, int32_of_lt (by omega), hdouble, int32_of_lt (by omega), Int.toNat_natCast]

/-! ### The order of the matches -/

section Order
variable {root : SearchRoot} {files : List (FoundFile root)}

theorem inOrder_perm (files : List (FoundFile root)) : (inOrder files).Perm files :=
  List.mergeSort_perm _ _

theorem inOrder_sorted (files : List (FoundFile root)) :
    (inOrder files).Pairwise fun f g => strcmp f.path g.path ≤ 0 := by
  refine (List.pairwise_mergeSort ?_ ?_ files).imp fun h => of_decide_eq_true h
  · intro f g h hfg hgh
    apply decide_eq_true
    exact strcmp_trans f.nul_notMem_path g.nul_notMem_path (of_decide_eq_true hfg)
      (of_decide_eq_true hgh)
  · intro f g
    have hswap := strcmp_swap f.path g.path
    rw [Bool.or_eq_true, decide_eq_true_eq, decide_eq_true_eq]
    omega

theorem qsort_entries {qsort : (MatchEntry → MatchEntry → ℤ) → List MatchEntry → List MatchEntry}
    (hq : LawfulQsort qsort) (hdistinct : (files.map FoundFile.path).Nodup) :
    qsort entryCmp (files.map FoundFile.entry) = (inOrder files).map FoundFile.entry := by
  have hnul : ∀ e ∈ files.map FoundFile.entry, '\x00' ∉ e.path := by
    intro e he
    obtain ⟨f, -, rfl⟩ := List.mem_map.mp he
    exact f.nul_notMem_path
  have hinj : ∀ a ∈ files.map FoundFile.entry, ∀ b ∈ files.map FoundFile.entry,
      a.path = b.path → a = b := by
    intro a ha b hb hab
    obtain ⟨f, hf, rfl⟩ := List.mem_map.mp ha
    obtain ⟨g, hg, rfl⟩ := List.mem_map.mp hb
    rw [List.inj_on_of_nodup_map hdistinct hf hg hab]
  have hperm := hq.perm entryCmp (files.map FoundFile.entry)
  have hother : ((inOrder files).map FoundFile.entry).Perm (files.map FoundFile.entry) :=
    (inOrder_perm files).map _
  apply eq_of_sorted_strcmp MatchEntry.path (hperm.trans hother.symm)
  · exact fun e he => hnul e (hperm.subset he)
  · exact fun a ha b hb => hinj a (hperm.subset ha) b (hperm.subset hb)
  · exact hq.sorted entryCmp _ (consistentOn_strcmp MatchEntry.path hnul)
  · rw [List.pairwise_map]
    exact inOrder_sorted files

theorem treeLines_eq {qsort : (MatchEntry → MatchEntry → ℤ) → List MatchEntry → List MatchEntry}
    (hq : LawfulQsort qsort) (hdistinct : (files.map FoundFile.path).Nodup)
    (hshort : ∀ f ∈ files, ∀ x ∈ f.dirs ++ [f.name], x.length ≤ 255) :
    treeLines qsort root.dir (files.map FoundFile.entry) =
      (listing maxPrintedDirs [] ((inOrder files).map FoundFile.node)).map treeLine := by
  have hnil : DirNodes [] := fun d hd => absurd hd List.not_mem_nil
  rw [treeLines, qsort_entries hq hdistinct]
  exact foldl_printEntry (fun f hf => hshort f ((inOrder_perm files).subset hf)) hnil []

/-- The nodes in byte order keep the matches beneath a directory together. -/
theorem ancestor_between {a b c d : PathNode}
    (hab : ∃ f g : FoundFile root, a = f.node ∧ b = g.node ∧ strcmp f.path g.path ≤ 0)
    (hbc : ∃ f g : FoundFile root, b = f.node ∧ c = g.node ∧ strcmp f.path g.path ≤ 0)
    (ha : d ∈ a.ancestors) (hc : d ∈ c.ancestors) : d ∈ b.ancestors := by
  obtain ⟨f, g, rfl, rfl, hfg⟩ := hab
  obtain ⟨g', h, hg', rfl, hgh⟩ := hbc
  have hsame : g.path = g'.path := by
    have hdirs : g.dirs = g'.dirs := congrArg TreeNode.parent hg'
    have hname : g.name = g'.name := congrArg TreeNode.name hg'
    rw [FoundFile.path, FoundFile.path, FoundFile.rel, FoundFile.rel, hdirs, hname]
  rw [← hsame] at hgh
  obtain ⟨hleaf, hfpre⟩ := mem_ancestors.mp ha
  have hbelow : ∀ k : FoundFile root, d.path <+: k.dirs →
      root.base ++ joinLines '/' d.path [] <+: k.path := by
    intro k hk
    obtain ⟨back, hback⟩ := hk
    refine ⟨joinLines '/' back k.name, ?_⟩
    rw [FoundFile.path, FoundFile.rel, ← hback, joinLines_append, List.append_assoc]
    simp [joinLines]
  have hnul : '\x00' ∉ root.base ++ joinLines '/' d.path [] :=
    fun hmem => f.nul_notMem_path ((hbelow f hfpre).subset hmem)
  have hg := prefix_of_strcmp_between hnul (hbelow f hfpre)
      (hbelow h (mem_ancestors.mp hc).2) hfg hgh
  rw [FoundFile.path, List.prefix_append_right_inj] at hg
  obtain ⟨rest, hrest⟩ := hg
  have hcut := cutLines_append '/' (joinLines '/' d.path []) rest
  rw [hrest, g.cutLines_rel,
    cutLines_joinLines (fun x hx => f.slash_notMem_dirs x (hfpre.subset hx))
    List.not_mem_nil] at hcut
  exact mem_ancestors.mpr ⟨hleaf, hcut⟩

theorem leaf_node (f : FoundFile root) : f.node.leaf ≠ none := fun h => Option.some_ne_none _ h

theorem leaves_inOrder (files : List (FoundFile root)) :
    ∀ n ∈ (inOrder files).map FoundFile.node, n.leaf ≠ none := by
  intro n hn
  obtain ⟨f, -, rfl⟩ := List.mem_map.mp hn
  exact leaf_node f

theorem depthFirst_inOrder (files : List (FoundFile root)) :
    DepthFirst [] (listing maxPrintedDirs [] ((inOrder files).map FoundFile.node)) := by
  apply depthFirst_listing
    (fun a b => ∃ f g : FoundFile root, a = f.node ∧ b = g.node ∧ strcmp f.path g.path ≤ 0)
  · exact fun a b c d => ancestor_between
  · exact leaves_inOrder files
  · rw [List.pairwise_map]
    exact (inOrder_sorted files).imp fun {f g} h => ⟨f, g, rfl, rfl, h⟩
  · exact fun d hd => absurd hd List.not_mem_nil
  · exact fun d hd => absurd hd List.not_mem_nil
  · exact fun d hd => absurd hd List.not_mem_nil

end Order

/-! ### The nodes that are shown -/

section Shown
variable {root : SearchRoot} {files : List (FoundFile root)}

theorem depth_listing (hshallow : ∀ f ∈ files, f.node.depth ≤ 30) :
    ∀ n ∈ listing maxPrintedDirs [] ((inOrder files).map FoundFile.node), n.depth ≤ 30 := by
  intro n hn
  obtain ⟨m, hm, h⟩ := mem_listing hn
  obtain ⟨f, hf, rfl⟩ := List.mem_map.mp hm
  have hdepth := hshallow f ((inOrder_perm files).subset hf)
  rcases h with rfl | h
  · exact hdepth
  · have hlen := (mem_ancestors.mp h).2.length_le
    rw [n.length_path] at hlen
    exact hlen.trans ((Nat.le_succ _).trans hdepth)

theorem shownNodes_treeLine {nodes : List PathNode} (h : DepthFirst [] nodes)
    (hshallow : ∀ n ∈ nodes, n.depth ≤ 30) : shownNodes (nodes.map treeLine) = nodes := by
  have hlines : (nodes.map treeLine).map (fun l => (l.dashes, l.name, l.info)) =
      nodes.map fun n => (indentation n.depth, n.name, n.leaf) := by
    rw [List.map_map]
    apply List.map_congr_left
    intro n hn
    exact congrArg (·, n.name, n.leaf) (printIndent_eq (Nat.succ_pos _) (hshallow n hn))
  rw [shownNodes, hlines]
  exact h.spelledNodes indentation_strictMono spells_nil

theorem count_ancestors (files : List (FoundFile root)) (d : PathNode) :
    (files.flatMap FoundFile.ancestors).count d = files.countP (fun f => d ∈ f.ancestors) := by
  induction files with
  | nil => rfl
  | cons f files ih =>
    rw [List.flatMap_cons, List.count_append, List.countP_cons, ih, Nat.add_comm]
    congr 1
    by_cases hd : d ∈ f.ancestors
    · have hone : f.ancestors.count d = 1 :=
        List.count_eq_one_of_mem (nodup_innerNodes [] f.dirs) hd
      rw [hone, if_pos (decide_eq_true hd)]
    · rw [List.count_eq_zero_of_not_mem hd, if_neg (by simpa using hd)]

theorem count_dir {f : FoundFile root} {d : PathNode} (hd : d ∈ f.ancestors) :
    (listing maxPrintedDirs [] ((inOrder files).map FoundFile.node)).count d =
      if d ∈ (directories files).take maxPrintedDirs then 1
      else files.countP (fun g => d ∈ g.ancestors) := by
  have hdirs : ((inOrder files).map FoundFile.node).flatMap TreeNode.ancestors =
      (inOrder files).flatMap FoundFile.ancestors := List.flatMap_map _ _ _
  have hperm := (inOrder_perm files).countP_eq (fun g => d ∈ g.ancestors)
  rw [count_listing (leaves_inOrder files) [] (mem_ancestors.mp hd).1, hdirs, count_fresh,
    if_neg List.not_mem_nil, foldl_remember, count_ancestors, hperm]
  rfl

theorem mem_directories {d : PathNode} :
    d ∈ directories files ↔ ∃ f ∈ files, d ∈ f.ancestors := by
  rw [directories, List.mem_eraseDups, List.mem_flatMap]
  exact exists_congr fun f => and_congr_left fun _ => (inOrder_perm files).mem_iff

theorem length_directories_le (files : List (FoundFile root)) :
    (directories files).length ≤ (files.flatMap FoundFile.ancestors).length := by
  apply List.Subperm.length_le
  apply List.subperm_of_subset (nodup_eraseDups _)
  intro d hd
  exact List.mem_flatMap.mpr (mem_directories.mp hd)

/-- Every directory has one line exactly when those that come late have one match beneath them. -/
theorem dir_once_iff :
    (∀ f ∈ files, ∀ d ∈ f.ancestors,
      (listing maxPrintedDirs [] ((inOrder files).map FoundFile.node)).count d = 1) ↔
    ∀ d ∈ (directories files).drop maxPrintedDirs, files.countP (fun f => d ∈ f.ancestors) = 1 := by
  have hsplit := List.take_append_drop maxPrintedDirs (directories files)
  constructor
  · intro h d hd
    obtain ⟨f, hf, hdf⟩ := mem_directories.mp (List.mem_of_mem_drop hd)
    have hnd : (directories files).Nodup := nodup_eraseDups _
    rw [← hsplit] at hnd
    have hlate : d ∉ (directories files).take maxPrintedDirs :=
      fun hearly => (List.nodup_append'.mp hnd).2.2 hearly hd
    have hcount := h f hf d hdf
    rwa [count_dir hdf, if_neg hlate] at hcount
  · intro h f hf d hd
    rw [count_dir hd]
    split_ifs with hearly
    · rfl
    · apply h d
      have hin : d ∈ directories files := mem_directories.mpr ⟨f, hf, hd⟩
      rw [← hsplit] at hin
      exact (List.mem_append.mp hin).resolve_left hearly

end Shown

/-! ### The text -/

theorem readLine_body (l : TreeLine) :
    readLine l.body = some (l.dashes, l.name ++ matchLabel l.info) := by
  have hdash : ∀ c ∈ List.replicate l.dashes '-', decide (c = '-') = true := by
    intro c hc
    exact decide_eq_true (List.eq_of_mem_replicate hc)
  have htake : (List.replicate l.dashes '-' ++ ' ' :: (l.name ++ matchLabel l.info)).takeWhile
      (· = '-') = List.replicate l.dashes '-' := by
    rw [List.takeWhile_append_of_pos hdash]
    simp
  have hdrop : (List.replicate l.dashes '-' ++ ' ' :: (l.name ++ matchLabel l.info)).dropWhile
      (· = '-') = ' ' :: (l.name ++ matchLabel l.info) := by
    rw [List.dropWhile_append_of_pos hdash]
    simp
  simp only [TreeLine.body, readLine, htake, hdrop, List.length_replicate]
  rfl

theorem notMem_label {c : Char} (hdigit : c.isDigit = false) (hminus : c ≠ '-')
    (hformat : (" bytes) [Worker ]".toList.all (fun d => d != c)) = true) (size workerPid : ℤ) :
    c ∉ decimal size ++ (" bytes) [Worker ".toList ++ (decimal workerPid ++ [']'])) := by
  have hother : ∀ d ∈ " bytes) [Worker ]".toList, d ≠ c := by
    intro d hd
    simpa using List.all_eq_true.mp hformat d hd
  have hwords : " bytes) [Worker ".toList ⊆ " bytes) [Worker ]".toList := by decide
  intro hc
  rcases List.mem_append.mp hc with hc | hc
  · exact notMem_decimal hdigit hminus size hc
  · rcases List.mem_append.mp hc with hc | hc
    · exact hother c (hwords hc) rfl
    · rcases List.mem_append.mp hc with hc | hc
      · exact notMem_decimal hdigit hminus workerPid hc
      · exact hother ']' (by decide) (List.mem_singleton.mp hc).symm

theorem nameOfText_label (name : List Char) (size workerPid : ℤ) :
    nameOfText (name ++ matchLabel (some (size, workerPid))) = name := by
  have hbracket := notMem_label (c := '(') (by decide) (by decide) (by decide) size workerPid
  generalize hlabel : decimal size ++
    (" bytes) [Worker ".toList ++ (decimal workerPid ++ [']'])) = label at hbracket
  have hall : ∀ c ∈ label.reverse, decide (c ≠ '(') = true :=
    fun c hc => decide_eq_true fun heq => hbracket (heq ▸ List.mem_reverse.mp hc)
  have hreverse : (name ++ ' ' :: '(' :: label).reverse =
      label.reverse ++ '(' :: ' ' :: name.reverse := by
    simp
  rw [matchLabel, hlabel, nameOfText, hreverse, List.dropWhile_append_of_pos hall]
  simp

theorem newline_notMem_line {l : TreeLine} (h : '\n' ∉ l.name) : '\n' ∉ l.body := by
  have hlabel : '\n' ∉ matchLabel l.info := by
    cases l.info with
    | none => exact List.not_mem_nil
    | some p =>
      have hrest := notMem_label (c := '\n') (by decide) (by decide) (by decide) p.1 p.2
      simpa [matchLabel] using hrest
  simp [TreeLine.body, h, hlabel]

section Recovery
variable {root : SearchRoot} {files : List (FoundFile root)}

theorem recoverPaths_lines {lines : List TreeLine} (h : ∀ l ∈ lines, '\n' ∉ l.name) :
    recoverPaths root (root.dir ++ '\n' :: lines.flatMap (fun l => l.body ++ ['\n'])) =
      (leafLines [] (lines.map fun l => (l.dashes, l.name ++ matchLabel l.info))).map
        fun p => root.base ++ pathString (p.1 ++ [nameOfText p.2]) := by
  have hdrop : (root.dir ++ '\n' :: lines.flatMap (fun l => l.body ++ ['\n'])).drop
      (root.dir.length + 1) = joinLines '\n' (lines.map TreeLine.body) [] := by
    rw [joinLines, List.append_nil, List.flatMap_map, ← List.drop_drop, List.drop_left]
    rfl
  have hcut : cutLines '\n' (joinLines '\n' (lines.map TreeLine.body) []) =
      (lines.map TreeLine.body, []) := by
    apply cutLines_joinLines _ List.not_mem_nil
    intro body hbody
    obtain ⟨l, hl, rfl⟩ := List.mem_map.mp hbody
    exact newline_notMem_line (h l hl)
  have hread : (lines.map TreeLine.body).filterMap readLine =
      lines.map fun l => (l.dashes, l.name ++ matchLabel l.info) := by
    rw [List.filterMap_map, ← List.filterMap_eq_map]
    apply List.filterMap_congr
    intro l _
    exact readLine_body l
  rw [recoverPaths, hdrop, hcut, hread]

theorem recoverPaths_nodes {nodes : List PathNode} (h : DepthFirst [] nodes)
    (hshallow : ∀ n ∈ nodes, n.depth ≤ 30) (hline : ∀ n ∈ nodes, '\n' ∉ n.name) :
    recoverPaths root
    (root.dir ++ '\n' :: (nodes.map treeLine).flatMap (fun l => l.body ++ ['\n'])) =
      (nodes.filter fun n => n.leaf.isSome).map
        fun n => root.base ++
          pathString (n.parent ++ [nameOfText (n.name ++ matchLabel n.leaf)]) := by
  have hnames : ∀ l ∈ nodes.map treeLine, '\n' ∉ l.name := by
    intro l hl
    obtain ⟨n, hn, rfl⟩ := List.mem_map.mp hl
    exact hline n hn
  have hlines : (nodes.map treeLine).map (fun l => (l.dashes, l.name ++ matchLabel l.info)) =
      nodes.map fun n => (indentation n.depth, n.name ++ matchLabel n.leaf) := by
    rw [List.map_map]
    apply List.map_congr_left
    intro n hn
    exact congrArg (·, n.name ++ matchLabel n.leaf)
        (printIndent_eq (Nat.succ_pos _) (hshallow n hn))
  have hinner : ∀ n ∈ nodes, n.leaf = none → n.name ++ matchLabel n.leaf = n.name := by
    intro n _ hleaf
    rw [hleaf]
    exact List.append_nil _
  rw [recoverPaths_lines hnames, hlines, h.leafLines indentation_strictMono hinner spells_nil,
    List.map_map]
  rfl

theorem recoverPaths_printTree
    {qsort : (MatchEntry → MatchEntry → ℤ) → List MatchEntry → List MatchEntry}
    (hq : LawfulQsort qsort) (hdistinct : (files.map FoundFile.path).Nodup)
    (hshort : ∀ f ∈ files, ∀ x ∈ f.dirs ++ [f.name], x.length ≤ 255)
    (hline : ∀ f ∈ files, ∀ x ∈ f.dirs ++ [f.name], '\n' ∉ x)
    (hshallow : ∀ f ∈ files, f.node.depth ≤ 30) :
    recoverPaths root (printTree qsort root.dir (files.map FoundFile.entry)) =
      (inOrder files).map FoundFile.path := by
  by_cases hnil : files = []
  · subst hnil
    have hdrop : (printTree qsort root.dir []).drop (root.dir.length + 1) =
        "No matching files found.\n".toList := by
      rw [printTree, if_pos rfl, ← List.drop_drop, List.drop_left]
      rfl
    rw [List.map_nil, recoverPaths, hdrop]
    have hcut : (cutLines '\n' "No matching files found.\n".toList).1.filterMap readLine = [] := by
      decide
    rw [hcut, inOrder, List.mergeSort_nil]
    rfl
  · have hne : files.map FoundFile.entry ≠ [] := fun h => hnil (List.map_eq_nil_iff.mp h)
    have hnames : ∀ n ∈ listing maxPrintedDirs [] ((inOrder files).map FoundFile.node),
        '\n' ∉ n.name := by
      intro n hn
      obtain ⟨m, hm, h⟩ := mem_listing hn
      obtain ⟨f, hf, rfl⟩ := List.mem_map.mp hm
      have hplain := hline f ((inOrder_perm files).subset hf)
      rcases h with rfl | h
      · exact hplain f.name (List.mem_append_right _ List.mem_cons_self)
      · have hin : n.name ∈ n.path := List.mem_append_right _ List.mem_cons_self
        exact hplain n.name (List.mem_append_left _ ((mem_ancestors.mp h).2.subset hin))
    rw [printTree, if_neg hne, treeLines_eq hq hdistinct hshort,
      recoverPaths_nodes (depthFirst_inOrder files) (depth_listing hshallow) hnames,
      filter_listing (leaves_inOrder files), List.map_map]
    apply List.map_congr_left
    intro f _
    simp only [Function.comp_apply, FoundFile.node, nameOfText_label, pathString_concat]
    rfl

/-- Whatever is printed, no path is recovered that goes over a line break. -/
theorem newline_notMem_recovered {output path : List Char} (h : path ∈ recoverPaths root output) :
    ∃ rel, path = root.base ++ rel ∧ '\n' ∉ rel := by
  obtain ⟨p, hp, rfl⟩ := List.mem_map.mp h
  refine ⟨_, rfl, ?_⟩
  have hread : ∀ x ∈ p.1 ++ [p.2], '\n' ∉ x := by
    intro x hx hnewline
    obtain ⟨line, hline, rfl⟩ := mem_leafLines hp x hx
    obtain ⟨text, htext, hsome⟩ := List.mem_filterMap.mp hline
    have hclean := (sep_notMem_cutLines '\n' _).1 text htext
    unfold readLine at hsome
    split at hsome
    · obtain rfl := Option.some.inj hsome
      apply hclean
      apply List.mem_cons_of_mem
      exact (List.dropWhile_suffix _).subset ((List.drop_suffix 1 _).subset hnewline)
    · cases hsome
  have hname : '\n' ∉ nameOfText p.2 := by
    intro hmem
    apply hread p.2 (List.mem_append_right _ List.mem_cons_self)
    apply List.mem_reverse.mp
    exact (List.dropWhile_suffix _).subset
        ((List.drop_suffix 2 _).subset (List.mem_reverse.mp hmem))
  intro hmem
  rw [pathString_concat] at hmem
  rcases List.mem_append.mp hmem with hmem | hmem
  · obtain ⟨x, hx, hmem⟩ := List.mem_flatMap.mp hmem
    rcases List.mem_append.mp hmem with hmem | hmem
    · exact hread x (List.mem_append_left _ hx) hmem
    · simp at hmem
  · exact hname hmem

end Recovery
end SysProg.HW2

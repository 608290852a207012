import Mathlib.Order.Monotone.Basic
import SysProg.HW2.TreePrinter

/-!
# The printed tree
-/

namespace SysProg.HW2
open SysProg.Lib

/-! ### Matches under a root -/

/-- The root as it is given, and what the paths under it begin with; a root that ends with
a slash may go without another one. -/
structure SearchRoot where
  dir : List Char
  base : List Char
  base_eq : base = dir ++ ['/'] ∨ base = dir
  base_nul : '\x00' ∉ base

structure PlainName (x : List Char) : Prop where
  ne : x ≠ []
  slash : '/' ∉ x
  nul : '\x00' ∉ x

/-- A match at some depth under the root whose path is a C string in `char[4096]`. -/
structure FoundFile (root : SearchRoot) where
  dirs : List (List Char)
  name : List Char
  size : ℤ
  workerPid : ℤ
  plain : ∀ x ∈ dirs ++ [name], PlainName x
  fits : (root.base ++ joinLines '/' dirs name).length < 4096

abbrev PathNode := TreeNode (List Char) (ℤ × ℤ)

namespace FoundFile
variable {root : SearchRoot}

def rel (f : FoundFile root) : List Char := joinLines '/' f.dirs f.name

def path (f : FoundFile root) : List Char := root.base ++ f.rel

def entry (f : FoundFile root) : MatchEntry := ⟨f.path, f.size, f.workerPid⟩

def node (f : FoundFile root) : PathNode := ⟨f.dirs, f.name, some (f.size, f.workerPid)⟩

def ancestors (f : FoundFile root) : List PathNode := f.node.ancestors

theorem slash_notMem_dirs (f : FoundFile root) : ∀ x ∈ f.dirs, '/' ∉ x :=
  fun x hx => (f.plain x (List.mem_append_left _ hx)).slash

theorem plain_name (f : FoundFile root) : PlainName f.name :=
  f.plain f.name (List.mem_append_right _ List.mem_cons_self)

theorem cutLines_rel (f : FoundFile root) : cutLines '/' f.rel = (f.dirs, f.name) :=
  cutLines_joinLines f.slash_notMem_dirs f.plain_name.slash

theorem pathDepth_rel (f : FoundFile root) : pathDepth f.rel = f.dirs.length + 1 := by
  rw [pathDepth, ← length_cutLines, f.cutLines_rel, Nat.add_comm]

theorem head_rel (f : FoundFile root) : ∃ c rest, f.rel = c :: rest ∧ c ≠ '/' := by
  have hfirst : ∀ (x rest : List Char), PlainName x →
      ∃ c more, x ++ rest = c :: more ∧ c ≠ '/' := by
    intro x rest hx
    cases x with
    | nil => exact absurd rfl hx.ne
    | cons c x => exact ⟨c, x ++ rest, rfl, fun heq => hx.slash (heq ▸ List.mem_cons_self)⟩
  cases hdirs : f.dirs with
  | nil =>
    have hrel : f.rel = f.name ++ [] := by rw [rel, hdirs, List.append_nil]; rfl
    rw [hrel]
    exact hfirst f.name [] f.plain_name
  | cons d dirs =>
    have hrel : f.rel = d ++ ('/' :: joinLines '/' dirs f.name) := by
      rw [rel, hdirs, joinLines_cons, List.append_assoc, List.singleton_append]
    have hin : d ∈ f.dirs ++ [f.name] := by
      rw [hdirs]
      exact List.mem_append_left _ List.mem_cons_self
    rw [hrel]
    exact hfirst d _ (f.plain d hin)

theorem relativePath_path (f : FoundFile root) : relativePath root.dir f.path = f.rel := by
  obtain ⟨c, rest, hrel, hc⟩ := f.head_rel
  rcases root.base_eq with hbase | hbase
  · have hdrop : f.path.drop root.dir.length = '/' :: f.rel := by
      rw [path, hbase, List.append_assoc, List.drop_left]
      rfl
    rw [relativePath, hdrop]
    rfl
  · have hdrop : f.path.drop root.dir.length = c :: rest := by
      rw [path, hbase, List.drop_left, hrel]
    rw [relativePath, hdrop, hrel]
    split
    · exact absurd (List.cons.inj ‹_›).1 hc
    · rfl

theorem nul_notMem_path (f : FoundFile root) : '\x00' ∉ f.path := by
  intro h
  rcases List.mem_append.mp h with h | h
  · exact root.base_nul h
  · rcases List.mem_append.mp h with h | h
    · obtain ⟨d, hd, hmem⟩ := List.mem_flatMap.mp h
      rcases List.mem_append.mp hmem with hmem | hmem
      · exact (f.plain d (List.mem_append_left _ hd)).nul hmem
      · simp at hmem
    · exact f.plain_name.nul h

theorem getComponent_rel (f : FoundFile root) (k : ℕ) :
    getComponent f.rel (k + 1) = ((f.dirs ++ [f.name])[k]?).map (List.take 255) := by
  have hname := f.plain_name
  have hslash := f.slash_notMem_dirs
  rw [rel]
  generalize f.dirs = dirs at hslash ⊢
  have hrun : ∀ x : List Char, '/' ∉ x → ∀ rest,
      (x ++ '/' :: rest).takeWhile (· ≠ '/') = x ∧
        (x ++ '/' :: rest).dropWhile (· ≠ '/') = '/' :: rest := by
    intro x hx rest
    have hall : ∀ c ∈ x, decide (c ≠ '/') = true :=
      fun c hc => decide_eq_true fun heq => hx (heq ▸ hc)
    rw [List.takeWhile_append_of_pos hall, List.dropWhile_append_of_pos hall]
    simp
  induction dirs generalizing k with
  | nil =>
    have hall : ∀ c ∈ f.name, decide (c ≠ '/') = true :=
      fun c hc => decide_eq_true fun heq => hname.slash (heq ▸ hc)
    have hjoin : joinLines '/' [] f.name = f.name := rfl
    rw [hjoin, getComponent, if_neg hname.ne]
    cases k with
    | zero =>
      rw [if_pos rfl, List.takeWhile_eq_self_iff.mpr hall]
      rfl
    | succ k =>
      rw [if_neg (Nat.succ_ne_zero k), List.dropWhile_eq_nil_iff.mpr hall]
      rfl
  | cons d dirs ih =>
    obtain ⟨htake, hdrop⟩ := hrun d (hslash d List.mem_cons_self) (joinLines '/' dirs f.name)
    have hjoin : joinLines '/' (d :: dirs) f.name = d ++ '/' :: joinLines '/' dirs f.name := by
      rw [joinLines_cons, List.append_assoc, List.singleton_append]
    have hne : d ++ '/' :: joinLines '/' dirs f.name ≠ [] := by simp
    rw [hjoin, getComponent, if_neg hne]
    cases k with
    | zero =>
      rw [if_pos rfl, htake]
      rfl
    | succ k =>
      rw [if_neg (Nat.succ_ne_zero k), hdrop]
      exact ih k fun x hx => hslash x (List.mem_cons_of_mem d hx)

end FoundFile

/-! ### Paths of directories -/

theorem joinLines_append (front back : List (List Char)) (tail : List Char) :
    joinLines '/' (front ++ back) tail = joinLines '/' front (joinLines '/' back tail) := by
  simp [joinLines]

def pathString (names : List (List Char)) : List Char := (joinLines '/' names []).dropLast

theorem pathString_concat (above : List (List Char)) (x : List Char) :
    pathString (above ++ [x]) = joinLines '/' above x := by
  have hjoin : joinLines '/' (above ++ [x]) [] = joinLines '/' above x ++ ['/'] := by
    simp [joinLines]
  rw [pathString, hjoin, List.dropLast_concat]

theorem pathString_isPrefix (front back : List (List Char)) :
    pathString front <+: pathString (front ++ back) := by
  rcases List.eq_nil_or_concat back with rfl | ⟨above, x, rfl⟩
  · rw [List.append_nil]
  · rw [List.concat_eq_append, ← List.append_assoc, pathString_concat, joinLines_append]
    apply (List.dropLast_prefix _).trans
    simp [joinLines]

theorem pathString_inj {d e : PathNode} (hd : d.leaf = none) (he : e.leaf = none)
    (hdpath : ∀ x ∈ d.path, '/' ∉ x) (hepath : ∀ x ∈ e.path, '/' ∉ x)
    (h : pathString d.path = pathString e.path) : d = e := by
  have hcut : ∀ n : PathNode, (∀ x ∈ n.path, '/' ∉ x) →
      cutLines '/' (pathString n.path) = (n.parent, n.name) := by
    intro n hn
    rw [TreeNode.path, pathString_concat]
    apply cutLines_joinLines
    · exact fun x hx => hn x (List.mem_append_left _ hx)
    · exact hn n.name (List.mem_append_right _ List.mem_cons_self)
  have hsame := hcut d hdpath
  rw [h, hcut e hepath] at hsame
  obtain ⟨parent, name, leaf⟩ := d
  obtain ⟨parent', name', leaf'⟩ := e
  simp only [Prod.mk.injEq] at hsame hd he
  rw [hsame.1, hsame.2, hd, he]

section Printing
variable {root : SearchRoot} {f : FoundFile root}

theorem level_of_split (hshort : ∀ x ∈ f.dirs ++ [f.name], x.length ≤ 255)
    {front back : List (List Char)} {x : List Char} (h : f.dirs ++ [f.name] = front ++ x :: back) :
    getComponent f.rel (front.length + 1) = some x := by
  have hx : x.length ≤ 255 := by
    apply hshort
    rw [h]
    exact List.mem_append_right _ List.mem_cons_self
  rw [f.getComponent_rel, h, List.getElem?_append_right le_rfl, Nat.sub_self]
  exact congrArg some (List.take_of_length_le hx)

theorem length_pathString_le {front back : List (List Char)}
    (h : f.dirs ++ [f.name] = front ++ back) : (pathString front).length ≤ 4095 := by
  have hfits := f.fits
  have hpre := (pathString_isPrefix front back).length_le
  rw [← h, pathString_concat] at hpre
  rw [List.length_append] at hfits
  omega

theorem strncat_of_fits {dest src : List Char} (h : (dest ++ src).length ≤ 4095) :
    strncat dest src (4095 - dest.length) = dest ++ src := by
  rw [List.length_append] at h
  rw [strncat, List.take_of_length_le (by omega)]

theorem appendLevels_succ (hshort : ∀ x ∈ f.dirs ++ [f.name], x.length ≤ 255)
    {front back : List (List Char)} {x : List Char} (h : f.dirs ++ [f.name] = front ++ x :: back)
    (n : ℕ) :
    appendLevels f.rel (n + 1) (front.length + 1) (pathString front) =
      appendLevels f.rel n ((front ++ [x]).length + 1) (pathString (front ++ [x])) := by
  have hnext : f.dirs ++ [f.name] = (front ++ [x]) ++ back := by
    rw [h, List.append_assoc, List.singleton_append]
  have hlen := length_pathString_le hnext
  rw [appendLevels, level_of_split hshort h, List.length_append, List.length_singleton]
  simp only
  rcases List.eq_nil_or_concat front with rfl | ⟨above, y, rfl⟩
  · have hfirst : pathString ([] ++ [x]) = pathString [] ++ x := pathString_concat [] x
    rw [hfirst] at hlen ⊢
    rw [List.length_nil, if_neg (Nat.lt_irrefl _), strncat_of_fits hlen]
  · rw [List.concat_eq_append] at hlen ⊢
    have hjoin : pathString (above ++ [y] ++ [x]) = pathString (above ++ [y]) ++ ['/'] ++ x := by
      rw [pathString_concat, pathString_concat]
      simp [joinLines]
    have hslash : (pathString (above ++ [y]) ++ ['/']).length ≤ 4095 := by
      rw [hjoin, List.length_append] at hlen
      omega
    have hlevel : 1 < (above ++ [y]).length + 1 := by
      rw [List.length_append, List.length_singleton]
      omega
    rw [hjoin] at hlen ⊢
    rw [if_pos hlevel, strncat_of_fits hslash, strncat_of_fits hlen]

theorem appendLevels_rel (hshort : ∀ x ∈ f.dirs ++ [f.name], x.length ≤ 255)
    {front names back : List (List Char)} (h : f.dirs ++ [f.name] = front ++ (names ++ back)) :
    appendLevels f.rel names.length (front.length + 1) (pathString front) =
      pathString (front ++ names) := by
  induction names generalizing front with
  | nil =>
    rw [List.append_nil]
    rfl
  | cons x names ih =>
    have hnext : f.dirs ++ [f.name] = (front ++ [x]) ++ (names ++ back) := by
      rw [h, List.append_assoc, List.singleton_append, List.cons_append]
    rw [List.length_cons, appendLevels_succ hshort h, ih hnext, List.append_assoc,
      List.singleton_append]

theorem partialPath_rel (hshort : ∀ x ∈ f.dirs ++ [f.name], x.length ≤ 255)
    {front back : List (List Char)} (h : f.dirs ++ [f.name] = front ++ back) :
    partialPath f.rel front.length = pathString front :=
  @appendLevels_rel root f hshort [] front back h

def treeLine (n : PathNode) : TreeLine := ⟨printIndent n.depth, n.name, n.leaf⟩

def stateOf (seen nodes : List PathNode) : TreeState :=
  ⟨seen.map fun d => pathString d.path, nodes.map treeLine⟩

def DirNodes (seen : List PathNode) : Prop :=
  ∀ d ∈ seen, d.leaf = none ∧ ∀ x ∈ d.path, '/' ∉ x

theorem dirNodes_ancestors (f : FoundFile root) : DirNodes f.ancestors := by
  intro d hd
  obtain ⟨hleaf, hpath⟩ := mem_ancestors.mp hd
  exact ⟨hleaf, fun x hx => f.slash_notMem_dirs x (hpath.subset hx)⟩

theorem DirNodes.foldl_remember {seen ds : List PathNode} (hseen : DirNodes seen)
    (hds : DirNodes ds) : DirNodes (ds.foldl (remember maxPrintedDirs) seen) := by
  intro d hd
  exact (mem_foldl_remember hd).elim (hseen d) (hds d)

theorem printDir_stateOf (nodes : List PathNode) {seen : List PathNode} {d : PathNode}
    (hseen : DirNodes seen) (hd : DirNodes [d])
    (hpath : partialPath f.rel d.depth = pathString d.path)
    (hlen : (pathString d.path).length ≤ 4095) :
    printDir f.rel d.depth d.name (stateOf seen nodes) =
      stateOf (remember maxPrintedDirs seen d) (nodes ++ if d ∈ seen then [] else [d]) := by
  obtain ⟨hleaf, hplain⟩ := hd d List.mem_cons_self
  have hmem : (seen.map fun e => pathString e.path).contains (pathString d.path) = true ↔
      d ∈ seen := by
    rw [List.contains_iff_mem]
    constructor
    · intro h
      obtain ⟨e, he, heq⟩ := List.mem_map.mp h
      obtain ⟨heleaf, heplain⟩ := hseen e he
      exact pathString_inj heleaf hleaf heplain hplain heq ▸ he
    · exact fun h => List.mem_map_of_mem h
  simp only [printDir, hpath, stateOf, hmem, List.length_map]
  by_cases hin : d ∈ seen
  · rw [if_pos hin, if_pos hin, remember_of_mem hin, List.append_nil]
  · rw [if_neg hin, if_neg hin, List.take_of_length_le hlen, List.map_append, List.map_singleton,
      treeLine, hleaf]
    by_cases hroom : seen.length < maxPrintedDirs
    · rw [if_pos hroom, remember_of_room hin hroom, List.map_append, List.map_singleton]
    · rw [if_neg hroom, remember_of_full (Nat.le_of_not_lt hroom)]

theorem printDirs_stateOf (hshort : ∀ x ∈ f.dirs ++ [f.name], x.length ≤ 255)
    {above names : List (List Char)} (h : f.dirs = above ++ names)
    {seen : List PathNode} (hseen : DirNodes seen) (nodes : List PathNode) :
    printDirs f.rel names.length (above.length + 1) (stateOf seen nodes) =
      stateOf ((innerNodes above names).foldl (remember maxPrintedDirs) seen)
        (nodes ++ fresh maxPrintedDirs seen (innerNodes above names)) := by
  induction names generalizing above seen nodes with
  | nil =>
    rw [innerNodes, fresh, List.append_nil]
    rfl
  | cons x names ih =>
    have hnames : f.dirs ++ [f.name] = above ++ x :: (names ++ [f.name]) := by
      rw [h, List.append_assoc]
      rfl
    have hlevel : f.dirs ++ [f.name] = (above ++ [x]) ++ (names ++ [f.name]) := by
      rw [hnames, List.append_assoc, List.singleton_append]
    let d : PathNode := ⟨above, x, none⟩
    have hd : DirNodes [d] := by
      intro e he
      obtain rfl := List.mem_singleton.mp he
      refine ⟨rfl, fun y hy => (f.plain y ?_).slash⟩
      rw [hlevel]
      exact List.mem_append_left _ hy
    have hpath : partialPath f.rel d.depth = pathString d.path := by
      have hpartial := partialPath_rel hshort hlevel
      rwa [List.length_append, List.length_singleton] at hpartial
    have hdir := printDir_stateOf (f := f) nodes hseen hd hpath (length_pathString_le hlevel)
    have hstep : DirNodes (remember maxPrintedDirs seen d) := hseen.foldl_remember hd
    have hrest : f.dirs = (above ++ [x]) ++ names := by
      rw [h, List.append_assoc, List.singleton_append]
    have hnext := ih hrest hstep (nodes ++ if d ∈ seen then [] else [d])
    rw [List.length_append, List.length_singleton] at hnext
    rw [List.length_cons, printDirs, level_of_split hshort hnames, innerNodes, List.foldl_cons,
      fresh_cons, ← List.append_assoc]
    simp only
    exact (congrArg _ hdir).trans hnext

theorem printEntry_stateOf (hshort : ∀ x ∈ f.dirs ++ [f.name], x.length ≤ 255)
    {seen nodes : List PathNode} (hseen : DirNodes seen) :
    printEntry root.dir (stateOf seen nodes) f.entry =
      stateOf (f.ancestors.foldl (remember maxPrintedDirs) seen)
        (nodes ++ (fresh maxPrintedDirs seen f.ancestors ++ [f.node])) := by
  have hname : getComponent f.rel (f.dirs.length + 1) = some f.name := level_of_split hshort rfl
  have hdirs := printDirs_stateOf hshort (List.nil_append f.dirs).symm hseen nodes
  have hrel : relativePath root.dir f.entry.path = f.rel := f.relativePath_path
  rw [List.length_nil, Nat.zero_add] at hdirs
  simp only [printEntry, hrel, f.pathDepth_rel, Nat.add_sub_cancel, hname]
  rw [hdirs, ← List.append_assoc]
  simp only [stateOf, List.map_append, List.map_singleton]
  rfl

theorem foldl_printEntry {files : List (FoundFile root)}
    (hshort : ∀ f ∈ files, ∀ x ∈ f.dirs ++ [f.name], x.length ≤ 255)
    {seen : List PathNode} (hseen : DirNodes seen) (nodes : List PathNode) :
    ((files.map FoundFile.entry).foldl (printEntry root.dir) (stateOf seen nodes)).lines =
      (nodes ++ listing maxPrintedDirs seen (files.map FoundFile.node)).map treeLine := by
  induction files generalizing seen nodes with
  | nil =>
    rw [List.map_nil, List.map_nil, listing, List.append_nil]
    rfl
  | cons f files ih =>
    rw [List.map_cons, List.map_cons, List.foldl_cons,
      printEntry_stateOf (hshort f List.mem_cons_self) hseen,
      ih (fun g hg => hshort g (List.mem_cons_of_mem f hg))
        (hseen.foldl_remember (dirNodes_ancestors f)), listing]
    simp only [FoundFile.ancestors, List.append_assoc, List.singleton_append]

end Printing
end SysProg.HW2

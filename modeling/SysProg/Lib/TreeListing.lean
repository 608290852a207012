import Mathlib.Data.List.Infix
import Mathlib.Order.Monotone.Defs
import SysProg.Lib.BoundedTally

/-!
# Listing a tree leaf by leaf

The leaves of a tree come in an order that keeps the leaves beneath an inner node
together. A listing shows every leaf and before it those of its ancestors that it
does not remember to have shown; its memory is bounded and forgets nothing, so an
inner node that finds it full is shown again for each further leaf. Whatever the
bound, the listing is depth first, and the indentation of its lines tells the
parent of every node and which nodes are leaves.
-/

namespace SysProg.Lib
variable {α β κ : Type*}

/-! ### A bounded memory -/

section Memory
variable [DecidableEq κ] (capacity : ℕ)

def remember (seen : List κ) (d : κ) : List κ :=
  if d ∈ seen then seen else if seen.length < capacity then seen ++ [d] else seen

def fresh : List κ → List κ → List κ
  | _, [] => []
  | seen, d :: ds => if d ∈ seen then fresh seen ds else d :: fresh (remember capacity seen d) ds

variable {capacity}

theorem remember_of_mem {seen : List κ} {d : κ} (h : d ∈ seen) : remember capacity seen d = seen :=
  if_pos h

theorem remember_of_full {seen : List κ} (h : capacity ≤ seen.length) (d : κ) :
    remember capacity seen d = seen := by
  rw [remember, if_neg (Nat.not_lt.mpr h), ite_self]

theorem remember_of_room {seen : List κ} {d : κ} (hd : d ∉ seen) (h : seen.length < capacity) :
    remember capacity seen d = seen ++ [d] := by
  rw [remember, if_neg hd, if_pos h]

theorem mem_remember {seen : List κ} {d x : κ} (h : x ∈ remember capacity seen d) :
    x ∈ seen ∨ x = d := by
  unfold remember at h
  split_ifs at h
  · exact .inl h
  · exact (List.mem_append.mp h).imp_right List.mem_singleton.mp
  · exact .inl h

theorem subset_remember (seen : List κ) (d : κ) : seen ⊆ remember capacity seen d := by
  intro x hx
  unfold remember
  split_ifs
  · exact hx
  · exact List.mem_append_left _ hx
  · exact hx

theorem subset_foldl_remember (seen ds : List κ) : seen ⊆ ds.foldl (remember capacity) seen := by
  induction ds generalizing seen with
  | nil => exact List.Subset.refl seen
  | cons d ds ih =>
    apply List.Subset.trans (subset_remember seen d)
    exact ih _

theorem mem_foldl_remember {seen ds : List κ} {x : κ} (h : x ∈ ds.foldl (remember capacity) seen) :
    x ∈ seen ∨ x ∈ ds := by
  induction ds generalizing seen with
  | nil => exact .inl h
  | cons d ds ih =>
    rcases ih h with hx | hx
    · rcases mem_remember hx with hx | rfl
      · exact .inl hx
      · exact .inr List.mem_cons_self
    · exact .inr (List.mem_cons_of_mem d hx)

theorem foldl_remember_of_full {seen : List κ} (h : capacity ≤ seen.length) (ds : List κ) :
    ds.foldl (remember capacity) seen = seen := by
  induction ds with
  | nil => rfl
  | cons d ds ih => rw [List.foldl_cons, remember_of_full h, ih]

theorem foldl_remember (ds : List κ) :
    ds.foldl (remember capacity) [] = ds.eraseDups.take capacity := by
  induction ds using List.reverseRecOn with
  | nil => simp
  | append_singleton ds d ih =>
    rw [List.foldl_append, List.foldl_cons, List.foldl_nil, ih, eraseDups_concat]
    by_cases hroom : ds.eraseDups.length < capacity
    · have hall : ds.eraseDups.take capacity = ds.eraseDups :=
        List.take_of_length_le (Nat.le_of_lt hroom)
      rw [hall]
      split_ifs with hd
      · rw [remember_of_mem (List.mem_eraseDups.mpr hd), hall]
      · rw [remember_of_room (fun h => hd (List.mem_eraseDups.mp h)) hroom, List.take_of_length_le]
        rw [List.length_append, List.length_singleton]
        exact hroom
    · have hfull : capacity ≤ ds.eraseDups.length := Nat.le_of_not_lt hroom
      have hlen : capacity ≤ (ds.eraseDups.take capacity).length := by
        rw [List.length_take, Nat.min_eq_left hfull]
      rw [remember_of_full hlen]
      split_ifs
      · rfl
      · rw [List.take_append_of_le_length hfull]

theorem fresh_subset (seen ds : List κ) : fresh capacity seen ds ⊆ ds := by
  induction ds generalizing seen with
  | nil => exact List.Subset.refl []
  | cons d ds ih =>
    intro x hx
    rw [fresh] at hx
    split_ifs at hx
    · exact List.mem_cons_of_mem d (ih seen hx)
    · rcases List.mem_cons.mp hx with rfl | hx
      · exact List.mem_cons_self
      · exact List.mem_cons_of_mem d (ih _ hx)

theorem fresh_append (seen ds es : List κ) :
    fresh capacity seen (ds ++ es) =
      fresh capacity seen ds ++ fresh capacity (ds.foldl (remember capacity) seen) es := by
  induction ds generalizing seen with
  | nil => rfl
  | cons d ds ih =>
    rw [List.cons_append, fresh, fresh, List.foldl_cons]
    split_ifs with hd
    · rw [ih, remember_of_mem hd]
    · rw [ih, List.cons_append]

theorem fresh_cons (seen : List κ) (d : κ) (ds : List κ) :
    fresh capacity seen (d :: ds) =
      (if d ∈ seen then [] else [d]) ++ fresh capacity (remember capacity seen d) ds := by
  rw [fresh]
  split_ifs with hd
  · rw [remember_of_mem hd]
    rfl
  · rfl

theorem fresh_of_subset {seen ds : List κ} (h : ∀ d ∈ ds, d ∈ seen) :
    fresh capacity seen ds = [] := by
  induction ds with
  | nil => rfl
  | cons d ds ih =>
    rw [fresh, if_pos (h d List.mem_cons_self)]
    exact ih fun e he => h e (List.mem_cons_of_mem d he)

theorem fresh_of_notMem {seen ds : List κ} (hnd : ds.Nodup) (h : ∀ d ∈ ds, d ∉ seen) :
    fresh capacity seen ds = ds := by
  induction ds generalizing seen with
  | nil => rfl
  | cons d ds ih =>
    obtain ⟨hd, hnd⟩ := List.nodup_cons.mp hnd
    rw [fresh, if_neg (h d List.mem_cons_self)]
    congr 1
    apply ih hnd
    intro e he hmem
    rcases mem_remember hmem with hmem | rfl
    · exact h e (List.mem_cons_of_mem d he) hmem
    · exact hd he

theorem mem_or_mem_fresh (seen : List κ) {ds : List κ} {d : κ} (h : d ∈ ds) :
    d ∈ seen ∨ d ∈ fresh capacity seen ds := by
  induction ds generalizing seen with
  | nil => exact absurd h List.not_mem_nil
  | cons e ds ih =>
    rw [fresh]
    split_ifs with he
    · rcases List.mem_cons.mp h with rfl | h
      · exact .inl he
      · exact ih seen h
    · rcases List.mem_cons.mp h with rfl | h
      · exact .inr List.mem_cons_self
      · rcases ih (remember capacity seen e) h with hmem | hmem
        · rcases mem_remember hmem with hmem | rfl
          · exact .inl hmem
          · exact .inr List.mem_cons_self
        · exact .inr (List.mem_cons_of_mem e hmem)

/-- An element that gets into the memory is shown once, another one every time it comes. -/
theorem count_fresh (seen ds : List κ) (x : κ) :
    (fresh capacity seen ds).count x =
      if x ∈ seen then 0
      else if x ∈ ds.foldl (remember capacity) seen then 1
      else ds.count x := by
  induction ds generalizing seen with
  | nil =>
    split_ifs with hx
    · rfl
    · exact absurd ‹_› hx
    · rfl
  | cons d ds ih =>
    rw [fresh, List.foldl_cons]
    by_cases hd : d ∈ seen
    · rw [if_pos hd, ih, remember_of_mem hd]
      by_cases hx : x ∈ seen
      · rw [if_pos hx, if_pos hx]
      · have hne : d ≠ x := fun heq => hx (heq ▸ hd)
        rw [List.count_cons_of_ne hne]
    · rw [if_neg hd]
      by_cases hne : d = x
      · subst hne
        rw [List.count_cons_self, List.count_cons_self, ih, if_neg hd]
        by_cases hroom : seen.length < capacity
        · have hin : d ∈ remember capacity seen d := by
            rw [remember_of_room hd hroom]
            exact List.mem_append_right _ List.mem_cons_self
          rw [if_pos hin, if_pos (subset_foldl_remember _ ds hin)]
        · have hfull := Nat.le_of_not_lt hroom
          rw [remember_of_full hfull, foldl_remember_of_full hfull, if_neg hd, if_neg hd, if_neg hd]
      · have hiff : x ∈ remember capacity seen d ↔ x ∈ seen :=
          ⟨fun h => (mem_remember h).resolve_right (Ne.symm hne), fun h => subset_remember seen d h⟩
        rw [List.count_cons_of_ne hne, List.count_cons_of_ne hne, ih]
        simp only [hiff]

end Memory

/-! ### Nodes -/

/-- A node with the names on the way to it; a leaf carries what is known of it. -/
structure TreeNode (α β : Type*) where
  parent : List α
  name : α
  leaf : Option β
  deriving DecidableEq

namespace TreeNode

def path (n : TreeNode α β) : List α := n.parent ++ [n.name]

def depth (n : TreeNode α β) : ℕ := n.parent.length + 1

theorem length_path (n : TreeNode α β) : n.path.length = n.depth := by
  rw [path, depth, List.length_append, List.length_singleton]

end TreeNode

/-- The inner nodes on the way along `names` from the node at `above`. -/
def innerNodes (above : List α) : List α → List (TreeNode α β)
  | [] => []
  | x :: names => ⟨above, x, none⟩ :: innerNodes (above ++ [x]) names

def TreeNode.ancestors (n : TreeNode α β) : List (TreeNode α β) := innerNodes [] n.parent

theorem mem_innerNodes {above names : List α} {d : TreeNode α β} :
    d ∈ innerNodes above names ↔
      d.leaf = none ∧ ∃ front back, names = front ++ d.name :: back ∧
      d.parent = above ++ front := by
  induction names generalizing above with
  | nil => simp [innerNodes]
  | cons x names ih =>
    rw [innerNodes, List.mem_cons, ih]
    constructor
    · rintro (rfl | ⟨hleaf, front, back, rfl, hparent⟩)
      · exact ⟨rfl, [], names, rfl, (List.append_nil above).symm⟩
      · refine ⟨hleaf, x :: front, back, rfl, ?_⟩
        rw [hparent, List.append_assoc, List.singleton_append]
    · rintro ⟨hleaf, front, back, hnames, hparent⟩
      cases front with
      | nil =>
        obtain ⟨rfl, rfl⟩ := List.cons.inj hnames
        rw [List.append_nil] at hparent
        left
        obtain ⟨parent, name, leaf⟩ := d
        simp only at hleaf hparent
        rw [hleaf, hparent]
      | cons y front =>
        obtain ⟨rfl, rfl⟩ := List.cons.inj hnames
        right
        refine ⟨hleaf, front, back, rfl, ?_⟩
        rw [hparent, List.append_assoc, List.singleton_append]

theorem mem_ancestors {n d : TreeNode α β} :
    d ∈ n.ancestors ↔ d.leaf = none ∧ d.path <+: n.parent := by
  rw [TreeNode.ancestors, mem_innerNodes]
  constructor
  · rintro ⟨hleaf, front, back, hnames, hparent⟩
    refine ⟨hleaf, back, ?_⟩
    rw [TreeNode.path, hparent, hnames, List.nil_append, List.append_assoc, List.singleton_append]
  · rintro ⟨hleaf, back, hback⟩
    refine ⟨hleaf, d.parent, back, ?_, rfl⟩
    rw [← hback, TreeNode.path, List.append_assoc, List.singleton_append]

theorem innerNodes_append (above front back : List α) :
    (innerNodes above (front ++ back) : List (TreeNode α β)) =
      innerNodes above front ++ innerNodes (above ++ front) back := by
  induction front generalizing above with
  | nil => rw [List.append_nil]; rfl
  | cons x front ih =>
    rw [List.cons_append, innerNodes, innerNodes, ih, List.append_assoc, List.singleton_append,
      List.cons_append]

theorem nodup_innerNodes (above names : List α) :
    (innerNodes above names : List (TreeNode α β)).Nodup := by
  induction names generalizing above with
  | nil => exact List.nodup_nil
  | cons x names ih =>
    rw [innerNodes, List.nodup_cons]
    refine ⟨?_, ih _⟩
    intro hmem
    obtain ⟨-, front, back, -, hparent⟩ := mem_innerNodes.mp hmem
    have hlen := congrArg List.length hparent
    simp only [List.length_append, List.length_singleton] at hlen
    omega

/-! ### The listing -/

section Listing
variable [DecidableEq α] [DecidableEq β] (capacity : ℕ)

def listing : List (TreeNode α β) → List (TreeNode α β) → List (TreeNode α β)
  | _, [] => []
  | seen, f :: fs => fresh capacity seen f.ancestors ++
      f :: listing (f.ancestors.foldl (remember capacity) seen) fs

variable {capacity}

theorem mem_listing {seen fs : List (TreeNode α β)} {n : TreeNode α β}
    (h : n ∈ listing capacity seen fs) : ∃ f ∈ fs, n = f ∨ n ∈ f.ancestors := by
  induction fs generalizing seen with
  | nil => exact absurd h List.not_mem_nil
  | cons f fs ih =>
    rcases List.mem_append.mp h with h | h
    · exact ⟨f, List.mem_cons_self, .inr (fresh_subset _ _ h)⟩
    · rcases List.mem_cons.mp h with rfl | h
      · exact ⟨n, List.mem_cons_self, .inl rfl⟩
      · obtain ⟨g, hg, hn⟩ := ih h
        exact ⟨g, List.mem_cons_of_mem f hg, hn⟩

theorem sublist_listing (seen fs : List (TreeNode α β)) :
    fs.Sublist (listing capacity seen fs) := by
  induction fs generalizing seen with
  | nil => exact List.Sublist.slnil
  | cons f fs ih =>
    apply List.Sublist.trans _ (List.sublist_append_right _ _)
    exact (ih _).cons_cons f

theorem filter_listing {fs : List (TreeNode α β)} (hfs : ∀ f ∈ fs, f.leaf ≠ none)
    (seen : List (TreeNode α β)) :
    (listing capacity seen fs).filter (fun n => n.leaf.isSome) = fs := by
  induction fs generalizing seen with
  | nil => rfl
  | cons f fs ih =>
    have hinner : (fresh capacity seen f.ancestors).filter (fun n => n.leaf.isSome) = [] := by
      rw [List.filter_eq_nil_iff]
      intro d hd hleaf
      rw [(mem_ancestors.mp (fresh_subset _ _ hd)).1] at hleaf
      cases hleaf
    have hf : f.leaf.isSome = true := Option.isSome_iff_ne_none.mpr (hfs f List.mem_cons_self)
    rw [listing, List.filter_append, hinner, List.nil_append, List.filter_cons, if_pos hf,
      ih fun g hg => hfs g (List.mem_cons_of_mem f hg)]

theorem count_listing {fs : List (TreeNode α β)} (hfs : ∀ f ∈ fs, f.leaf ≠ none)
    (seen : List (TreeNode α β)) {d : TreeNode α β} (hd : d.leaf = none) :
    (listing capacity seen fs).count d =
      (fresh capacity seen (fs.flatMap TreeNode.ancestors)).count d := by
  induction fs generalizing seen with
  | nil => rfl
  | cons f fs ih =>
    have hne : f ≠ d := fun heq => hfs f List.mem_cons_self (heq ▸ hd)
    rw [listing, List.flatMap_cons, fresh_append, List.count_append, List.count_append,
      List.count_cons_of_ne hne, ih fun g hg => hfs g (List.mem_cons_of_mem f hg)]

theorem ancestor_before (seen : List (TreeNode α β)) {fs : List (TreeNode α β)}
    {f d : TreeNode α β} (hf : f ∈ fs) (hd : d ∈ f.ancestors) :
    d ∈ seen ∨ [d, f].Sublist (listing capacity seen fs) := by
  induction fs generalizing seen with
  | nil => exact absurd hf List.not_mem_nil
  | cons g fs ih =>
    have hshown : ∀ h ∈ g :: fs, d ∈ fresh capacity seen g.ancestors →
        [d, h].Sublist (listing capacity seen (g :: fs)) := by
      intro h hh hin
      have hlater :
          [h].Sublist (g :: listing capacity (g.ancestors.foldl (remember capacity) seen) fs) :=
        (List.singleton_sublist.mpr hh).trans ((sublist_listing _ fs).cons_cons g)
      exact (List.singleton_sublist.mpr hin).append hlater
    rcases List.mem_cons.mp hf with rfl | hin
    · exact (mem_or_mem_fresh _ hd).imp_right (hshown f List.mem_cons_self)
    · rcases ih (g.ancestors.foldl (remember capacity) seen) hin with hmem | hsub
      · rcases mem_foldl_remember hmem with hmem | hmem
        · exact .inl hmem
        · exact (mem_or_mem_fresh _ hmem).imp_right (hshown f hf)
      · right
        exact (hsub.cons g).trans (List.sublist_append_right _ _)

/-! ### Depth first -/

/-- A depth-first listing goes on with these nodes where `branch` is open: a leaf closes
what is not above it, and an inner node is followed by one of its children. -/
inductive DepthFirst : List α → List (TreeNode α β) → Prop where
  | nil {branch : List α} : DepthFirst branch []
  | leaf {branch : List α} {n : TreeNode α β} {ns : List (TreeNode α β)} (hleaf : n.leaf ≠ none)
      (hparent : n.parent <+: branch) (hns : DepthFirst n.parent ns) : DepthFirst branch (n :: ns)
  | inner {branch : List α} {n m : TreeNode α β} {ns : List (TreeNode α β)} (hleaf : n.leaf = none)
      (hparent : n.parent <+: branch) (hchild : m.parent = n.path)
      (hns : DepthFirst n.path (m :: ns)) : DepthFirst branch (n :: m :: ns)

omit [DecidableEq α] [DecidableEq β] in
theorem DepthFirst.parent_isPrefix {branch : List α} {n : TreeNode α β} {ns : List (TreeNode α β)}
    (h : DepthFirst branch (n :: ns)) : n.parent <+: branch := by
  cases h with
  | leaf _ hparent _ => exact hparent
  | inner _ hparent _ _ => exact hparent

omit [DecidableEq α] [DecidableEq β] in
theorem depthFirst_innerNodes {above branch names : List α} {f : TreeNode α β}
    {ns : List (TreeNode α β)} (habove : above <+: branch) (hparent : f.parent = above ++ names)
    (hleaf : f.leaf ≠ none) (hns : DepthFirst f.parent ns) :
    DepthFirst branch (innerNodes above names ++ f :: ns) := by
  induction names generalizing above branch with
  | nil =>
    rw [List.append_nil] at hparent
    exact .leaf hleaf (hparent ▸ habove) hns
  | cons x names ih =>
    have hnext : DepthFirst (above ++ [x]) (innerNodes (above ++ [x]) names ++ f :: ns) := by
      apply ih (List.prefix_refl _)
      rw [hparent, List.append_assoc, List.singleton_append]
    cases names with
    | nil => exact .inner rfl habove hparent hnext
    | cons y names => exact .inner rfl habove rfl hnext

/-- With a node its ancestors are remembered. -/
def ClosedAbove (seen : List (TreeNode α β)) : Prop := ∀ d ∈ seen, ∀ e ∈ d.ancestors, e ∈ seen

omit [DecidableEq α] [DecidableEq β] in
theorem ClosedAbove.split {seen : List (TreeNode α β)} (h : ClosedAbove seen)
    (above names : List α) :
    ∃ front back, names = front ++ back ∧ (∀ d ∈ innerNodes above front, d ∈ seen) ∧
      ∀ d ∈ innerNodes (above ++ front) back, d ∉ seen := by
  induction names generalizing above with
  | nil => exact ⟨[], [], rfl, by simp [innerNodes], by simp [innerNodes]⟩
  | cons x names ih =>
    by_cases hx : (⟨above, x, none⟩ : TreeNode α β) ∈ seen
    · obtain ⟨front, back, hnames, hfront, hback⟩ := ih (above ++ [x])
      refine ⟨x :: front, back, ?_, ?_, ?_⟩
      · rw [hnames, List.cons_append]
      · intro d hd
        rcases List.mem_cons.mp hd with rfl | hd
        · exact hx
        · exact hfront d hd
      · rwa [List.append_assoc, List.singleton_append] at hback
    · refine ⟨[], x :: names, rfl, by simp [innerNodes], ?_⟩
      rw [List.append_nil]
      intro d hd hseen
      rcases List.mem_cons.mp hd with rfl | hd
      · exact hx hseen
      · apply hx
        apply h d hseen
        obtain ⟨-, front, back, -, hparent⟩ := mem_innerNodes.mp hd
        rw [mem_ancestors]
        refine ⟨rfl, front, ?_⟩
        rw [hparent]
        rfl

theorem ClosedAbove.remember_innerNodes {seen : List (TreeNode α β)} (h : ClosedAbove seen)
    {above names : List α}
    (habove : ∀ d ∈ innerNodes [] above, d ∈ seen ∨ capacity ≤ seen.length) :
    ClosedAbove ((innerNodes above names).foldl (remember capacity) seen) := by
  induction names generalizing above seen with
  | nil => exact h
  | cons x names ih =>
    rw [innerNodes, List.foldl_cons]
    by_cases hfull : capacity ≤ seen.length
    · rw [remember_of_full hfull, foldl_remember_of_full hfull]
      exact h
    · have hroom := Nat.lt_of_not_le hfull
      have hin : (⟨above, x, none⟩ : TreeNode α β) ∈ remember capacity seen ⟨above, x, none⟩ := by
        unfold remember
        split_ifs with hx
        · exact hx
        · exact List.mem_append_right _ List.mem_cons_self
      apply ih
      · intro d hd e he
        rcases mem_remember hd with hd | rfl
        · exact subset_remember _ _ (h d hd e he)
        · exact subset_remember _ _ ((habove e he).resolve_right hfull)
      · intro d hd
        rw [innerNodes_append, List.nil_append] at hd
        rcases List.mem_append.mp hd with hd | hd
        · exact .inl (subset_remember _ _ ((habove d hd).resolve_right hfull))
        · obtain rfl := List.mem_singleton.mp hd
          exact .inl hin

theorem ClosedAbove.remember_ancestors {seen : List (TreeNode α β)} (h : ClosedAbove seen)
    (f : TreeNode α β) : ClosedAbove (f.ancestors.foldl (remember capacity) seen) :=
  h.remember_innerNodes fun _ hd => absurd hd List.not_mem_nil

variable (capacity) in
/-- Before a leaf the lower ones of its ancestors are shown, and none of them is remembered. -/
theorem ClosedAbove.fresh_ancestors {seen : List (TreeNode α β)} (h : ClosedAbove seen)
    (f : TreeNode α β) : ∃ front back, f.parent = front ++ back ∧
      (∀ d ∈ innerNodes [] front, d ∈ seen) ∧
        fresh capacity seen f.ancestors = innerNodes front back := by
  obtain ⟨front, back, hnames, hfront, hback⟩ := h.split [] f.parent
  refine ⟨front, back, hnames, hfront, ?_⟩
  have hmem : (innerNodes [] front).foldl (remember capacity) seen = seen := by
    clear hback hnames
    generalize innerNodes [] front = ds at hfront
    induction ds with
    | nil => rfl
    | cons d ds ih =>
      rw [List.foldl_cons, remember_of_mem (hfront d List.mem_cons_self)]
      exact ih fun e he => hfront e (List.mem_cons_of_mem d he)
  rw [TreeNode.ancestors, hnames, innerNodes_append, fresh_append, fresh_of_subset hfront,
    List.nil_append, hmem, fresh_of_notMem (nodup_innerNodes _ _) hback, List.nil_append]

theorem depthFirst_listing (le : TreeNode α β → TreeNode α β → Prop)
    {fs seen : List (TreeNode α β)} {branch : List α}
    (htogether : ∀ a b c d : TreeNode α β, le a b → le b c → d ∈ a.ancestors → d ∈ c.ancestors →
      d ∈ b.ancestors)
    (hleaves : ∀ f ∈ fs, f.leaf ≠ none) (hsorted : fs.Pairwise le) (hclosed : ClosedAbove seen)
    (hseen : ∀ d ∈ seen, ∃ e : TreeNode α β, d ∈ e.ancestors ∧ ∀ g ∈ fs, le e g)
    (hbranch : ∀ d ∈ seen, ∀ g ∈ fs, d ∈ g.ancestors → d.path <+: branch) :
    DepthFirst branch (listing capacity seen fs) := by
  induction fs generalizing seen branch with
  | nil => exact .nil
  | cons f fs ih =>
    obtain ⟨hf, hsorted⟩ := List.pairwise_cons.mp hsorted
    obtain ⟨front, back, hnames, hfront, hfresh⟩ := hclosed.fresh_ancestors capacity f
    have hopen : front <+: branch := by
      rcases List.eq_nil_or_concat front with rfl | ⟨above, x, rfl⟩
      · exact List.nil_prefix
      · have hin : (⟨above, x, none⟩ : TreeNode α β) ∈ innerNodes [] (above.concat x) := by
          rw [mem_innerNodes]
          exact ⟨rfl, above, [], List.concat_eq_append, rfl⟩
        have hpath := hbranch _ (hfront _ hin) f List.mem_cons_self
        rw [mem_ancestors] at hpath
        rw [List.concat_eq_append] at hnames ⊢
        exact hpath ⟨rfl, back, hnames.symm⟩
    rw [listing, hfresh]
    apply depthFirst_innerNodes hopen hnames (hleaves f List.mem_cons_self)
    apply ih (fun g hg => hleaves g (List.mem_cons_of_mem f hg)) hsorted
        (hclosed.remember_ancestors f)
    · intro d hd
      rcases mem_foldl_remember hd with hd | hd
      · obtain ⟨e, he, hle⟩ := hseen d hd
        exact ⟨e, he, fun g hg => hle g (List.mem_cons_of_mem f hg)⟩
      · exact ⟨f, hd, hf⟩
    · intro d hd g hg hdg
      have hdf : d ∈ f.ancestors := by
        rcases mem_foldl_remember hd with hd | hd
        · obtain ⟨e, he, hle⟩ := hseen d hd
          exact htogether e f g d (hle f List.mem_cons_self) (hf g hg) he hdg
        · exact hd
      exact (mem_ancestors.mp hdf).2

end Listing

/-! ### Reading a listing -/

section Reading
variable {indent : ℕ → ℕ} {shown : TreeNode α β → α}

/-- The nearest lines above with smaller and smaller indentation; `above` begins with the
nearest one. -/
def spelledParent : List (ℕ × α) → ℕ → List α
  | [], _ => []
  | line :: above, d =>
    if line.1 < d then spelledParent above line.1 ++ [line.2] else spelledParent above d

def spelledNodes (above : List (ℕ × α)) : List (ℕ × α × Option β) → List (TreeNode α β)
  | [] => []
  | (d, x, b) :: lines => ⟨spelledParent above d, x, b⟩ :: spelledNodes ((d, x) :: above) lines

/-- The lines that no deeper line follows, each with the path of its parent. -/
def leafLines (above : List (ℕ × α)) : List (ℕ × α) → List (List α × α)
  | [] => []
  | [line] => [(spelledParent above line.1, line.2)]
  | line :: next :: lines =>
    if line.1 < next.1 then leafLines (line :: above) (next :: lines)
    else (spelledParent above line.1, line.2) :: leafLines (line :: above) (next :: lines)

theorem mem_spelledParent {above : List (ℕ × α)} {d : ℕ} {x : α} (h : x ∈ spelledParent above d) :
    ∃ line ∈ above, x = line.2 := by
  induction above generalizing d with
  | nil => exact absurd h List.not_mem_nil
  | cons line above ih =>
    have hrest : ∀ {e : ℕ}, x ∈ spelledParent above e → ∃ l ∈ line :: above, x = l.2 := by
      intro e he
      obtain ⟨l, hl, heq⟩ := ih he
      exact ⟨l, List.mem_cons_of_mem line hl, heq⟩
    rw [spelledParent] at h
    split_ifs at h
    · rcases List.mem_append.mp h with h | h
      · exact hrest h
      · exact ⟨line, List.mem_cons_self, List.mem_singleton.mp h⟩
    · exact hrest h

theorem mem_leafLines {above lines : List (ℕ × α)} {p : List α × α}
    (h : p ∈ leafLines above lines) :
    ∀ x ∈ p.1 ++ [p.2], ∃ line ∈ above ++ lines, x = line.2 := by
  have hhere : ∀ (above : List (ℕ × α)) (line : ℕ × α) (lines : List (ℕ × α)),
      ∀ x ∈ spelledParent above line.1 ++ [line.2], ∃ l ∈ above ++ line :: lines, x = l.2 := by
    intro above line lines x hx
    rcases List.mem_append.mp hx with hx | hx
    · obtain ⟨l, hl, heq⟩ := mem_spelledParent hx
      exact ⟨l, List.mem_append_left _ hl, heq⟩
    · exact ⟨line, List.mem_append_right _ List.mem_cons_self, List.mem_singleton.mp hx⟩
  induction lines generalizing above with
  | nil => exact absurd h List.not_mem_nil
  | cons line lines ih =>
    cases lines with
    | nil =>
      obtain rfl := List.mem_singleton.mp h
      exact hhere above line []
    | cons next lines =>
      have hbelow : p ∈ leafLines (line :: above) (next :: lines) →
          ∀ x ∈ p.1 ++ [p.2], ∃ l ∈ above ++ line :: next :: lines, x = l.2 := by
        intro hp x hx
        obtain ⟨l, hl, heq⟩ := ih hp x hx
        refine ⟨l, ?_, heq⟩
        exact List.perm_middle.symm.subset hl
      rw [leafLines] at h
      split_ifs at h
      · exact hbelow h
      · rcases List.mem_cons.mp h with rfl | h
        · exact hhere above line (next :: lines)
        · exact hbelow h

def Spells (indent : ℕ → ℕ) (above : List (ℕ × α)) (branch : List α) : Prop :=
  ∀ p, p <+: branch → spelledParent above (indent (p.length + 1)) = p

theorem spells_nil : Spells indent ([] : List (ℕ × α)) [] := by
  intro p hp
  rw [List.prefix_nil.mp hp]
  rfl

theorem Spells.below {above : List (ℕ × α)} {branch : List α} (h : Spells indent above branch)
    (hmono : StrictMono indent) {n : TreeNode α β} (hp : n.parent <+: branch) (x : α) :
    Spells indent ((indent n.depth, x) :: above) n.parent := by
  intro p hpre
  have hle : p.length + 1 ≤ n.depth := Nat.succ_le_succ hpre.length_le
  have hnot : ¬ indent n.depth < indent (p.length + 1) := Nat.not_lt.mpr (hmono.monotone hle)
  rw [spelledParent, if_neg hnot]
  exact h p (hpre.trans hp)

theorem Spells.into {above : List (ℕ × α)} {branch : List α} (h : Spells indent above branch)
    (hmono : StrictMono indent) {n : TreeNode α β} (hp : n.parent <+: branch) :
    Spells indent ((indent n.depth, n.name) :: above) n.path := by
  intro q hq
  rcases List.prefix_concat_iff.mp hq with rfl | hq
  · have hlt : indent n.depth < indent (n.path.length + 1) := by
      rw [n.length_path]
      exact hmono (Nat.lt_succ_self _)
    have hparent : spelledParent above (indent n.depth) = n.parent := h n.parent hp
    rw [← TreeNode.path, spelledParent, if_pos hlt, hparent]
    rfl
  · exact h.below hmono hp n.name q hq

theorem DepthFirst.spelledNodes {branch : List α} {ns : List (TreeNode α β)}
    (h : DepthFirst branch ns) (hmono : StrictMono indent) {above : List (ℕ × α)}
    (habove : Spells indent above branch) :
    SysProg.Lib.spelledNodes above (ns.map fun n => (indent n.depth, n.name, n.leaf)) = ns := by
  induction h generalizing above with
  | nil => rfl
  | @leaf branch n ns hleaf hparent hns ih =>
    rw [List.map_cons, SysProg.Lib.spelledNodes, ih (habove.below hmono hparent n.name)]
    have hspell : spelledParent above (indent n.depth) = n.parent := habove n.parent hparent
    rw [hspell]
  | @inner branch n m ns hleaf hparent hchild hns ih =>
    rw [List.map_cons, SysProg.Lib.spelledNodes, ih (habove.into hmono hparent)]
    have hspell : spelledParent above (indent n.depth) = n.parent := habove n.parent hparent
    rw [hspell]

/-- The leaves can be told from the indentation alone. -/
theorem DepthFirst.leafLines {branch : List α} {ns : List (TreeNode α β)} (h : DepthFirst branch ns)
    (hmono : StrictMono indent) (hshown : ∀ n ∈ ns, n.leaf = none → shown n = n.name)
    {above : List (ℕ × α)} (habove : Spells indent above branch) :
    SysProg.Lib.leafLines above (ns.map fun n => (indent n.depth, shown n)) =
      (ns.filter fun n => n.leaf.isSome).map fun n => (n.parent, shown n) := by
  induction h generalizing above with
  | nil => rfl
  | @leaf branch n ns hleaf hparent hns ih =>
    have hspell : spelledParent above (indent n.depth) = n.parent := habove n.parent hparent
    have hsome : n.leaf.isSome = true := Option.isSome_iff_ne_none.mpr hleaf
    have hrest := ih (fun m hm => hshown m (List.mem_cons_of_mem n hm))
      (habove.below hmono hparent (shown n))
    rw [List.filter_cons, if_pos hsome, List.map_cons, List.map_cons, ← hrest]
    cases ns with
    | nil =>
      rw [← hspell]
      rfl
    | cons m ns =>
      have hnot : ¬ indent n.depth < indent m.depth := by
        apply Nat.not_lt.mpr
        apply hmono.monotone
        exact Nat.succ_le_succ hns.parent_isPrefix.length_le
      rw [List.map_cons, SysProg.Lib.leafLines, if_neg hnot, hspell]
  | @inner branch n m ns hleaf hparent hchild hns ih =>
    have hnone : ¬ n.leaf.isSome = true := by
      rw [hleaf]
      exact Bool.false_ne_true
    have hlt : indent n.depth < indent m.depth := by
      apply hmono
      rw [← n.length_path, TreeNode.depth, hchild]
      exact Nat.lt_succ_self _
    have hname := hshown n List.mem_cons_self hleaf
    rw [List.filter_cons, if_neg hnone, List.map_cons, List.map_cons,
        SysProg.Lib.leafLines, if_pos hlt,
      ← ih (fun k hk => hshown k (List.mem_cons_of_mem n hk)) (hname ▸ habove.into hmono hparent)]
    rfl

end Reading
end SysProg.Lib

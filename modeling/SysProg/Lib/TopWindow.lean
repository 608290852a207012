import SysProg.Lib.StableSort
import Mathlib.Data.List.FinRange

/-!
# The first elements of a stable sort, kept online

A window of the `n` first elements is enough to sort a stream as far as its
first `n` places: insertion behind the elements whose key is not larger, followed
by a cut to `n` elements, gives the first `n` of the sorted stream. The ranking
is stated on positions, so that equal elements of the stream stay apart.
-/

namespace SysProg.Lib
variable {α β κ : Type*} [LinearOrder κ] (key : α → κ)

/-- The element joins a window of `n` places and the last one may drop out. -/
def offerTo (n : ℕ) (window : List α) (x : α) : List α := (insertBehind key x window).take n

/-- Position `i` comes before position `j`: by the key, then by the order of the stream. -/
def RanksBefore (xs : List α) (i j : Fin xs.length) : Prop :=
  key (xs.get i) < key (xs.get j) ∨ key (xs.get i) = key (xs.get j) ∧ i < j

/-- `best` are the first `n` positions of `xs` in that order. -/
structure FirstRanks (xs : List α) (n : ℕ) (best : List (Fin xs.length)) : Prop where
  length_eq : best.length = min n xs.length
  ordered : best.Pairwise (RanksBefore key xs)
  first : ∀ b ∈ best, ∀ i, i ∉ best → RanksBefore key xs b i

variable {key}

theorem not_ranksBefore_self (xs : List α) (i : Fin xs.length) : ¬ RanksBefore key xs i i := by
  rintro (h | ⟨_, h⟩)
  · exact lt_irrefl _ h
  · exact lt_irrefl _ h

theorem FirstRanks.nodup {xs : List α} {n : ℕ} {best : List (Fin xs.length)}
    (h : FirstRanks key xs n best) : best.Nodup := by
  apply h.ordered.imp
  intro i j hij heq
  subst heq
  exact not_ranksBefore_self xs i hij

theorem insertBehind_eq_take_drop (x : α) (xs : List α) :
    insertBehind key x xs =
      xs.take (xs.findIdx (fun y => key x < key y)) ++
        x :: xs.drop (xs.findIdx (fun y => key x < key y)) := by
  induction xs with
  | nil => rfl
  | cons y ys ih =>
    unfold insertBehind
    rw [List.findIdx_cons]
    by_cases hxy : key x < key y
    · simp [hxy]
    · simp [hxy, ih]

theorem take_insertBehind_take (x : α) (n : ℕ) (xs : List α) :
    (insertBehind key x (xs.take n)).take n = (insertBehind key x xs).take n := by
  induction xs generalizing n with
  | nil => rw [List.take_nil]
  | cons y ys ih =>
    cases n with
    | zero => rw [List.take_zero, List.take_zero]
    | succ n =>
      rw [List.take_succ_cons]
      unfold insertBehind
      split_ifs
      · rw [List.take_succ_cons, List.take_succ_cons]
        cases n with
        | zero => rfl
        | succ n =>
            rw [List.take_succ_cons, List.take_succ_cons, List.take_take, min_eq_left n.le_succ]
      · rw [List.take_succ_cons, List.take_succ_cons, ih]

/-- The window follows the whole sorted stream. -/
theorem foldl_offerTo_take (key : α → κ) (n : ℕ) (xs w : List α) :
    xs.foldl (offerTo key n) (w.take n) =
      (xs.foldl (fun s x => insertBehind key x s) w).take n := by
  induction xs generalizing w with
  | nil => rfl
  | cons x xs ih =>
    rw [List.foldl_cons, List.foldl_cons, offerTo, take_insertBehind_take, ih]

theorem insertBehind_map (f : β → α) (x : β) (xs : List β) :
    insertBehind key (f x) (xs.map f) = (insertBehind (key ∘ f) x xs).map f := by
  induction xs with
  | nil => rfl
  | cons y ys ih =>
    rw [List.map_cons]
    unfold insertBehind
    rw [ih]
    split_ifs with h1 h2 h2
    · rfl
    · exact absurd h1 h2
    · exact absurd h2 h1
    · rfl

theorem foldl_offerTo_map (key : α → κ) (f : β → α) (n : ℕ) (xs w : List β) :
    (xs.map f).foldl (offerTo key n) (w.map f) = (xs.foldl (offerTo (key ∘ f) n) w).map f := by
  induction xs generalizing w with
  | nil => rfl
  | cons x xs ih =>
    rw [List.map_cons, List.foldl_cons, List.foldl_cons, offerTo, insertBehind_map,
        ← List.map_take, ih]
    rfl

theorem foldl_insertBehind_perm (xs w : List α) :
    (xs.foldl (fun s x => insertBehind key x s) w).Perm (w ++ xs) := by
  induction xs generalizing w with
  | nil => rw [List.append_nil]; exact List.Perm.refl w
  | cons x xs ih =>
    refine (ih (insertBehind key x w)).trans ?_
    exact ((insertBehind_perm x w).append_right xs).trans List.perm_middle.symm

theorem pairwise_insertBehind {R : α → α → Prop} {x : α} {xs : List α}
    (hxs : xs.Pairwise R) (hsorted : SortedBy key xs)
    (hbefore : ∀ y ∈ xs, key x < key y → R x y) (hbehind : ∀ y ∈ xs, key y ≤ key x → R y x) :
    (insertBehind key x xs).Pairwise R := by
  induction xs with
  | nil => exact List.pairwise_singleton _ _
  | cons y ys ih =>
    obtain ⟨hy, hys⟩ := List.pairwise_cons.mp hxs
    obtain ⟨hky, hksorted⟩ := List.pairwise_cons.mp hsorted
    unfold insertBehind
    split_ifs with hxy
    · refine List.pairwise_cons.mpr ⟨?_, hxs⟩
      intro z hz
      apply hbefore z hz
      rcases List.mem_cons.mp hz with rfl | hz
      · exact hxy
      · exact hxy.trans_le (hky z hz)
    · refine List.pairwise_cons.mpr ⟨?_, ?_⟩
      · intro z hz
        rcases List.mem_cons.mp ((insertBehind_perm x ys).mem_iff.mp hz) with rfl | hz
        · exact hbehind y List.mem_cons_self (not_lt.mp hxy)
        · exact hy z hz
      · apply ih hys hksorted
        · intro z hz
          exact hbefore z (List.mem_cons_of_mem _ hz)
        · intro z hz
          exact hbehind z (List.mem_cons_of_mem _ hz)

theorem foldl_insertBehind_pairwise (xs : List α) (todo done : List (Fin xs.length))
    (htodo : todo.Pairwise (· < ·)) (hlater : ∀ i ∈ done, ∀ j ∈ todo, i < j)
    (hdone : done.Pairwise (RanksBefore key xs)) :
    (todo.foldl (fun s i => insertBehind (key ∘ xs.get) i s) done).Pairwise
      (RanksBefore key xs) := by
  induction todo generalizing done with
  | nil => exact hdone
  | cons j todo ih =>
    obtain ⟨hj, htodo⟩ := List.pairwise_cons.mp htodo
    rw [List.foldl_cons]
    apply ih _ htodo
    · intro i hi k hk
      rcases List.mem_cons.mp ((insertBehind_perm j done).mem_iff.mp hi) with rfl | hi
      · exact hj k hk
      · exact hlater i hi k (List.mem_cons_of_mem _ hk)
    · have hsorted : SortedBy (key ∘ xs.get) done := by
        apply hdone.imp
        rintro a b (hab | ⟨hab, _⟩)
        · exact hab.le
        · exact hab.le
      apply pairwise_insertBehind hdone hsorted
      · intro i _ hlt
        exact .inl hlt
      · intro i hi hle
        rcases hle.lt_or_eq with hlt | heq
        · exact .inl hlt
        · exact .inr ⟨heq, hlater i hi j List.mem_cons_self⟩

theorem foldl_offerTo_ranks (key : α → κ) (n : ℕ) (xs : List α) :
    ∃ best, FirstRanks key xs n best ∧ xs.foldl (offerTo key n) [] = best.map xs.get := by
  let sorted := (List.finRange xs.length).foldl (fun s i => insertBehind (key ∘ xs.get) i s) []
  have hperm : sorted.Perm (List.finRange xs.length) :=
    foldl_insertBehind_perm (List.finRange xs.length) []
  have hordered : sorted.Pairwise (RanksBefore key xs) := by
    apply foldl_insertBehind_pairwise xs _ _ (List.pairwise_lt_finRange _)
    · intro i hi
      exact absurd hi List.not_mem_nil
    · exact List.Pairwise.nil
  refine ⟨sorted.take n, ⟨?_, ?_, ?_⟩, ?_⟩
  · rw [List.length_take, hperm.length_eq, List.length_finRange]
  · exact hordered.sublist (List.take_sublist n sorted)
  · intro b hb i hi
    have hsplit : (sorted.take n ++ sorted.drop n).Pairwise (RanksBefore key xs) := by
      rwa [List.take_append_drop]
    have hmem : i ∈ sorted.take n ++ sorted.drop n := by
      rw [List.take_append_drop]
      exact hperm.mem_iff.mpr (List.mem_finRange i)
    have hrest : i ∈ sorted.drop n := (List.mem_append.mp hmem).resolve_left hi
    exact (List.pairwise_append.mp hsplit).2.2 b hb i hrest
  · have hwindow := foldl_offerTo_take (key ∘ xs.get) n (List.finRange xs.length) []
    have hmap := foldl_offerTo_map key xs.get n (List.finRange xs.length) []
    rw [← List.ofFn_eq_map, List.ofFn_get, List.map_nil] at hmap
    rw [hmap, ← hwindow, List.take_nil]

end SysProg.Lib

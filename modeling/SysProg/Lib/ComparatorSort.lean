import Mathlib.Data.List.Basic
import Mathlib.Order.Defs.LinearOrder
import SysProg.Lib.StableSort

/-!
# Sorting by a comparator

A library sort takes a comparator whose result tells by its sign which of two
elements comes first. It owes a sorted list only to a comparator that orders the
elements consistently, and may permute them in any way under another one.
-/

namespace SysProg.Lib
variable {α κ : Type*}

/-- The comparator is a total preorder on these elements. -/
structure ConsistentOn (cmp : α → α → ℤ) (xs : List α) : Prop where
  antisymm : ∀ a ∈ xs, ∀ b ∈ xs, cmp a b < 0 ↔ 0 < cmp b a
  trans : ∀ a ∈ xs, ∀ b ∈ xs, ∀ c ∈ xs, cmp a b ≤ 0 → cmp b c ≤ 0 → cmp a c ≤ 0

/-- What is promised of a sort by a comparator. -/
structure LawfulQsort (qsort : (α → α → ℤ) → List α → List α) : Prop where
  perm : ∀ cmp xs, (qsort cmp xs).Perm xs
  sorted : ∀ cmp xs, ConsistentOn cmp xs → (qsort cmp xs).Pairwise fun a b => cmp a b ≤ 0

def ComparesBy [LinearOrder κ] (key : α → κ) (cmp : α → α → ℤ) (xs : List α) : Prop :=
  ∀ a ∈ xs, ∀ b ∈ xs, (cmp a b < 0 ↔ key a < key b) ∧ (0 < cmp a b ↔ key b < key a)

section Key
variable [LinearOrder κ] {key : α → κ} {cmp : α → α → ℤ} {xs : List α}

theorem ComparesBy.le_iff (h : ComparesBy key cmp xs) {a b : α} (ha : a ∈ xs) (hb : b ∈ xs) :
    cmp a b ≤ 0 ↔ key a ≤ key b := by
  rw [← not_lt, ← not_lt, (h a ha b hb).2]

theorem ComparesBy.consistentOn (h : ComparesBy key cmp xs) : ConsistentOn cmp xs where
  antisymm := by
    intro a ha b hb
    rw [(h a ha b hb).1, (h b hb a ha).2]
  trans := by
    intro a ha b hb c hc hab hbc
    rw [h.le_iff ha hb] at hab
    rw [h.le_iff hb hc] at hbc
    exact (h.le_iff ha hc).mpr (hab.trans hbc)

theorem LawfulQsort.sortedBy {qsort : (α → α → ℤ) → List α → List α} (hq : LawfulQsort qsort)
    (h : ComparesBy key cmp xs) : SortedBy key (qsort cmp xs) := by
  refine (hq.sorted cmp xs h.consistentOn).imp_of_mem ?_
  intro a b ha hb hab
  have hperm := hq.perm cmp xs
  exact (h.le_iff (hperm.subset ha) (hperm.subset hb)).mp hab

end Key

/-! ### A lawful sort with any behaviour under an inconsistent comparator -/

/-- Merge sort of the elements of a list, on which alone the comparator is known
to be consistent. -/
def comparatorSort (cmp : α → α → ℤ) (xs : List α) : List α :=
  (xs.attach.mergeSort fun a b => decide (cmp a.1 b.1 ≤ 0)).map Subtype.val

theorem comparatorSort_perm (cmp : α → α → ℤ) (xs : List α) : (comparatorSort cmp xs).Perm xs := by
  have hperm := (List.mergeSort_perm xs.attach fun a b => decide (cmp a.1 b.1 ≤ 0)).map Subtype.val
  rwa [List.attach_map_subtype_val] at hperm

theorem comparatorSort_sorted {cmp : α → α → ℤ} {xs : List α} (h : ConsistentOn cmp xs) :
    (comparatorSort cmp xs).Pairwise fun a b => cmp a b ≤ 0 := by
  rw [comparatorSort, List.pairwise_map]
  refine (List.pairwise_mergeSort ?_ ?_ xs.attach).imp fun hab => by simpa using hab
  · intro a b c hab hbc
    simp only [decide_eq_true_eq] at *
    exact h.trans _ a.2 _ b.2 _ c.2 hab hbc
  · intro a b
    have hsign := h.antisymm _ b.2 _ a.2
    simp only [Bool.or_eq_true, decide_eq_true_eq]
    omega

theorem lawfulQsort_comparatorSort : LawfulQsort (@comparatorSort α) where
  perm := comparatorSort_perm
  sorted := fun _ _ h => comparatorSort_sorted h

open Classical in
/-- Sorts under a consistent comparator and does something else under another one. -/
noncomputable def qsortElse (other : List α → List α) (cmp : α → α → ℤ) (xs : List α) : List α :=
  if ConsistentOn cmp xs then comparatorSort cmp xs else other xs

theorem lawfulQsort_qsortElse {other : List α → List α} (h : ∀ xs, (other xs).Perm xs) :
    LawfulQsort (qsortElse other) where
  perm := by
    intro cmp xs
    rw [qsortElse]
    split_ifs
    · exact comparatorSort_perm cmp xs
    · exact h xs
  sorted := by
    intro cmp xs hcmp
    rw [qsortElse, if_pos hcmp]
    exact comparatorSort_sorted hcmp

end SysProg.Lib

import Mathlib.Data.List.Basic
import Mathlib.Order.Lattice

/-!
# Stable sorting by a key

A list is determined by being sorted by a key together with the sequence of its
elements at each key, so every way of sorting that keeps the sequence at each
key is the same function. Insertion behind all elements whose key is not larger
is one such way.
-/

namespace SysProg.Lib
variable {α κ : Type*} [LinearOrder κ] (key : α → κ)

def SortedBy (xs : List α) : Prop := xs.Pairwise (fun a b => key a ≤ key b)

def atKey (k : κ) (xs : List α) : List α := xs.filter (fun a => decide (key a = k))

def stableSort (xs : List α) : List α := xs.mergeSort (fun a b => decide (key a ≤ key b))

def insertBehind (x : α) : List α → List α
  | [] => [x]
  | y :: ys => if key x < key y then x :: y :: ys else y :: insertBehind x ys

variable {key}

@[simp] theorem atKey_nil (k : κ) : atKey key k ([] : List α) = [] := rfl

@[simp] theorem atKey_append (k : κ) (xs ys : List α) :
    atKey key k (xs ++ ys) = atKey key k xs ++ atKey key k ys :=
  List.filter_append ..

theorem atKey_cons (k : κ) (x : α) (xs : List α) :
    atKey key k (x :: xs) = if key x = k then x :: atKey key k xs else atKey key k xs := by
  simp [atKey, List.filter_cons]

theorem atKey_eq_nil {k : κ} {xs : List α} (h : ∀ x ∈ xs, key x ≠ k) : atKey key k xs = [] := by
  simpa [atKey] using h

theorem insertBehind_perm (x : α) (xs : List α) : (insertBehind key x xs).Perm (x :: xs) := by
  induction xs with
  | nil => exact List.Perm.refl _
  | cons y ys ih =>
    unfold insertBehind
    split_ifs
    · exact List.Perm.refl _
    · exact (ih.cons y).trans (List.Perm.swap x y ys)

theorem sortedBy_insertBehind {xs : List α} (h : SortedBy key xs) (x : α) :
    SortedBy key (insertBehind key x xs) := by
  induction xs with
  | nil => exact List.pairwise_singleton _ _
  | cons y ys ih =>
    obtain ⟨hy, hys⟩ := List.pairwise_cons.mp h
    unfold insertBehind
    split_ifs with hxy
    · refine List.pairwise_cons.mpr ⟨?_, h⟩
      intro z hz
      rcases List.mem_cons.mp hz with rfl | hz
      · exact hxy.le
      · exact hxy.le.trans (hy z hz)
    · refine List.pairwise_cons.mpr ⟨?_, ih hys⟩
      intro z hz
      rcases List.mem_cons.mp ((insertBehind_perm x ys).mem_iff.mp hz) with rfl | hz
      · exact not_lt.mp hxy
      · exact hy z hz

theorem atKey_insertBehind {xs : List α} (h : SortedBy key xs) (k : κ) (x : α) :
    atKey key k (insertBehind key x xs) = atKey key k (xs ++ [x]) := by
  induction xs with
  | nil => rfl
  | cons y ys ih =>
    obtain ⟨hy, hys⟩ := List.pairwise_cons.mp h
    unfold insertBehind
    split_ifs with hxy
    · -- everything behind the new element has a larger key
      have hlarger : ∀ z ∈ y :: ys, key x < key z := by
        intro z hz
        rcases List.mem_cons.mp hz with rfl | hz
        · exact hxy
        · exact hxy.trans_le (hy z hz)
      by_cases hk : key x = k
      · have hnone : atKey key k (y :: ys) = [] :=
          atKey_eq_nil (fun z hz => (hk ▸ hlarger z hz).ne')
        rw [atKey_append, hnone, atKey_cons, if_pos hk, hnone, atKey_cons, if_pos hk]
        rfl
      · rw [atKey_append, atKey_cons, if_neg hk, atKey_cons k x [], if_neg hk]
        simp
    · rw [atKey_cons, ih hys, List.cons_append, atKey_cons]

/-- A sorted list is determined by its elements at each key. -/
theorem SortedBy.eq_of_atKey {xs ys : List α} (hx : SortedBy key xs) (hy : SortedBy key ys)
    (h : ∀ k, atKey key k xs = atKey key k ys) : xs = ys := by
  induction xs generalizing ys with
  | nil =>
    cases ys with
    | nil => rfl
    | cons y ys =>
      have hk := h (key y)
      simp [atKey_cons] at hk
  | cons x xs ih =>
    cases ys with
    | nil =>
      have hk := h (key x)
      simp [atKey_cons] at hk
    | cons y ys =>
      obtain ⟨hxle, hxs⟩ := List.pairwise_cons.mp hx
      obtain ⟨hyle, hys⟩ := List.pairwise_cons.mp hy
      -- both heads have the smallest key that occurs
      have hle : ∀ {a b : α} {as bs : List α}, (∀ c ∈ bs, key b ≤ key c) →
          (∀ k, atKey key k (a :: as) = atKey key k (b :: bs)) → key b ≤ key a := by
        intro a b as bs hmin heq
        have hmem : a ∈ atKey key (key a) (b :: bs) := by
          rw [← heq (key a), atKey_cons, if_pos rfl]
          exact List.mem_cons_self
        rcases List.mem_cons.mp (List.mem_filter.mp hmem).1 with rfl | hmem
        · exact le_rfl
        · exact hmin a hmem
      have hkey : key x = key y := le_antisymm (hle hxle (fun k => (h k).symm)) (hle hyle h)
      have hhead := h (key x)
      rw [atKey_cons, if_pos rfl, atKey_cons, if_pos hkey.symm] at hhead
      obtain ⟨rfl, htail⟩ := List.cons.inj hhead
      refine congrArg _ (ih hxs hys (fun k => ?_))
      by_cases hk : key x = k
      · exact hk ▸ htail
      · have hrest := h k
        rwa [atKey_cons, if_neg hk, atKey_cons, if_neg hk] at hrest

theorem keyLe_trans (a b c : α) (hab : decide (key a ≤ key b) = true)
    (hbc : decide (key b ≤ key c) = true) : decide (key a ≤ key c) = true := by
  simp only [decide_eq_true_eq] at hab hbc ⊢
  exact hab.trans hbc

theorem keyLe_total (a b : α) : (decide (key a ≤ key b) || decide (key b ≤ key a)) = true := by
  simpa using le_total (key a) (key b)

theorem sortedBy_stableSort (xs : List α) : SortedBy key (stableSort key xs) :=
  (List.pairwise_mergeSort keyLe_trans keyLe_total xs).imp (fun hab => of_decide_eq_true hab)

theorem atKey_stableSort (k : κ) (xs : List α) :
    atKey key k (stableSort key xs) = atKey key k xs := by
  have hkey : ∀ a ∈ atKey key k xs, key a = k := fun a ha => by
    simpa using (List.mem_filter.mp ha).2
  have hclass : (atKey key k xs).Pairwise (fun a b => decide (key a ≤ key b) = true) := by
    refine List.pairwise_of_forall_mem_list ?_
    intro a ha b hb
    simp [hkey a ha, hkey b hb]
  have hsub : (atKey key k xs).Sublist (stableSort key xs) :=
    List.sublist_mergeSort keyLe_trans keyLe_total hclass List.filter_sublist
  have hfilter : (atKey key k xs).Sublist (atKey key k (stableSort key xs)) := by
    have hidem : atKey key k (atKey key k xs) = atKey key k xs := by simp [atKey]
    rw [← hidem]
    exact hsub.filter _
  have hlen : (atKey key k (stableSort key xs)).length = (atKey key k xs).length :=
    ((List.mergeSort_perm xs _).filter _).length_eq
  exact (hfilter.eq_of_length hlen.symm).symm

end SysProg.Lib

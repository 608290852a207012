import Mathlib.Data.List.TakeWhile
import Mathlib.Order.Lattice

/-!
# Cutting a text where a run ends

A scanner that reads as long as a predicate holds stops at a definite place.
Two ways to write a text as a run and what follows it are therefore the same
way, when what follows is empty or begins outside the predicate. The same holds
from the right.
-/

namespace SysProg.Lib
variable {α : Type*} {p : α → Bool}

def Run (p : α → Bool) (l : List α) : Prop := ∀ c ∈ l, p c = true

/-- A run before this text ends here. -/
def Stops (p : α → Bool) (l : List α) : Prop := ∀ c ∈ l.head?, p c = false

/-- A run behind this text begins here. -/
def StopsBack (p : α → Bool) (l : List α) : Prop := ∀ c ∈ l.getLast?, p c = false

theorem Run.append {l m : List α} (hl : Run p l) (hm : Run p m) : Run p (l ++ m) := by
  intro c hc
  exact (List.mem_append.mp hc).elim (hl c) (hm c)

theorem stops_nil : Stops p [] := by
  intro c hc
  cases hc

theorem stops_cons {c : α} {l : List α} : Stops p (c :: l) ↔ p c = false := by
  simp [Stops]

theorem stops_append {l : List α} (hne : l ≠ []) (m : List α) :
    Stops p (l ++ m) ↔ Stops p l := by
  obtain ⟨c, rest, rfl⟩ := List.exists_cons_of_ne_nil hne
  rw [List.cons_append, stops_cons, stops_cons]

theorem takeWhile_run {w l : List α} (hw : Run p w) (hl : Stops p l) :
    (w ++ l).takeWhile p = w := by
  rw [List.takeWhile_append_of_pos hw]
  cases l with
  | nil => simp
  | cons c l => simp [stops_cons.mp hl]

theorem dropWhile_run {w l : List α} (hw : Run p w) (hl : Stops p l) :
    (w ++ l).dropWhile p = l := by
  rw [List.dropWhile_append_of_pos hw]
  cases l with
  | nil => rfl
  | cons c l => simp [stops_cons.mp hl]

theorem run_takeWhile (l : List α) : Run p (l.takeWhile p) := by
  intro c hc
  exact List.mem_takeWhile_imp hc

theorem stops_dropWhile (l : List α) : Stops p (l.dropWhile p) := by
  induction l with
  | nil => exact stops_nil
  | cons c l ih =>
    by_cases hc : p c = true
    · rwa [List.dropWhile_cons_of_pos hc]
    · rw [List.dropWhile_cons_of_neg hc]
      exact stops_cons.mpr (Bool.not_eq_true _ ▸ hc)

/-- A text is cut at the end of a run in one way only. -/
theorem run_split {w w' l l' : List α} (hw : Run p w) (hw' : Run p w') (hl : Stops p l)
    (hl' : Stops p l') (h : w ++ l = w' ++ l') : w = w' ∧ l = l' := by
  have hfront := congrArg (List.takeWhile p) h
  have hback := congrArg (List.dropWhile p) h
  rw [takeWhile_run hw hl, takeWhile_run hw' hl'] at hfront
  rw [dropWhile_run hw hl, dropWhile_run hw' hl'] at hback
  exact ⟨hfront, hback⟩

theorem exists_after_take (p : α → Bool) (width : ℕ) (l : List α) :
    ∃ rest, l = (l.takeWhile p).take width ++ rest ∧
      (((l.takeWhile p).take width).length = width ∨ Stops p rest) := by
  rcases Nat.le_total (l.takeWhile p).length width with hshort | hlong
  · refine ⟨l.dropWhile p, ?_, .inr (stops_dropWhile l)⟩
    rw [List.take_of_length_le hshort, List.takeWhile_append_dropWhile]
  · refine ⟨(l.takeWhile p).drop width ++ l.dropWhile p, ?_, .inl ?_⟩
    · rw [← List.append_assoc, List.take_append_drop, List.takeWhile_append_dropWhile]
    · rw [List.length_take, min_eq_left hlong]

theorem Run.reverse {w : List α} (hw : Run p w) : Run p w.reverse := by
  intro c hc
  exact hw c (List.mem_reverse.mp hc)

theorem StopsBack.reverse {l : List α} (hl : StopsBack p l) : Stops p l.reverse := by
  intro c hc
  rw [List.head?_reverse] at hc
  exact hl c hc

theorem run_split_back {w w' l l' : List α} (hw : Run p w) (hw' : Run p w')
    (hl : StopsBack p l) (hl' : StopsBack p l') (h : l ++ w = l' ++ w') : l = l' ∧ w = w' := by
  have hreverse := congrArg List.reverse h
  rw [List.reverse_append, List.reverse_append] at hreverse
  obtain ⟨hrun, hrest⟩ := run_split hw.reverse hw'.reverse hl.reverse hl'.reverse hreverse
  exact ⟨List.reverse_inj.mp hrest, List.reverse_inj.mp hrun⟩

theorem exists_split_back (p : α → Bool) (l : List α) :
    ∃ front run, l = front ++ run ∧ Run p run ∧ StopsBack p front := by
  refine ⟨(l.reverse.dropWhile p).reverse, (l.reverse.takeWhile p).reverse, ?_,
    (run_takeWhile _).reverse, ?_⟩
  · rw [← List.reverse_append, List.takeWhile_append_dropWhile, List.reverse_reverse]
  · intro c hc
    rw [List.getLast?_reverse] at hc
    exact stops_dropWhile _ c hc

theorem stopsBack_of_forall {l : List α} (h : ∀ c ∈ l, p c = false) : StopsBack p l := by
  intro c hc
  exact h c (List.mem_of_getLast? hc)

theorem stopsBack_append {m : List α} (hne : m ≠ []) (l : List α) :
    StopsBack p (l ++ m) ↔ StopsBack p m := by
  obtain ⟨init, last, rfl⟩ : ∃ init last, m = init ++ [last] :=
    ⟨_, _, (List.dropLast_concat_getLast hne).symm⟩
  simp [StopsBack, ← List.append_assoc]

theorem stops_of_forall {l : List α} (h : ∀ c ∈ l, p c = false) : Stops p l := by
  intro c hc
  exact h c (List.mem_of_head? hc)

end SysProg.Lib

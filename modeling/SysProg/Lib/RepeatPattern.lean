import Mathlib.Computability.Language
import Mathlib.Data.List.Chain

/-!
# Patterns of letters and repeated letters

A pattern is a sequence of atoms, each for one letter or for one or more of the
same letter. Letters are compared by a key. A word of the language splits at a
repeated letter in as many ways as the run of that letter is long; taking the
whole run decides the language only if no atom repeats what a repeated letter
before it has taken.
-/

namespace SysProg.Lib
open Computability

variable {α κ : Type*}

inductive Atom (κ : Type*) where
  | one (k : κ)
  | many (k : κ)
  deriving DecidableEq

def Atom.key : Atom κ → κ
  | .one k => k
  | .many k => k

def letter (key : α → κ) (k : κ) : Language α := {s | ∃ x, key x = k ∧ s = [x]}

def Atom.language (key : α → κ) : Atom κ → Language α
  | .one k => letter key k
  | .many k => letter key k * (letter key k)∗

def language (key : α → κ) (atoms : List (Atom κ)) : Language α :=
  (atoms.map (Atom.language key)).prod

/-- No repeated letter is followed by an atom with its key. -/
def SelfFree (atoms : List (Atom κ)) : Prop :=
  atoms.IsChain fun a b => match a with
    | .one _ => True
    | .many k => b.key ≠ k

theorem selfFree_one {k : κ} {atoms : List (Atom κ)} :
    SelfFree (.one k :: atoms) ↔ SelfFree atoms := by
  cases atoms with
  | nil => simp [SelfFree]
  | cons a atoms => simp [SelfFree, List.isChain_cons_cons]

/-! ### Words of a language -/

section Words
variable {key : α → κ} {k : κ} {atoms : List (Atom κ)} {s : List α}

theorem mem_language_nil : s ∈ language key [] ↔ s = [] := Language.mem_one _

theorem mem_letter_mul {L : Language α} :
    s ∈ letter key k * L ↔ ∃ x t, s = x :: t ∧ key x = k ∧ t ∈ L := by
  rw [Language.mem_mul]
  constructor
  · rintro ⟨_, ⟨x, hx, rfl⟩, t, ht, rfl⟩
    exact ⟨x, t, rfl, hx, ht⟩
  · rintro ⟨x, t, rfl, hx, ht⟩
    exact ⟨[x], ⟨x, hx, rfl⟩, t, ht, rfl⟩

theorem mem_language_one :
    s ∈ language key (.one k :: atoms) ↔ ∃ x t, s = x :: t ∧ key x = k ∧ t ∈ language key atoms :=
  mem_letter_mul

theorem mem_kstar_letter : s ∈ (letter key k)∗ ↔ ∀ x ∈ s, key x = k := by
  constructor
  · rintro ⟨words, rfl, hwords⟩ x hx
    obtain ⟨word, hword, hx⟩ := List.mem_flatten.mp hx
    obtain ⟨y, hy, rfl⟩ := hwords word hword
    rw [List.mem_singleton] at hx
    rw [hx, hy]
  · intro h
    refine ⟨s.map fun x => [x], (List.flatMap_singleton' s).symm.trans List.flatMap_def, ?_⟩
    intro word hword
    obtain ⟨x, hx, rfl⟩ := List.mem_map.mp hword
    exact ⟨x, h x hx, rfl⟩

theorem mem_language_many :
    s ∈ language key (.many k :: atoms) ↔ ∃ run t, s = run ++ t ∧ run ≠ [] ∧
      (∀ x ∈ run, key x = k) ∧ t ∈ language key atoms := by
  have hsplit : language key (.many k :: atoms) =
      letter key k * ((letter key k)∗ * language key atoms) := mul_assoc _ _ _
  rw [hsplit, mem_letter_mul]
  constructor
  · rintro ⟨x, rest, rfl, hx, hrest⟩
    obtain ⟨run, hrun, t, ht, rfl⟩ := Language.mem_mul.mp hrest
    refine ⟨x :: run, t, rfl, by simp, ?_, ht⟩
    intro y hy
    rcases List.mem_cons.mp hy with rfl | hy
    · exact hx
    · exact mem_kstar_letter.mp hrun y hy
  · rintro ⟨run, t, rfl, hne, hrun, ht⟩
    obtain ⟨x, run, rfl⟩ := List.exists_cons_of_ne_nil hne
    refine ⟨x, run ++ t, rfl, hrun x List.mem_cons_self, ?_⟩
    refine Language.mem_mul.mpr ⟨run, mem_kstar_letter.mpr fun y hy => ?_, t, ht, rfl⟩
    exact hrun y (List.mem_cons_of_mem x hy)

theorem key_head_of_mem {a : Atom κ} (h : s ∈ language key (a :: atoms)) :
    ∃ x t, s = x :: t ∧ key x = a.key := by
  cases a with
  | one k =>
    obtain ⟨x, t, rfl, hx, -⟩ := mem_language_one.mp h
    exact ⟨x, t, rfl, hx⟩
  | many k =>
    obtain ⟨run, t, rfl, hne, hrun, -⟩ := mem_language_many.mp h
    obtain ⟨x, run, rfl⟩ := List.exists_cons_of_ne_nil hne
    exact ⟨x, run ++ t, rfl, hrun x List.mem_cons_self⟩

theorem exists_mem_language (hkeys : ∀ a ∈ atoms, ∃ x, key x = a.key) :
    ∃ s, s ∈ language key atoms := by
  induction atoms with
  | nil => exact ⟨[], mem_language_nil.mpr rfl⟩
  | cons a atoms ih =>
    obtain ⟨t, ht⟩ := ih fun b hb => hkeys b (List.mem_cons_of_mem a hb)
    obtain ⟨x, hx⟩ := hkeys a List.mem_cons_self
    cases a with
    | one k => exact ⟨x :: t, mem_language_one.mpr ⟨x, t, rfl, hx, ht⟩⟩
    | many k =>
      refine ⟨[x] ++ t, mem_language_many.mpr ⟨[x], t, rfl, by simp, fun y hy => ?_, ht⟩⟩
      rw [List.mem_singleton.mp hy]
      exact hx

end Words

/-! ### Backtracking and greedy splits of a run -/

section Runs
variable [DecidableEq κ] {key : α → κ} {k : κ} {atoms : List (Atom κ)} {s : List α}

def leadingRun (key : α → κ) (k : κ) (s : List α) : List α := s.takeWhile fun x => key x = k

def afterRun (key : α → κ) (k : κ) (s : List α) : List α := s.dropWhile fun x => key x = k

theorem key_leadingRun {x : α} (h : x ∈ leadingRun key k s) : key x = k := by
  have hall := List.all_takeWhile (p := fun x => decide (key x = k)) (l := s)
  simpa using List.all_eq_true.mp hall x h

/-- Trying every length of the run finds a split whenever there is one. -/
theorem mem_language_many_iff_drop :
    s ∈ language key (.many k :: atoms) ↔
      ∃ n < (leadingRun key k s).length, s.drop (n + 1) ∈ language key atoms := by
  rw [mem_language_many]
  constructor
  · rintro ⟨run, t, rfl, hne, hrun, ht⟩
    have hpos := List.length_pos_iff.mpr hne
    have hlead : leadingRun key k (run ++ t) = run ++ leadingRun key k t :=
      List.takeWhile_append_of_pos fun x hx => by simpa using hrun x hx
    refine ⟨run.length - 1, ?_, ?_⟩
    · rw [hlead, List.length_append]
      omega
    · rw [Nat.sub_add_cancel hpos, List.drop_left]
      exact ht
  · rintro ⟨n, hn, ht⟩
    have hcut : s.take (n + 1) = (leadingRun key k s).take (n + 1) := by
      have hsplit : leadingRun key k s ++ afterRun key k s = s := List.takeWhile_append_dropWhile
      have htake : (leadingRun key k s ++ afterRun key k s).take (n + 1) =
          (leadingRun key k s).take (n + 1) := List.take_append_of_le_length hn
      rwa [hsplit] at htake
    refine ⟨s.take (n + 1), s.drop (n + 1), (List.take_append_drop _ _).symm, ?_, ?_, ht⟩
    · rw [hcut]
      exact List.ne_nil_of_length_pos (by rw [List.length_take]; omega)
    · intro x hx
      rw [hcut] at hx
      exact key_leadingRun (List.mem_of_mem_take hx)

theorem key_head_afterRun {x : α} {t : List α} (h : afterRun key k s = x :: t) : key x ≠ k := by
  rw [afterRun] at h
  have hhead := List.head_dropWhile_not (fun x => decide (key x = k)) (l := s) (by simp [h])
  simpa [h] using hhead

theorem afterRun_mem_language (hfree : SelfFree (.many k :: atoms))
    (h : s ∈ language key (.many k :: atoms)) : afterRun key k s ∈ language key atoms := by
  obtain ⟨run, t, rfl, hne, hrun, ht⟩ := mem_language_many.mp h
  have hafter : afterRun key k (run ++ t) = afterRun key k t :=
    List.dropWhile_append_of_pos fun x hx => by simpa using hrun x hx
  rw [hafter]
  cases atoms with
  | nil =>
    rw [mem_language_nil.mp ht]
    exact mem_language_nil.mpr rfl
  | cons a atoms =>
    obtain ⟨x, rest, rfl, hx⟩ := key_head_of_mem ht
    have hother : key x ≠ k := by
      rw [hx]
      exact (List.isChain_cons_cons.mp hfree).1
    rw [afterRun, List.dropWhile_cons_of_neg (by simpa using hother)]
    exact ht

theorem afterRun_notMem_language {a : Atom κ} (h : a.key = k) :
    afterRun key k s ∉ language key (a :: atoms) := by
  intro hmem
  obtain ⟨x, t, hs, hx⟩ := key_head_of_mem hmem
  exact key_head_afterRun hs (hx.trans h)

theorem mem_language_many_of_afterRun (hne : leadingRun key k s ≠ [])
    (h : afterRun key k s ∈ language key atoms) : s ∈ language key (.many k :: atoms) := by
  refine mem_language_many.mpr ⟨leadingRun key k s, afterRun key k s, ?_, hne, ?_, h⟩
  · exact List.takeWhile_append_dropWhile.symm
  · intro x hx
    exact key_leadingRun hx

/-- Taking the whole run decides the language of the patterns that allow it, and
fails on every word for the others. -/
theorem selfFree_many_and_mem_iff :
    SelfFree (.many k :: atoms) ∧ s ∈ language key (.many k :: atoms) ↔
      leadingRun key k s ≠ [] ∧ SelfFree atoms ∧ afterRun key k s ∈ language key atoms := by
  constructor
  · rintro ⟨hfree, hmem⟩
    refine ⟨?_, hfree.tail, afterRun_mem_language hfree hmem⟩
    obtain ⟨n, hn, -⟩ := mem_language_many_iff_drop.mp hmem
    exact List.ne_nil_of_length_pos (by omega)
  · rintro ⟨hne, hfree, hmem⟩
    refine ⟨?_, mem_language_many_of_afterRun hne hmem⟩
    cases atoms with
    | nil => exact List.isChain_singleton _
    | cons a atoms =>
      refine List.isChain_cons_cons.mpr ⟨?_, hfree⟩
      intro hkey
      exact afterRun_notMem_language hkey hmem

end Runs

end SysProg.Lib

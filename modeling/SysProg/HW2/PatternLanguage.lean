import SysProg.HW2.Pattern
import SysProg.Lib.RepeatPattern

/-!
# The language of a file name pattern

A pattern is read from left to right: a character and a `+` behind it are one
atom, every other character is an atom for itself. `match_rec` accepts the words
of that language, because it tries every length of a run.
-/

namespace SysProg.HW2
open SysProg.Lib

def patternAtoms : List Char → List (Atom Char)
  | [] => []
  | c :: '+' :: pattern => .many c.toLower :: patternAtoms pattern
  | c :: pattern => .one c.toLower :: patternAtoms pattern

def patternLanguage (pattern : List Char) : Language Char :=
  language Char.toLower (patternAtoms pattern)

theorem repeatLength_eq (c : Char) (s : List Char) :
    repeatLength c s = (leadingRun Char.toLower c.toLower s).length := rfl

theorem matchRec_one {c : Char} {pattern : List Char}
    (hplus : ∀ rest, pattern = '+' :: rest → False) (s : List Char) :
    matchRec (c :: pattern) s = true ↔
      ∃ x t, s = x :: t ∧ x.toLower = c.toLower ∧ matchRec pattern t = true := by
  cases s with
  | nil => simp [matchRec]
  | cons x t =>
    rw [matchRec.eq_5 c pattern x t hplus, Bool.and_eq_true, decide_eq_true_eq]
    constructor
    · rintro ⟨hx, ht⟩
      exact ⟨x, t, rfl, hx.symm, ht⟩
    · rintro ⟨y, rest, hs, hy, hrest⟩
      obtain ⟨rfl, rfl⟩ := List.cons.inj hs
      exact ⟨hy.symm, hrest⟩

theorem matchRec_many (c : Char) (pattern s : List Char) :
    matchRec (c :: '+' :: pattern) s = true ↔
      ∃ n < repeatLength c s, matchRec pattern (s.drop (n + 1)) = true := by
  rw [matchRec]
  simp

/-- The backtracking matcher accepts exactly the words of the pattern. -/
theorem matchRec_iff_mem_language (pattern s : List Char) :
    matchRec pattern s = true ↔ s ∈ patternLanguage pattern := by
  rw [patternLanguage]
  induction pattern using patternAtoms.induct generalizing s with
  | case1 =>
    rw [patternAtoms, mem_language_nil]
    cases s with
    | nil => simp [matchRec]
    | cons x s => simp [matchRec]
  | case2 c pattern ih =>
    rw [patternAtoms, mem_language_many_iff_drop, matchRec_many, repeatLength_eq]
    simp only [ih]
  | case3 c pattern hplus ih =>
    rw [patternAtoms.eq_3 c pattern hplus, mem_language_one, matchRec_one hplus]
    simp only [ih]

/-- A run may end before its last letter. -/
example : matchRec "a+ab".toList "AAab".toList = true := by decide

end SysProg.HW2

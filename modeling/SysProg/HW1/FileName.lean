import SysProg.HW2.PatternLanguage

/-!
# The first matcher of file names

`match_filename` is one loop over the pattern. A repeated letter takes its whole
run, and nothing is given back. It accepts the words of the pattern as long as
no repeated letter is followed by the same letter; a pattern with such a
repetition has no name that the loop accepts.
-/

namespace SysProg.HW1
open SysProg.Lib
open SysProg.HW2 (patternAtoms patternLanguage matchRec matchRec_iff_mem_language)

/-- The loop of `match_filename`. At the end of the name the comparison is with
the terminating zero, which no character of the pattern equals. -/
def matchFilename : List Char → List Char → Bool
  | [], string => string.isEmpty
  | _ :: _, [] => false
  | c :: '+' :: pattern, x :: string =>
    if c.toLower ≠ x.toLower then false
    else matchFilename pattern (string.dropWhile fun y => y.toLower = c.toLower)
  | c :: pattern, x :: string =>
    if c.toLower ≠ x.toLower then false else matchFilename pattern string

structure Agree (pattern filename : List Char) : Prop where
  same : matchFilename pattern filename = true ↔ matchRec pattern filename = true
  first : matchFilename pattern filename = true ↔ filename ∈ patternLanguage pattern
  second : matchRec pattern filename = true ↔ filename ∈ patternLanguage pattern

theorem matchFilename_one {c : Char} {pattern : List Char}
    (hplus : ∀ rest, pattern = '+' :: rest → False) (s : List Char) :
    matchFilename (c :: pattern) s = true ↔
      ∃ x t, s = x :: t ∧ x.toLower = c.toLower ∧ matchFilename pattern t = true := by
  cases s with
  | nil => simp [matchFilename]
  | cons x t =>
    rw [matchFilename.eq_4 c pattern x t hplus]
    constructor
    · intro h
      split at h
      · cases h
      · rename_i hx
        exact ⟨x, t, rfl, (not_not.mp hx).symm, h⟩
    · rintro ⟨y, rest, hs, hy, hrest⟩
      obtain ⟨rfl, rfl⟩ := List.cons.inj hs
      rw [if_neg (not_not.mpr hy.symm)]
      exact hrest

theorem matchFilename_many (c : Char) (pattern s : List Char) :
    matchFilename (c :: '+' :: pattern) s = true ↔
      leadingRun Char.toLower c.toLower s ≠ [] ∧
        matchFilename pattern (afterRun Char.toLower c.toLower s) = true := by
  cases s with
  | nil => simp [matchFilename, leadingRun]
  | cons x t =>
    by_cases hx : x.toLower = c.toLower
    · simp [matchFilename, leadingRun, afterRun, hx]
    · simp [matchFilename, leadingRun, Ne.symm hx, hx]

/-- The loop accepts the words of a pattern that never repeats a repeated letter,
and nothing else. -/
theorem matchFilename_iff (pattern s : List Char) :
    matchFilename pattern s = true ↔
      SelfFree (patternAtoms pattern) ∧ s ∈ patternLanguage pattern := by
  rw [patternLanguage]
  induction pattern using SysProg.HW2.patternAtoms.induct generalizing s with
  | case1 =>
    rw [patternAtoms, mem_language_nil]
    cases s with
    | nil => simp [matchFilename, SelfFree]
    | cons x s => simp [matchFilename]
  | case2 c pattern ih =>
    rw [patternAtoms, selfFree_many_and_mem_iff, matchFilename_many, ih]
  | case3 c pattern hplus ih =>
    rw [SysProg.HW2.patternAtoms.eq_3 c pattern hplus, selfFree_one, mem_language_one,
      matchFilename_one hplus]
    simp only [ih]
    constructor
    · rintro ⟨x, t, hs, hx, hfree, ht⟩
      exact ⟨hfree, x, t, hs, hx, ht⟩
    · rintro ⟨hfree, x, t, hs, hx, ht⟩
      exact ⟨x, t, hs, hx, hfree, ht⟩

theorem agree_iff (pattern s : List Char) :
    Agree pattern s ↔ SelfFree (patternAtoms pattern) ∨ s ∉ patternLanguage pattern := by
  have hfirst := matchFilename_iff pattern s
  have hsecond := matchRec_iff_mem_language pattern s
  constructor
  · intro h
    by_cases hmem : s ∈ patternLanguage pattern
    · exact Or.inl (hfirst.mp (h.first.mpr hmem)).1
    · exact Or.inr hmem
  · rintro (hfree | hmem)
    · have hword : matchFilename pattern s = true ↔ s ∈ patternLanguage pattern :=
        hfirst.trans (and_iff_right hfree)
      exact ⟨hword.trans hsecond.symm, hword, hsecond⟩
    · have hword : matchFilename pattern s = true ↔ s ∈ patternLanguage pattern :=
        hfirst.trans ⟨And.right, fun h => absurd h hmem⟩
      exact ⟨hword.trans hsecond.symm, hword, hsecond⟩

theorem exists_key_patternAtoms (pattern : List Char) :
    ∀ a ∈ patternAtoms pattern, ∃ c : Char, c.toLower = a.key := by
  induction pattern using SysProg.HW2.patternAtoms.induct with
  | case1 => simp [patternAtoms]
  | case2 c pattern ih =>
    intro a ha
    rw [patternAtoms] at ha
    rcases List.mem_cons.mp ha with rfl | ha
    · exact ⟨c, rfl⟩
    · exact ih a ha
  | case3 c pattern hplus ih =>
    intro a ha
    rw [SysProg.HW2.patternAtoms.eq_3 c pattern hplus] at ha
    rcases List.mem_cons.mp ha with rfl | ha
    · exact ⟨c, rfl⟩
    · exact ih a ha

/-- The matchers agree on all names exactly under the patterns in which no
repeated letter is followed by itself; under the others they differ on every
word of the pattern, because the loop accepts no name at all. -/
theorem matchers_agree_iff (pattern : List Char) :
    ((∀ filename, Agree pattern filename) ↔ SelfFree (patternAtoms pattern)) ∧
    (∀ filename, Agree pattern filename ↔
      SelfFree (patternAtoms pattern) ∨ filename ∉ patternLanguage pattern) ∧
    (¬ SelfFree (patternAtoms pattern) → ∀ filename, matchFilename pattern filename = false) := by
  refine ⟨?_, agree_iff pattern, ?_⟩
  · constructor
    · intro h
      obtain ⟨s, hs⟩ := exists_mem_language (exists_key_patternAtoms pattern)
      exact ((agree_iff pattern s).mp (h s)).resolve_right (fun hnot => hnot hs)
    · intro hfree filename
      exact (agree_iff pattern filename).mpr (Or.inl hfree)
  · intro hself filename
    rw [← Bool.not_eq_true, matchFilename_iff]
    exact fun h => hself h.1

/-- The run of `a` leaves nothing for the second `a` of the pattern. -/
theorem matchers_differ : matchFilename "a+ab".toList "aab".toList = false ∧
    matchRec "a+ab".toList "aab".toList = true ∧ ¬ Agree "a+ab".toList "aab".toList := by
  have hfirst : matchFilename "a+ab".toList "aab".toList = false := by decide
  have hsecond : matchRec "a+ab".toList "aab".toList = true := by decide
  refine ⟨hfirst, hsecond, fun h => ?_⟩
  rw [h.same.mpr hsecond] at hfirst
  exact absurd hfirst (by decide)

end SysProg.HW1

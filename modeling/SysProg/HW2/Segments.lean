import SysProg.HW2.Pattern
import SysProg.Lib.MaximalRuns

/-!
# The names that a pattern is compared with

`match_pattern` compares a file name as a whole, its stem, and the segments that
two nested loops cut out of the stem. The segments are the maximal runs of
letters and digits. The buffers hold 255 characters, which is the longest name
of a file.
-/

namespace SysProg.HW2
open SysProg.Lib

def stemOf (filename : List Char) : List Char := filename.takeWhile (· ≠ '.')

def segmentText (stem : List Char) (first last : ℕ) : List Char :=
  (stem.drop first).take (last - first)

/-- The loop over the segments from `segStart` on: its result, and the bounds of
the segments that it has examined by then. -/
def segmentLoop (pattern stem : List Char) (segStart : ℕ) : Bool × List (ℕ × ℕ) :=
  if h : advance (fun c => !c.isAlphanum) stem segStart < stem.length then
    have := length_sub_advance_lt h
    let start := advance (fun c => !c.isAlphanum) stem segStart
    let segEnd := advance Char.isAlphanum stem start
    let segLen := min (segEnd - start) 255
    if matchRec pattern ((stem.drop start).take segLen) then (true, [(start, segEnd)])
    else
      let rest := segmentLoop pattern stem segEnd
      (rest.1, (start, segEnd) :: rest.2)
  else (false, [])
termination_by stem.length - segStart

/-- Each maximal run is examined once, unless an earlier one has matched, and
nothing else is. -/
structure ExaminesRuns (pattern stem : List Char) : Prop where
  nodup : (segmentLoop pattern stem 0).2.Nodup
  maximal : ∀ first last, (first, last) ∈ (segmentLoop pattern stem 0).2 →
    MaximalRun Char.isAlphanum stem first last
  all : (segmentLoop pattern stem 0).1 = false → ∀ first last,
    MaximalRun Char.isAlphanum stem first last → (first, last) ∈ (segmentLoop pattern stem 0).2

/-! ### The loop -/

def roundText (stem : List Char) (i : ℕ) : List Char :=
  (stem.drop (advance (fun c => !c.isAlphanum) stem i)).take
    (min (advance Char.isAlphanum stem (advance (fun c => !c.isAlphanum) stem i) -
      advance (fun c => !c.isAlphanum) stem i) 255)

theorem matchSegments_of_lt {pattern stem : List Char} {i : ℕ}
    (h : advance (fun c => !c.isAlphanum) stem i < stem.length) :
    matchSegments pattern (stem.drop i) =
      (matchRec pattern (roundText stem i) ||
        matchSegments pattern (stem.drop
          (advance Char.isAlphanum stem (advance (fun c => !c.isAlphanum) stem i)))) := by
  have hskip := drop_advance (p := fun c => !c.isAlphanum) (l := stem) i
  rw [matchSegments]
  split
  · rename_i hnil
    rw [← hskip, List.drop_eq_nil_iff] at hnil
    omega
  · rename_i c rest hcons
    rw [← hskip] at hcons
    change (matchRec pattern (((c :: rest).takeWhile Char.isAlphanum).take 255) ||
      matchSegments pattern ((c :: rest).dropWhile Char.isAlphanum)) = _
    rw [← hcons, ← drop_advance, ← take_advance, List.take_take, Nat.min_comm, roundText]

theorem matchSegments_of_ge {pattern stem : List Char} {i : ℕ}
    (h : ¬ advance (fun c => !c.isAlphanum) stem i < stem.length) :
    matchSegments pattern (stem.drop i) = false := by
  have hskip := drop_advance (p := fun c => !c.isAlphanum) (l := stem) i
  rw [List.drop_eq_nil_of_le (by omega)] at hskip
  rw [matchSegments]
  split
  · rfl
  · rename_i hcons
    rw [← hskip] at hcons
    cases hcons

theorem segmentLoop_match {pattern stem : List Char} {i : ℕ}
    (h : advance (fun c => !c.isAlphanum) stem i < stem.length)
    (hmatch : matchRec pattern (roundText stem i) = true) :
    segmentLoop pattern stem i = (true, [(advance (fun c => !c.isAlphanum) stem i,
      advance Char.isAlphanum stem (advance (fun c => !c.isAlphanum) stem i))]) := by
  rw [segmentLoop, dif_pos h]
  exact if_pos hmatch

theorem segmentLoop_next {pattern stem : List Char} {i : ℕ}
    (h : advance (fun c => !c.isAlphanum) stem i < stem.length)
    (hmatch : ¬ matchRec pattern (roundText stem i) = true) :
    segmentLoop pattern stem i =
      ((segmentLoop pattern stem
          (advance Char.isAlphanum stem (advance (fun c => !c.isAlphanum) stem i))).1,
        (advance (fun c => !c.isAlphanum) stem i,
          advance Char.isAlphanum stem (advance (fun c => !c.isAlphanum) stem i)) ::
        (segmentLoop pattern stem
          (advance Char.isAlphanum stem (advance (fun c => !c.isAlphanum) stem i))).2) := by
  rw [segmentLoop, dif_pos h]
  exact if_neg hmatch

theorem segmentLoop_end {pattern stem : List Char} {i : ℕ}
    (h : ¬ advance (fun c => !c.isAlphanum) stem i < stem.length) :
    segmentLoop pattern stem i = (false, []) := by
  rw [segmentLoop, dif_neg h]

theorem segmentLoop_fst (pattern stem : List Char) (segStart : ℕ) :
    (segmentLoop pattern stem segStart).1 = matchSegments pattern (stem.drop segStart) := by
  induction segStart using segmentLoop.induct pattern stem with
  | case1 i h _ start segEnd segLen hmatch =>
    rw [segmentLoop_match h hmatch, matchSegments_of_lt h]
    exact (Bool.or_eq_true_iff.mpr (Or.inl hmatch)).symm
  | case2 i h _ start segEnd segLen hmatch ih =>
    have hfalse : matchRec pattern (roundText stem i) = false := Bool.not_eq_true _ ▸ hmatch
    rw [segmentLoop_next h hmatch, matchSegments_of_lt h, hfalse, Bool.false_or]
    exact ih
  | case3 i h => rw [segmentLoop_end h, matchSegments_of_ge h]

/-- Nothing is examined but the runs, in their order, and a loop that finds no
match examines all of them. -/
theorem segmentLoop_examined (pattern stem : List Char) (segStart : ℕ) :
    (segmentLoop pattern stem segStart).2 <+: runsFrom Char.isAlphanum stem segStart ∧
    ((segmentLoop pattern stem segStart).1 = false →
      (segmentLoop pattern stem segStart).2 = runsFrom Char.isAlphanum stem segStart) := by
  induction segStart using segmentLoop.induct pattern stem with
  | case1 i h _ start segEnd segLen hmatch =>
    rw [segmentLoop_match h hmatch, runsFrom, dif_pos h]
    exact ⟨List.prefix_append _ _, fun hfalse => by cases hfalse⟩
  | case2 i h _ start segEnd segLen hmatch ih =>
    rw [segmentLoop_next h hmatch, runsFrom, dif_pos h]
    exact ⟨(List.prefix_cons_inj _).mpr ih.1, fun hfalse => congrArg (List.cons _) (ih.2 hfalse)⟩
  | case3 i h =>
    rw [segmentLoop_end h, runsFrom, dif_neg h]
    exact ⟨List.prefix_refl _, fun _ => rfl⟩

theorem examinesRuns (pattern stem : List Char) : ExaminesRuns pattern stem where
  nodup := (runsFrom_nodup (Or.inl rfl)).sublist (segmentLoop_examined pattern stem 0).1.sublist
  maximal := by
    intro first last hmem
    have hruns := (segmentLoop_examined pattern stem 0).1.subset hmem
    exact ((mem_runsFrom (Or.inl rfl)).mp hruns).1
  all := by
    intro hfalse first last hrun
    rw [(segmentLoop_examined pattern stem 0).2 hfalse]
    exact (mem_runsFrom (Or.inl rfl)).mpr ⟨hrun, Nat.zero_le _⟩

theorem segmentLoop_iff (pattern stem : List Char) (segStart : ℕ) :
    (segmentLoop pattern stem segStart).1 = true ↔
      ∃ r ∈ runsFrom Char.isAlphanum stem segStart,
        matchRec pattern ((stem.drop r.1).take (min (r.2 - r.1) 255)) = true := by
  induction segStart using segmentLoop.induct pattern stem with
  | case1 i h _ start segEnd segLen hmatch =>
    rw [segmentLoop_match h hmatch, runsFrom, dif_pos h]
    exact ⟨fun _ => ⟨_, List.mem_cons_self, hmatch⟩, fun _ => rfl⟩
  | case2 i h _ start segEnd segLen hmatch ih =>
    rw [segmentLoop_next h hmatch, runsFrom, dif_pos h]
    refine ih.trans ?_
    constructor
    · rintro ⟨r, hr, hmatch'⟩
      exact ⟨r, List.mem_cons_of_mem _ hr, hmatch'⟩
    · rintro ⟨r, hr, hmatch'⟩
      rcases List.mem_cons.mp hr with rfl | hr
      · exact absurd hmatch' hmatch
      · exact ⟨r, hr, hmatch'⟩
  | case3 i h =>
    rw [segmentLoop_end h, runsFrom, dif_neg h]
    simp

theorem matchSegments_iff {pattern stem : List Char} (h : stem.length ≤ 255) :
    matchSegments pattern stem = true ↔ ∃ first last,
      MaximalRun Char.isAlphanum stem first last ∧
        matchRec pattern (segmentText stem first last) = true := by
  have hloop := segmentLoop_fst pattern stem 0
  rw [List.drop_zero] at hloop
  rw [← hloop, segmentLoop_iff]
  constructor
  · rintro ⟨⟨first, last⟩, hmem, hmatch⟩
    have hrun := ((mem_runsFrom (Or.inl rfl)).mp hmem).1
    have hlast := hrun.last_le_length
    refine ⟨first, last, hrun, ?_⟩
    rwa [Nat.min_eq_left (by simp only; omega)] at hmatch
  · rintro ⟨first, last, hrun, hmatch⟩
    have hlast := hrun.last_le_length
    refine ⟨(first, last), (mem_runsFrom (Or.inl rfl)).mpr ⟨hrun, Nat.zero_le _⟩, ?_⟩
    rwa [Nat.min_eq_left (by simp only; omega)]

/-! ### File names -/

/-- A file name matches as a whole, by its stem or by a maximal run of letters
and digits of the stem. The loop over the segments examines each of these runs
once, and all of them if none matches; no buffer cuts a name of a file. -/
theorem matchPattern_iff (pattern filename : List Char) (h : filename.length ≤ 255) :
    (matchPattern pattern filename = true ↔
      matchRec pattern filename = true ∨ matchRec pattern (stemOf filename) = true ∨
        ∃ first last, MaximalRun Char.isAlphanum (stemOf filename) first last ∧
          matchRec pattern (segmentText (stemOf filename) first last) = true) ∧
    (segmentLoop pattern (stemOf filename) 0).1 = matchSegments pattern (stemOf filename) ∧
    ExaminesRuns pattern (stemOf filename) ∧
    (stemOf filename).take 255 = stemOf filename ∧
    ∀ first last, MaximalRun Char.isAlphanum (stemOf filename) first last → last - first ≤ 255 := by
  have hstem : (stemOf filename).length ≤ 255 := by
    have hle := (List.takeWhile_prefix (· ≠ '.') (l := filename)).length_le
    exact Nat.le_trans hle h
  have hcut : (stemOf filename).take 255 = stemOf filename := List.take_of_length_le hstem
  refine ⟨?_, ?_, examinesRuns pattern _, hcut, ?_⟩
  · have hpattern : matchPattern pattern filename = (matchRec pattern filename ||
        matchRec pattern ((stemOf filename).take 255) ||
        matchSegments pattern ((stemOf filename).take 255)) := rfl
    rw [hpattern, hcut, Bool.or_eq_true, Bool.or_eq_true, matchSegments_iff hstem, or_assoc]
  · have hloop := segmentLoop_fst pattern (stemOf filename) 0
    rwa [List.drop_zero] at hloop
  · intro first last hrun
    have hlast := hrun.last_le_length
    omega

/-- A segment of `small_report.txt` that a pattern matches. -/
theorem matchPattern_small_report : ("small_report.txt".toList).length ≤ 255 ∧
    (matchPattern "rep+ort".toList "small_report.txt".toList = true ↔
      matchRec "rep+ort".toList "small_report.txt".toList = true ∨
      matchRec "rep+ort".toList (stemOf "small_report.txt".toList) = true ∨
        ∃ first last, MaximalRun Char.isAlphanum (stemOf "small_report.txt".toList) first last ∧
          matchRec "rep+ort".toList
            (segmentText (stemOf "small_report.txt".toList) first last) = true) :=
  ⟨by decide, (matchPattern_iff "rep+ort".toList "small_report.txt".toList (by decide)).1⟩

end SysProg.HW2

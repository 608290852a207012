import Mathlib.Data.List.Basic
import Mathlib.Data.List.TakeWhile
import Mathlib.Data.Nat.Basic
import Mathlib.Order.Monotone.Defs
import Mathlib.Tactic.Cases

/-!
# Splitting a log file among reader threads

`run_reader_process` gives each reader thread a byte range. A thread starts at
the first line start that is not before its range and reads lines as long as
they start inside the range; the last thread reads to the end of the file.
-/

namespace SysProg.HW4

/-- A `FILE *`: the offset that `ftello` reports and the bytes from there on. -/
structure Stream where
  pos : ℕ
  rest : List Char
  deriving DecidableEq, Repr

def fseeko (file : List Char) (offset : ℕ) : Stream := ⟨offset, file.drop offset⟩

def fgetc (s : Stream) : Option Char × Stream :=
  match s.rest with
  | [] => (none, s)
  | c :: cs => (some c, ⟨s.pos + 1, cs⟩)

/-- `while ((ch = fgetc(fp)) != EOF && ch != '\n')`. -/
def skipLine (pos : ℕ) : List Char → Stream
  | [] => ⟨pos, []⟩
  | c :: cs => if c = '\n' then ⟨pos + 1, cs⟩ else skipLine (pos + 1) cs

def cutLine : List Char → List Char × List Char
  | [] => ([], [])
  | c :: cs => if c = '\n' then ([c], cs) else (c :: (cutLine cs).1, (cutLine cs).2)

def getline (s : Stream) : Option (List Char × Stream) :=
  if s.rest = [] then none
  else some ((cutLine s.rest).1, ⟨s.pos + (cutLine s.rest).1.length, (cutLine s.rest).2⟩)

theorem cutLine_append (cs : List Char) : (cutLine cs).1 ++ (cutLine cs).2 = cs := by
  induction cs with
  | nil => rfl
  | cons c cs ih =>
    unfold cutLine
    split_ifs
    · rfl
    · simp [ih]

theorem cutLine_length_pos {cs : List Char} (h : cs ≠ []) : 0 < (cutLine cs).1.length := by
  cases cs with
  | nil => exact absurd rfl h
  | cons c cs =>
    unfold cutLine
    split_ifs <;> simp

theorem cutLine_length_add (cs : List Char) :
    (cutLine cs).1.length + (cutLine cs).2.length = cs.length := by
  rw [← List.length_append, cutLine_append]

theorem getline_eq_some {s s' : Stream} {line : List Char} (h : getline s = some (line, s')) :
    s.rest ≠ [] ∧ line = (cutLine s.rest).1 ∧
      s' = ⟨s.pos + (cutLine s.rest).1.length, (cutLine s.rest).2⟩ := by
  unfold getline at h
  split_ifs at h with hne
  simp only [Option.some.injEq, Prod.mk.injEq] at h
  exact ⟨hne, h.1.symm, h.2.symm⟩

theorem getline_shorter {s s' : Stream} {line : List Char} (h : getline s = some (line, s')) :
    s'.rest.length < s.rest.length := by
  obtain ⟨hne, -, rfl⟩ := getline_eq_some h
  have hpos := cutLine_length_pos hne
  have hsum := cutLine_length_add s.rest
  simp only
  omega

/-- The read loop of `reader_thread_main`: each line with its `line_start`. -/
def readLoop (isLast : Bool) (endOffset : ℕ) (s : Stream) : List (ℕ × List Char) :=
  if isLast = false ∧ endOffset ≤ s.pos then []
  else
    match _h : getline s with
    | none => []
    | some (line, s') => (s.pos, line) :: readLoop isLast endOffset s'
termination_by s.rest.length
decreasing_by exact getline_shorter _h

/-- The thread's first position: one byte before the range tells whether a line
starts there, and a line cut by the boundary belongs to an earlier thread. -/
def seekRange (file : List Char) (start : ℕ) : Stream :=
  if 0 < start then
    let (ch, s) := fgetc (fseeko file (start - 1))
    if ch ≠ some '\n' then skipLine s.pos s.rest else s
  else fseeko file start

structure ByteRange where
  startOffset : ℕ
  endOffset : ℕ
  isLastThread : Bool
  deriving DecidableEq, Repr

/-- The arguments that `run_reader_process` prepares for thread `i`. -/
def threadRange (fileSize readerThreads i : ℕ) : ByteRange :=
  let chunk := (fileSize + readerThreads - 1) / readerThreads
  { startOffset := i * chunk
    endOffset := if fileSize < (i + 1) * chunk then fileSize else (i + 1) * chunk
    isLastThread := decide (i = readerThreads - 1) }

def readerThreadLines (file : List Char) (readerThreads i : ℕ) : List (List Char) :=
  let r := threadRange file.length readerThreads i
  (readLoop r.isLastThread r.endOffset (seekRange file r.startOffset)).map Prod.snd

/-- One `getline` loop over the whole file. -/
def sequentialLoop (s : Stream) : List (ℕ × List Char) :=
  match _h : getline s with
  | none => []
  | some (line, s') => (s.pos, line) :: sequentialLoop s'
termination_by s.rest.length
decreasing_by exact getline_shorter _h

def sequentialLines (file : List Char) : List (List Char) :=
  (sequentialLoop ⟨0, file⟩).map Prod.snd

/-! ### What one loop reads -/

theorem sequentialLoop_nil (pos : ℕ) : sequentialLoop ⟨pos, []⟩ = [] := by
  rw [sequentialLoop]
  simp [getline]

theorem sequentialLoop_cons {s : Stream} (h : s.rest ≠ []) :
    sequentialLoop s = (s.pos, (cutLine s.rest).1) ::
      sequentialLoop ⟨s.pos + (cutLine s.rest).1.length, (cutLine s.rest).2⟩ := by
  rw [sequentialLoop]
  split
  · rename_i hnone
    simp [getline, h] at hnone
  · rename_i line s' hsome
    obtain ⟨-, rfl, rfl⟩ := getline_eq_some hsome
    rfl

theorem sequentialLoop_bounds (s : Stream) :
    ∀ l ∈ sequentialLoop s, s.pos ≤ l.1 ∧ l.1 < s.pos + s.rest.length := by
  induction hn : s.rest.length using Nat.strong_induction_on generalizing s with
  | _ n ih =>
    intro l hl
    by_cases hne : s.rest = []
    · obtain ⟨pos, rest⟩ := s
      subst hne
      simp [sequentialLoop_nil] at hl
    · have hpos := cutLine_length_pos hne
      have hsum := cutLine_length_add s.rest
      rw [sequentialLoop_cons hne] at hl
      rcases List.mem_cons.mp hl with rfl | hl
      · simp only
        omega
      · have hrec := ih (cutLine s.rest).2.length (by omega)
          ⟨s.pos + (cutLine s.rest).1.length, (cutLine s.rest).2⟩ rfl l hl
        simp only at hrec
        omega

theorem readLoop_last (endOffset : ℕ) (s : Stream) :
    readLoop true endOffset s = sequentialLoop s := by
  induction hn : s.rest.length using Nat.strong_induction_on generalizing s with
  | _ n ih =>
    rw [readLoop, sequentialLoop]
    simp only [Bool.true_eq_false, false_and, ↓reduceIte]
    split
    · rfl
    · rename_i line s' hsome
      rw [ih s'.rest.length (hn ▸ getline_shorter hsome) s' rfl]

theorem readLoop_range (endOffset : ℕ) (s : Stream) :
    readLoop false endOffset s =
      (sequentialLoop s).takeWhile (fun l => l.1 < endOffset) := by
  induction hn : s.rest.length using Nat.strong_induction_on generalizing s with
  | _ n ih =>
    rw [readLoop, sequentialLoop]
    by_cases hend : endOffset ≤ s.pos
    · simp only [hend, and_self, ↓reduceIte]
      split
      · rfl
      · rw [List.takeWhile_cons_of_neg]
        simpa using hend
    · simp only [hend, and_false, ↓reduceIte]
      split
      · rfl
      · rename_i line s' hsome
        rw [ih s'.rest.length (hn ▸ getline_shorter hsome) s' rfl, List.takeWhile_cons_of_pos]
        simpa using hend

/-! ### Where a thread starts -/

theorem skipLine_inside (pos : ℕ) {cs : List Char} {k : ℕ} (hk : k < (cutLine cs).1.length) :
    skipLine (pos + k) (cs.drop k) = ⟨pos + (cutLine cs).1.length, (cutLine cs).2⟩ := by
  induction cs generalizing pos k with
  | nil => simp [cutLine] at hk
  | cons c cs ih =>
    by_cases hc : c = '\n'
    · have hline : cutLine (c :: cs) = ([c], cs) := by simp [cutLine, hc]
      rw [hline] at hk ⊢
      obtain rfl : k = 0 := by simpa using hk
      simp [skipLine, hc]
    · have hline : cutLine (c :: cs) = (c :: (cutLine cs).1, (cutLine cs).2) := by
        simp [cutLine, hc]
      rw [hline] at hk ⊢
      simp only [List.length_cons] at hk ⊢
      cases k with
      | zero =>
        simp only [Nat.add_zero, List.drop_zero, skipLine, hc, ↓reduceIte]
        by_cases hcs : cs = []
        · subst hcs
          simp [skipLine, cutLine]
        · have hrec := ih (pos + 1) (cutLine_length_pos hcs)
          simp only [Nat.add_zero, List.drop_zero] at hrec
          rw [hrec, Nat.add_right_comm, Nat.add_assoc]
      | succ k =>
        have hrec := ih (pos + 1) (Nat.lt_of_succ_lt_succ hk)
        rw [List.drop_succ_cons, ← Nat.add_assoc, Nat.add_right_comm pos k 1, hrec,
          Nat.add_right_comm, Nat.add_assoc]

theorem dropWhile_sequentialLoop (s : Stream) (k : ℕ) :
    (sequentialLoop s).dropWhile (fun l => l.1 < s.pos + k + 1) =
      sequentialLoop (skipLine (s.pos + k) (s.rest.drop k)) := by
  induction hn : s.rest.length using Nat.strong_induction_on generalizing s k with
  | _ n ih =>
    by_cases hne : s.rest = []
    · obtain ⟨pos, rest⟩ := s
      subst hne
      simp [sequentialLoop_nil, skipLine]
    · have hpos := cutLine_length_pos hne
      have hsum := cutLine_length_add s.rest
      rw [sequentialLoop_cons hne,
        List.dropWhile_cons_of_pos (by simp only [decide_eq_true_eq]; omega)]
      by_cases hk : k < (cutLine s.rest).1.length
      · -- the offset lies inside the first line, and every later line is kept
        rw [skipLine_inside s.pos hk]
        apply List.dropWhile_eq_self_iff.mpr
        intro hlen
        have hb := sequentialLoop_bounds _ _ (List.getElem_mem hlen)
        simp only at hb
        simp only [decide_eq_true_eq, not_lt]
        omega
      · obtain ⟨j, rfl⟩ := Nat.exists_eq_add_of_le (not_lt.mp hk)
        have hrec := ih (cutLine s.rest).2.length (by omega)
          ⟨s.pos + (cutLine s.rest).1.length, (cutLine s.rest).2⟩ j rfl
        have hdrop : s.rest.drop ((cutLine s.rest).1.length + j) = (cutLine s.rest).2.drop j := by
          have happ := congrArg (List.drop ((cutLine s.rest).1.length + j)) (cutLine_append s.rest)
          rw [← happ, ← List.drop_drop, List.drop_left]
        simp only at hrec
        rw [hdrop, ← Nat.add_assoc, hrec]

theorem seekRange_eq {file : List Char} {start : ℕ} (h : 0 < start) :
    seekRange file start = skipLine (start - 1) (file.drop (start - 1)) := by
  unfold seekRange
  rw [if_pos h]
  cases hd : file.drop (start - 1) with
  | nil => simp [fseeko, fgetc, hd, skipLine]
  | cons c cs =>
    by_cases hc : c = '\n'
    · simp [fseeko, fgetc, hd, skipLine, hc]
    · simp [fseeko, fgetc, hd, skipLine, hc]

theorem sequentialLoop_seekRange (file : List Char) (start : ℕ) :
    sequentialLoop (seekRange file start) =
      (sequentialLoop ⟨0, file⟩).dropWhile (fun l => l.1 < start) := by
  cases start with
  | zero =>
    have hall : (sequentialLoop ⟨0, file⟩).dropWhile (fun l => l.1 < 0) =
        sequentialLoop ⟨0, file⟩ := List.dropWhile_eq_self_iff.mpr (by simp)
    rw [hall]
    rfl
  | succ k =>
    rw [seekRange_eq (Nat.succ_pos k)]
    have hdrop := dropWhile_sequentialLoop ⟨0, file⟩ k
    simpa using hdrop.symm

/-! ### All threads together -/

theorem takeWhile_append_of_imp {α : Type*} {p q : α → Bool} (h : ∀ a, p a = true → q a = true)
    (xs : List α) : xs.takeWhile p ++ (xs.dropWhile p).takeWhile q = xs.takeWhile q := by
  induction xs with
  | nil => rfl
  | cons x xs ih =>
    by_cases hp : p x = true
    · simp [hp, h x hp, ih]
    · simp [hp]

theorem takeWhile_congr_mem {α : Type*} {p q : α → Bool} {xs : List α}
    (h : ∀ a ∈ xs, p a = q a) : xs.takeWhile p = xs.takeWhile q := by
  induction xs with
  | nil => rfl
  | cons x xs ih =>
    have htail := ih (fun a ha => h a (List.mem_cons_of_mem _ ha))
    rw [List.takeWhile_cons, List.takeWhile_cons, h x List.mem_cons_self, htail]

/-- Consecutive ranges of increasing bounds tile the list up to the last bound. -/
theorem flatMap_ranges {α : Type*} (f : α → ℕ) {bound : ℕ → ℕ} (hmono : Monotone bound)
    (hzero : bound 0 = 0) (xs : List α) (n : ℕ) :
    (List.range n).flatMap (fun i => (xs.dropWhile (fun a => f a < bound i)).takeWhile
      (fun a => f a < bound (i + 1))) = xs.takeWhile (fun a => f a < bound n) := by
  induction n with
  | zero =>
    cases xs <;> simp [hzero]
  | succ n ih =>
    rw [List.range_succ, List.flatMap_append, ih, List.flatMap_singleton]
    apply takeWhile_append_of_imp
    intro a ha
    have hle := hmono (Nat.le_add_right n 1)
    simp only [decide_eq_true_eq] at ha ⊢
    omega

theorem readerThreadLines_inner {file : List Char} {readerThreads i : ℕ}
    (h : i + 1 < readerThreads) :
    readerThreadLines file readerThreads i = (((sequentialLoop ⟨0, file⟩).dropWhile
      (fun l => l.1 < (threadRange file.length readerThreads i).startOffset)).takeWhile
      (fun l => l.1 < (threadRange file.length readerThreads (i + 1)).startOffset)).map
        Prod.snd := by
  have hlast : (threadRange file.length readerThreads i).isLastThread = false := by
    simp only [threadRange, decide_eq_false_iff_not]
    omega
  simp only [readerThreadLines, hlast, readLoop_range, sequentialLoop_seekRange]
  congr 1
  -- every line starts before the end of the file, so the cut at the end is harmless
  apply takeWhile_congr_mem
  intro l hl
  have hb := sequentialLoop_bounds ⟨0, file⟩ l (List.dropWhile_sublist _ |>.mem hl)
  rw [decide_eq_decide]
  simp only [threadRange, Nat.zero_add] at hb ⊢
  split_ifs <;> omega

theorem readerThreadLines_last (file : List Char) {n : ℕ} :
    readerThreadLines file (n + 1) n = ((sequentialLoop ⟨0, file⟩).dropWhile
      (fun l => l.1 < (threadRange file.length (n + 1) n).startOffset)).map Prod.snd := by
  have hlast : (threadRange file.length (n + 1) n).isLastThread = true := by simp [threadRange]
  simp only [readerThreadLines, hlast, readLoop_last, sequentialLoop_seekRange]

theorem readerThreads_eq_sequential (file : List Char) {readerThreads : ℕ}
    (h : 1 ≤ readerThreads) :
    (List.range readerThreads).flatMap (readerThreadLines file readerThreads) =
      sequentialLines file := by
  obtain ⟨n, rfl⟩ := Nat.exists_eq_add_of_le' h
  have hmono : Monotone (fun i => (threadRange file.length (n + 1) i).startOffset) :=
    fun i j hij => Nat.mul_le_mul_right _ hij
  have htile := flatMap_ranges Prod.fst hmono (by simp [threadRange])
    (sequentialLoop ⟨0, file⟩) n
  have hinner : (List.range n).flatMap (readerThreadLines file (n + 1)) =
      ((sequentialLoop ⟨0, file⟩).takeWhile
        (fun l => l.1 < (threadRange file.length (n + 1) n).startOffset)).map Prod.snd := by
    rw [← htile, List.map_flatMap]
    apply List.flatMap_congr
    intro i hi
    exact readerThreadLines_inner (by have := List.mem_range.mp hi; omega)
  rw [List.range_succ, List.flatMap_append, List.flatMap_singleton, hinner,
    readerThreadLines_last, ← List.map_append, List.takeWhile_append_dropWhile]
  rfl

/-- Four threads on five bytes: chunks of two, the last one past the end. -/
theorem readerThreads_short_file :
    1 ≤ 4 ∧ (List.range 4).flatMap (readerThreadLines ['a', '\n', '\n', 'b', 'c'] 4) =
      [['a', '\n'], ['\n'], ['b', 'c']] := by
  refine ⟨by decide, ?_⟩
  rw [readerThreads_eq_sequential _ (by decide)]
  simp [sequentialLines, sequentialLoop_cons, sequentialLoop_nil, cutLine]

end SysProg.HW4

import Mathlib.Data.Prod.Lex
import SysProg.HW3.System
import SysProg.Lib.ComparatorSort
import SysProg.Lib.FileReads
import SysProg.Lib.ScanFormat

/-!
# The order of the output file

`load_input` accepts every word id that `%d` can read. `write_output` sorts the
words by a comparator that subtracts, so two ids of one floor that are further
apart than an `int` reaches compare with the wrong sign. The file is in order
under every lawful `qsort` exactly when no floor has two such ids.
-/

namespace SysProg.HW3
open SysProg.Lib

def maxWords : ℕ := 256

/-- What `load_input` keeps of a line. -/
structure InputWord where
  wordId : ℤ
  text : List Char
  sortingFloor : ℤ
  deriving DecidableEq

/-- `"%d %63s %d"` -/
def inputFormat : List Directive := [.int, .space, .string 63, .space, .int]

/-- The checks of one line; `none` is a call of `fail`. -/
def readInputLine (numFloors : ℤ) (line : List Char) : Option InputWord :=
  match sscanf inputFormat (cString line) with
  | [.number id, .string word, .number sf] =>
    if sf < 0 ∨ numFloors ≤ sf then none
    else if isLowerEnglish word = false then none
    else some ⟨id, word, sf⟩
  | _ => none

/-- `while (fgets(line, sizeof(line), fp))` with its body. -/
def loadLines (numFloors : ℤ) (words : List InputWord) (file : List Char) :
    Option (List InputWord) :=
  if h : file = [] then some words
  else
    have : (fgets 255 file).2.length < file.length := fgets_shorter h
    if maxWords ≤ words.length then none
    else
      match readInputLine numFloors (fgets 255 file).1 with
      | none => none
      | some word => loadLines numFloors (words ++ [word]) (fgets 255 file).2
termination_by file.length

def loadInput (numFloors : ℤ) (file : List Char) : Option (List InputWord) :=
  match loadLines numFloors [] file with
  | some (word :: words) => some (word :: words)
  | _ => none

def cmpWordPtrs (wa wb : InputWord) : ℤ :=
  if wa.sortingFloor ≠ wb.sortingFloor then wrapInt 32 (wa.sortingFloor - wb.sortingFloor)
  else wrapInt 32 (wa.wordId - wb.wordId)

/-- `"%d %s %d\n"` -/
def outputLine (w : InputWord) : List Char :=
  decimal w.wordId ++ ' ' :: (w.text ++ ' ' :: (decimal w.sortingFloor ++ ['\n']))

/-- The lines of the output file, for the library's `qsort`. -/
def writeOutput (qsort : (InputWord → InputWord → ℤ) → List InputWord → List InputWord)
    (words : List InputWord) : List (List Char) :=
  (qsort cmpWordPtrs words).map outputLine

/-! ### The required order -/

def InputWord.key (w : InputWord) : ℤ ×ₗ ℤ := toLex (w.sortingFloor, w.wordId)

/-- The file holds the lines of the words by floor and then by id. -/
def WritesInOrder (qsort : (InputWord → InputWord → ℤ) → List InputWord → List InputWord)
    (words : List InputWord) : Prop :=
  ∃ ordered : List InputWord, writeOutput qsort words = ordered.map outputLine ∧
    ordered.Perm words ∧ SortedBy InputWord.key ordered

/-- No two ids of a floor are further apart than the positive half of `int`. -/
def IdsClose (words : List InputWord) : Prop :=
  ∀ a ∈ words, ∀ b ∈ words, a.sortingFloor = b.sortingFloor → a.wordId - b.wordId < 2147483648

/-! ### What the loader accepts -/

structure Loaded (w : InputWord) : Prop where
  id : -2147483648 ≤ w.wordId ∧ w.wordId < 2147483648
  floor : 0 ≤ w.sortingFloor ∧ w.sortingFloor < 2147483648
  lower : isLowerEnglish w.text = true

theorem ints_of_sscanf {input word : List Char} {id sf : ℤ}
    (h : sscanf inputFormat input = [.number id, .string word, .number sf]) :
    (∃ v, id = int32 v) ∧ ∃ v, sf = int32 v := by
  simp only [inputFormat, sscanf] at h
  cases hfirst : scanNumber input with
  | none => simp [hfirst] at h
  | some first =>
    simp only [hfirst] at h
    split_ifs at h with htoken
    · simp at h
    · simp only [List.cons.injEq, ScanValue.number.injEq] at h
      obtain ⟨rfl, -, h⟩ := h
      split at h
      · cases h
      · simp only [List.cons.injEq, ScanValue.number.injEq] at h
        exact ⟨⟨_, rfl⟩, _, h.1.symm⟩

theorem loaded_of_readInputLine {numFloors : ℤ} {line : List Char} {w : InputWord}
    (h : readInputLine numFloors line = some w) : Loaded w := by
  unfold readInputLine at h
  split at h
  · rename_i id word sf heq
    obtain ⟨⟨v, rfl⟩, v', rfl⟩ := ints_of_sscanf heq
    split_ifs at h with hfloor hlower
    obtain rfl := Option.some.inj h
    have hnonneg : 0 ≤ int32 v' := by omega
    exact ⟨int32_range v, ⟨hnonneg, (int32_range v').2⟩, by simpa using hlower⟩
  · cases h

theorem loaded_of_loadLines {numFloors : ℤ} {words : List InputWord} {file : List Char}
    {loaded : List InputWord} (hwords : ∀ w ∈ words, Loaded w)
    (h : loadLines numFloors words file = some loaded) : ∀ w ∈ loaded, Loaded w := by
  by_cases hfile : file = []
  · rw [loadLines, dif_pos hfile] at h
    obtain rfl := Option.some.inj h
    exact hwords
  · rw [loadLines, dif_neg hfile] at h
    dsimp only at h
    split_ifs at h with hfull
    split at h
    · cases h
    · rename_i word hword
      refine loaded_of_loadLines ?_ h
      intro w hw
      rcases List.mem_append.mp hw with hold | hnew
      · exact hwords w hold
      · rw [List.mem_singleton.mp hnew]
        exact loaded_of_readInputLine hword
termination_by file.length
decreasing_by exact fgets_shorter hfile

theorem loaded_of_loadInput {numFloors : ℤ} {file : List Char} {words : List InputWord}
    (h : loadInput numFloors file = some words) : ∀ w ∈ words, Loaded w := by
  unfold loadInput at h
  split at h
  · rename_i word rest hload
    obtain rfl := Option.some.inj h
    exact loaded_of_loadLines (by simp) hload
  · cases h

/-! ### A line determines its word -/

theorem split_at_space {a b x y : List Char} (ha : ' ' ∉ a) (hb : ' ' ∉ b)
    (h : a ++ ' ' :: x = b ++ ' ' :: y) : a = b ∧ x = y := by
  have hbefore : ∀ {c z : List Char}, ' ' ∉ c → (c ++ ' ' :: z).takeWhile (· ≠ ' ') = c := by
    intro c z hc
    rw [List.takeWhile_append_of_pos]
    · simp
    · intro d hd
      simp only [ne_eq, decide_not, Bool.not_eq_true', decide_eq_false_iff_not]
      rintro rfl
      exact hc hd
  obtain rfl : a = b := by rw [← hbefore (z := x) ha, h, hbefore hb]
  exact ⟨rfl, (List.cons.inj (List.append_cancel_left h)).2⟩

theorem Loaded.space_notMem {w : InputWord} (h : Loaded w) : ' ' ∉ w.text := by
  intro hmem
  have hlower := List.all_eq_true.mp h.lower _ hmem
  exact absurd hlower (by decide)

theorem outputLine_injective {v w : InputWord} (hv : Loaded v) (hw : Loaded w)
    (h : outputLine v = outputLine w) : v = w := by
  obtain ⟨id, text, floor⟩ := v
  obtain ⟨id', text', floor'⟩ := w
  have hspace : ∀ x : ℤ, ' ' ∉ decimal x := notMem_decimal (by decide) (by decide)
  obtain ⟨hid, hrest⟩ := split_at_space (hspace _) (hspace _) h
  obtain ⟨htext, hfloor⟩ := split_at_space hv.space_notMem hw.space_notMem hrest
  simp only at hid htext hfloor
  rw [decimal_injective hid, htext, decimal_injective (List.append_cancel_right hfloor)]

theorem eq_of_lines {xs ys : List InputWord} (hxs : ∀ w ∈ xs, Loaded w)
    (hys : ∀ w ∈ ys, Loaded w) (h : xs.map outputLine = ys.map outputLine) : xs = ys := by
  induction xs generalizing ys with
  | nil => exact (List.map_eq_nil_iff.mp h.symm).symm
  | cons x xs ih =>
    cases ys with
    | nil => cases h
    | cons y ys =>
      obtain ⟨hline, hrest⟩ := List.cons.inj h
      rw [outputLine_injective (hxs x List.mem_cons_self) (hys y List.mem_cons_self) hline,
        ih (fun w hw => hxs w (List.mem_cons_of_mem x hw))
          (fun w hw => hys w (List.mem_cons_of_mem y hw)) hrest]

/-! ### The comparator -/

theorem key_lt_iff {a b : InputWord} : a.key < b.key ↔ a.sortingFloor < b.sortingFloor ∨
    a.sortingFloor = b.sortingFloor ∧ a.wordId < b.wordId := Prod.Lex.toLex_lt_toLex

theorem cmpWordPtrs_of_ne {a b : InputWord} (ha : Loaded a) (hb : Loaded b)
    (h : a.sortingFloor ≠ b.sortingFloor) :
    cmpWordPtrs a b = a.sortingFloor - b.sortingFloor := by
  have hfa := ha.floor
  have hfb := hb.floor
  rw [cmpWordPtrs, if_pos h]
  exact wrapInt_eq_self_iff (w := 31).mpr ⟨by omega, by omega⟩

theorem cmpWordPtrs_of_eq {a b : InputWord} (h : a.sortingFloor = b.sortingFloor) :
    cmpWordPtrs a b = wrapInt 32 (a.wordId - b.wordId) := by
  rw [cmpWordPtrs, if_neg (not_not.mpr h)]

theorem comparesBy_of_close {words : List InputWord} (hloaded : ∀ w ∈ words, Loaded w)
    (hclose : IdsClose words) : ComparesBy InputWord.key cmpWordPtrs words := by
  intro a ha b hb
  rw [key_lt_iff, key_lt_iff]
  by_cases hfloor : a.sortingFloor = b.sortingFloor
  · have hab := hclose a ha b hb hfloor
    have hba := hclose b hb a ha hfloor.symm
    have hexact : cmpWordPtrs a b = a.wordId - b.wordId := by
      rw [cmpWordPtrs_of_eq hfloor]
      exact wrapInt_eq_self_iff (w := 31).mpr ⟨by omega, by omega⟩
    rw [hexact]
    omega
  · rw [cmpWordPtrs_of_ne (hloaded a ha) (hloaded b hb) hfloor]
    omega

/-- Of two ids that are too far apart, no consistent comparison puts the smaller one first. -/
theorem cmpWordPtrs_far {words : List InputWord} {a b : InputWord} (hloaded : ∀ w ∈ words, Loaded w)
    (ha : a ∈ words) (hb : b ∈ words) (hfloor : a.sortingFloor = b.sortingFloor)
    (hfar : 2147483648 ≤ a.wordId - b.wordId) (hcmp : ConsistentOn cmpWordPtrs words) :
    0 < cmpWordPtrs b a := by
  have hida := (hloaded a ha).id
  have hidb := (hloaded b hb).id
  have hless : cmpWordPtrs a b < 0 := by
    rw [cmpWordPtrs_of_eq hfloor, wrapInt_of_ge (w := 31) (by omega) (by omega)]
    omega
  exact (hcmp.antisymm a ha b hb).mp hless

/-! ### The file -/

/-- The words by descending keys, as a `qsort` may leave them under a comparator
that is not consistent. -/
def descending (words : List InputWord) : List InputWord :=
  words.mergeSort fun a b => decide (b.key ≤ a.key)

theorem descending_pairwise (words : List InputWord) :
    (descending words).Pairwise fun a b => b.key ≤ a.key := by
  refine (List.pairwise_mergeSort ?_ ?_ words).imp fun hab => by simpa using hab
  · intro a b c hab hbc
    simp only [decide_eq_true_eq] at *
    exact hbc.trans hab
  · intro a b
    simp only [Bool.or_eq_true, decide_eq_true_eq]
    exact le_total _ _

theorem ordered_pair {α : Type} {R : α → α → Prop} {xs : List α} {a b : α} (h : xs.Pairwise R)
    (ha : a ∈ xs) (hb : b ∈ xs) (hne : a ≠ b) : R a b ∨ R b a := by
  have hboth : xs.Pairwise fun x y => R x y ∨ R y x := h.imp Or.inl
  have : Std.Symm fun x y => R x y ∨ R y x := ⟨fun _ _ => Or.symm⟩
  exact hboth.forall ha hb hne

theorem sortedBy_of_writesInOrder {qsort : (InputWord → InputWord → ℤ) → List InputWord →
    List InputWord} {words : List InputWord} (hloaded : ∀ w ∈ words, Loaded w)
    (hq : LawfulQsort qsort) (h : WritesInOrder qsort words) :
    SortedBy InputWord.key (qsort cmpWordPtrs words) := by
  obtain ⟨ordered, hlines, hperm, hsorted⟩ := h
  have hwritten : ∀ w ∈ qsort cmpWordPtrs words, Loaded w :=
    fun w hw => hloaded w ((hq.perm _ _).subset hw)
  rw [eq_of_lines hwritten (fun w hw => hloaded w (hperm.subset hw)) hlines]
  exact hsorted

theorem not_writesInOrder_of_far {qsort : (InputWord → InputWord → ℤ) → List InputWord →
    List InputWord} {words : List InputWord} (hloaded : ∀ w ∈ words, Loaded w)
    (hq : LawfulQsort qsort) (hcmp : ConsistentOn cmpWordPtrs words) {a b : InputWord}
    (ha : a ∈ words) (hb : b ∈ words) (hfloor : a.sortingFloor = b.sortingFloor)
    (hfar : 2147483648 ≤ a.wordId - b.wordId) : ¬ WritesInOrder qsort words := by
  intro h
  have hless : b.key < a.key := key_lt_iff.mpr (Or.inr ⟨hfloor.symm, by omega⟩)
  have hne : a ≠ b := by
    rintro rfl
    exact lt_irrefl _ hless
  have hperm := hq.perm cmpWordPtrs words
  have hsorted := sortedBy_of_writesInOrder hloaded hq h
  have hboth := List.pairwise_and_iff.mpr ⟨hsorted, hq.sorted _ _ hcmp⟩
  rcases ordered_pair hboth (hperm.symm.subset ha) (hperm.symm.subset hb) hne with hab | hba
  · exact absurd hab.1 (not_le.mpr hless)
  · exact absurd (cmpWordPtrs_far hloaded ha hb hfloor hfar hcmp) (not_lt.mpr hba.2)

/-- Where it is not consistent, the words may be left in descending order. -/
theorem not_writesInOrder_of_inconsistent {words : List InputWord}
    (hloaded : ∀ w ∈ words, Loaded w) (hcmp : ¬ ConsistentOn cmpWordPtrs words) {a b : InputWord}
    (ha : a ∈ words) (hb : b ∈ words) (hless : b.key < a.key) :
    LawfulQsort (qsortElse descending) ∧ ¬ WritesInOrder (qsortElse descending) words := by
  have hq : LawfulQsort (qsortElse descending) :=
    lawfulQsort_qsortElse fun xs => List.mergeSort_perm xs _
  refine ⟨hq, fun h => ?_⟩
  have hother : qsortElse descending cmpWordPtrs words = descending words := by
    rw [qsortElse, if_neg hcmp]
  have hne : a ≠ b := by
    rintro rfl
    exact lt_irrefl _ hless
  have hsorted := sortedBy_of_writesInOrder hloaded hq h
  have hperm := hq.perm cmpWordPtrs words
  rw [hother] at hsorted hperm
  have hboth := List.pairwise_and_iff.mpr ⟨hsorted, descending_pairwise words⟩
  rcases ordered_pair hboth (hperm.symm.subset ha) (hperm.symm.subset hb) hne with hab | hba
  · exact absurd hab.1 (not_le.mpr hless)
  · exact absurd hba.2 (not_le.mpr hless)

/-- Under every lawful `qsort` the output file is in order exactly when no floor
has two ids that are 2^31 or more apart. -/
theorem writesInOrder_iff {numFloors : ℤ} {file : List Char} {words : List InputWord}
    (h : loadInput numFloors file = some words) :
    (∀ qsort, LawfulQsort qsort → WritesInOrder qsort words) ↔ IdsClose words := by
  have hloaded := loaded_of_loadInput h
  constructor
  · intro hall
    by_contra hclose
    simp only [IdsClose, not_forall, not_lt] at hclose
    obtain ⟨a, ha, b, hb, hfloor, hfar⟩ := hclose
    by_cases hcmp : ConsistentOn cmpWordPtrs words
    · have hq : LawfulQsort (qsortElse descending) :=
        lawfulQsort_qsortElse fun xs => List.mergeSort_perm xs _
      exact not_writesInOrder_of_far hloaded hq hcmp ha hb hfloor hfar (hall _ hq)
    · have hless : b.key < a.key := key_lt_iff.mpr (Or.inr ⟨hfloor.symm, by omega⟩)
      obtain ⟨hq, hnot⟩ := not_writesInOrder_of_inconsistent hloaded hcmp ha hb hless
      exact hnot (hall _ hq)
  · intro hclose qsort hq
    exact ⟨qsort cmpWordPtrs words, rfl, hq.perm _ _,
        hq.sortedBy (comparesBy_of_close hloaded hclose)⟩

/-! ### Two input files -/

theorem loadLines_line {numFloors : ℤ} {words : List InputWord} {line rest : List Char}
    {word : InputWord} (hline : '\n' ∉ line) (hlen : line.length < 255)
    (hroom : words.length < maxWords)
    (hread : readInputLine numFloors (line ++ ['\n']) = some word) :
    loadLines numFloors words (line ++ ['\n'] ++ rest) =
      loadLines numFloors (words ++ [word]) rest := by
  rw [loadLines, dif_neg (by simp)]
  dsimp only
  rw [fgets_line hline hlen, if_neg (not_le.mpr hroom), hread]

theorem loadInput_two {numFloors : ℤ} {first second : List Char} {a b : InputWord}
    (hfirst : '\n' ∉ first ∧ first.length < 255) (hsecond : '\n' ∉ second ∧ second.length < 255)
    (ha : readInputLine numFloors (first ++ ['\n']) = some a)
    (hb : readInputLine numFloors (second ++ ['\n']) = some b) :
    loadInput numFloors (first ++ ['\n'] ++ (second ++ ['\n'] ++ [])) = some [a, b] := by
  rw [loadInput, loadLines_line hfirst.1 hfirst.2 (by simp [maxWords]) ha,
    loadLines_line hsecond.1 hsecond.2 (by simp [maxWords]) hb, loadLines, dif_pos rfl]
  rfl

theorem writesInOrder_close :
    loadInput 1 ("7 b 0".toList ++ ['\n'] ++ ("-2 a 0".toList ++ ['\n'] ++ [])) =
        some [⟨7, ['b'], 0⟩, ⟨-2, ['a'], 0⟩] ∧
      ∀ qsort, LawfulQsort qsort → WritesInOrder qsort [⟨7, ['b'], 0⟩, ⟨-2, ['a'], 0⟩] := by
  have hload : loadInput 1 ("7 b 0".toList ++ ['\n'] ++ ("-2 a 0".toList ++ ['\n'] ++ [])) =
      some [⟨7, ['b'], 0⟩, ⟨-2, ['a'], 0⟩] :=
    loadInput_two (by decide) (by decide) (by decide) (by decide)
  refine ⟨hload, (writesInOrder_iff hload).mpr ?_⟩
  intro a ha b hb _
  simp only [List.mem_cons, List.not_mem_nil, or_false] at ha hb
  rcases ha with rfl | rfl <;> rcases hb with rfl | rfl <;> decide

/-- The largest `int` and -2 on one floor: their difference wraps to a negative one. -/
theorem misordered_far :
    loadInput 1 ("2147483647 a 0".toList ++ ['\n'] ++ ("-2 b 0".toList ++ ['\n'] ++ [])) =
        some [⟨2147483647, ['a'], 0⟩, ⟨-2, ['b'], 0⟩] ∧
      (∃ qsort : (InputWord → InputWord → ℤ) → List InputWord → List InputWord,
        LawfulQsort qsort) ∧
      ∀ qsort, LawfulQsort qsort →
        ¬ WritesInOrder qsort [⟨2147483647, ['a'], 0⟩, ⟨-2, ['b'], 0⟩] := by
  have hload : loadInput 1
      ("2147483647 a 0".toList ++ ['\n'] ++ ("-2 b 0".toList ++ ['\n'] ++ [])) =
      some [⟨2147483647, ['a'], 0⟩, ⟨-2, ['b'], 0⟩] :=
    loadInput_two (by decide) (by decide) (by decide) (by decide)
  have hcmp : ConsistentOn cmpWordPtrs [⟨2147483647, ['a'], 0⟩, ⟨-2, ['b'], 0⟩] := by
    constructor
    · intro a ha b hb
      simp only [List.mem_cons, List.not_mem_nil, or_false] at ha hb
      rcases ha with rfl | rfl <;> rcases hb with rfl | rfl <;> decide
    · intro a ha b hb c hc
      simp only [List.mem_cons, List.not_mem_nil, or_false] at ha hb hc
      rcases ha with rfl | rfl <;> rcases hb with rfl | rfl <;> rcases hc with rfl | rfl <;> decide
  refine ⟨hload, ⟨qsortElse id, lawfulQsort_qsortElse fun _ => List.Perm.refl _⟩, ?_⟩
  intro qsort hq
  exact not_writesInOrder_of_far (loaded_of_loadInput hload) hq hcmp List.mem_cons_self
    (List.mem_cons_of_mem _ List.mem_cons_self) rfl (by decide)

end SysProg.HW3

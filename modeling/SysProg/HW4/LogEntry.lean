import Mathlib.Data.Fintype.Basic
import Mathlib.Data.List.Basic

/-!
# Log records, levels and keyword scores

A record travels through every queue of the pipeline unchanged. Records made
from a line of a file and end-of-file markers share one type and differ in
`isEof`; both carry the reader they come from. C strings are lists of
characters without the terminating zero, and scores are exact integers.
-/

namespace SysProg.HW4

inductive Level where
  | error | warn | info | debug
  deriving DecidableEq, Repr

instance : Fintype Level where
  elems := {.error, .warn, .info, .debug}
  complete l := by cases l <;> decide

/-- The order of `for (level = 0; level < MAX_LEVELS; ++level)`. -/
def allLevels : List Level := [.error, .warn, .info, .debug]

def maxLevels : ℕ := allLevels.length

def maxFiles : ℕ := 128

theorem mem_allLevels (l : Level) : l ∈ allLevels := by cases l <;> decide

def levelName : Level → List Char
  | .error => ['E', 'R', 'R', 'O', 'R']
  | .warn => ['W', 'A', 'R', 'N']
  | .info => ['I', 'N', 'F', 'O']
  | .debug => ['D', 'E', 'B', 'U', 'G']

def levelWeight : Level → ℕ
  | .error => 4
  | .warn => 3
  | .info => 2
  | .debug => 1

structure LogEntry where
  timestamp : List Char
  level : List Char
  source : List Char
  message : List Char
  levelIndex : Level
  isEof : Bool
  readerId : ℕ
  deriving DecidableEq, Repr

/-- The fields that `parse_log_line` fills from a well-formed line. -/
structure ParsedLine where
  timestamp : List Char
  level : Level
  source : List Char
  message : List Char
  deriving DecidableEq, Repr

def ParsedLine.toEntry (p : ParsedLine) (readerId : ℕ) : LogEntry where
  timestamp := p.timestamp
  level := levelName p.level
  source := p.source
  message := p.message
  levelIndex := p.level
  isEof := false
  readerId := readerId

def eofEntry (readerId : ℕ) (l : Level) : LogEntry where
  timestamp := []
  level := levelName l
  source := []
  message := []
  levelIndex := l
  isEof := true
  readerId := readerId

def countOverlappingKeyword (haystack needle : List Char) : ℕ :=
  if needle = [] then 0
  else if haystack.length < needle.length then 0
  else (List.range (haystack.length + 1 - needle.length)).countP
    (fun i => (haystack.drop i).take needle.length = needle)

def occurrences (word text : List Char) : ℕ :=
  (List.range (text.length + 1)).countP (fun i => word.isPrefixOf (text.drop i))

theorem prefix_test (word text : List Char) :
    decide (text.take word.length = word) = word.isPrefixOf text := by
  rw [Bool.eq_iff_iff, decide_eq_true_eq, List.isPrefixOf_iff_prefix, List.prefix_iff_eq_take,
    eq_comm]

theorem countP_range_of_tail {p : ℕ → Bool} {m n : ℕ} (hmn : m ≤ n)
    (htail : ∀ i, m ≤ i → i < n → p i = false) :
    (List.range n).countP p = (List.range m).countP p := by
  obtain ⟨k, rfl⟩ := Nat.exists_eq_add_of_le hmn
  rw [List.range_add, List.countP_append]
  have hzero : ((List.range k).map (m + ·)).countP p = 0 := by
    rw [List.countP_eq_zero]
    intro i hi
    obtain ⟨j, hj, rfl⟩ := List.mem_map.mp hi
    have hlt := List.mem_range.mp hj
    simp [htail (m + j) (Nat.le_add_right _ _) (Nat.add_lt_add_left hlt _)]
  rw [hzero, Nat.add_zero]

theorem countOverlappingKeyword_eq {word : List Char} (hw : word ≠ []) (text : List Char) :
    countOverlappingKeyword text word = occurrences word text := by
  have hshort : ∀ i, text.length + 1 - word.length ≤ i → i < text.length + 1 →
      word.isPrefixOf (text.drop i) = false := by
    intro i hlo hhi
    rw [Bool.eq_false_iff]
    intro hp
    have hlen := (List.isPrefixOf_iff_prefix.mp hp).length_le
    rw [List.length_drop] at hlen
    have hpos := List.length_pos_of_ne_nil hw
    omega
  simp only [countOverlappingKeyword, occurrences, if_neg hw, prefix_test]
  rw [countP_range_of_tail (Nat.sub_le _ _) hshort]
  by_cases hlt : text.length < word.length
  · have hz : text.length + 1 - word.length = 0 := by omega
    rw [if_pos hlt, hz]
    rfl
  · rw [if_neg hlt]

example : countOverlappingKeyword ['a', 'a', 'a'] ['a', 'a'] = 2 := by decide

end SysProg.HW4

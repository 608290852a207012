import SysProg.Lib.CText

/-!
# Text and number helpers of the server

Bytes are characters and C strings are lists of them. `strtol`, `strtok_r`,
`snprintf` and the character classes follow the C locale.
-/

namespace SysProg.HW6
open SysProg.Lib

def maxLine : ℕ := 512

/-- `strtol` stops at the first character that is no digit, and the caller wants
it to stop at the end. A value out of range is also out of the range of `int`. -/
def parsePositiveInt (text : List Char) : Option ℤ :=
  let (sign, digits) := readSign (text.dropWhile isSpace)
  if digits = [] ∨ digits.all Char.isDigit = false then none
  else
    let v := sign * digitsValue digits
    if v ≤ 0 ∨ intMax < v then none else some v

def validUsername (s : List Char) : Bool :=
  s.length != 0 && decide (s.length < 32) && s.all (fun c => c.isAlphanum || c == '_')

def validIngredientName (s : List Char) : Bool :=
  s.length != 0 && decide (s.length ≤ 16) &&
    s.all (fun c => c.isUpper || c.isDigit || c == '_')

def isDelimiter (c : Char) : Bool := c == ' ' || c == '\t' || c == '\r' || c == '\n'

/-- The tokens of the `strtok_r` loop: at most eight, from the part of the line
before an embedded zero byte. -/
def tokenize (line : List Char) : List (List Char) :=
  (((line.takeWhile (· != '\x00')).splitOnP isDelimiter).filter (· != [])).take 8

/-- The loop that lists items separated by commas. An item that does not fit is
cut, and the loop ends. -/
def appendCsv (size : ℕ) : List (List Char) → List Char → Bool → List Char
  | [], out, _ => out
  | item :: rest, out, first =>
    let piece := if first then item else ',' :: item
    if size - out.length ≤ piece.length then out ++ snprintf (size - out.length) piece
    else appendCsv size rest (out ++ piece) false

theorem parsePositiveInt_bounds {text : List Char} {q : ℤ} (h : parsePositiveInt text = some q) :
    0 < q ∧ q ≤ intMax := by
  simp only [parsePositiveInt] at h
  split_ifs at h with hdigits hrange
  obtain rfl := Option.some.inj h
  omega

theorem validUsername_length {s : List Char} (h : validUsername s = true) :
    0 < s.length ∧ s.length < 32 := by
  simp only [validUsername, Bool.and_eq_true, bne_iff_ne, decide_eq_true_eq] at h
  omega

example : parsePositiveInt "+0012".toList = some 12 := by decide

end SysProg.HW6

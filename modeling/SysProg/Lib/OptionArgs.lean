import Mathlib.Data.List.Basic

/-!
# Options on a command line

A program that takes its options from `getopt` in one loop ends up with the value
of the last argument of each option, or with the default where there is none.
-/

namespace SysProg.Lib
variable {κ α β : Type*} [DecidableEq κ]

/-- What the last argument of an option gives. -/
def lastGiven (letter : κ) (read : α → β) : β → List (κ × α) → β
  | value, [] => value
  | value, arg :: rest => lastGiven letter read (if arg.1 = letter then read arg.2 else value) rest

theorem lastGiven_induction {P : β → Prop} {letter : κ} {read : α → β}
    (hread : ∀ text, P (read text))
    {value : β} (hvalue : P value) (args : List (κ × α)) :
    P (lastGiven letter read value args) := by
  induction args generalizing value with
  | nil => exact hvalue
  | cons arg rest ih =>
    apply ih
    split_ifs
    · exact hread arg.2
    · exact hvalue

end SysProg.Lib

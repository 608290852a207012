import Mathlib.Data.List.Basic

/-!
# File name patterns

`c+` in a pattern stands for one or more `c`; letters match in either case. A name
matches as a whole, by its stem, or by a run of letters and digits of the stem.
-/

namespace SysProg.HW2

/-- Length of the run of `c` that `s` starts with. -/
def repeatLength (c : Char) (s : List Char) : ℕ :=
  (s.takeWhile fun x => x.toLower = c.toLower).length

def matchRec : List Char → List Char → Bool
  | [], [] => true
  | [], _ :: _ => false
  | c :: '+' :: pattern, s =>
    -- from the longest run down to one character
    (List.range (repeatLength c s)).reverse.any fun k => matchRec pattern (s.drop (k + 1))
  | _ :: _, [] => false
  | c :: pattern, x :: s => c.toLower = x.toLower && matchRec pattern s

theorem segment_shorter {stem rest : List Char} {c : Char}
    (h : stem.dropWhile (fun c => !c.isAlphanum) = c :: rest) :
    ((c :: rest).dropWhile Char.isAlphanum).length < stem.length := by
  have hc : c.isAlphanum = true := by
    have hhead := List.head_dropWhile_not (fun c : Char => !c.isAlphanum) (l := stem) (by simp [h])
    simpa [h] using hhead
  have hstem := (List.dropWhile_suffix (fun c : Char => !c.isAlphanum) (l := stem)).length_le
  rw [h, List.length_cons] at hstem
  have hrest := (List.dropWhile_suffix Char.isAlphanum (l := rest)).length_le
  rw [List.dropWhile_cons_of_pos hc]
  omega

def matchSegments (pattern stem : List Char) : Bool :=
  match h : stem.dropWhile fun c => !c.isAlphanum with
  | [] => false
  | c :: rest =>
    have := segment_shorter h
    matchRec pattern (((c :: rest).takeWhile Char.isAlphanum).take 255) ||
      matchSegments pattern ((c :: rest).dropWhile Char.isAlphanum)
termination_by stem.length

def matchPattern (pattern filename : List Char) : Bool :=
  let stem := (filename.takeWhile (· ≠ '.')).take 255
  matchRec pattern filename || matchRec pattern stem || matchSegments pattern stem

end SysProg.HW2

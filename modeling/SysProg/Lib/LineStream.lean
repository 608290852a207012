import Mathlib.Algebra.Ring.Nat
import Mathlib.Data.List.Basic

/-!
# Streams of lines and the readers that consume them

A reader takes one symbol at a time and may stop. It receives a stream in
chunks, and the way the stream is cut into chunks does not matter. A stream is
also cut into lines at a terminator, with a tail behind the last one; a reader
that turns every complete line into one transition is a machine on lines.
-/

namespace SysProg.Lib

section Feed
variable {σ α : Type*}

def andThen (r : σ × Bool) (next : σ → σ × Bool) : σ × Bool := if r.2 then r else next r.1

@[simp] theorem andThen_go (s : σ) (next : σ → σ × Bool) : andThen (s, false) next = next s := rfl

theorem andThen_of_stop {r : σ × Bool} (h : r.2 = true) (next : σ → σ × Bool) :
    andThen r next = r := if_pos h

theorem andThen_of_go {r : σ × Bool} (h : r.2 = false) (next : σ → σ × Bool) :
    andThen r next = next r.1 := if_neg (by simp [h])

theorem andThen_stay (r : σ × Bool) : andThen r (fun s => (s, false)) = r := by
  cases hr : r.2 with
  | true => exact andThen_of_stop hr _
  | false => exact (andThen_of_go hr _).trans (Prod.ext rfl hr.symm)

theorem andThen_assoc (r : σ × Bool) (f g : σ → σ × Bool) :
    andThen (andThen r f) g = andThen r (fun s => andThen (f s) g) := by
  cases hr : r.2 with
  | true => rw [andThen_of_stop hr, andThen_of_stop hr, andThen_of_stop hr]
  | false => rw [andThen_of_go hr, andThen_of_go hr]

/-- Symbols are fed until the reader stops. A step may depend on the position
of its symbol in the stream. -/
def feedUntil (step : ℕ → σ → α → σ × Bool) : ℕ → σ → List α → σ × Bool
  | _, s, [] => (s, false)
  | n, s, a :: rest => andThen (step n s a) (fun t => feedUntil step (n + 1) t rest)

def feedChunksUntil (step : ℕ → σ → α → σ × Bool) : ℕ → σ → List (List α) → σ × Bool
  | _, s, [] => (s, false)
  | n, s, chunk :: rest =>
    andThen (feedUntil step n s chunk) (fun t => feedChunksUntil step (n + chunk.length) t rest)

variable (step : ℕ → σ → α → σ × Bool)

theorem feedUntil_singleton (n : ℕ) (s : σ) (a : α) : feedUntil step n s [a] = step n s a :=
  andThen_stay _

theorem feedUntil_append (n : ℕ) (s : σ) (xs ys : List α) :
    feedUntil step n s (xs ++ ys) =
      andThen (feedUntil step n s xs) (fun t => feedUntil step (n + xs.length) t ys) := by
  induction xs generalizing n s with
  | nil => rfl
  | cons a xs ih =>
    simp only [List.cons_append, feedUntil, ih, andThen_assoc, List.length_cons]
    simp only [Nat.add_assoc, Nat.add_comm 1]

theorem feedUntil_shift (k n : ℕ) (s : σ) (xs : List α) :
    feedUntil (fun m => step (k + m)) n s xs = feedUntil step (k + n) s xs := by
  induction xs generalizing n s with
  | nil => rfl
  | cons a xs ih => simp only [feedUntil, ih, Nat.add_assoc]

/-- The result does not depend on the chunks. -/
theorem feedChunksUntil_eq (n : ℕ) (s : σ) (chunks : List (List α)) :
    feedChunksUntil step n s chunks = feedUntil step n s chunks.flatten := by
  induction chunks generalizing n s with
  | nil => rfl
  | cons chunk rest ih => simp only [feedChunksUntil, List.flatten_cons, feedUntil_append, ih]

end Feed

section Lines
variable {α : Type*}

def joinLines (sep : α) (lines : List (List α)) (tail : List α) : List α :=
  lines.flatMap (· ++ [sep]) ++ tail

theorem joinLines_cons (sep : α) (line : List α) (lines : List (List α)) (tail : List α) :
    joinLines sep (line :: lines) tail = (line ++ [sep]) ++ joinLines sep lines tail := by
  simp [joinLines]

variable [DecidableEq α]

def cutLines (sep : α) : List α → List (List α) × List α
  | [] => ([], [])
  | a :: rest =>
    let cut := cutLines sep rest
    if a = sep then ([] :: cut.1, cut.2)
    else
      match cut.1 with
      | [] => ([], a :: cut.2)
      | line :: more => ((a :: line) :: more, cut.2)

theorem joinLines_cutLines (sep : α) (xs : List α) :
    joinLines sep (cutLines sep xs).1 (cutLines sep xs).2 = xs := by
  induction xs with
  | nil => rfl
  | cons a xs ih =>
    simp only [cutLines]
    split_ifs with ha
    · rw [joinLines_cons, ih, ha]
      rfl
    · cases hcut : (cutLines sep xs).1 with
      | nil =>
        rw [hcut] at ih
        simpa [joinLines] using ih
      | cons line more =>
        rw [hcut, joinLines_cons] at ih
        simpa [joinLines_cons] using ih

theorem sep_notMem_cutLines (sep : α) (xs : List α) :
    (∀ line ∈ (cutLines sep xs).1, sep ∉ line) ∧ sep ∉ (cutLines sep xs).2 := by
  induction xs with
  | nil => simp [cutLines]
  | cons a xs ih =>
    obtain ⟨hlines, htail⟩ := ih
    simp only [cutLines]
    split_ifs with ha
    · simp only [List.mem_cons, forall_eq_or_imp, List.not_mem_nil, not_false_eq_true, true_and]
      exact ⟨hlines, htail⟩
    · cases hcut : (cutLines sep xs).1 with
      | nil => simpa using ⟨Ne.symm ha, htail⟩
      | cons line more =>
        rw [hcut] at hlines
        simp only [List.mem_cons, forall_eq_or_imp] at hlines ⊢
        exact ⟨⟨fun hmem => hmem.elim (Ne.symm ha) hlines.1, hlines.2⟩, htail⟩

theorem cutLines_of_notMem {sep : α} {tail : List α} (h : sep ∉ tail) :
    cutLines sep tail = ([], tail) := by
  induction tail with
  | nil => rfl
  | cons a tail ih =>
    simp only [List.mem_cons, not_or] at h
    simp [cutLines, ih h.2, Ne.symm h.1]

theorem cutLines_line {sep : α} {line : List α} (h : sep ∉ line) (rest : List α) :
    cutLines sep (line ++ [sep] ++ rest) =
      (line :: (cutLines sep rest).1, (cutLines sep rest).2) := by
  induction line with
  | nil => simp [cutLines]
  | cons a line ih =>
    simp only [List.mem_cons, not_or] at h
    simp only [List.cons_append, cutLines, ih h.2, if_neg (Ne.symm h.1)]

theorem cutLines_joinLines {sep : α} {lines : List (List α)} {tail : List α}
    (hlines : ∀ line ∈ lines, sep ∉ line) (htail : sep ∉ tail) :
    cutLines sep (joinLines sep lines tail) = (lines, tail) := by
  induction lines with
  | nil => exact cutLines_of_notMem htail
  | cons line lines ih =>
    rw [joinLines_cons, cutLines_line (hlines line List.mem_cons_self),
      ih (fun l hl => hlines l (List.mem_cons_of_mem _ hl))]

theorem length_cutLines (sep : α) (xs : List α) : (cutLines sep xs).1.length = xs.count sep := by
  induction xs with
  | nil => rfl
  | cons a xs ih =>
    simp only [cutLines, List.count_cons, beq_iff_eq]
    split_ifs with ha
    · simp [ih]
    · cases hcut : (cutLines sep xs).1 with
      | nil => simpa [hcut] using ih
      | cons line more => simpa [hcut] using ih

theorem cutLines_append (sep : α) (xs ys : List α) :
    (cutLines sep xs).1 <+: (cutLines sep (xs ++ ys)).1 := by
  induction xs with
  | nil => exact List.nil_prefix
  | cons a xs ih =>
    simp only [List.cons_append, cutLines]
    split_ifs with ha
    · exact List.cons_prefix_cons.mpr ⟨rfl, ih⟩
    · cases hcut : (cutLines sep xs).1 with
      | nil => exact List.nil_prefix
      | cons line more =>
        rw [hcut] at ih
        obtain ⟨rest, hrest⟩ := ih
        rw [← hrest]
        exact ⟨rest, rfl⟩

theorem cutLines_of_prefix {sep : α} {lines : List (List α)} (hlines : ∀ line ∈ lines, sep ∉ line)
    {xs : List α} (h : xs <+: joinLines sep lines []) :
    (cutLines sep xs).1 = lines.take (xs.count sep) := by
  obtain ⟨ys, hys⟩ := h
  have hprefix := cutLines_append sep xs ys
  rw [hys, cutLines_joinLines hlines List.not_mem_nil, List.prefix_iff_eq_take,
    length_cutLines] at hprefix
  exact hprefix

end Lines

section ThroughFirst
variable {α : Type*}

def throughFirst (p : α → Bool) : List α → List α
  | [] => []
  | a :: rest => if p a then [a] else a :: throughFirst p rest

theorem head_mem_throughFirst (p : α → Bool) (a : α) (rest : List α) :
    a ∈ throughFirst p (a :: rest) := by
  rw [throughFirst]
  split_ifs <;> simp

theorem throughFirst_isPrefix (p : α → Bool) (xs : List α) : throughFirst p xs <+: xs := by
  induction xs with
  | nil => exact List.nil_prefix
  | cons a xs ih =>
    simp only [throughFirst]
    split_ifs
    · exact ⟨xs, rfl⟩
    · exact List.cons_prefix_cons.mpr ⟨rfl, ih⟩

theorem throughFirst_map {β : Type*} {p : β → Bool} {q : α → Bool} (f : α → β) {xs : List α}
    (h : ∀ a ∈ xs, p (f a) = q a) : throughFirst p (xs.map f) = (throughFirst q xs).map f := by
  induction xs with
  | nil => rfl
  | cons a xs ih =>
    simp only [List.map_cons, throughFirst, h a List.mem_cons_self,
      ih (fun b hb => h b (List.mem_cons_of_mem _ hb))]
    split_ifs <;> rfl

theorem throughFirst_eq_self {p : α → Bool} {xs : List α}
    (h : ∀ a ∈ throughFirst p xs, p a = false) : throughFirst p xs = xs := by
  induction xs with
  | nil => rfl
  | cons a xs ih =>
    simp only [throughFirst] at h ⊢
    split_ifs at h ⊢ with ha
    · exact absurd (h a List.mem_cons_self) (by simp [ha])
    · rw [ih (fun b hb => h b (List.mem_cons_of_mem _ hb))]

theorem throughFirst_dropLast (p : α → Bool) (xs : List α) :
    ∀ a ∈ (throughFirst p xs).dropLast, p a = false := by
  induction xs with
  | nil => simp [throughFirst]
  | cons a xs ih =>
    simp only [throughFirst]
    split_ifs with ha
    · simp
    · intro b hb
      cases hrest : throughFirst p xs with
      | nil => simp [hrest] at hb
      | cons c more =>
        rw [hrest, List.dropLast_cons_cons, List.mem_cons] at hb
        rcases hb with rfl | hb
        · simpa using ha
        · exact ih b (hrest ▸ hb)

end ThroughFirst

section Machine
variable {σ α : Type*}

/-- Lines are executed until one stops. The position of a line is that of its
first symbol. -/
def runLines (exec : ℕ → σ → List α → σ × Bool) : ℕ → σ → List (List α) → σ × Bool
  | _, s, [] => (s, false)
  | n, s, line :: rest => andThen (exec n s line)
      (fun t => runLines exec (n + line.length + 1) t rest)

variable {exec : ℕ → σ → List α → σ × Bool} (ready : σ → Prop)
  (hready : ∀ n s line, ready s → (exec n s line).2 = false → ready (exec n s line).1)

include hready in
/-- A reader that turns each complete line into one transition, and is ready
for the next line behind it, runs the lines one by one and then reads the tail. -/
theorem feedUntil_joinLines {step : ℕ → σ → α → σ × Bool} {sep : α} {lines : List (List α)}
    (hline : ∀ n s line, line ∈ lines → ready s →
      feedUntil step n s (line ++ [sep]) = exec n s line)
    (tail : List α) (n : ℕ) {s : σ} (hs : ready s) :
    feedUntil step n s (joinLines sep lines tail) = andThen (runLines exec n s lines)
      (fun t => feedUntil step (n + (lines.map (·.length + 1)).sum) t tail) := by
  induction lines generalizing n s with
  | nil => rfl
  | cons line lines ih =>
    rw [joinLines_cons, feedUntil_append, hline n s line List.mem_cons_self hs, runLines,
      andThen_assoc]
    cases hr : (exec n s line).2 with
    | true => rw [andThen_of_stop hr, andThen_of_stop hr]
    | false =>
      rw [andThen_of_go hr, andThen_of_go hr,
          ih (fun n s l hl => hline n s l (List.mem_cons_of_mem _ hl))
        _ (hready n s line hs hr)]
      simp [Nat.add_assoc]

include hready in
theorem ready_runLines (lines : List (List α)) (n : ℕ) {s : σ} (hs : ready s)
    (hgo : (runLines exec n s lines).2 = false) : ready (runLines exec n s lines).1 := by
  induction lines generalizing n s with
  | nil => exact hs
  | cons line lines ih =>
    rw [runLines] at hgo ⊢
    cases hr : (exec n s line).2 with
    | true =>
      rw [andThen_of_stop hr, hr] at hgo
      cases hgo
    | false =>
      rw [andThen_of_go hr] at hgo ⊢
      exact ih _ (hready n s line hs hr) hgo

end Machine

end SysProg.Lib

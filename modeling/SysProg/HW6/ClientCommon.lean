import SysProg.HW6.MagicCommon
import SysProg.Lib.FileReads

/-!
# Lines on the wire and the client

`send_line` writes a line through as many calls of `send` as it takes;
`consume_socket_lines` puts lines together again from what `recv` returns. The
client also turns its standard input into lines with `fgets`. What one call of
`send` does is an outcome of a script.
-/

namespace SysProg.HW6
open SysProg.Lib

/-! ### Sending -/

inductive SendResult where
  | accepted (n : ℕ)
  | interrupted
  | failed

/-- What a call wrote, the value it returned if it has returned, and the
outcomes that are left for later calls. -/
structure SendOutcome where
  written : List Char
  success : Option Bool
  script : List SendResult

/-- A call whose script runs out is still waiting in `send`. -/
def sendAll : List SendResult → List Char → SendOutcome
  | script, [] => ⟨[], some true, script⟩
  | [], _ :: _ => ⟨[], none, []⟩
  | .interrupted :: script, c :: buf => sendAll script (c :: buf)
  | .failed :: script, _ :: _ => ⟨[], some false, script⟩
  | .accepted 0 :: script, _ :: _ => ⟨[], some false, script⟩
  | .accepted (n + 1) :: script, c :: buf =>
    let r := sendAll script (buf.drop n)
    { r with written := c :: buf.take n ++ r.written }

def lineBytes (line : List Char) : List Char := (cString line).take maxLine ++ ['\n']

/-- Calls of `send_line` one after another, their results ignored: what has been
written, and whether the last call has returned. -/
def sendLines : List SendResult → List (List Char) → List Char × Bool
  | _, [] => ([], true)
  | script, line :: rest =>
    let r := sendAll script (lineBytes line)
    match r.success with
    | none => (r.written, false)
    | some _ =>
      let later := sendLines r.script rest
      (r.written ++ later.1, later.2)

def Progressing (script : List SendResult) : Prop :=
  ∀ x ∈ script, x = .interrupted ∨ ∃ n, x = .accepted (n + 1)

def acceptCount (script : List SendResult) : ℕ :=
  script.countP (fun x => match x with | .accepted _ => true | _ => false)

theorem sendAll_progress {script : List SendResult} (h : Progressing script) (buf : List Char) :
    let r := sendAll script buf
    (r.success = some true ∧ r.written = buf ∧ Progressing r.script ∧
      acceptCount script ≤ acceptCount r.script + buf.length) ∨
    (r.success = none ∧ r.written <+: buf ∧ acceptCount script < buf.length) := by
  induction script generalizing buf with
  | nil =>
    cases buf with
    | nil => exact .inl ⟨rfl, rfl, h, Nat.le_refl _⟩
    | cons c buf => exact .inr ⟨rfl, List.nil_prefix, Nat.succ_pos _⟩
  | cons x script ih =>
    have hrest : Progressing script := fun y hy => h y (List.mem_cons_of_mem _ hy)
    cases buf with
    | nil =>
        exact .inl ⟨by simp [sendAll], by simp [sendAll], by simpa [sendAll] using h, by simp [sendAll]⟩
    | cons c buf =>
      rcases h x List.mem_cons_self with rfl | ⟨n, rfl⟩
      · simpa [sendAll, acceptCount] using ih hrest (c :: buf)
      · have hcount : acceptCount (.accepted (n + 1) :: script) = acceptCount script + 1 := by
          simp [acceptCount]
        rcases ih hrest (buf.drop n) with ⟨hok, hall, hscript, hacc⟩ | ⟨hnone, hpre, hacc⟩
        · refine .inl ⟨hok, ?_, hscript, ?_⟩
          · simp [sendAll, hall]
          · rw [List.length_drop] at hacc
            simp only [sendAll, hcount, List.length_cons]
            omega
        · refine .inr ⟨hnone, ?_, ?_⟩
          · simp only [sendAll, List.cons_append]
            refine List.cons_prefix_cons.mpr ⟨rfl, ?_⟩
            have hboth := (List.prefix_append_right_inj (buf.take n)).mpr hpre
            rwa [List.take_append_drop] at hboth
          · rw [List.length_drop] at hacc
            rw [hcount, List.length_cons]
            omega

/-- What is on the wire is a first part of the lines, all of it once there were
enough successful calls. -/
theorem sendLines_progress {script : List SendResult} (h : Progressing script)
    (lines : List (List Char)) :
    (sendLines script lines).1 <+: lines.flatMap lineBytes ∧
      ((lines.flatMap lineBytes).length ≤ acceptCount script →
        (sendLines script lines).1 = lines.flatMap lineBytes) := by
  induction lines generalizing script with
  | nil => exact ⟨List.nil_prefix, fun _ => rfl⟩
  | cons line rest ih =>
    simp only [sendLines, List.flatMap_cons, List.length_append]
    rcases sendAll_progress h (lineBytes line) with ⟨hok, hall, hscript, hacc⟩ | ⟨hnone, hpre, hacc⟩
    · obtain ⟨hpre, henough⟩ := ih hscript
      simp only [hok, hall]
      refine ⟨(List.prefix_append_right_inj _).mpr hpre, fun hlen => ?_⟩
      rw [henough (by omega)]
    · simp only [hnone]
      exact ⟨hpre.trans (List.prefix_append _ _), fun hlen => by omega⟩

theorem flatMap_lineBytes (lines : List (List Char)) : lines.flatMap lineBytes =
    joinLines '\n' (lines.map (fun l => (cString l).take maxLine)) [] := by
  simp only [joinLines, List.flatMap_map, List.append_nil]
  rfl

/-! ### Receiving -/

/-- `line_buf` up to `line_len`, and the lines printed as received. -/
structure Receiver where
  buf : List Char
  printed : List (List Char)

def dropCr (line : List Char) : List Char :=
  if line.getLast? = some '\r' then line.dropLast else line

def farewells : List (List Char) :=
  ["TIMEOUT DISCONNECT".toList, "SERVER SHUTDOWN".toList, "OK APPARATE".toList]

/-- The body of the loop in `consume_socket_lines`. -/
def consumeByte (r : Receiver) (ch : Char) : Receiver × Bool :=
  if ch = '\n' then
    let line := cString (dropCr r.buf)
    let printed := r.printed ++ [line]
    if line ∈ farewells then (⟨r.buf, printed⟩, true) else (⟨[], printed⟩, false)
  else if r.buf.length < maxLine then (⟨r.buf ++ [ch], r.printed⟩, false)
  else (⟨[], r.printed⟩, false)

def consumeSocketLines (r : Receiver) : List Char → Receiver × Bool
  | [] => (r, false)
  | ch :: rest =>
    let next := consumeByte r ch
    if next.2 then next else consumeSocketLines next.1 rest

/-- The chunks that `recv` returns to the client, up to its exit. -/
def receiveChunks (r : Receiver) : List (List Char) → Receiver × Bool
  | [] => (r, false)
  | chunk :: rest =>
    let next := consumeSocketLines r chunk
    if next.2 then next else receiveChunks next.1 rest

theorem consumeSocketLines_eq (r : Receiver) (data : List Char) (n : ℕ) :
    consumeSocketLines r data = feedUntil (fun _ => consumeByte) n r data := by
  induction data generalizing r n with
  | nil => rfl
  | cons ch rest ih =>
    simp only [consumeSocketLines, feedUntil, andThen]
    rw [← ih]

theorem receiveChunks_eq (r : Receiver) (chunks : List (List Char)) (n : ℕ) :
    receiveChunks r chunks = feedChunksUntil (fun _ => consumeByte) n r chunks := by
  induction chunks generalizing r n with
  | nil => rfl
  | cons chunk rest ih =>
    simp only [receiveChunks, feedChunksUntil, andThen]
    rw [← ih, ← consumeSocketLines_eq]

def printLine (r : Receiver) (line : List Char) : Receiver × Bool :=
  consumeByte ⟨line, r.printed⟩ '\n'

theorem feedUntil_buffered {r : Receiver} {text : List Char} (htext : '\n' ∉ text)
    (hlen : r.buf.length + text.length ≤ maxLine) (n : ℕ) :
    feedUntil (fun _ => consumeByte) n r text = (⟨r.buf ++ text, r.printed⟩, false) := by
  induction text generalizing r n with
  | nil => simp [feedUntil]
  | cons ch text ih =>
    simp only [List.mem_cons, not_or] at htext
    rw [List.length_cons] at hlen
    have hstep : consumeByte r ch = (⟨r.buf ++ [ch], r.printed⟩, false) := by
      rw [consumeByte, if_neg (Ne.symm htext.1), if_pos (by omega)]
    have hroom : (r.buf ++ [ch]).length + text.length ≤ maxLine := by
      rw [List.length_append, List.length_singleton]
      omega
    rw [feedUntil, hstep, andThen_go, ih htext.2 hroom]
    simp

theorem feedUntil_printLine {r : Receiver} (hr : r.buf = []) {line : List Char}
    (hline : '\n' ∉ line)
    (hlen : line.length ≤ maxLine) (n : ℕ) :
    feedUntil (fun _ => consumeByte) n r (line ++ ['\n']) = printLine r line := by
  have hroom : r.buf.length + line.length ≤ maxLine := by
    rw [hr, List.length_nil]
    omega
  rw [feedUntil_append, feedUntil_buffered hline hroom, andThen_go, feedUntil_singleton, hr]
  rfl

theorem feedUntil_unfinished (r : Receiver) {text : List Char} (htext : '\n' ∉ text) (n : ℕ) :
    (feedUntil (fun _ => consumeByte) n r text).1.printed = r.printed ∧
      (feedUntil (fun _ => consumeByte) n r text).2 = false := by
  induction text generalizing r n with
  | nil => exact ⟨rfl, rfl⟩
  | cons ch text ih =>
    simp only [List.mem_cons, not_or] at htext
    have hch : ¬ ch = '\n' := Ne.symm htext.1
    have hstep : (consumeByte r ch).2 = false ∧ (consumeByte r ch).1.printed = r.printed := by
      rw [consumeByte, if_neg hch]
      split_ifs <;> exact ⟨rfl, rfl⟩
    obtain ⟨hprinted, hgo⟩ := ih (consumeByte r ch).1 htext.2 (n + 1)
    rw [feedUntil, andThen_of_go hstep.1]
    exact ⟨hprinted.trans hstep.2, hgo⟩

def shown (line : List Char) : List Char := cString (dropCr line)

def isFarewell (line : List Char) : Bool := decide (line ∈ farewells)

theorem printLine_eq (r : Receiver) (line : List Char) :
    (printLine r line).2 = isFarewell (shown line) ∧
    (printLine r line).1.printed = r.printed ++ [shown line] ∧
    ((printLine r line).2 = false → (printLine r line).1.buf = []) := by
  simp only [printLine, consumeByte, ↓reduceIte, isFarewell, shown]
  split_ifs with hmem
  · exact ⟨by simp [hmem], rfl, fun h => by cases h⟩
  · exact ⟨by simp [hmem], rfl, fun _ => rfl⟩

theorem runLines_printLine (lines : List (List Char)) (n : ℕ) (r : Receiver) :
    (runLines (fun _ => printLine) n r lines).1.printed =
        r.printed ++ throughFirst isFarewell (lines.map shown) ∧
      (runLines (fun _ => printLine) n r lines).2 = (lines.map shown).any isFarewell := by
  induction lines generalizing n r with
  | nil => simp [runLines, throughFirst]
  | cons line lines ih =>
    obtain ⟨hflag, hprinted, -⟩ := printLine_eq r line
    simp only [runLines, List.map_cons, throughFirst, List.any_cons]
    cases hr : isFarewell (shown line) with
    | true =>
      rw [hr] at hflag
      rw [andThen_of_stop hflag]
      simp [hprinted, hflag]
    | false =>
      rw [hr] at hflag
      rw [andThen_of_go hflag, (ih _ _).1, (ih _ _).2]
      simp [hprinted]

/-- The lines that have arrived completely are printed, up to the first farewell. -/
theorem receiveChunks_lines {chunks : List (List Char)}
    (hlen : ∀ line ∈ (cutLines '\n' chunks.flatten).1, line.length ≤ maxLine) :
    let arrived := (cutLines '\n' chunks.flatten).1.map shown
    (receiveChunks ⟨[], []⟩ chunks).1.printed = throughFirst isFarewell arrived ∧
      (receiveChunks ⟨[], []⟩ chunks).2 = arrived.any isFarewell := by
  set stream := chunks.flatten with hstream
  have hcut := sep_notMem_cutLines '\n' stream
  have hready : ∀ (_ : ℕ) (r : Receiver) (line : List Char), r.buf = [] →
      (printLine r line).2 = false → (printLine r line).1.buf = [] :=
    fun _ r line _ hgo => (printLine_eq r line).2.2 hgo
  have hlines := feedUntil_joinLines (fun r : Receiver => r.buf = []) hready
    (fun n r line hmem hr => feedUntil_printLine hr (hcut.1 line hmem) (hlen line hmem) n)
    (cutLines '\n' stream).2 0 (s := ⟨[], []⟩) rfl
  obtain ⟨hprinted, hflag⟩ := runLines_printLine (cutLines '\n' stream).1 0 ⟨[], []⟩
  rw [joinLines_cutLines] at hlines
  rw [receiveChunks_eq _ _ 0, feedChunksUntil_eq, ← hstream, hlines]
  cases hgo : (runLines (fun _ => printLine) 0 ⟨[], []⟩ (cutLines '\n' stream).1).2 with
  | true =>
    rw [andThen_of_stop hgo]
    exact ⟨hprinted, hflag⟩
  | false =>
    rw [andThen_of_go hgo]
    obtain ⟨hsame, hstay⟩ := feedUntil_unfinished
      (runLines (fun _ => printLine) 0 ⟨[], []⟩ (cutLines '\n' stream).1).1 hcut.2
      (0 + ((cutLines '\n' stream).1.map (·.length + 1)).sum)
    exact ⟨hsame.trans hprinted, hstay.trans (hgo.symm.trans hflag)⟩

/-! ### Standard input -/

def inputRoom : ℕ := maxLine + 3

/-- The lines that the loop of `run_magic_client` hands to `send_line`. -/
def stdinLoop (stdin : List Char) : List (List Char) :=
  if h : stdin = [] then ["APPARATE".toList]
  else
    let r := fgets inputRoom stdin
    let line := chomp r.1
    have : r.2.length < stdin.length := fgets_shorter h
    if line = [] then stdinLoop r.2
    else if line = "APPARATE".toList then [line]
    else line :: stdinLoop r.2
termination_by stdin.length

def enrollLine (role username : List Char) : List Char :=
  snprintf (maxLine + 1) ("ENROLL ".toList ++ role ++ ' ' :: username)

/-- All lines that the client hands to `send_line`. -/
def runMagicClient (role username stdin : List Char) : List (List Char) :=
  enrollLine role username :: stdinLoop stdin

theorem stdinLoop_nil : stdinLoop [] = ["APPARATE".toList] := by
  rw [stdinLoop]
  rfl

theorem stdinLoop_read {stdin : List Char} (h : stdin ≠ []) : stdinLoop stdin =
    if chomp (fgets inputRoom stdin).1 = [] then stdinLoop (fgets inputRoom stdin).2
    else if chomp (fgets inputRoom stdin).1 = "APPARATE".toList then
      [chomp (fgets inputRoom stdin).1]
    else chomp (fgets inputRoom stdin).1 :: stdinLoop (fgets inputRoom stdin).2 := by
  rw [stdinLoop, dif_neg h]

theorem newline_notMem_stdinLoop (stdin : List Char) (hnul : '\x00' ∉ stdin) :
    ∀ line ∈ stdinLoop stdin, '\n' ∉ line := by
  by_cases h : stdin = []
  · subst h
    rw [stdinLoop_nil]
    decide
  · have hnulRest : '\x00' ∉ (fgets inputRoom stdin).2 := by
      intro hmem
      rw [← fgets_append inputRoom stdin] at hnul
      exact hnul (List.mem_append_right _ hmem)
    have hrest := newline_notMem_stdinLoop (fgets inputRoom stdin).2 hnulRest
    have hhead : '\n' ∉ chomp (fgets inputRoom stdin).1 := newline_notMem_chomp hnul
    rw [stdinLoop_read h]
    split_ifs
    · exact hrest
    · simpa using hhead
    · simpa using ⟨hhead, hrest⟩
termination_by stdin.length
decreasing_by exact fgets_shorter h

end SysProg.HW6

import Mathlib.Data.List.DropRight
import SysProg.HW4.LogEntry

/-!
# The grammar of a log line

`parse_log_line` skips blanks and cuts out three fields in brackets, each of
which ends at the first closing bracket behind its opening one. What follows
the last field is the message, cut to its buffer and freed of line ends. The
parser accepts a line exactly when it has that form, and reads back every entry
that has been formatted.
-/

namespace SysProg.HW4

def isBlank (c : Char) : Bool := c == ' ' || c == '\t'

/-- `while (*p == ' ' || *p == '\t') p++` -/
def skipBlanks (p : List Char) : List Char := p.dropWhile isBlank

/-- The field behind an opening bracket, up to where `strchr` finds the closing
one, and what follows. -/
def bracketField : List Char → Option (List Char × List Char)
  | '[' :: p =>
    if p.contains ']' then some (p.takeWhile (· != ']'), (p.dropWhile (· != ']')).tail) else none
  | _ => none

def parseLevel (levelStr : List Char) : Option Level :=
  if levelStr = levelName .error then some .error
  else if levelStr = levelName .warn then some .warn
  else if levelStr = levelName .info then some .info
  else if levelStr = levelName .debug then some .debug
  else none

def isLineEnd (c : Char) : Bool := c == '\n' || c == '\r'

def trimNewline (s : List Char) : List Char := s.rdropWhile isLineEnd

/-- `parse_log_line` fills an entry but for the reader; `none` is its result 0. -/
def parseLogLine (line : List Char) (entry : LogEntry) : Option LogEntry :=
  (bracketField (skipBlanks line)).bind fun (timestamp, p) =>
    if timestamp.length ≠ 19 then none
    else (bracketField (skipBlanks p)).bind fun (level, p) =>
      if level.length = 0 ∨ 8 ≤ level.length then none
      else (parseLevel level).bind fun levelIndex =>
        (bracketField (skipBlanks p)).bind fun (source, p) =>
          if source.length = 0 ∨ 64 ≤ source.length then none
          else if source.all Char.isAlphanum = false then none
          else some { entry with
            timestamp := timestamp
            level := level
            levelIndex := levelIndex
            source := source
            message := trimNewline ((skipBlanks p).take 8191)
            isEof := false }

/-! ### The form of a line -/

def Blanks (b : List Char) : Prop := ∀ c ∈ b, isBlank c = true

structure FieldLimits (timestamp source : List Char) : Prop where
  timestampLength : timestamp.length = 19
  timestampOpen : ']' ∉ timestamp
  sourceLength : 1 ≤ source.length ∧ source.length ≤ 63
  sourceAlnum : ∀ c ∈ source, c.isAlphanum = true

/-- A line of three fields in brackets and a rest, with blanks before each of them. -/
structure IsLogLine (line timestamp : List Char) (level : Level) (source rest : List Char) :
    Prop where
  limits : FieldLimits timestamp source
  form : ∃ b₀ b₁ b₂ b₃, Blanks b₀ ∧ Blanks b₁ ∧ Blanks b₂ ∧ Blanks b₃ ∧
    line = b₀ ++ '[' :: (timestamp ++ ']' :: (b₁ ++ '[' :: (levelName level ++ ']' ::
      (b₂ ++ '[' :: (source ++ ']' :: (b₃ ++ rest))))))

/-- `[timestamp] [LEVEL] [source] message` -/
def formatLogLine (p : ParsedLine) : List Char :=
  '[' :: (p.timestamp ++ ']' :: ' ' :: '[' :: (levelName p.level ++ ']' :: ' ' :: '[' ::
    (p.source ++ ']' :: ' ' :: p.message)))

structure Formattable (p : ParsedLine) : Prop where
  limits : FieldLimits p.timestamp p.source
  messageLength : p.message.length ≤ 8191
  messageStart : ∀ c ∈ p.message.head?, isBlank c = false
  messageEnd : ∀ c ∈ p.message.getLast?, isLineEnd c = false

/-! ### Blanks and brackets -/

theorem skipBlanks_append {b s : List Char} (hb : Blanks b) : skipBlanks (b ++ s) = skipBlanks s :=
  List.dropWhile_append_of_pos hb

theorem skipBlanks_of_head {s : List Char} (h : ∀ c ∈ s.head?, isBlank c = false) :
    skipBlanks s = s := by
  cases s with
  | nil => rfl
  | cons c s =>
    rw [skipBlanks, List.dropWhile_cons_of_neg (by simp [h c rfl])]

theorem exists_blanks (s : List Char) : ∃ b, Blanks b ∧ s = b ++ skipBlanks s := by
  refine ⟨s.takeWhile isBlank, ?_, List.takeWhile_append_dropWhile.symm⟩
  intro c hc
  exact List.all_eq_true.mp List.all_takeWhile c hc

theorem head_skipBlanks (s : List Char) : ∀ c ∈ (skipBlanks s).head?, isBlank c = false := by
  intro c hc
  have hnot := List.head?_dropWhile_not isBlank s
  rw [skipBlanks] at hc
  rw [Option.mem_def.mp hc] at hnot
  simpa using hnot

theorem bracketField_bracket {field after : List Char} (h : ']' ∉ field) :
    bracketField ('[' :: (field ++ ']' :: after)) = some (field, after) := by
  have hfield : ∀ c ∈ field, (c != ']') = true := by
    intro c hc
    rw [bne_iff_ne]
    rintro rfl
    exact h hc
  rw [bracketField, if_pos (by simp), List.takeWhile_append_of_pos hfield,
    List.dropWhile_append_of_pos hfield]
  simp

theorem bracketField_some {s field after : List Char}
    (h : bracketField s = some (field, after)) :
    ']' ∉ field ∧ s = '[' :: (field ++ ']' :: after) := by
  unfold bracketField at h
  split at h
  · rename_i p
    split_ifs at h with hmem
    obtain ⟨pre, post, rfl, hpre⟩ := List.eq_append_cons_of_mem (List.contains_iff_mem.mp hmem)
    have hread : bracketField ('[' :: (pre ++ ']' :: post)) = some (pre, post) :=
      bracketField_bracket hpre
    rw [bracketField, if_pos hmem, h] at hread
    simp only [Option.some.injEq, Prod.mk.injEq] at hread
    obtain ⟨rfl, rfl⟩ := hread
    exact ⟨hpre, rfl⟩
  · cases h

theorem bracketField_blanks {b field : List Char} (hb : Blanks b) (h : ']' ∉ field)
    (after : List Char) :
    bracketField (skipBlanks (b ++ '[' :: (field ++ ']' :: after))) = some (field, after) := by
  rw [skipBlanks_append hb, skipBlanks_of_head (by simp [isBlank]), bracketField_bracket h]

theorem bracketField_skipBlanks_iff {s field after : List Char} :
    bracketField (skipBlanks s) = some (field, after) ↔
      ']' ∉ field ∧ ∃ b, Blanks b ∧ s = b ++ '[' :: (field ++ ']' :: after) := by
  constructor
  · intro h
    obtain ⟨hopen, heq⟩ := bracketField_some h
    obtain ⟨b, hb, hs⟩ := exists_blanks s
    exact ⟨hopen, b, hb, heq ▸ hs⟩
  · rintro ⟨hopen, b, hb, rfl⟩
    exact bracketField_blanks hb hopen after

/-! ### Levels -/

theorem parseLevel_iff {text : List Char} {level : Level} :
    parseLevel text = some level ↔ text = levelName level := by
  constructor
  · intro h
    unfold parseLevel at h
    split_ifs at h with h₁ h₂ h₃ h₄
    all_goals
      obtain rfl := Option.some.inj h
      assumption
  · rintro rfl
    cases level <;> decide

theorem levelName_length (level : Level) :
    (levelName level).length ≠ 0 ∧ (levelName level).length < 8 := by
  cases level <;> decide

theorem levelName_open (level : Level) : ']' ∉ levelName level := by
  cases level <;> decide

/-! ### The parser and the grammar -/

def lineEntry (entry : LogEntry) (timestamp : List Char) (level : Level)
    (source rest : List Char) : LogEntry :=
  (ParsedLine.mk timestamp level source (trimNewline (rest.take 8191))).toEntry entry.readerId

theorem sourceOpen {timestamp source : List Char} (h : FieldLimits timestamp source) :
    ']' ∉ source := by
  intro hmem
  have halnum := h.sourceAlnum _ hmem
  revert halnum
  decide

theorem parseLogLine_of_isLogLine {line timestamp source rest : List Char} {level : Level}
    (h : IsLogLine line timestamp level source rest) (entry : LogEntry) :
    parseLogLine line entry = some (lineEntry entry timestamp level source (skipBlanks rest)) := by
  obtain ⟨hlimits, b₀, b₁, b₂, b₃, hb₀, hb₁, hb₂, hb₃, rfl⟩ := h
  have htime : ¬ timestamp.length ≠ 19 := not_not.mpr hlimits.timestampLength
  have hlevel : ¬ ((levelName level).length = 0 ∨ 8 ≤ (levelName level).length) := by
    have hlen := levelName_length level
    omega
  have hsource : ¬ (source.length = 0 ∨ 64 ≤ source.length) := by
    have hlen := hlimits.sourceLength
    omega
  have halnum : ¬ source.all Char.isAlphanum = false := by
    rw [List.all_eq_true.mpr hlimits.sourceAlnum]
    exact Bool.noConfusion
  simp only [parseLogLine, Option.bind_some, bracketField_blanks hb₀ hlimits.timestampOpen,
    if_neg htime, bracketField_blanks hb₁ (levelName_open level), if_neg hlevel,
    parseLevel_iff.mpr rfl, bracketField_blanks hb₂ (sourceOpen hlimits), if_neg hsource,
    if_neg halnum, skipBlanks_append hb₃]
  rfl

theorem isLogLine_of_parseLogLine {line : List Char} {entry parsed : LogEntry}
    (h : parseLogLine line entry = some parsed) :
    ∃ timestamp level source rest, IsLogLine line timestamp level source rest ∧
      (∀ c ∈ rest.head?, isBlank c = false) ∧
      parsed = lineEntry entry timestamp level source rest := by
  obtain ⟨⟨timestamp, p₁⟩, hfirst, h⟩ := Option.bind_eq_some_iff.mp h
  dsimp only at h
  split_ifs at h with hlength
  obtain ⟨⟨levelStr, p₂⟩, hsecond, h⟩ := Option.bind_eq_some_iff.mp h
  dsimp only at h
  split_ifs at h with hlevel
  obtain ⟨level, hparse, h⟩ := Option.bind_eq_some_iff.mp h
  obtain ⟨⟨source, p₃⟩, hthird, h⟩ := Option.bind_eq_some_iff.mp h
  dsimp only at h
  split_ifs at h with hsource halnum
  obtain rfl := Option.some.inj h
  obtain rfl := parseLevel_iff.mp hparse
  obtain ⟨hopen, b₀, hb₀, rfl⟩ := bracketField_skipBlanks_iff.mp hfirst
  obtain ⟨-, b₁, hb₁, rfl⟩ := bracketField_skipBlanks_iff.mp hsecond
  obtain ⟨-, b₂, hb₂, rfl⟩ := bracketField_skipBlanks_iff.mp hthird
  obtain ⟨b₃, hb₃, hrest⟩ := exists_blanks p₃
  refine ⟨timestamp, level, source, skipBlanks p₃, ⟨⟨not_not.mp hlength, hopen, by omega, ?_⟩, ?_⟩,
    head_skipBlanks p₃, rfl⟩
  · exact List.all_eq_true.mp (by simpa using halnum)
  · exact ⟨b₀, b₁, b₂, b₃, hb₀, hb₁, hb₂, hb₃, by rw [← hrest]⟩

/-! ### Formatted entries -/

theorem trimNewline_append {message ending : List Char}
    (hmessage : ∀ c ∈ message.getLast?, isLineEnd c = false)
    (hending : ∀ c ∈ ending, isLineEnd c = true) : trimNewline (message ++ ending) = message := by
  induction ending using List.reverseRecOn with
  | nil =>
    rw [List.append_nil, trimNewline, List.rdropWhile_eq_self_iff]
    intro hne
    rw [hmessage _ (List.getLast?_eq_some_getLast hne)]
    exact Bool.false_ne_true
  | append_singleton ending c ih =>
    have hlast := hending c (by simp)
    rw [← List.append_assoc, trimNewline, List.rdropWhile_concat_pos _ _ _ hlast]
    exact ih fun d hd => hending d (List.mem_append_left _ hd)

theorem isLogLine_format {p : ParsedLine} (h : Formattable p) (ending : List Char) :
    IsLogLine (formatLogLine p ++ ending) p.timestamp p.level p.source (p.message ++ ending) where
  limits := h.limits
  form := by
    have hblank : Blanks [' '] := by simp [Blanks, isBlank]
    have hnone : Blanks [] := by simp [Blanks]
    refine ⟨[], [' '], [' '], [' '], hnone, hblank, hblank, hblank, ?_⟩
    simp [formatLogLine]

theorem parseLogLine_format {p : ParsedLine} (h : Formattable p) {ending : List Char}
    (hending : ∀ c ∈ ending, isLineEnd c = true) (entry : LogEntry) :
    parseLogLine (formatLogLine p ++ ending) entry = some (p.toEntry entry.readerId) := by
  have hstart : skipBlanks (p.message ++ ending) = p.message ++ ending := by
    refine skipBlanks_of_head fun c hc => ?_
    cases hmessage : p.message with
    | nil =>
      rw [hmessage, List.nil_append] at hc
      have hline := hending c (List.mem_of_mem_head? hc)
      simp only [isLineEnd, Bool.or_eq_true, beq_iff_eq] at hline
      rcases hline with rfl | rfl <;> decide
    | cons d message =>
      rw [hmessage] at hc
      exact h.messageStart c (by rw [hmessage]; exact hc)
  have hcut : trimNewline ((p.message ++ ending).take 8191) = p.message := by
    rw [List.take_append, List.take_of_length_le h.messageLength]
    exact trimNewline_append h.messageEnd fun c hc => hending c (List.mem_of_mem_take hc)
  rw [parseLogLine_of_isLogLine (isLogLine_format h ending), hstart, lineEntry, hcut]

/-- The parser accepts exactly the lines of the grammar, reads their fields, and
reads back what has been formatted. -/
theorem parseLogLine_grammar (line : List Char) (entry : LogEntry) :
    ((parseLogLine line entry).isSome = true ↔
      ∃ timestamp level source rest, IsLogLine line timestamp level source rest) ∧
    (∀ parsed, parseLogLine line entry = some parsed ↔
      ∃ timestamp level source rest, IsLogLine line timestamp level source rest ∧
        (∀ c ∈ rest.head?, isBlank c = false) ∧
        parsed = lineEntry entry timestamp level source rest) ∧
    ∀ p, Formattable p → ∀ ending, (∀ c ∈ ending, isLineEnd c = true) →
      parseLogLine (formatLogLine p ++ ending) entry = some (p.toEntry entry.readerId) := by
  refine ⟨?_, ?_, fun p h ending hending => parseLogLine_format h hending entry⟩
  · constructor
    · intro h
      obtain ⟨parsed, hparsed⟩ := Option.isSome_iff_exists.mp h
      obtain ⟨timestamp, level, source, rest, hline, -, -⟩ := isLogLine_of_parseLogLine hparsed
      exact ⟨timestamp, level, source, rest, hline⟩
    · rintro ⟨timestamp, level, source, rest, hline⟩
      rw [parseLogLine_of_isLogLine hline]
      rfl
  · intro parsed
    constructor
    · exact isLogLine_of_parseLogLine
    · rintro ⟨timestamp, level, source, rest, hline, hhead, rfl⟩
      rw [parseLogLine_of_isLogLine hline, skipBlanks_of_head hhead]

end SysProg.HW4

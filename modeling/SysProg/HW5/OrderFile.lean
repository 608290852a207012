import SysProg.HW5.OrderQueue
import SysProg.Lib.FileReads
import SysProg.Lib.ScanFormat

/-!
# The order file

`load_orders_from_file` fills a buffer of 256 bytes with `fgets` and scans it
with one `sscanf`. The format leaves the cutting of fields to blanks and to the
widths of `%32s` and `%8s`. What it accepts is a grammar of its own, in which
two fields may touch.
-/

namespace SysProg.HW5
open SysProg.Lib

/-- `" %d %32s %8s %d %c"`. Behind a blank, `%c` takes whatever character is left, as `%1s`
does. -/
def orderFormat : List Directive :=
  [.space, .int, .space, .string 32, .space, .string 8, .space, .int, .space, .string 1]

def isNameChar (ch : Char) : Bool := ch.isUpper || ch.isLower || ch.isDigit || ch == '_'

def isValidRecipientName (name : List Char) : Bool := name != [] && name.all isNameChar

def priorityToString : Priority → List Char
  | .express => "EXPRESS".toList
  | .standard => "STANDARD".toList
  | .economy => "ECONOMY".toList

def parsePriority (text : List Char) : Option Priority :=
  if text = "EXPRESS".toList then some .express
  else if text = "STANDARD".toList then some .standard
  else if text = "ECONOMY".toList then some .economy
  else none

def readOrderLine (line : List Char) : Option Order :=
  match sscanf orderFormat (cString line) with
  | [.number id, .string recipient, .string priorityText, .number durationUnits] =>
    if id < 1 ∨ durationUnits < 1 then none
    else if isValidRecipientName recipient = false then none
    else
      match parsePriority priorityText with
      | none => none
      | some priority => some ⟨id, recipient, priority, durationUnits⟩
  | _ => none

/-- The loop over an open file, on the queue and `valid_order_count`. -/
def loadOrdersFromFile (loaded : OrderQueue × ℕ) (file : List Char) : OrderQueue × ℕ :=
  if h : file = [] then loaded
  else
    let line := fgets 255 file
    have : line.2.length < file.length := fgets_shorter h
    match readOrderLine line.1 with
    | none => loadOrdersFromFile loaded line.2
    | some order => loadOrdersFromFile (queuePush loaded.1 order, loaded.2 + 1) line.2
termination_by file.length

def queuedFor (line : List Char) : List Order :=
  (readsOf 254 line).flatMap fun buffer => (readOrderLine buffer).toList

/-! ### The grammar of a line -/

structure OrderText where
  lead : List Char
  idText : List Char
  beforeName : List Char
  name : List Char
  beforePriority : List Char
  priority : Priority
  beforeDuration : List Char
  durationText : List Char
  trail : List Char
  id : ℤ
  duration : ℤ
  lead_blank : Blank lead
  beforeName_blank : Blank beforeName
  beforePriority_blank : Blank beforePriority
  beforeDuration_blank : Blank beforeDuration
  trail_blank : Blank trail
  idText_value : intValue idText = some id
  durationText_value : intValue durationText = some duration
  name_chars : ∀ c ∈ name, isNameChar c = true
  name_nonempty : name ≠ []
  name_length : name.length ≤ 32

namespace OrderText

def text (x : OrderText) : List Char :=
  x.lead ++ (x.idText ++ (x.beforeName ++ (x.name ++ (x.beforePriority ++
    (priorityToString x.priority ++ (x.beforeDuration ++ (x.durationText ++ x.trail)))))))

def order (x : OrderText) : Order := ⟨x.id, x.name, x.priority, x.duration⟩

/-- The four fields are separated, and both numbers are positive values of `int`. -/
structure Proper (x : OrderText) : Prop where
  beforeName : x.beforeName ≠ []
  beforePriority : x.beforePriority ≠ []
  beforeDuration : x.beforeDuration ≠ []
  id : 1 ≤ x.id ∧ x.id ≤ 2147483647
  duration : 1 ≤ x.duration ∧ x.duration ≤ 2147483647

/-- What `%d` stores for the two numbers. -/
def stored (x : OrderText) : Order :=
  ⟨int32 (clampLong x.id), x.name, x.priority, int32 (clampLong x.duration)⟩

/-- Fields may touch where a character that is no digit or a full width ends the first one,
and the numbers count as they are stored. -/
structure Scannable (x : OrderText) : Prop where
  beforeName : x.beforeName = [] → Stops Char.isDigit x.name
  beforePriority : x.beforePriority = [] → x.name.length = 32
  beforeDuration : x.beforeDuration = [] → x.priority = .standard
  id : 1 ≤ x.stored.id
  duration : 1 ≤ x.stored.durationUnits

end OrderText

def OrderLine (line : List Char) (order : Order) : Prop :=
  ∃ x : OrderText, x.text = line ∧ x.Proper ∧ x.order = order

def LooseOrder (line : List Char) (order : Order) : Prop :=
  ∃ x : OrderText, x.text = line ∧ x.Scannable ∧ x.stored = order

/-! ### Characters -/

theorem isSpace_of_isNameChar {c : Char} (h : isNameChar c = true) : isSpace c = false :=
  isSpace_of_class (by decide) h

theorem priorityToString_chars (p : Priority) : ∀ c ∈ priorityToString p, c.isUpper = true := by
  have hall : (priorityToString p).all Char.isUpper = true := by
    cases p <;> decide
  exact List.all_eq_true.mp hall

theorem priorityToString_ne_nil (p : Priority) : priorityToString p ≠ [] := by
  cases p <;> decide

theorem priorityToString_length (p : Priority) : (priorityToString p).length ≤ 8 := by
  cases p <;> decide

theorem priorityToString_full {p : Priority} (h : (priorityToString p).length = 8) :
    p = .standard := by
  cases p with
  | express => exact absurd h (by decide)
  | standard => rfl
  | economy => exact absurd h (by decide)

theorem parsePriority_eq_some_iff {text : List Char} {p : Priority} :
    parsePriority text = some p ↔ text = priorityToString p := by
  constructor
  · intro h
    unfold parsePriority at h
    split_ifs at h with hexpress hstandard heconomy <;> cases h <;> assumption
  · rintro rfl
    cases p <;> decide

theorem isValidRecipientName_iff {name : List Char} :
    isValidRecipientName name = true ↔ name ≠ [] ∧ ∀ c ∈ name, isNameChar c = true := by
  simp [isValidRecipientName]

/-! ### What the scan accepts -/

theorem readOrderLine_scan {line : List Char} {o : Order} :
    readOrderLine line = some o ↔ sscanf orderFormat (cString line) = [.number o.id,
        .string o.recipient, .string (priorityToString o.priority), .number o.durationUnits] ∧
      1 ≤ o.id ∧ 1 ≤ o.durationUnits ∧ isValidRecipientName o.recipient = true := by
  constructor
  · intro h
    unfold readOrderLine at h
    split at h
    · rename_i id recipient priorityText durationUnits hscan
      split_ifs at h with hnumbers hname
      split at h
      · cases h
      · rename_i priority hpriority
        obtain rfl := Option.some.inj h
        rw [parsePriority_eq_some_iff.mp hpriority] at hscan
        rw [not_or, Int.not_lt, Int.not_lt] at hnumbers
        rw [Bool.not_eq_false] at hname
        exact ⟨hscan, hnumbers.1, hnumbers.2, hname⟩
    · cases h
  · rintro ⟨hscan, hid, hduration, hname⟩
    have hpriority := parsePriority_eq_some_iff.mpr (rfl : priorityToString o.priority = _)
    simp only [readOrderLine, hscan, hpriority, hname]
    rw [if_neg (by omega), if_neg (by simp)]

theorem isInk_priorityToString (p : Priority) : Run isInk (priorityToString p) := by
  intro c hc
  simp [isInk, isSpace_of_isUpper (priorityToString_chars p c hc)]

theorem isInk_name {name : List Char} (h : ∀ c ∈ name, isNameChar c = true) : Run isInk name := by
  intro c hc
  simp [isInk, isSpace_of_isNameChar (h c hc)]

theorem looseOrder_of_readOrderLine {line : List Char} {o : Order}
    (h : readOrderLine line = some o) : LooseOrder (cString line) o := by
  obtain ⟨hscan, hid, hduration, hname⟩ := readOrderLine_scan.mp h
  obtain ⟨hnonempty, hchars⟩ := isValidRecipientName_iff.mp hname
  simp only [orderFormat, sscanf_space_int, sscanf_space_string, sscanf_int_iff, sscanf_string_iff,
    sscanf_last_iff] at hscan
  obtain ⟨lead, idText, id, rest, hlead, hidText, hidEnd, hline, hidStored, beforeName, rest', hgap,
    -, hnameInk, hlength, hnameEnd, rfl, beforePriority, rest'', hgap', hpne, hpInk, -, hpEnd, rfl,
    beforeDuration, durationText, duration, trail, hgap'', hdurationText, -, rfl, hdurationStored,
    htrail⟩ := hscan
  refine ⟨⟨lead, idText, beforeName, o.recipient, beforePriority, o.priority, beforeDuration,
    durationText, trail, id, duration, hlead, hgap, hgap', hgap'', htrail, hidText, hdurationText,
    hchars, hnonempty, hlength⟩, hline.symm, ⟨?_, ?_, ?_, ?_, ?_⟩, ?_⟩
  · rintro rfl
    exact (stops_append hnonempty _).mp hidEnd
  · rintro rfl
    rcases hnameEnd with hfull | hend
    · exact hfull
    · exact absurd rfl (gap_ne_nil hpne hpInk hend)
  · rintro rfl
    rcases hpEnd with hfull | hend
    · exact priorityToString_full hfull
    · exact absurd rfl
        (gap_ne_nil (ne_nil_of_intValue hdurationText) (isInk_intValue hdurationText) hend)
  · exact hid.trans_eq hidStored
  · exact hduration.trans_eq hdurationStored
  · rw [OrderText.stored, ← hidStored, ← hdurationStored]

theorem readOrderLine_of_looseOrder {line : List Char} {o : Order}
    (h : LooseOrder (cString line) o) : readOrderLine line = some o := by
  obtain ⟨x, hline, hx, rfl⟩ := h
  refine readOrderLine_scan.mpr ⟨?_, hx.id, hx.duration,
    isValidRecipientName_iff.mpr ⟨x.name_nonempty, x.name_chars⟩⟩
  simp only [orderFormat, sscanf_space_int, sscanf_space_string, sscanf_int_iff, sscanf_string_iff,
    sscanf_last_iff]
  refine ⟨x.lead, x.idText, x.id, _, x.lead_blank, x.idText_value, ?_, hline.symm, rfl,
    x.beforeName, _, x.beforeName_blank, x.name_nonempty, isInk_name x.name_chars, x.name_length,
    ?_,
    rfl, x.beforePriority, _, x.beforePriority_blank, priorityToString_ne_nil _,
    isInk_priorityToString _, priorityToString_length _, ?_, rfl, x.beforeDuration, x.durationText,
    x.duration, x.trail, x.beforeDuration_blank, x.durationText_value,
    stops_isDigit_of_blank x.trail_blank, rfl, rfl, x.trail_blank⟩
  · refine stops_gap (stops_isDigit_of_blank x.beforeName_blank) fun hnone => ?_
    exact (stops_append x.name_nonempty _).mpr (hx.beforeName hnone)
  · by_cases hnone : x.beforePriority = []
    · exact .inl (hx.beforePriority hnone)
    · exact .inr (stops_gap (stops_isInk_of_blank x.beforePriority_blank) fun h => absurd h hnone)
  · by_cases hnone : x.beforeDuration = []
    · have hstandard : x.stored.priority = .standard := hx.beforeDuration hnone
      rw [hstandard]
      exact .inl rfl
    · exact .inr (stops_gap (stops_isInk_of_blank x.beforeDuration_blank) fun h => absurd h hnone)

theorem readOrderLine_eq_some_iff {line : List Char} {o : Order} :
    readOrderLine line = some o ↔ LooseOrder (cString line) o :=
  ⟨looseOrder_of_readOrderLine, readOrderLine_of_looseOrder⟩

end SysProg.HW5

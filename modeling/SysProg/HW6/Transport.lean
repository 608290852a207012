import SysProg.HW6.LineFraming
import SysProg.HW6.ClientCommon

/-!
# Lines between server and client

Both directions use `send_line`. Towards the client, the lines it prints are
compared with the lines that were sent; towards the server, the actions for a
client are compared with the lines of its standard input.
-/

namespace SysProg.HW6
open SysProg.Lib
variable {cfg : Config}

/-! ### From server to client -/

/-- A reply that `send_line` can carry unambiguously. -/
structure WireLine (line : List Char) : Prop where
  newline : '\n' ∉ line
  nul : '\x00' ∉ line
  cr : line.getLast? ≠ some '\r'

/-- What the client makes of a sent line: a cut may leave a carriage return at
the end, and it is taken for part of the line ending. -/
def arriving (line : List Char) : List Char :=
  if line.length ≤ maxLine then line else dropCr (line.take maxLine)

theorem dropCr_sublist (line : List Char) : List.Sublist (dropCr line) line := by
  unfold dropCr
  split_ifs
  · exact List.dropLast_sublist line
  · exact List.Sublist.refl line

theorem length_dropCr (line : List Char) : line.length ≤ (dropCr line).length + 1 := by
  unfold dropCr
  split_ifs
  · rw [List.length_dropLast]
    omega
  · omega

theorem shown_wire {line : List Char} (h : WireLine line) :
    shown ((cString line).take maxLine) = arriving line := by
  rw [cString_of_notMem h.nul, shown, cString_of_notMem]
  · unfold arriving
    split_ifs with hlen
    · rw [List.take_of_length_le hlen, dropCr, if_neg h.cr]
    · rfl
  · intro hmem
    exact h.nul (List.mem_of_mem_take ((dropCr_sublist _).mem hmem))

theorem farewells_short : ∀ line ∈ farewells, line.length < maxLine - 1 := by decide

theorem isFarewell_arriving (line : List Char) : isFarewell (arriving line) = isFarewell line := by
  unfold arriving
  split_ifs with hlen
  · rfl
  · have hcut := length_dropCr (line.take maxLine)
    rw [List.length_take] at hcut
    have hlong : ∀ l : List Char, maxLine ≤ l.length + 1 → isFarewell l = false := by
      intro l hl
      refine decide_eq_false (fun hmem => ?_)
      have hshort := farewells_short l hmem
      omega
    rw [hlong _ (by omega), hlong _ (by omega)]

theorem newline_notMem_wire {lines : List (List Char)} (h : ∀ line ∈ lines, WireLine line) :
    ∀ line ∈ lines.map (fun l => (cString l).take maxLine), '\n' ∉ line := by
  intro line hmem hnl
  obtain ⟨l, hl, rfl⟩ := List.mem_map.mp hmem
  have hin := List.mem_of_mem_take hnl
  rw [cString_of_notMem (h l hl).nul] at hin
  exact (h l hl).newline hin

theorem receiveChunks_of_prefix {lines : List (List Char)} (h : ∀ line ∈ lines, WireLine line)
    {chunks : List (List Char)} (hpre : chunks.flatten <+: lines.flatMap lineBytes) :
    let arrived := lines.take (chunks.flatten.count '\n')
    (receiveChunks ⟨[], []⟩ chunks).1.printed = (throughFirst isFarewell arrived).map arriving ∧
      ((receiveChunks ⟨[], []⟩ chunks).2 = true ↔ ∃ line ∈ arrived, line ∈ farewells) := by
  intro arrived
  rw [flatMap_lineBytes] at hpre
  have hcut := cutLines_of_prefix (newline_notMem_wire h) hpre
  rw [← List.map_take] at hcut
  have hwire : ∀ line ∈ arrived, WireLine line := fun line hl => h line (List.mem_of_mem_take hl)
  have hshown : (cutLines '\n' chunks.flatten).1.map shown = arrived.map arriving := by
    rw [hcut, List.map_map]
    exact List.map_congr_left (fun line hl => shown_wire (hwire line hl))
  have hlen : ∀ line ∈ (cutLines '\n' chunks.flatten).1, line.length ≤ maxLine := by
    intro line hl
    rw [hcut] at hl
    obtain ⟨l, -, rfl⟩ := List.mem_map.mp hl
    exact List.length_take_le _ _
  obtain ⟨hprinted, hflag⟩ := receiveChunks_lines hlen
  rw [hshown] at hprinted hflag
  refine ⟨?_, ?_⟩
  · rw [hprinted]
    exact throughFirst_map arriving (fun line _ => isFarewell_arriving line)
  · have hsame : isFarewell ∘ arriving = isFarewell := funext isFarewell_arriving
    rw [hflag, List.any_map, hsame, List.any_eq_true]
    simp only [isFarewell, decide_eq_true_eq]

theorem count_newline_lineBytes {line : List Char} (h : WireLine line) :
    (lineBytes line).count '\n' = 1 := by
  rw [lineBytes, cString_of_notMem h.nul, List.count_append,
    List.count_eq_zero_of_not_mem (fun hmem => h.newline (List.mem_of_mem_take hmem))]
  rfl

theorem count_newline_lines {lines : List (List Char)} (h : ∀ line ∈ lines, WireLine line) :
    (lines.flatMap lineBytes).count '\n' = lines.length := by
  induction lines with
  | nil => rfl
  | cons line lines ih =>
    rw [List.flatMap_cons, List.count_append, count_newline_lineBytes (h line List.mem_cons_self),
      ih (fun l hl => h l (List.mem_cons_of_mem _ hl)), List.length_cons, Nat.add_comm]

/-- Whatever `send` accepts from call to call and however `recv` cuts the stream,
the client prints the lines that have arrived, in order and up to the first
farewell, and exits exactly at a farewell. With enough successful calls of
`send` all lines arrive. -/
theorem transport_prints_sent_lines {lines : List (List Char)}
    (hlines : ∀ line ∈ lines, WireLine line) {script : List SendResult}
    (hscript : Progressing script) :
    (∀ chunks, chunks.flatten <+: (sendLines script lines).1 →
      let arrived := lines.take (chunks.flatten.count '\n')
      (receiveChunks ⟨[], []⟩ chunks).1.printed = (throughFirst isFarewell arrived).map arriving ∧
        ((receiveChunks ⟨[], []⟩ chunks).2 = true ↔ ∃ line ∈ arrived, line ∈ farewells)) ∧
    ((lines.flatMap lineBytes).length ≤ acceptCount script →
      ∀ chunks, chunks.flatten = (sendLines script lines).1 →
        (receiveChunks ⟨[], []⟩ chunks).1.printed = (throughFirst isFarewell lines).map arriving ∧
          ((receiveChunks ⟨[], []⟩ chunks).2 = true ↔ ∃ line ∈ lines, line ∈ farewells)) := by
  obtain ⟨hpre, henough⟩ := sendLines_progress hscript lines
  refine ⟨fun chunks hchunks => receiveChunks_of_prefix hlines (hchunks.trans hpre), ?_⟩
  intro hlen chunks hchunks
  have hall : chunks.flatten = lines.flatMap lineBytes := hchunks.trans (henough hlen)
  have hpart : chunks.flatten <+: lines.flatMap lineBytes := hall ▸ List.prefix_refl _
  have harrived := receiveChunks_of_prefix hlines hpart
  rw [hall, count_newline_lines hlines, List.take_length] at harrived
  exact harrived

def farewellLines : List (List Char) :=
  ["OK ENROLL ada".toList, "OK APPARATE".toList, "late".toList]

def byteByByte : List SendResult := .interrupted :: List.replicate 31 (.accepted 1)

def farewellChunks : List (List Char) :=
  ["OK ENR".toList, "OLL ada\nOK APPAR".toList, "ATE\nlate\n".toList]

theorem wireLine_farewellLines : ∀ line ∈ farewellLines, WireLine line := by
  have h : ∀ line ∈ farewellLines, '\n' ∉ line ∧ '\x00' ∉ line ∧ line.getLast? ≠ some '\r' := by
    decide
  exact fun line hl => ⟨(h line hl).1, (h line hl).2.1, (h line hl).2.2⟩

theorem progressing_byteByByte : Progressing byteByByte := by
  intro x hx
  rcases List.mem_cons.mp hx with rfl | hx
  · exact Or.inl rfl
  · exact Or.inr ⟨0, List.eq_of_mem_replicate hx⟩

theorem transport_farewell :
    farewellChunks.flatten = (sendLines byteByByte farewellLines).1 ∧
      (receiveChunks ⟨[], []⟩ farewellChunks).1.printed =
        (throughFirst isFarewell farewellLines).map arriving := by
  have hsent : farewellChunks.flatten = (sendLines byteByByte farewellLines).1 := by decide
  have hall := (transport_prints_sent_lines wireLine_farewellLines progressing_byteByByte).2
    (by decide) farewellChunks hsent
  exact ⟨hsent, hall.1⟩

/-- Byte 512 of this line is a carriage return when the rest has 511 bytes. -/
def crLine (text : List Char) : List Char := text ++ ['\r', 'b']

section CarriageReturn
variable {text : List Char}

theorem wireLine_crLine (hnl : '\n' ∉ text) (hnul : '\x00' ∉ text) : WireLine (crLine text) := by
  refine ⟨?_, ?_, ?_⟩
  · simp [crLine, hnl]
  · simp [crLine, hnul]
  · simp [crLine]

theorem take_crLine (hlen : text.length = 511) : (crLine text).take maxLine = text ++ ['\r'] := by
  rw [crLine, List.take_append, List.take_of_length_le (by rw [hlen]; decide), hlen]
  rfl

theorem arriving_crLine (hlen : text.length = 511) : arriving (crLine text) = text := by
  rw [arriving, if_neg (by simp [crLine, hlen, maxLine]), take_crLine hlen]
  simp [dropCr]

theorem lineBytes_crLine (hlen : text.length = 511) (hnul : '\x00' ∉ crLine text) :
    lineBytes (crLine text) = text ++ ['\r', '\n'] := by
  rw [lineBytes, cString_of_notMem hnul, take_crLine hlen, List.append_assoc]
  rfl

theorem receive_crLine (hlen : text.length = 511) (hnl : '\n' ∉ text) (hnul : '\x00' ∉ text) :
    ∃ chunks : List (List Char), (∀ chunk ∈ chunks, chunk.length ≤ 256) ∧
      chunks.flatten = [crLine text].flatMap lineBytes ∧
      (receiveChunks ⟨[], []⟩ chunks).1.printed = [text] := by
  have hwire : ∀ line ∈ [crLine text], WireLine line := by
    intro line hl
    rw [List.mem_singleton.mp hl]
    exact wireLine_crLine hnl hnul
  have hbytes := lineBytes_crLine hlen (hwire _ List.mem_cons_self).nul
  let chunks := [text.take 256, text.drop 256 ++ ['\r'], ['\n']]
  have hchunks : chunks.flatten = [crLine text].flatMap lineBytes := by
    simp only [chunks, List.flatMap_singleton, hbytes, List.flatten_cons, List.flatten_nil,
      List.append_nil, ← List.append_assoc, List.take_append_drop]
    simp
  refine ⟨chunks, ?_, hchunks, ?_⟩
  · simp [chunks, hlen]
  · have hpart : chunks.flatten <+: [crLine text].flatMap lineBytes := hchunks ▸ List.prefix_refl _
    have hprinted := receiveChunks_of_prefix hwire hpart
    rw [hchunks, count_newline_lines hwire, List.take_length] at hprinted
    rw [hprinted.1]
    simp [throughFirst, arriving_crLine hlen]

end CarriageReturn

/-- The client does not print the first 512 bytes of every longer line: a
carriage return at the cut is dropped. -/
theorem transport_drops_cr_at_cut :
    ¬ ∀ (lines : List (List Char)) (script : List SendResult) (chunks : List (List Char)),
      (∀ line ∈ lines, WireLine line) → Progressing script →
      (lines.flatMap lineBytes).length ≤ acceptCount script →
      (∀ chunk ∈ chunks, chunk.length ≤ 256) → chunks.flatten = (sendLines script lines).1 →
      (receiveChunks ⟨[], []⟩ chunks).1.printed =
        (throughFirst isFarewell lines).map (·.take maxLine) := by
  intro hclaim
  obtain ⟨text, hlen, hnl, hnul⟩ :
      ∃ text : List Char, text.length = 511 ∧ '\n' ∉ text ∧ '\x00' ∉ text := by
    refine ⟨List.replicate 511 'a', List.length_replicate, ?_, ?_⟩
    · exact fun h => absurd (List.eq_of_mem_replicate h) (by decide)
    · exact fun h => absurd (List.eq_of_mem_replicate h) (by decide)
  have hwire := wireLine_crLine hnl hnul
  have hwires : ∀ line ∈ [crLine text], WireLine line := fun line hl =>
    List.mem_singleton.mp hl ▸ hwire
  obtain ⟨chunks, hsize, hchunks, hprinted⟩ := receive_crLine hlen hnl hnul
  have hscript : Progressing (List.replicate 513 (.accepted 1)) :=
    fun x hx => Or.inr ⟨0, List.eq_of_mem_replicate hx⟩
  have henough : ([crLine text].flatMap lineBytes).length ≤
      acceptCount (List.replicate 513 (.accepted 1)) := by
    rw [List.flatMap_singleton, lineBytes_crLine hlen hwire.nul, List.length_append, hlen,
      acceptCount, List.countP_replicate]
    decide
  have hsent := (sendLines_progress hscript [crLine text]).2 henough
  have hclaimed := hclaim [crLine text] _ chunks hwires hscript henough hsize
    (hchunks.trans hsent.symm)
  rw [hprinted] at hclaimed
  simp [throughFirst, take_crLine hlen] at hclaimed

/-! ### From client to server -/

def isApparate (line : List Char) : Bool := decide (tokenize line = ["APPARATE".toList])

/-- The non-empty lines of standard input; the last one may lack its newline. -/
def stdinLines (stdin : List Char) : List (List Char) :=
  ((cutLines '\n' stdin).1 ++ [(cutLines '\n' stdin).2]).filter (· != [])

def commandLines (stdin : List Char) : List (List Char) :=
  throughFirst isApparate (stdinLines stdin)

theorem stdinLoop_line {line : List Char} (hnl : '\n' ∉ line) (hnul : '\x00' ∉ line)
    (hlen : line.length ≤ maxLine) (rest : List Char) :
    stdinLoop (line ++ ['\n'] ++ rest) =
      if line = [] then stdinLoop rest
      else if line = "APPARATE".toList then [line] else line :: stdinLoop rest := by
  have hfit : line.length < inputRoom := by
    simp only [inputRoom]
    omega
  rw [stdinLoop_read (by simp), fgets_line hnl hfit, chomp_line hnul]

theorem stdinLoop_tail {tail : List Char} (hnl : '\n' ∉ tail) (hnul : '\x00' ∉ tail)
    (hlen : tail.length ≤ maxLine) (hne : tail ≠ []) :
    stdinLoop tail = if tail = "APPARATE".toList then [tail] else [tail, "APPARATE".toList] := by
  have hfit : tail.length ≤ inputRoom := by
    simp only [inputRoom]
    omega
  rw [stdinLoop_read hne, fgets_tail hnl hfit, chomp_tail hnul hnl, if_neg hne, stdinLoop_nil]

/-- The lines that are sent begin with the lines up to the first one that asks to
leave. They are all lines and a final `APPARATE` when there is none, and nothing
follows a line that reads `APPARATE`. -/
structure SendsAll (lines sends : List (List Char)) : Prop where
  inOrder : throughFirst isApparate lines <+: sends
  complete : (∀ line ∈ lines, isApparate line = false) → sends = lines ++ ["APPARATE".toList]
  ends : "APPARATE".toList ∈ throughFirst isApparate lines → sends = throughFirst isApparate lines

theorem sendsAll_nil : SendsAll [] ["APPARATE".toList] :=
  ⟨List.nil_prefix, fun _ => rfl, fun h => absurd h List.not_mem_nil⟩

theorem sendsAll_cons {line : List Char} {lines sends : List (List Char)}
    (h : isApparate line = false → SendsAll lines sends) :
    SendsAll (line :: lines) (if line = "APPARATE".toList then [line] else line :: sends) := by
  cases hline : isApparate line with
  | true =>
    have hfirst : throughFirst isApparate (line :: lines) = [line] := by
      rw [throughFirst, if_pos hline]
    refine ⟨?_, fun hnone => ?_, fun hmem => ?_⟩
    · rw [hfirst]
      split_ifs
      · exact List.prefix_refl _
      · exact ⟨sends, rfl⟩
    · exact absurd (hnone line List.mem_cons_self) (by simp [hline])
    · rw [hfirst] at hmem ⊢
      exact if_pos (List.mem_singleton.mp hmem).symm
  | false =>
    have hother : line ≠ "APPARATE".toList := by
      rintro rfl
      exact absurd hline (by decide)
    have hfirst : throughFirst isApparate (line :: lines) =
        line :: throughFirst isApparate lines := by
      rw [throughFirst, if_neg (by simp [hline])]
    have hrest := h hline
    rw [if_neg hother]
    refine ⟨?_, fun hnone => ?_, fun hmem => ?_⟩
    · rw [hfirst]
      exact List.cons_prefix_cons.mpr ⟨rfl, hrest.inOrder⟩
    · rw [hrest.complete (fun l hl => hnone l (List.mem_cons_of_mem _ hl))]
      rfl
    · rw [hfirst] at hmem ⊢
      rw [hrest.ends ((List.mem_cons.mp hmem).resolve_left hother.symm)]

theorem stdinLoop_joinLines {lines : List (List Char)} {tail : List Char}
    (hlines : ∀ line ∈ lines, '\n' ∉ line ∧ '\x00' ∉ line) (htail : '\n' ∉ tail ∧ '\x00' ∉ tail)
    (hlen : ∀ line ∈ throughFirst isApparate ((lines ++ [tail]).filter (· != [])),
      line.length ≤ maxLine) :
    SendsAll ((lines ++ [tail]).filter (· != [])) (stdinLoop (joinLines '\n' lines tail)) := by
  induction lines with
  | nil =>
    have hjoin : joinLines '\n' [] tail = tail := rfl
    rw [hjoin]
    by_cases hne : tail = []
    · subst hne
      rw [stdinLoop_nil]
      exact sendsAll_nil
    · have hall : ([] ++ [tail]).filter (· != []) = [tail] := by simp [hne]
      rw [hall] at hlen ⊢
      rw [stdinLoop_tail htail.1 htail.2 (hlen tail (head_mem_throughFirst _ _ _)) hne]
      exact sendsAll_cons (fun _ => sendsAll_nil)
  | cons line lines ih =>
    obtain ⟨hnl, hnul⟩ := hlines line List.mem_cons_self
    have hrest := fun l hl => hlines l (List.mem_cons_of_mem _ hl)
    rw [joinLines_cons]
    by_cases hne : line = []
    · subst hne
      rw [stdinLoop_line hnl hnul (Nat.zero_le _), if_pos rfl]
      exact ih hrest (by simpa using hlen)
    · have hall : ((line :: lines) ++ [tail]).filter (· != []) =
          line :: (lines ++ [tail]).filter (· != []) := by simp [hne]
      rw [hall] at hlen ⊢
      rw [stdinLoop_line hnl hnul (hlen line (head_mem_throughFirst _ _ _)), if_neg hne]
      refine sendsAll_cons (fun hline => ih hrest (fun l hl => hlen l ?_))
      rw [throughFirst, if_neg (by simp [hline])]
      exact List.mem_cons_of_mem _ hl

theorem nul_notMem_parts {stdin : List Char} (hnul : '\x00' ∉ stdin) :
    ∀ line ∈ (cutLines '\n' stdin).1 ++ [(cutLines '\n' stdin).2], '\x00' ∉ line := by
  intro line hl hmem
  apply hnul
  rw [← joinLines_cutLines '\n' stdin, joinLines, List.mem_append]
  rcases List.mem_append.mp hl with hl | hl
  · exact Or.inl (List.mem_flatMap.mpr ⟨line, hl, List.mem_append_left _ hmem⟩)
  · exact Or.inr (List.mem_singleton.mp hl ▸ hmem)

theorem stdinLoop_sendsAll {stdin : List Char} (hnul : '\x00' ∉ stdin)
    (hlen : ∀ line ∈ commandLines stdin, line.length ≤ maxLine) :
    SendsAll (stdinLines stdin) (stdinLoop stdin) := by
  have hcut := sep_notMem_cutLines '\n' stdin
  have hparts := nul_notMem_parts hnul
  have h := stdinLoop_joinLines
    (fun line hl => ⟨hcut.1 line hl, hparts line (List.mem_append_left _ hl)⟩)
    ⟨hcut.2, hparts _ (by simp)⟩ hlen
  rwa [joinLines_cutLines] at h

def sentText (line : List Char) : List Char := (cString line).take maxLine

theorem length_sentText (line : List Char) : (sentText line).length ≤ maxLine :=
  List.length_take_le _ _

theorem sentText_eq {line : List Char} (hnul : '\x00' ∉ line) (hlen : line.length ≤ maxLine) :
    sentText line = line := by
  rw [sentText, cString_of_notMem hnul, List.take_of_length_le hlen]

theorem streamActions_sent {lines : List (List Char)} (h : ∀ line ∈ lines, '\n' ∉ line) :
    streamActions (lines.flatMap lineBytes) = lines.map (fun l => .execute (sentText l)) := by
  have hnl : ∀ line ∈ lines.map sentText, '\n' ∉ line := by
    intro line hl hmem
    obtain ⟨l, hl', rfl⟩ := List.mem_map.mp hl
    exact h l hl' ((List.takeWhile_sublist _).mem (List.mem_of_mem_take hmem))
  have hjoin : lines.flatMap lineBytes = joinLines '\n' (lines.map sentText) [] :=
    flatMap_lineBytes lines
  rw [streamActions, hjoin, cutLines_joinLines hnl List.not_mem_nil, List.map_map]
  simp only [tailActions, List.length_nil, Nat.zero_le, ↓reduceIte, List.append_nil]
  refine List.map_congr_left (fun l _ => ?_)
  exact if_pos (length_sentText l)

theorem tokenize_cons {c : Char} (hc : isDelimiter c = false) (hnul : c ≠ '\x00')
    (rest : List Char) : ∃ token tokens, tokenize (c :: rest) = (c :: token) :: tokens := by
  obtain ⟨token, tokens, hsplit⟩ :=
    List.exists_cons_of_ne_nil (List.splitOnP_ne_nil isDelimiter (rest.takeWhile (· != '\x00')))
  have hline : (c :: rest).takeWhile (· != '\x00') = c :: rest.takeWhile (· != '\x00') := by
    simp [hnul]
  rw [tokenize, hline, List.splitOnP_cons_eq_if_modifyHead, if_neg (by simp [hc]), hsplit]
  exact ⟨token, (tokens.filter (· != [])).take 7, by simp⟩

theorem isApparate_enrollLine (role username : List Char) :
    isApparate (enrollLine role username) = false := by
  have hline : enrollLine role username =
      'E' :: ("NROLL ".toList ++ role ++ ' ' :: username).take (maxLine - 1) := rfl
  obtain ⟨token, tokens, htokens⟩ := tokenize_cons (by decide : isDelimiter 'E' = false)
    (by decide) (("NROLL ".toList ++ role ++ ' ' :: username).take (maxLine - 1))
  rw [isApparate, hline, htokens]
  refine decide_eq_false (fun heq => ?_)
  have hhead := List.head_eq_of_cons_eq (List.head_eq_of_cons_eq heq)
  exact absurd hhead (by decide)

theorem notMem_enrollLine {c : Char} {role username : List Char} (hc : c ∉ "ENROLL ".toList)
    (hrole : c ∉ role) (huser : c ∉ username) : c ∉ enrollLine role username := by
  intro hmem
  have h := List.mem_of_mem_take hmem
  simp only [List.mem_append, List.mem_cons] at h
  rcases h with (h | h) | rfl | h
  · exact hc h
  · exact hrole h
  · exact hc (by decide)
  · exact huser h

theorem notMem_of_validUsername {c : Char} {username : List Char}
    (h : validUsername username = true) (hc : (c.isAlphanum || c == '_') = false) :
    c ∉ username := by
  intro hmem
  simp only [validUsername, Bool.and_eq_true, List.all_eq_true] at h
  rw [h.2 c hmem] at hc
  cases hc

/-- The server executes the enrollment and then treats every line of standard
input as its length demands, up to the first one that asks to leave. Without such
a line nothing follows but the final `APPARATE`, and nothing follows a line that
reads `APPARATE`. -/
structure CommandsArrive (log : List (LineAction × Bool)) (enroll stdin : List Char) : Prop where
  inOrder : .execute enroll :: (commandLines stdin).map lineAction <+: log.map Prod.fst
  complete : (∀ line ∈ commandLines stdin, isApparate line = false) →
    log.map Prod.fst = .execute enroll :: (commandLines stdin).map lineAction ++
      [.execute "APPARATE".toList]
  ends : "APPARATE".toList ∈ commandLines stdin →
    log.map Prod.fst = .execute enroll :: (commandLines stdin).map lineAction

def Stays (a : LineAction) : Prop := ∀ line, a = .execute line → isApparate line = false

theorem stays_lineAction {line : List Char} (h : isApparate line = false) :
    Stays (lineAction line) := by
  intro l hl
  unfold lineAction at hl
  split_ifs at hl
  · cases hl
    exact h

theorem stays_execute {line : List Char} (h : isApparate line = false) : Stays (.execute line) := by
  intro l hl
  cases hl
  exact h

theorem map_lineAction_commandLines {stdin : List Char} (hnul : '\x00' ∉ stdin)
    (hlen : ∀ line ∈ commandLines stdin, line.length ≤ maxLine) :
    (commandLines stdin).map lineAction =
      (commandLines stdin).map (fun l => .execute (sentText l)) := by
  refine List.map_congr_left (fun line hl => ?_)
  have hin : line ∈ stdinLines stdin := (throughFirst_isPrefix _ _).subset hl
  have hclean := nul_notMem_parts hnul line (List.mem_of_mem_filter hin)
  rw [sentText_eq hclean (hlen line hl), lineAction, if_pos (hlen line hl)]

theorem stays_of_mem_dropLast {enroll stdin : List Char} (hstart : isApparate enroll = false) :
    ∀ a ∈ (.execute enroll :: (commandLines stdin).map lineAction).dropLast, Stays a := by
  intro a ha
  cases hc : commandLines stdin with
  | nil => simp [hc] at ha
  | cons line lines =>
    rw [hc, List.map_cons, List.dropLast_cons_cons, List.mem_cons] at ha
    rcases ha with rfl | ha
    · exact stays_execute hstart
    · rw [← List.map_cons, ← hc, ← List.map_dropLast] at ha
      obtain ⟨l, hl, rfl⟩ := List.mem_map.mp ha
      exact stays_lineAction (throughFirst_dropLast _ _ l hl)

theorem commandsArrive_of_short {log : List (LineAction × Bool)} {enroll stdin : List Char}
    (henroll : sentText enroll = enroll) (hstart : isApparate enroll = false)
    (hnul : '\x00' ∉ stdin) (hlen : ∀ line ∈ commandLines stdin, line.length ≤ maxLine)
    (hlog : Performs log ((enroll :: stdinLoop stdin).map (fun l => .execute (sentText l))))
    (hleft : ∀ a, (a, true) ∈ log → ∃ line, a = .execute line ∧ isApparate line = true) :
    CommandsArrive log enroll stdin := by
  have hsends := stdinLoop_sendsAll hnul hlen
  have hsame := map_lineAction_commandLines hnul hlen
  have hstay : ∀ a, Stays a → (a, true) ∉ log := by
    intro a ha hmem
    obtain ⟨line, hline, happarate⟩ := hleft a hmem
    exact absurd (ha line hline) (by simp [happarate])
  have hcommands : .execute enroll :: (commandLines stdin).map lineAction <+: log.map Prod.fst := by
    refine hlog.covers ?_ (fun a ha => hstay a (stays_of_mem_dropLast hstart a ha))
    rw [List.map_cons, henroll, hsame]
    exact List.cons_prefix_cons.mpr ⟨rfl, hsends.inOrder.map _⟩
  refine ⟨hcommands, fun hnone => ?_, fun hmem => ?_⟩
  · have hlines : commandLines stdin = stdinLines stdin := throughFirst_eq_self hnone
    rw [hlines] at hnone hsame ⊢
    have hasked : (enroll :: stdinLoop stdin).map (fun l => LineAction.execute (sentText l)) =
        .execute enroll :: (stdinLines stdin).map lineAction ++ [.execute "APPARATE".toList] := by
      rw [hsends.complete hnone, hsame, List.map_cons, henroll, List.map_append]
      rfl
    rw [hasked] at hlog
    have hcovers := hlog.covers (List.prefix_refl _) (by
      rw [List.dropLast_concat]
      intro a ha
      refine hstay a ?_
      rcases List.mem_cons.mp ha with rfl | ha
      · exact stays_execute hstart
      · obtain ⟨l, hl, rfl⟩ := List.mem_map.mp ha
        exact stays_lineAction (hnone l hl))
    exact hlog.inOrder.eq_of_length_le hcovers.length_le
  · have hasked : (enroll :: stdinLoop stdin).map (fun l => LineAction.execute (sentText l)) =
        .execute enroll :: (commandLines stdin).map lineAction := by
      rw [hsends.ends hmem, hsame, List.map_cons, henroll]
      rfl
    rw [hasked] at hlog
    exact hlog.inOrder.eq_of_length_le hcommands.length_le

/-- The server never sees a line that is too long, so the lines arrive as they
should exactly when none of them is. -/
theorem commandsArrive_iff {log : List (LineAction × Bool)} {enroll stdin : List Char}
    (henroll : sentText enroll = enroll) (hstart : isApparate enroll = false)
    (hnul : '\x00' ∉ stdin)
    (hlog : Performs log ((enroll :: stdinLoop stdin).map (fun l => .execute (sentText l))))
    (hleft : ∀ a, (a, true) ∈ log → ∃ line, a = .execute line ∧ isApparate line = true) :
    CommandsArrive log enroll stdin ↔ ∀ line ∈ commandLines stdin, line.length ≤ maxLine := by
  refine ⟨fun harrive line hl => ?_, fun hlen =>
    commandsArrive_of_short henroll hstart hnul hlen hlog hleft⟩
  by_contra hlong
  have hasked : lineAction line ∈ (enroll :: stdinLoop stdin).map
      (fun l => LineAction.execute (sentText l)) := by
    refine hlog.inOrder.subset (harrive.inOrder.subset ?_)
    exact List.mem_cons_of_mem _ (List.mem_map_of_mem hl)
  obtain ⟨l, -, heq⟩ := List.mem_map.mp hasked
  rw [lineAction, if_neg hlong] at heq
  cases heq

/-- What the server does for a client that has just connected and sends these
lines, whatever the chunks. -/
theorem client_log {s : State cfg} (h : (machine cfg).Reachable s) {i : Fin cfg.maxClients}
    (hslot : findFreeSlot s = some i) (fd now : ℤ) {lines : List (List Char)}
    (hnl : ∀ line ∈ lines, '\n' ∉ line) {chunks : List (List Char)}
    (hchunks : chunks.flatten = lines.flatMap lineBytes) (clock : ℕ → ℤ) :
    let log := chunksLog i chunks clock (acceptNewClient s fd now true)
    Performs log (lines.map (fun l => .execute (sentText l))) ∧
      ∀ a, (a, true) ∈ log → ∃ line, a = .execute line ∧ isApparate line = true := by
  intro log
  have hlog : log = feedLog i (lines.flatMap lineBytes) clock (acceptNewClient s fd now true) := by
    rw [← hchunks]
    exact chunksLog_eq i chunks clock _
  rw [hlog]
  refine ⟨?_, fun a ha => ?_⟩
  · have hperf := performs_feedLog i (lines.flatMap lineBytes) clock (acceptNewClient s fd now true)
    rwa [buffer_acceptNewClient h hslot, actions_empty, streamActions_sent hnl] at hperf
  · obtain ⟨line, hline, htokens⟩ := feedLog_left ha
    exact ⟨line, hline, decide_eq_true htokens⟩

section Client
variable {role username stdin : List Char}

theorem notMem_enrollLine_of_valid (hrole : role = wizard ∨ role = professor)
    (huser : validUsername username = true) :
    '\n' ∉ enrollLine role username ∧ '\x00' ∉ enrollLine role username := by
  have hclean : ∀ c : Char, c ∉ "ENROLL ".toList → c ∉ wizard → c ∉ professor →
      (c.isAlphanum || c == '_') = false → c ∉ enrollLine role username := by
    intro c henroll hwizard hprofessor hvalid
    refine notMem_enrollLine henroll ?_ (notMem_of_validUsername huser hvalid)
    rcases hrole with rfl | rfl
    · exact hwizard
    · exact hprofessor
  exact ⟨hclean _ (by decide) (by decide) (by decide) (by decide),
    hclean _ (by decide) (by decide) (by decide) (by decide)⟩

theorem newline_notMem_runMagicClient (hrole : role = wizard ∨ role = professor)
    (huser : validUsername username = true) (hnul : '\x00' ∉ stdin) :
    ∀ line ∈ runMagicClient role username stdin, '\n' ∉ line := by
  intro line hl
  rcases List.mem_cons.mp hl with rfl | hl
  · exact (notMem_enrollLine_of_valid hrole huser).1
  · exact newline_notMem_stdinLoop stdin hnul line hl

theorem sentText_enrollLine (hrole : role = wizard ∨ role = professor)
    (huser : validUsername username = true) :
    sentText (enrollLine role username) = enrollLine role username :=
  sentText_eq (notMem_enrollLine_of_valid hrole huser).2 (List.length_take_le _ _)

theorem client_commandsArrive {s : State cfg} (h : (machine cfg).Reachable s)
    {i : Fin cfg.maxClients} (hslot : findFreeSlot s = some i) (fd now : ℤ)
    (hrole : role = wizard ∨ role = professor) (huser : validUsername username = true)
    (hnul : '\x00' ∉ stdin) {chunks : List (List Char)}
    (hchunks : chunks.flatten = (runMagicClient role username stdin).flatMap lineBytes)
    (clock : ℕ → ℤ) :
    CommandsArrive (chunksLog i chunks clock (acceptNewClient s fd now true))
        (enrollLine role username) stdin ↔
      ∀ line ∈ commandLines stdin, line.length ≤ maxLine := by
  obtain ⟨hlog, hleft⟩ := client_log h hslot fd now
    (newline_notMem_runMagicClient hrole huser hnul) hchunks clock
  exact commandsArrive_iff (sentText_enrollLine hrole huser) (isApparate_enrollLine role username)
    hnul hlog hleft

end Client

def slowScript (lines : List (List Char)) : List SendResult :=
  List.replicate (lines.flatMap lineBytes).length (.accepted 1)

theorem progressing_slowScript (lines : List (List Char)) : Progressing (slowScript lines) :=
  fun _ hx => Or.inr ⟨0, List.eq_of_mem_replicate hx⟩

theorem acceptCount_slowScript (lines : List (List Char)) :
    (lines.flatMap lineBytes).length ≤ acceptCount (slowScript lines) := by
  simp [slowScript, acceptCount, List.countP_replicate]

def byteChunks (stream : List Char) : List (List Char) := stream.map (fun c => [c])

theorem flatten_byteChunks (stream : List Char) : (byteChunks stream).flatten = stream := by
  induction stream with
  | nil => rfl
  | cons c stream ih => simpa [byteChunks] using ih

def adaLog (stdin : List Char) : List (LineAction × Bool) :=
  let lines := runMagicClient wizard "ada".toList stdin
  chunksLog firstSlot (byteChunks (sendLines (slowScript lines) lines).1) (fun _ => 0)
    (acceptNewClient (initial smallSchool) 5 0 true)

def longBrew : List Char := "BREW ROSE 1".toList ++ List.replicate 502 ' '

theorem length_longBrew : longBrew.length = 513 := by
  have hword : "BREW ROSE 1".toList.length = 11 := by decide
  have hlen : longBrew.length = "BREW ROSE 1".toList.length + 502 := by
    unfold longBrew
    rw [List.length_append, List.length_replicate]
  omega

end SysProg.HW6

import SysProg.HW4.LogEntry
import SysProg.Lib.FramedReads
import SysProg.Lib.ScanFormat
import Mathlib.Data.List.Induction

/-!
# Heartbeats through the watchdog's reads

A reader thread announces every fiftieth line in one `write` to the pipe of its
process. The watchdog reads up to 255 bytes of a pipe at a time, cuts them into
lines with `strtok_r` and scans each with `sscanf`; it keeps no rest of a line
for the next read, and `sscanf` has assigned both numbers as soon as one digit of
the count is there. A message that a read cuts among the digits of its count is
therefore taken for a smaller count.
-/

namespace SysProg.HW4
open SysProg.Lib

/-- The format `"[R%d] %ld lines processed\n"`; at most 64 characters, so never cut by the buffer. -/
def heartbeatHeader (readerId : ℕ) : List Char := '[' :: 'R' :: (decimal readerId ++ [']', ' '])

def heartbeatBody (readerId lines : ℕ) : List Char :=
  heartbeatHeader readerId ++ (decimal lines ++ " lines processed".toList)

def sendHeartbeat (readerId lines : ℕ) : Option (List Char) :=
  if lines = 0 ∨ lines % 50 ≠ 0 then none else some (heartbeatBody readerId lines ++ ['\n'])

structure Heartbeat where
  lines : ℕ
  pos : 0 < lines
  fiftieth : lines % 50 = 0
  fits : lines < 2 ^ 63

def Heartbeat.body (readerId : ℕ) (h : Heartbeat) : List Char := heartbeatBody readerId h.lines

theorem sendHeartbeat_eq (readerId : ℕ) (h : Heartbeat) :
    sendHeartbeat readerId h.lines = some (h.body readerId ++ ['\n']) := by
  have hsent : ¬ (h.lines = 0 ∨ h.lines % 50 ≠ 0) := by
    rintro (hzero | hother)
    · exact h.pos.ne' hzero
    · exact hother h.fiftieth
  rw [sendHeartbeat, if_neg hsent]
  rfl

theorem filterMap_sendHeartbeat (readerId : ℕ) (sent : List Heartbeat) :
    sent.filterMap (fun m => sendHeartbeat readerId m.lines) =
      sent.map (fun m => m.body readerId ++ ['\n']) := by
  rw [← List.filterMap_eq_map]
  apply List.filterMap_congr
  intro m _
  exact sendHeartbeat_eq readerId m

/-- `"[R%d] %d lines processed"` -/
def heartbeatFormat : List Directive :=
  .text '[' :: .text 'R' :: .int :: .text ']' :: .space :: .int :: .space ::
    (literal "lines".toList ++ .space :: literal "processed".toList)

/-- The assignment `progress[reader_no] = lines` that a line leads to. -/
def scanHeartbeat (numFiles : ℕ) (line : List Char) : Option (ℕ × ℤ) :=
  match sscanf heartbeatFormat line with
  | [.number readerNo, .number lines] =>
    if 0 ≤ readerNo ∧ readerNo < numFiles then some (readerNo.toNat, lines) else none
  | _ => none

/-- One `read` with its loop over the tokens. -/
def handleRead (numFiles : ℕ) (buf : List Char) : List (ℕ × ℤ) :=
  decodeRead '\n' (scanHeartbeat numFiles) (cString buf)

def assignments (numFiles : ℕ) (reads : List (ℕ × List Char)) : List (ℕ × ℤ) :=
  reads.flatMap (fun p => handleRead numFiles p.2)

def progressAfter (made : List (ℕ × ℤ)) (k : ℕ) : ℕ → ℤ :=
  (made.take k).foldl (fun progress a => Function.update progress a.1 a.2) (fun _ => 0)

/-! ### Scanning the beginning of a message -/

theorem sscanf_tail (x : List Char) :
    sscanf (.space :: (literal "lines".toList ++ .space :: literal "processed".toList)) x = [] := by
  apply sscanf_no_assignment
  intro d hd
  simp only [literal, List.mem_cons, List.mem_append, List.mem_map] at hd
  rcases hd with rfl | ⟨c, -, rfl⟩ | rfl | ⟨c, -, rfl⟩
  · exact .inr rfl
  · exact .inl ⟨c, rfl⟩
  · exact .inr rfl
  · exact .inl ⟨c, rfl⟩

theorem scanHeartbeat_of_head_ne {numFiles : ℕ} {line : List Char} (h : '[' ∉ line) :
    scanHeartbeat numFiles line = none := by
  cases line with
  | nil => rfl
  | cons c line =>
    have hc : c ≠ '[' := fun heq => h (heq ▸ List.mem_cons_self)
    simp only [scanHeartbeat, heartbeatFormat, sscanf, if_neg hc]

/-- The header alone, or a part of it, gives at most one number. -/
theorem scanHeartbeat_header (numFiles readerId n : ℕ) :
    scanHeartbeat numFiles ((heartbeatHeader readerId).take n) = none := by
  obtain ⟨hne, hdigits, -⟩ := decimal_digits readerId
  match n with
  | 0 => rfl
  | 1 => rfl
  | n + 2 =>
    have hsplit : (heartbeatHeader readerId).take (n + 2) = '[' :: 'R' ::
        ((decimal readerId).take n ++ [']', ' '].take (n - (decimal readerId).length)) := by
      simp only [heartbeatHeader, List.take_succ_cons, List.take_append]
    rw [hsplit]
    simp only [scanHeartbeat, heartbeatFormat, sscanf, if_true]
    by_cases hn : n = 0
    · rw [hn, List.take_zero, Nat.zero_sub, List.take_zero]
      rfl
    · have hfront : (decimal readerId).take n ≠ [] := by
        rw [Ne, List.take_eq_nil_iff]
        exact not_or.mpr ⟨hn, hne⟩
      have hdig : ∀ c ∈ (decimal readerId).take n, c.isDigit = true :=
        fun c hc => hdigits c (List.mem_of_mem_take hc)
      generalize n - (decimal readerId).length = j
      match j with
      | 0 =>
        rw [scanNumber_digits hfront hdig rfl]
        rfl
      | 1 =>
        rw [scanNumber_digits hfront hdig rfl]
        rfl
      | j + 2 =>
        have hall : [']', ' '].take (j + 2) = [']', ' '] :=
            List.take_of_length_le (Nat.le_add_left 2 j)
        rw [hall, scanNumber_digits hfront hdig rfl]
        rfl

def leadingCount (lines k : ℕ) : ℕ := Nat.ofDigitChars 10 ((decimal lines).take k) 0

theorem leadingCount_all {lines k : ℕ} (h : (decimal lines).length ≤ k) :
    leadingCount lines k = lines := by
  rw [leadingCount, List.take_of_length_le h]
  exact (decimal_digits lines).2.2

theorem leadingCount_le (lines k : ℕ) (hk : 0 < k) : leadingCount lines k ≤ lines := by
  by_cases hall : (decimal lines).length ≤ k
  · exact (leadingCount_all hall).le
  · have hne := (decimal_digits lines).1
    have hfront : (decimal lines).take k ≠ [] := by
      rw [Ne, List.take_eq_nil_iff]
      exact not_or.mpr ⟨hk.ne', hne⟩
    have hback : (decimal lines).drop k ≠ [] := by
      rw [Ne, List.drop_eq_nil_iff]
      exact hall
    have hsplit : (decimal lines).take k ++ (decimal lines).drop k = Nat.toDigits 10 lines := by
      rw [List.take_append_drop, decimal_natCast]
    exact (ofDigitChars_lt hsplit hfront hback).le

theorem scanHeartbeat_digits {numFiles readerId lines k : ℕ} (hreader : readerId < numFiles)
    (hfiles : numFiles ≤ maxFiles) (hlines : lines < 2 ^ 63) (hk : 0 < k) {rest : List Char}
    (hrest : rest.takeWhile Char.isDigit = []) :
    scanHeartbeat numFiles (heartbeatHeader readerId ++ ((decimal lines).take k ++ rest)) =
      some (readerId, int32 (leadingCount lines k)) := by
  obtain ⟨hne, hdigits, hvalue⟩ := decimal_digits readerId
  obtain ⟨hlne, hldigits, -⟩ := decimal_digits lines
  have hsmall : readerId < 2 ^ 31 := by
    have hmax : maxFiles = 128 := rfl
    omega
  have hfront : (decimal lines).take k ≠ [] := by
    rw [Ne, List.take_eq_nil_iff]
    exact not_or.mpr ⟨hk.ne', hlne⟩
  have hdig : ∀ c ∈ (decimal lines).take k, c.isDigit = true :=
    fun c hc => hldigits c (List.mem_of_mem_take hc)
  have hblank : ((decimal lines).take k ++ rest).dropWhile isSpace =
      (decimal lines).take k ++ rest :=
    dropWhile_isSpace hfront (fun c hc => isSpace_of_isDigit (hdig c hc))
  have hreaderNo : scanNumber (decimal readerId ++ ']' :: ' ' :: ((decimal lines).take k ++ rest)) =
      some ((readerId : ℤ), ']' :: ' ' :: ((decimal lines).take k ++ rest)) := by
    rw [scanNumber_digits hne hdigits rfl, hvalue, clampLong_of_lt (by omega)]
  have hcount : scanNumber ((decimal lines).take k ++ rest) =
      some ((leadingCount lines k : ℤ), rest) := by
    have hle := leadingCount_le lines k hk
    rw [scanNumber_digits hfront hdig hrest, ← leadingCount, clampLong_of_lt (by omega)]
  have htext : heartbeatHeader readerId ++ ((decimal lines).take k ++ rest) =
      '[' :: 'R' :: (decimal readerId ++ ']' :: ' ' :: ((decimal lines).take k ++ rest)) := by
    simp [heartbeatHeader]
  have hscan : sscanf heartbeatFormat
      (heartbeatHeader readerId ++ ((decimal lines).take k ++ rest)) =
      [.number readerId, .number (int32 (leadingCount lines k))] := by
    rw [htext, heartbeatFormat, sscanf, if_pos rfl, sscanf, if_pos rfl, sscanf, hreaderNo]
    simp only
    rw [int32_of_lt hsmall, sscanf, if_pos rfl, sscanf_space _ hblank, sscanf, hcount]
    simp only
    rw [sscanf_tail]
  have hrange : (0 : ℤ) ≤ readerId ∧ (readerId : ℤ) < numFiles :=
    ⟨Int.natCast_nonneg _, Int.ofNat_lt.mpr hreader⟩
  simp only [scanHeartbeat, hscan, if_pos hrange, Int.toNat_natCast]

/-- What a message shows of its count when its first `n` characters come in one read. -/
def countSeen (readerId lines n : ℕ) : Option ℤ :=
  if n ≤ (heartbeatHeader readerId).length then none
  else some (int32 (leadingCount lines (n - (heartbeatHeader readerId).length)))

theorem scanHeartbeat_take {numFiles readerId : ℕ} (hreader : readerId < numFiles)
    (hfiles : numFiles ≤ maxFiles) (h : Heartbeat) (n : ℕ) :
    scanHeartbeat numFiles ((h.body readerId).take n) =
      (countSeen readerId h.lines n).map (fun w => (readerId, w)) := by
  unfold Heartbeat.body heartbeatBody countSeen
  split_ifs with hn
  · rw [List.take_append_of_le_length hn, scanHeartbeat_header]
    rfl
  · obtain ⟨k, hk⟩ := Nat.exists_eq_add_of_lt (Nat.lt_of_not_le hn)
    have hsub : n - (heartbeatHeader readerId).length = k + 1 := by omega
    rw [List.take_append, List.take_of_length_le (Nat.le_of_not_le hn), hsub, List.take_append]
    rw [scanHeartbeat_digits hreader hfiles h.fits (Nat.succ_pos k)]
    · rfl
    · cases k + 1 - (decimal h.lines).length <;> rfl

/-! ### One pipe -/

def beginsAt (readerId start : ℕ) : List Heartbeat → List (ℕ × Heartbeat)
  | [] => []
  | h :: hs => (start, h) :: beginsAt readerId (start + ((h.body readerId).length + 1)) hs

/-- The counts that the messages of a pipe show, from where its reads end. -/
def shownCounts (readerId : ℕ) (sent : List Heartbeat) (ends : List ℕ) : List ℤ :=
  (beginsAt readerId 0 sent).filterMap (fun p =>
    countSeen readerId p.2.lines (seenAtOnce ends p.1 (p.2.body readerId).length))

theorem placed_bodies (readerId start : ℕ) (sent : List Heartbeat) :
    placed start (sent.map (Heartbeat.body readerId)) =
      (beginsAt readerId start sent).map (fun p => (p.1, p.2.body readerId)) := by
  induction sent generalizing start with
  | nil => rfl
  | cons h hs ih => rw [List.map_cons, placed, beginsAt, List.map_cons, ih]

theorem notMem_tail {c : Char} (hdigit : c.isDigit = false)
    (hformat : ("R] lines processed".toList.all (fun d => d != c)) = true) (readerId : ℕ)
    (h : Heartbeat) : c ∉ (h.body readerId).tail := by
  intro hc
  have hother : ∀ d ∈ "R] lines processed".toList, d ≠ c := by
    intro d hd
    simpa using List.all_eq_true.mp hformat d hd
  have hblank : [']', ' '] ⊆ "R] lines processed".toList := by decide
  have hwords : " lines processed".toList ⊆ "R] lines processed".toList := by decide
  have hnumber : ∀ n : ℕ, c ∉ decimal n := by
    intro n hn
    rw [(decimal_digits n).2.1 c hn] at hdigit
    cases hdigit
  have htail : (h.body readerId).tail =
      'R' :: (decimal readerId ++ [']', ' ']) ++ (decimal h.lines ++ " lines processed".toList) :=
      rfl
  rw [htail] at hc
  rcases List.mem_append.mp hc with hc | hc
  · rcases List.mem_cons.mp hc with rfl | hc
    · exact hother 'R' (by decide) rfl
    · rcases List.mem_append.mp hc with hc | hc
      · exact hnumber readerId hc
      · exact hother c (hblank hc) rfl
  · rcases List.mem_append.mp hc with hc | hc
    · exact hnumber h.lines hc
    · exact hother c (hwords hc) rfl

theorem notMem_body {c : Char} (hdigit : c.isDigit = false)
    (hformat : ("R] lines processed".toList.all (fun d => d != c)) = true) (hfirst : c ≠ '[')
    (readerId : ℕ) (h : Heartbeat) : c ∉ h.body readerId := by
  intro hc
  rcases List.mem_cons.mp hc with heq | hc
  · exact hfirst heq
  · exact notMem_tail hdigit hformat readerId h hc

theorem flatMap_handleRead {numFiles readerId : ℕ} (hreader : readerId < numFiles)
    (hfiles : numFiles ≤ maxFiles) {sent : List Heartbeat} {chunks : List (List Char)}
    (h : chunks.flatten = (sent.map (fun m => m.body readerId ++ ['\n'])).flatten) :
    chunks.flatMap (handleRead numFiles) =
      (shownCounts readerId sent (readEnds 0 chunks)).map (fun w => (readerId, w)) := by
  have hstream : chunks.flatten = stream '\n' (sent.map (Heartbeat.body readerId)) := by
    rw [h, stream, List.map_map]
    rfl
  have hnul : ∀ chunk ∈ chunks, '\x00' ∉ chunk := by
    intro chunk hchunk hmem
    have hin : '\x00' ∈ chunks.flatten := List.mem_flatten.mpr ⟨chunk, hchunk, hmem⟩
    rw [h] at hin
    obtain ⟨text, htext, hc⟩ := List.mem_flatten.mp hin
    obtain ⟨m, -, rfl⟩ := List.mem_map.mp htext
    rcases List.mem_append.mp hc with hc | hc
    · exact notMem_body (by decide) (by decide) (by decide) readerId m hc
    · simp at hc
  have hplain : ∀ chunk ∈ chunks,
      handleRead numFiles chunk = decodeRead '\n' (scanHeartbeat numFiles) chunk := by
    intro chunk hchunk
    rw [handleRead, cString_of_notMem (hnul chunk hchunk)]
  rw [List.flatMap_congr hplain, flatMap_decodeRead rfl _ _ hstream, placed_bodies,
      List.filterMap_map,
    shownCounts, List.map_filterMap]
  · apply List.filterMap_congr
    intro p _
    exact scanHeartbeat_take hreader hfiles p.2 _
  · intro b hb
    obtain ⟨m, -, rfl⟩ := List.mem_map.mp hb
    exact notMem_body (by decide) (by decide) (by decide) readerId m
  · intro b hb k n
    obtain ⟨m, -, rfl⟩ := List.mem_map.mp hb
    apply scanHeartbeat_of_head_ne
    intro hc
    exact notMem_tail (by decide) (by decide) readerId m
        (List.mem_of_mem_drop (List.mem_of_mem_take hc))

/-! ### All pipes -/

def pipeReads (readerId : ℕ) (reads : List (ℕ × List Char)) : List (List Char) :=
  (reads.filter (fun p => p.1 = readerId)).map Prod.snd

structure ReadsWhole (numFiles : ℕ) (sent : ℕ → List Heartbeat) (reads : List (ℕ × List Char)) :
    Prop where
  pipe : ∀ p ∈ reads, p.1 < numFiles
  whole : ∀ r < numFiles, (pipeReads r reads).flatten =
    ((sent r).filterMap (fun m => sendHeartbeat r m.lines)).flatten

theorem ReadsWhole.bodies {numFiles : ℕ} {sent : ℕ → List Heartbeat} {reads : List (ℕ × List Char)}
    (h : ReadsWhole numFiles sent reads) {r : ℕ} (hr : r < numFiles) :
    (pipeReads r reads).flatten = ((sent r).map (fun m => m.body r ++ ['\n'])).flatten := by
  rw [h.whole r hr, filterMap_sendHeartbeat]

theorem filter_flatMap_of_key {reads : List (ℕ × List Char)} {f : List Char → List (ℕ × ℤ)}
    (h : ∀ p ∈ reads, ∀ a ∈ f p.2, a.1 = p.1) (r : ℕ) :
    (reads.flatMap (fun p => f p.2)).filter (fun a => a.1 = r) = (pipeReads r reads).flatMap f := by
  induction reads with
  | nil => rfl
  | cons p reads ih =>
    have hkey := h p List.mem_cons_self
    rw [List.flatMap_cons, List.filter_append, ih (fun q hq => h q (List.mem_cons_of_mem p hq))]
    by_cases hp : p.1 = r
    · have hall : (f p.2).filter (fun a => a.1 = r) = f p.2 :=
        List.filter_eq_self.mpr (fun a ha => decide_eq_true ((hkey a ha).trans hp))
      simp [pipeReads, hp, hall]
    · have hnone : (f p.2).filter (fun a => a.1 = r) = [] :=
        List.filter_eq_nil_iff.mpr (fun a ha heq =>
        hp ((hkey a ha).symm.trans (of_decide_eq_true heq)))
      simp [pipeReads, hp, hnone]

theorem filter_assignments {numFiles : ℕ} (hfiles : numFiles ≤ maxFiles) {sent : ℕ → List Heartbeat}
    {reads : List (ℕ × List Char)} (h : ReadsWhole numFiles sent reads) {r : ℕ}
    (hr : r < numFiles) :
    (assignments numFiles reads).filter (fun a => a.1 = r) =
      (shownCounts r (sent r) (readEnds 0 (pipeReads r reads))).map (fun w => (r, w)) := by
  rw [← flatMap_handleRead hr hfiles (h.bodies hr), assignments]
  apply filter_flatMap_of_key
  intro p hp a ha
  have hpipe := flatMap_handleRead (h.pipe p hp) hfiles (h.bodies (h.pipe p hp))
  have hin : a ∈ (pipeReads p.1 reads).flatMap (handleRead numFiles) := by
    refine List.mem_flatMap.mpr ⟨p.2, ?_, ha⟩
    exact List.mem_map.mpr ⟨p, List.mem_filter.mpr ⟨hp, by simp⟩, rfl⟩
  rw [hpipe] at hin
  obtain ⟨w, -, rfl⟩ := List.mem_map.mp hin
  rfl

theorem foldl_update_apply (made : List (ℕ × ℤ)) (r : ℕ) :
    made.foldl (fun progress a => Function.update progress a.1 a.2) (fun _ => (0 : ℤ)) r =
      (((made.filter (fun a => a.1 = r)).map Prod.snd).getLast?).getD 0 := by
  induction made using List.reverseRecOn with
  | nil => rfl
  | append_singleton made a ih =>
    rw [List.foldl_append, List.filter_append, List.map_append, List.foldl_cons, List.foldl_nil]
    by_cases ha : a.1 = r
    · subst ha
      simp
    · simp [ha, Ne.symm ha, ih]

theorem progressAfter_apply (made : List (ℕ × ℤ)) (k r : ℕ) :
    progressAfter made k r =
      ((((made.take k).filter (fun a => a.1 = r)).map Prod.snd).getLast?).getD 0 :=
  foldl_update_apply (made.take k) r

theorem progressAfter_zero_or_mem (made : List (ℕ × ℤ)) (k r : ℕ) :
    progressAfter made k r = 0 ∨ (r, progressAfter made k r) ∈ made := by
  rw [progressAfter_apply]
  cases hlast : (((made.take k).filter (fun a => a.1 = r)).map Prod.snd).getLast? with
  | none => exact .inl rfl
  | some w =>
    right
    obtain ⟨a, ha, rfl⟩ := List.mem_map.mp (List.mem_of_getLast? hlast)
    obtain ⟨hmem, hkey⟩ := List.mem_filter.mp ha
    rw [← of_decide_eq_true hkey]
    exact List.mem_of_mem_take hmem

theorem exists_progressAfter {made : List (ℕ × ℤ)} {r : ℕ} {w : ℤ} (h : (r, w) ∈ made) :
    ∃ k, progressAfter made k r = w := by
  obtain ⟨front, back, rfl⟩ := List.append_of_mem h
  refine ⟨front.length + 1, ?_⟩
  have htake : (front ++ (r, w) :: back).take (front.length + 1) = front ++ [(r, w)] := by
    rw [List.take_append, List.take_of_length_le (Nat.le_succ _), Nat.add_sub_cancel_left]
    rfl
  rw [progressAfter_apply, htake, List.filter_append, List.map_append]
  simp

/-- The entry of a reader is zero or a count of a message at every moment, and in the end the
count of the last one, exactly when the messages show such counts where the reads cut them. -/
theorem progress_correct_iff {numFiles : ℕ} (hfiles : numFiles ≤ maxFiles)
    (sent : ℕ → List Heartbeat) (reads : List (ℕ × List Char)) (h : ReadsWhole numFiles sent reads)
    {r : ℕ} (hr : r < numFiles) :
    let made := assignments numFiles reads
    let shown := shownCounts r (sent r) (readEnds 0 (pipeReads r reads))
    ((∀ k, progressAfter made k r = 0 ∨ ∃ m ∈ sent r, progressAfter made k r = m.lines) ∧
      ∀ m, (sent r).getLast? = some m → progressAfter made made.length r = m.lines) ↔
    (∀ w ∈ shown, w = 0 ∨ ∃ m ∈ sent r, w = m.lines) ∧
      ∀ m, (sent r).getLast? = some m → shown.getLast? = some (m.lines : ℤ) := by
  intro made shown
  have hfilter : made.filter (fun a => a.1 = r) = shown.map (fun w => (r, w)) :=
    filter_assignments hfiles h hr
  have hvalues : (made.filter (fun a => a.1 = r)).map Prod.snd = shown := by
    rw [hfilter, List.map_map]
    exact List.map_id _
  have hmem : ∀ w, w ∈ shown ↔ (r, w) ∈ made := by
    intro w
    rw [← hvalues]
    simp
  have hfinal : progressAfter made made.length r = (shown.getLast?).getD 0 := by
    rw [progressAfter_apply, List.take_length, hvalues]
  constructor
  · rintro ⟨hmoments, hlast⟩
    constructor
    · intro w hw
      obtain ⟨k, rfl⟩ := exists_progressAfter ((hmem w).mp hw)
      exact hmoments k
    · intro m hm
      have hm' := hlast m hm
      rw [hfinal] at hm'
      cases hshown : shown.getLast? with
      | none =>
        -- an entry that was never assigned is zero, and no count is
        rw [hshown, Option.getD_none] at hm'
        have hpos := m.pos
        omega
      | some w =>
        rw [hshown, Option.getD_some] at hm'
        rw [hm']
  · rintro ⟨hvalue, hlast⟩
    constructor
    · intro k
      rcases progressAfter_zero_or_mem made k r with hzero | hin
      · exact .inl hzero
      · exact hvalue _ ((hmem _).mpr hin)
    · intro m hm
      rw [hfinal, hlast m hm, Option.getD_some]

/-! ### Heartbeats of one reader -/

theorem fiftieth_pos (i : ℕ) : 0 < 50 * (i % 1000 + 1) := Nat.mul_pos (by decide) (Nat.succ_pos _)

theorem fiftieth_lt (i : ℕ) : 50 * (i % 1000 + 1) < 2 ^ 63 := by omega

def nthHeartbeat (i : ℕ) : Heartbeat where
  lines := 50 * (i % 1000 + 1)
  pos := fiftieth_pos i
  fiftieth := Nat.mul_mod_right 50 _
  fits := fiftieth_lt i

def elevenHeartbeats : ℕ → List Heartbeat := fun _ => (List.range 11).map nthHeartbeat

def elevenTexts : List Char := ((elevenHeartbeats 0).map (fun m => m.body 0 ++ ['\n'])).flatten

/-- All heartbeats wait in the pipe; the first read fills its 255 bytes behind the first digit of 550. -/
def cutReads : List (ℕ × List Char) := [(0, elevenTexts.take 255), (0, elevenTexts.drop 255)]

theorem cutReads_whole : ReadsWhole 1 elevenHeartbeats cutReads := by
  refine ⟨by decide, ?_⟩
  intro r hr
  obtain rfl := Nat.lt_one_iff.mp hr
  have hreads : pipeReads 0 cutReads = [elevenTexts.take 255, elevenTexts.drop 255] := by
    simp [pipeReads, cutReads]
  rw [filterMap_sendHeartbeat, hreads, List.flatten_cons, List.flatten_cons, List.flatten_nil,
      List.append_nil,
    List.take_append_drop]
  rfl

/-- The watchdog shows 5, a count that was never sent, and keeps it to the end. -/
theorem cutReads_wrong :
    ReadsWhole 1 elevenHeartbeats cutReads ∧ (∀ p ∈ cutReads, p.2 ≠ [] ∧ p.2.length ≤ 255) ∧
      progressAfter (assignments 1 cutReads) 11 0 = 5 ∧
      ¬ (∀ k, progressAfter (assignments 1 cutReads) k 0 = 0 ∨
        ∃ m ∈ elevenHeartbeats 0, progressAfter (assignments 1 cutReads) k 0 = m.lines) ∧
      ¬ ∀ m, (elevenHeartbeats 0).getLast? = some m →
        progressAfter (assignments 1 cutReads) (assignments 1 cutReads).length 0 = m.lines := by
  have hmade : assignments 1 cutReads =
      [(0, 50), (0, 100), (0, 150), (0, 200), (0, 250), (0, 300), (0, 350), (0, 400), (0, 450),
        (0, 500), (0, 5)] := by decide +kernel
  have hfive : progressAfter (assignments 1 cutReads) 11 0 = 5 := by
    rw [hmade]
    rfl
  have hend : progressAfter (assignments 1 cutReads) (assignments 1 cutReads).length 0 = 5 := by
    rw [hmade]
    rfl
  refine ⟨cutReads_whole, by decide +kernel, hfive, ?_, ?_⟩
  · intro h
    have hmoment := h 11
    rw [hfive] at hmoment
    have hnever : ∀ m ∈ elevenHeartbeats 0, (5 : ℤ) ≠ m.lines := by
      intro m _ heq
      have hfiftieth := m.fiftieth
      omega
    rcases hmoment with hzero | ⟨m, hm, heq⟩
    · cases hzero
    · exact hnever m hm heq
  · intro h
    have hsent : (elevenHeartbeats 0).getLast? = some (nthHeartbeat 10) := by
      simp [elevenHeartbeats, List.range_succ]
    have hlast := h (nthHeartbeat 10) hsent
    rw [hend] at hlast
    cases hlast

/-- The first read ends between two messages, the second one behind the last digit of 150. -/
def lineReads : List (ℕ × List Char) :=
  [(0, "[R0] 50 lines processed\n".toList),
    (0, "[R0] 100 lines processed\n[R0] 150".toList), (0, " lines processed\n".toList)]

def threeHeartbeats : ℕ → List Heartbeat := fun _ => (List.range 3).map nthHeartbeat

theorem lineReads_whole : ReadsWhole 1 threeHeartbeats lineReads := by
  refine ⟨by decide, ?_⟩
  intro r hr
  obtain rfl := Nat.lt_one_iff.mp hr
  decide

theorem progress_correct_lineReads :
    (∀ k, progressAfter (assignments 1 lineReads) k 0 = 0 ∨
        ∃ m ∈ threeHeartbeats 0, progressAfter (assignments 1 lineReads) k 0 = m.lines) ∧
      ∀ m, (threeHeartbeats 0).getLast? = some m →
        progressAfter (assignments 1 lineReads) (assignments 1 lineReads).length 0 = m.lines := by
  have hshown : shownCounts 0 (threeHeartbeats 0) (readEnds 0 (pipeReads 0 lineReads)) =
      [50, 100, 150] := by decide
  refine (progress_correct_iff (by decide) threeHeartbeats lineReads lineReads_whole
    Nat.one_pos).mpr ⟨?_, ?_⟩
  · rw [hshown]
    simp [threeHeartbeats, nthHeartbeat, List.range_succ]
  · intro m hm
    cases hm
    rw [hshown]
    rfl

end SysProg.HW4

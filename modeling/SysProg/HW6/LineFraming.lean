import SysProg.HW6.Confinement
import SysProg.Lib.LineStream

/-!
# From received bytes to executed lines

`feed_client_data` carries an unfinished line and a discard flag from one `recv`
to the next. What it does to a byte stream is compared with what the lines of
the stream ask for: a line of at most `MAX_LINE` bytes is executed, a longer one
is answered by one `ERR TOOLONG`, and a line that disconnects ends the session.
-/

namespace SysProg.HW6
open SysProg.Lib
variable {cfg : Config} {k : ℕ}

/-! ### The byte machine -/

/-- `line_buf` up to `line_len`, and `discard_long_line`. -/
structure LineBuffer where
  text : List Char
  discard : Bool

inductive LineAction where
  | execute (line : List Char)
  | tooLong
deriving DecidableEq

def LineBuffer.empty : LineBuffer := ⟨[], false⟩

def Client.buffer (c : Client k) : LineBuffer := ⟨c.lineBuf, c.discardLongLine⟩

def Client.hold (c : Client k) (b : LineBuffer) : Client k :=
  { c with lineBuf := b.text, discardLongLine := b.discard }

/-- What the loop body of `feed_client_data` does besides its bookkeeping. -/
def LineBuffer.action (b : LineBuffer) (ch : Char) : Option LineAction :=
  if b.discard then none
  else if ch = '\n' then some (.execute b.text)
  else if maxLine ≤ b.text.length then some .tooLong
  else none

def LineBuffer.next (b : LineBuffer) (ch : Char) : LineBuffer :=
  if b.discard then if ch = '\n' then .empty else b
  else if ch = '\n' then .empty
  else if maxLine ≤ b.text.length then ⟨[], true⟩
  else ⟨b.text ++ [ch], false⟩

def perform (s : State cfg) (i : Fin cfg.maxClients) (now : ℤ) :
    Option LineAction → State cfg × Bool
  | none => (s, false)
  | some (.execute line) => processCommand s i now line
  | some .tooLong => (reply s i "ERR TOOLONG".toList, false)

theorem reply_setClient (s : State cfg) (i : Fin cfg.maxClients) (c : Client cfg.ingredientCount)
    (h : c.fd = (s.clients i).fd) (line : List Char) :
    reply (s.setClient i c) i line = (reply s i line).setClient i c := by
  simp [reply, sendLine, State.setClient, h]

theorem setClient_setClient (s : State cfg) (i : Fin cfg.maxClients)
    (c d : Client cfg.ingredientCount) : (s.setClient i c).setClient i d = s.setClient i d := by
  simp [State.setClient]

theorem setClient_self (s : State cfg) (i : Fin cfg.maxClients) :
    s.setClient i (s.clients i) = s := by
  simp [State.setClient]

theorem feedByte_eq_perform (s : State cfg) (i : Fin cfg.maxClients) (now : ℤ) (ch : Char) :
    feedByte s i now ch =
      perform (s.setClient i ((s.clients i).hold ((s.clients i).buffer.next ch))) i now
        ((s.clients i).buffer.action ch) := by
  simp only [feedByte, LineBuffer.next, LineBuffer.action, Client.buffer]
  by_cases hd : (s.clients i).discardLongLine = true
  · by_cases hn : ch = '\n'
    · simp [hd, hn, perform, Client.hold, LineBuffer.empty]
    · have hsame : (s.clients i).hold ⟨(s.clients i).lineBuf, true⟩ = s.clients i := by
        rw [← hd]
        rfl
      simp [hd, hn, perform, hsame, setClient_self]
  · have hfalse : (s.clients i).discardLongLine = false := by simpa using hd
    by_cases hn : ch = '\n'
    · simp [hfalse, hn, perform, Client.hold, LineBuffer.empty]
    · by_cases hfull : maxLine ≤ (s.clients i).lineBuf.length
      · simp only [hd, hn, hfull, perform, Bool.false_eq_true, ↓reduceIte]
        rw [reply_setClient s i ((s.clients i).hold ⟨[], true⟩) rfl]
        rfl
      · simp [hfalse, hn, hfull, perform, Client.hold]

def LineBuffer.holding (text : List Char) : LineBuffer :=
  if text.length ≤ maxLine then ⟨text, false⟩ else ⟨[], true⟩

theorem next_holding (text : List Char) {ch : Char} (h : ch ≠ '\n') :
    (LineBuffer.holding text).next ch = .holding (text ++ [ch]) := by
  simp only [LineBuffer.holding, LineBuffer.next, List.length_append, List.length_singleton]
  rcases lt_trichotomy text.length maxLine with hlt | heq | hgt
  · simp [hlt.le, h, Nat.succ_le_of_lt hlt, Nat.not_le.mpr hlt]
  · simp [heq, h]
  · simp [Nat.not_le.mpr hgt, h, Nat.not_le.mpr (Nat.lt_succ_of_lt hgt)]

theorem action_holding (text : List Char) {ch : Char} (h : ch ≠ '\n') :
    (LineBuffer.holding text).action ch =
      if text.length = maxLine then some .tooLong else none := by
  simp only [LineBuffer.holding, LineBuffer.action]
  rcases lt_trichotomy text.length maxLine with hlt | heq | hgt
  · simp [hlt.le, hlt.ne, h, Nat.not_le.mpr hlt]
  · simp [heq, h]
  · simp [Nat.not_le.mpr hgt, hgt.ne']

theorem next_newline (text : List Char) : (LineBuffer.holding text).next '\n' = .empty := by
  simp only [LineBuffer.holding, LineBuffer.next]
  split_ifs <;> simp_all

theorem action_newline (text : List Char) : (LineBuffer.holding text).action '\n' =
    if text.length ≤ maxLine then some (.execute text) else none := by
  simp only [LineBuffer.holding, LineBuffer.action]
  split_ifs <;> simp_all

/-! ### The lines of a stream -/

def executeLine (s : State cfg) (i : Fin cfg.maxClients) (now : ℤ) (line : List Char) :
    State cfg × Bool :=
  if line.length ≤ maxLine then processCommand s i now line
  else (reply s i "ERR TOOLONG".toList, false)

/-- An unfinished line is kept, or it is too long already. -/
def holdTail (s : State cfg) (i : Fin cfg.maxClients) (tail : List Char) : State cfg :=
  (if tail.length ≤ maxLine then s else reply s i "ERR TOOLONG".toList).setClient i
    ((s.clients i).hold (.holding tail))

/-- Every line of the stream in turn, each at the time of its newline, up to the
first one that disconnects; then the tail is held. -/
def executeStream (i : Fin cfg.maxClients) (stream : List Char) (clock : ℕ → ℤ) (s : State cfg) :
    State cfg × Bool :=
  andThen
    (runLines (fun n s line => executeLine s i (clock (n + line.length)) line) 0 s
      (cutLines '\n' stream).1)
    (fun t => (holdTail t i (cutLines '\n' stream).2, false))

/-- One `recv` after another; the clock goes on from chunk to chunk. -/
def feedChunks (i : Fin cfg.maxClients) :
    List (List Char) → (ℕ → ℤ) → State cfg → State cfg × Bool
  | [], _, s => (s, false)
  | chunk :: rest, clock, s =>
    let r := feedClientData i chunk clock s
    if r.2 then r else feedChunks i rest (fun n => clock (chunk.length + n)) r.1

theorem feedClientData_eq_feedUntil (i : Fin cfg.maxClients) (chunk : List Char) (clock : ℕ → ℤ)
    (s : State cfg) : feedClientData i chunk clock s =
      feedUntil (fun n s ch => feedByte s i (clock n) ch) 0 s chunk := by
  induction chunk generalizing clock s with
  | nil => rfl
  | cons ch rest ih =>
    simp only [feedClientData, feedUntil, ih]
    have hshift := fun t => feedUntil_shift (fun n s ch => feedByte s i (clock n) ch) 1 0 t rest
    simp only [Nat.add_comm 1] at hshift
    simp only [hshift, andThen]

theorem feedChunks_eq_feedUntil (i : Fin cfg.maxClients) (chunks : List (List Char))
    (clock : ℕ → ℤ) (s : State cfg) : feedChunks i chunks clock s =
      feedUntil (fun n s ch => feedByte s i (clock n) ch) 0 s chunks.flatten := by
  induction chunks generalizing clock s with
  | nil => rfl
  | cons chunk rest ih =>
    simp only [feedChunks, List.flatten_cons, feedUntil_append, feedClientData_eq_feedUntil, ih]
    have hshift := fun t => feedUntil_shift (fun n s ch => feedByte s i (clock n) ch) chunk.length 0
      t rest.flatten
    simp only [Nat.add_zero] at hshift
    simp only [hshift, andThen, Nat.zero_add]

theorem holdTail_clients (s : State cfg) (i : Fin cfg.maxClients) (tail : List Char) :
    (holdTail s i tail).clients i = (s.clients i).hold (.holding tail) :=
  setClient_clients_self _ _ _

theorem hold_buffer_empty {c : Client k} (h : c.buffer = .empty) : c.hold .empty = c := by
  rw [← h]
  rfl

theorem setClient_holdTail (s : State cfg) (i : Fin cfg.maxClients) (text : List Char)
    (c : Client cfg.ingredientCount) : (holdTail s i text).setClient i c =
      (if text.length ≤ maxLine then s else reply s i "ERR TOOLONG".toList).setClient i c :=
  setClient_setClient _ _ _ _

theorem feedByte_holdTail (s : State cfg) (i : Fin cfg.maxClients) (text : List Char) {ch : Char}
    (hch : ch ≠ '\n') (now : ℤ) :
    feedByte (holdTail s i text) i now ch = (holdTail s i (text ++ [ch]), false) := by
  have hbuf : ((holdTail s i text).clients i).buffer = .holding text := by
    rw [holdTail_clients]
    rfl
  have hhold : ((holdTail s i text).clients i).hold (.holding (text ++ [ch])) =
      (s.clients i).hold (.holding (text ++ [ch])) := by
    rw [holdTail_clients]
    rfl
  rw [feedByte_eq_perform, hbuf, next_holding text hch, action_holding text hch, hhold,
    setClient_holdTail, holdTail, List.length_append, List.length_singleton]
  rcases lt_trichotomy text.length maxLine with hlt | heq | hgt
  · rw [if_neg hlt.ne, if_pos hlt.le, if_pos (Nat.succ_le_of_lt hlt)]
    rfl
  · rw [if_pos heq, if_pos heq.le, if_neg (by omega), perform, reply_setClient]
    rfl
  · rw [if_neg hgt.ne', if_neg (Nat.not_le.mpr hgt), if_neg (by omega)]
    rfl

theorem feedByte_newline {s : State cfg} {i : Fin cfg.maxClients}
    (hs : (s.clients i).buffer = .empty) (line : List Char) (now : ℤ) :
    feedByte (holdTail s i line) i now '\n' = executeLine s i now line := by
  have hbuf : ((holdTail s i line).clients i).buffer = .holding line := by
    rw [holdTail_clients]
    rfl
  have hhold : ((holdTail s i line).clients i).hold .empty = s.clients i := by
    rw [holdTail_clients]
    exact hold_buffer_empty hs
  rw [feedByte_eq_perform, hbuf, next_newline, action_newline, hhold, setClient_holdTail,
    executeLine]
  split_ifs with hlen
  · rw [setClient_self]
    rfl
  · have hreply : (reply s i "ERR TOOLONG".toList).clients i = s.clients i := rfl
    rw [← hreply, setClient_self]
    rfl

theorem feedUntil_open {s : State cfg} {i : Fin cfg.maxClients}
    (hs : (s.clients i).buffer = .empty) {text : List Char} (htext : '\n' ∉ text)
    (clock : ℕ → ℤ) (n : ℕ) :
    feedUntil (fun n s ch => feedByte s i (clock n) ch) n s text = (holdTail s i text, false) := by
  induction text using List.reverseRecOn with
  | nil =>
    have hhold : (s.clients i).hold (.holding []) = s.clients i := hold_buffer_empty hs
    rw [feedUntil, holdTail, hhold, List.length_nil, if_pos (Nat.zero_le _), setClient_self]
  | append_singleton text ch ih =>
    simp only [List.mem_append, List.mem_singleton, not_or] at htext
    rw [feedUntil_append, ih htext.1, andThen_go, feedUntil_singleton,
      feedByte_holdTail s i text (Ne.symm htext.2)]

theorem feedUntil_line {s : State cfg} {i : Fin cfg.maxClients}
    (hs : (s.clients i).buffer = .empty) {line : List Char} (hline : '\n' ∉ line)
    (clock : ℕ → ℤ) (n : ℕ) :
    feedUntil (fun n s ch => feedByte s i (clock n) ch) n s (line ++ ['\n']) =
      executeLine s i (clock (n + line.length)) line := by
  rw [feedUntil_append, feedUntil_open hs hline, andThen_go, feedUntil_singleton,
    feedByte_newline hs]

theorem outcome_buffer {s : State cfg} {i : Fin cfg.maxClients} {tokens : List (List Char)}
    {r : State cfg × Bool} (h : Outcome s i tokens r) (hr : r.2 = false) :
    (r.1.clients i).buffer = (s.clients i).buffer := by
  cases h with
  | blank | refused | told => rfl
  | enrolled =>
    simp only [reply, sendLine, enrollClient, setClient_clients_self]
    rfl
  | brewed =>
    simp only [brewStock, reply, sendLine, addStock, Function.update_self]
    rfl
  | consumed =>
    simp only [reply, sendLine, addStock, Function.update_self]
    rfl
  | left => cases hr

theorem buffer_processCommand {s : State cfg} {i : Fin cfg.maxClients} {now : ℤ}
    {line : List Char} (h : (processCommand s i now line).2 = false) :
    ((processCommand s i now line).1.clients i).buffer = (s.clients i).buffer := by
  rw [outcome_buffer (processCommand_outcome s i now line) h, touch, setClient_clients_self]
  rfl

theorem buffer_executeLine {s : State cfg} {i : Fin cfg.maxClients} {now : ℤ} {line : List Char}
    (hs : (s.clients i).buffer = .empty) (h : (executeLine s i now line).2 = false) :
    ((executeLine s i now line).1.clients i).buffer = .empty := by
  unfold executeLine at h ⊢
  split_ifs at h ⊢
  · rw [buffer_processCommand h, hs]
  · exact hs

/-- The chunks of a client whose buffer is empty do what their lines ask for. -/
theorem feedChunks_eq_executeStream {s : State cfg} {i : Fin cfg.maxClients}
    (hs : (s.clients i).buffer = .empty) (chunks : List (List Char)) (clock : ℕ → ℤ) :
    feedChunks i chunks clock s = executeStream i chunks.flatten clock s := by
  set stream := chunks.flatten with hstream
  have hcut := sep_notMem_cutLines '\n' stream
  have hready : ∀ n (t : State cfg) line, (t.clients i).buffer = .empty →
      (executeLine t i (clock (n + line.length)) line).2 = false →
      ((executeLine t i (clock (n + line.length)) line).1.clients i).buffer = .empty :=
    fun n t line ht hgo => buffer_executeLine ht hgo
  have hlines := feedUntil_joinLines (fun t : State cfg => (t.clients i).buffer = .empty) hready
    (fun n t line hmem ht => feedUntil_line ht (hcut.1 line hmem) clock n)
    (cutLines '\n' stream).2 0 hs
  rw [feedChunks_eq_feedUntil, ← hstream]
  nth_rewrite 1 [← joinLines_cutLines '\n' stream]
  rw [hlines, executeStream]
  cases hgo : (runLines (fun n s line => executeLine s i (clock (n + line.length)) line) 0 s
      (cutLines '\n' stream).1).2 with
  | true => rw [andThen_of_stop hgo, andThen_of_stop hgo]
  | false =>
    rw [andThen_of_go hgo, andThen_of_go hgo]
    exact feedUntil_open (ready_runLines _ hready _ _ hs hgo) hcut.2 clock _

/-! ### The actions of a session -/

def LineBuffer.actions : LineBuffer → List Char → List LineAction
  | _, [] => []
  | b, ch :: rest => (b.action ch).toList ++ (b.next ch).actions rest

def lineAction (line : List Char) : LineAction :=
  if line.length ≤ maxLine then .execute line else .tooLong

def tailActions (tail : List Char) : List LineAction :=
  if tail.length ≤ maxLine then [] else [.tooLong]

def streamActions (stream : List Char) : List LineAction :=
  (cutLines '\n' stream).1.map lineAction ++ tailActions (cutLines '\n' stream).2

theorem actions_append (b : LineBuffer) (xs ys : List Char) :
    b.actions (xs ++ ys) = b.actions xs ++ (xs.foldl LineBuffer.next b).actions ys := by
  induction xs generalizing b with
  | nil => rfl
  | cons ch xs ih => simp [LineBuffer.actions, ih]

theorem foldl_next_open {text : List Char} (h : '\n' ∉ text) :
    text.foldl LineBuffer.next .empty = .holding text := by
  induction text using List.reverseRecOn with
  | nil => rfl
  | append_singleton text ch ih =>
    simp only [List.mem_append, List.mem_singleton, not_or] at h
    rw [List.foldl_concat, ih h.1, next_holding text (Ne.symm h.2)]

theorem actions_open {text : List Char} (h : '\n' ∉ text) :
    LineBuffer.empty.actions text = tailActions text := by
  induction text using List.reverseRecOn with
  | nil => rfl
  | append_singleton text ch ih =>
    simp only [List.mem_append, List.mem_singleton, not_or] at h
    rw [actions_append, ih h.1, foldl_next_open h.1]
    simp only [LineBuffer.actions, action_holding text (Ne.symm h.2), List.append_nil, tailActions,
      List.length_append, List.length_singleton]
    rcases lt_trichotomy text.length maxLine with hlt | heq | hgt
    · simp [hlt.le, hlt.ne, Nat.succ_le_of_lt hlt]
    · simp [heq]
    · simp [hgt.ne', Nat.not_le.mpr hgt, Nat.not_le.mpr (Nat.lt_succ_of_lt hgt)]

theorem actions_line {line : List Char} (h : '\n' ∉ line) (rest : List Char) :
    LineBuffer.empty.actions (line ++ ['\n'] ++ rest) =
      lineAction line :: LineBuffer.empty.actions rest := by
  rw [List.append_assoc, actions_append, actions_open h, foldl_next_open h]
  simp only [List.singleton_append, LineBuffer.actions, action_newline, next_newline, tailActions,
    lineAction]
  split_ifs <;> rfl

theorem actions_joinLines {lines : List (List Char)} (hlines : ∀ line ∈ lines, '\n' ∉ line)
    {tail : List Char} (htail : '\n' ∉ tail) :
    LineBuffer.empty.actions (joinLines '\n' lines tail) =
      lines.map lineAction ++ tailActions tail := by
  induction lines with
  | nil => exact actions_open htail
  | cons line lines ih =>
    rw [joinLines_cons, actions_line (hlines line List.mem_cons_self),
      ih (fun l hl => hlines l (List.mem_cons_of_mem _ hl))]
    rfl

theorem actions_empty (stream : List Char) :
    LineBuffer.empty.actions stream = streamActions stream := by
  have hcut := sep_notMem_cutLines '\n' stream
  have h := actions_joinLines hcut.1 hcut.2
  rwa [joinLines_cutLines] at h

/-- The actions of a chunk in the order in which they are performed, each with
the value that `process_command` returned. -/
def feedLog (i : Fin cfg.maxClients) :
    List Char → (ℕ → ℤ) → State cfg → List (LineAction × Bool)
  | [], _, _ => []
  | ch :: rest, clock, s =>
    let r := feedByte s i (clock 0) ch
    ((s.clients i).buffer.action ch).toList.map (·, r.2) ++
      if r.2 then [] else feedLog i rest (fun n => clock (n + 1)) r.1

/-- The actions are those asked for, in order, up to the first one that
disconnects. -/
structure Performs (log : List (LineAction × Bool)) (asked : List LineAction) : Prop where
  inOrder : log.map Prod.fst <+: asked
  stops : ∀ p ∈ log.dropLast, p.2 = false
  complete : (∀ p ∈ log, p.2 = false) → log.map Prod.fst = asked

theorem Performs.nil : Performs [] [] := ⟨List.prefix_refl _, by simp, fun _ => rfl⟩

theorem Performs.append {log log' : List (LineAction × Bool)} {asked asked' : List LineAction}
    (hgo : ∀ p ∈ log, p.2 = false) (hall : log.map Prod.fst = asked) (h : Performs log' asked') :
    Performs (log ++ log') (asked ++ asked') := by
  refine ⟨?_, ?_, ?_⟩
  · rw [List.map_append, hall]
    exact (List.prefix_append_right_inj _).mpr h.inOrder
  · intro p hp
    cases log' with
    | nil => exact hgo p (List.mem_of_mem_dropLast (by simpa using hp))
    | cons q log' =>
      rw [List.dropLast_append_of_ne_nil (List.cons_ne_nil _ _), List.mem_append] at hp
      exact hp.elim (hgo p) (h.stops p)
  · intro hfalse
    rw [List.map_append, hall, h.complete (fun p hp => hfalse p (List.mem_append_right _ hp))]

theorem Performs.stopped {a : LineAction} (asked : List LineAction) :
    Performs [(a, true)] (a :: asked) := by
  refine ⟨?_, by simp, fun h => ?_⟩
  · exact ⟨asked, rfl⟩
  · exact absurd (h _ (List.mem_singleton_self _)) (by simp)

theorem Performs.covers {log : List (LineAction × Bool)} {asked front : List LineAction}
    (h : Performs log asked) (hfront : front <+: asked)
    (hstay : ∀ a ∈ front.dropLast, (a, true) ∉ log) : front <+: log.map Prod.fst := by
  rcases List.prefix_or_prefix_of_prefix hfront h.inOrder with hcovered | ⟨rest, hrest⟩
  · exact hcovered
  · by_cases hne : rest = []
    · subst hne
      rw [List.append_nil] at hrest
      exact hrest ▸ List.prefix_refl _
    · have hunflagged : ∀ p ∈ log, p.2 = false := by
        rintro ⟨a, flag⟩ hp
        have ha : a ∈ front.dropLast := by
          rw [← hrest, List.dropLast_append_of_ne_nil hne]
          exact List.mem_append_left _ (List.mem_map_of_mem hp)
        cases flag with
        | false => rfl
        | true => exact absurd hp (hstay a ha)
      rw [h.complete hunflagged]
      exact hfront

theorem outcome_stop {s : State cfg} {i : Fin cfg.maxClients} {tokens : List (List Char)}
    {r : State cfg × Bool} (h : Outcome s i tokens r) (hr : r.2 = true) :
    (r.1.clients i).fd < 0 := by
  cases h with
  | blank | refused | told | enrolled | brewed | consumed => cases hr
  | left =>
    simp only [disconnectClient]
    split_ifs with hneg
    · exact hneg
    · simp [resetClient, Client.free]

theorem feedByte_go {s : State cfg} {i : Fin cfg.maxClients} {now : ℤ} {ch : Char}
    (h : (feedByte s i now ch).2 = false) :
    ((feedByte s i now ch).1.clients i).buffer = (s.clients i).buffer.next ch := by
  have hset : ((s.setClient i ((s.clients i).hold ((s.clients i).buffer.next ch))).clients i).buffer
      = (s.clients i).buffer.next ch := by
    rw [setClient_clients_self]
    rfl
  rw [feedByte_eq_perform] at h ⊢
  cases ha : (s.clients i).buffer.action ch with
  | none => exact hset
  | some a =>
    rw [ha] at h
    cases a with
    | execute line => exact (buffer_processCommand h).trans hset
    | tooLong => exact hset

theorem feedByte_stop {s : State cfg} {i : Fin cfg.maxClients} {now : ℤ} {ch : Char}
    (h : (feedByte s i now ch).2 = true) :
    (∃ a, (s.clients i).buffer.action ch = some a) ∧
    ((feedByte s i now ch).1.clients i).fd < 0 := by
  rw [feedByte_eq_perform] at h ⊢
  cases ha : (s.clients i).buffer.action ch with
  | none =>
    rw [ha] at h
    cases h
  | some a =>
    rw [ha] at h
    refine ⟨⟨a, rfl⟩, ?_⟩
    cases a with
    | execute line => exact outcome_stop (processCommand_outcome _ i now line) h
    | tooLong => cases h

theorem feedLog_go {i : Fin cfg.maxClients} {chunk : List Char} {clock : ℕ → ℤ} {s : State cfg}
    (h : (feedClientData i chunk clock s).2 = false) :
    (∀ p ∈ feedLog i chunk clock s, p.2 = false) ∧
      (feedLog i chunk clock s).map Prod.fst = (s.clients i).buffer.actions chunk ∧
      ((feedClientData i chunk clock s).1.clients i).buffer =
        chunk.foldl LineBuffer.next (s.clients i).buffer := by
  induction chunk generalizing clock s with
  | nil => exact ⟨by simp [feedLog], rfl, rfl⟩
  | cons ch rest ih =>
    simp only [feedClientData] at h ⊢
    cases hr : (feedByte s i (clock 0) ch).2 with
    | true => simp [hr] at h
    | false =>
      simp only [hr, Bool.false_eq_true, ↓reduceIte] at h
      obtain ⟨hflags, hactions, hbuf⟩ := ih h
      rw [feedByte_go hr] at hactions hbuf
      simp only [feedLog, hr, Bool.false_eq_true, ↓reduceIte]
      refine ⟨?_, ?_, hbuf⟩
      · intro p hp
        rcases List.mem_append.mp hp with hp | hp
        · obtain ⟨a, -, rfl⟩ := List.mem_map.mp hp
          rfl
        · exact hflags p hp
      · simp [LineBuffer.actions, hactions, Function.comp_def]

theorem feedLog_stop {i : Fin cfg.maxClients} {chunk : List Char} {clock : ℕ → ℤ} {s : State cfg}
    (h : (feedClientData i chunk clock s).2 = true) (more : List Char) :
    Performs (feedLog i chunk clock s) ((s.clients i).buffer.actions (chunk ++ more)) ∧
      ((feedClientData i chunk clock s).1.clients i).fd < 0 := by
  induction chunk generalizing clock s with
  | nil => cases h
  | cons ch rest ih =>
    simp only [feedClientData] at h ⊢
    simp only [feedLog, List.cons_append, LineBuffer.actions]
    cases hr : (feedByte s i (clock 0) ch).2 with
    | true =>
      obtain ⟨⟨a, ha⟩, hgone⟩ := feedByte_stop hr
      simp only [ha, ↓reduceIte, List.append_nil, Option.toList_some, List.map_singleton]
      exact ⟨Performs.stopped _, hgone⟩
    | false =>
      simp only [hr, Bool.false_eq_true, ↓reduceIte] at h ⊢
      obtain ⟨hperf, hgone⟩ := ih h
      rw [feedByte_go hr] at hperf
      refine ⟨Performs.append ?_ (by simp [Function.comp_def]) hperf, hgone⟩
      intro p hp
      obtain ⟨b, -, rfl⟩ := List.mem_map.mp hp
      rfl

theorem performs_feedLog (i : Fin cfg.maxClients) (chunk : List Char) (clock : ℕ → ℤ)
    (s : State cfg) : Performs (feedLog i chunk clock s) ((s.clients i).buffer.actions chunk) := by
  cases hstop : (feedClientData i chunk clock s).2 with
  | true => simpa using (feedLog_stop hstop []).1
  | false =>
    obtain ⟨hflags, hactions, -⟩ := feedLog_go hstop
    exact ⟨hactions ▸ List.prefix_refl _, fun p hp => hflags p (List.mem_of_mem_dropLast hp),
      fun _ => hactions⟩

theorem outcome_left {s : State cfg} {i : Fin cfg.maxClients} {tokens : List (List Char)}
    {r : State cfg × Bool} (h : Outcome s i tokens r) (hr : r.2 = true) :
    tokens = ["APPARATE".toList] := by
  cases h with
  | blank | refused | told | enrolled | brewed | consumed => cases hr
  | left htokens => exact htokens

theorem feedByte_left {s : State cfg} {i : Fin cfg.maxClients} {now : ℤ} {ch : Char}
    (h : (feedByte s i now ch).2 = true) {a : LineAction}
    (ha : (s.clients i).buffer.action ch = some a) :
    ∃ line, a = .execute line ∧ tokenize line = ["APPARATE".toList] := by
  rw [feedByte_eq_perform, ha] at h
  cases a with
  | execute line => exact ⟨line, rfl, outcome_left (processCommand_outcome _ i now line) h⟩
  | tooLong => cases h

theorem feedLog_left {i : Fin cfg.maxClients} {chunk : List Char} {clock : ℕ → ℤ} {s : State cfg}
    {a : LineAction} (h : (a, true) ∈ feedLog i chunk clock s) :
    ∃ line, a = .execute line ∧ tokenize line = ["APPARATE".toList] := by
  induction chunk generalizing clock s with
  | nil => simp [feedLog] at h
  | cons ch rest ih =>
    simp only [feedLog, List.mem_append, List.mem_map, Option.mem_toList, Prod.mk.injEq] at h
    rcases h with ⟨b, hb, rfl, hflag⟩ | h
    · exact feedByte_left hflag hb
    · split_ifs at h with hstop
      · simp at h
      · exact ih h

def chunksLog (i : Fin cfg.maxClients) :
    List (List Char) → (ℕ → ℤ) → State cfg → List (LineAction × Bool)
  | [], _, _ => []
  | chunk :: rest, clock, s =>
    let r := feedClientData i chunk clock s
    feedLog i chunk clock s ++
      if r.2 then [] else chunksLog i rest (fun n => clock (chunk.length + n)) r.1

theorem feedLog_append (i : Fin cfg.maxClients) (xs ys : List Char) (clock : ℕ → ℤ)
    (s : State cfg) : feedLog i (xs ++ ys) clock s = feedLog i xs clock s ++
      if (feedClientData i xs clock s).2 then []
      else feedLog i ys (fun n => clock (xs.length + n)) (feedClientData i xs clock s).1 := by
  induction xs generalizing clock s with
  | nil => simp [feedLog, feedClientData]
  | cons ch xs ih =>
    have hclock : (fun n => clock (xs.length + n + 1)) = fun n =>
        clock ((ch :: xs).length + n) := by
      funext n
      rw [List.length_cons, Nat.add_right_comm]
    simp only [List.cons_append, feedLog, feedClientData, ih]
    split_ifs with hstop
    · simp
    · rw [List.append_nil, List.append_nil]
    · rw [hclock, List.append_assoc]

theorem chunksLog_eq (i : Fin cfg.maxClients) (chunks : List (List Char)) (clock : ℕ → ℤ)
    (s : State cfg) : chunksLog i chunks clock s = feedLog i chunks.flatten clock s := by
  induction chunks generalizing clock s with
  | nil => rfl
  | cons chunk rest ih => simp only [chunksLog, List.flatten_cons, feedLog_append, ih]

/-! ### Other events leave the session alone -/

def SlotKept (i : Fin cfg.maxClients) (s s' : State cfg) : Prop :=
  s'.clients i = s.clients i ∨ (s'.clients i).fd < 0

theorem SlotKept.trans {i : Fin cfg.maxClients} {s t u : State cfg} (h : SlotKept i s t)
    (h' : SlotKept i t u) : SlotKept i s u := by
  rcases h' with heq | hneg
  · unfold SlotKept
    rw [heq]
    exact h
  · exact Or.inr hneg

theorem slotKept_foldl {i : Fin cfg.maxClients} {f : State cfg → Fin cfg.maxClients → State cfg}
    (hf : ∀ s j, SlotKept i s (f s j)) (slots : List (Fin cfg.maxClients)) (s : State cfg) :
    SlotKept i s (slots.foldl f s) := by
  induction slots generalizing s with
  | nil => exact Or.inl rfl
  | cons j slots ih => exact (hf s j).trans (ih (f s j))

theorem slotKept_resetClient (i j : Fin cfg.maxClients) (s : State cfg) :
    SlotKept i s (resetClient s j) := by
  unfold SlotKept
  by_cases hij : i = j
  · subst hij
    exact Or.inr (by simp [resetClient, Client.free])
  · exact Or.inl (Function.update_of_ne hij _ _)

theorem slotKept_disconnectClient (i j : Fin cfg.maxClients) (s : State cfg) :
    SlotKept i s (disconnectClient s j) := by
  unfold disconnectClient
  split_ifs
  · exact Or.inl rfl
  · exact slotKept_resetClient i j s

theorem slotKept_expireClient (i : Fin cfg.maxClients) (now : ℤ) (s : State cfg)
    (j : Fin cfg.maxClients) : SlotKept i s (expireClient now s j) := by
  unfold expireClient
  split_ifs
  · exact slotKept_disconnectClient i j (reply s j _)
  · exact Or.inl rfl

theorem slotKept_shutdownClient (i : Fin cfg.maxClients) (s : State cfg)
    (j : Fin cfg.maxClients) : SlotKept i s (shutdownClient s j) := by
  unfold shutdownClient
  split_ifs
  · exact slotKept_resetClient i j (reply s j _)
  · exact Or.inl rfl

theorem slotKept_acceptNewClient {i : Fin cfg.maxClients} {s : State cfg}
    (hc : 0 ≤ (s.clients i).fd) (fd now : ℤ) (allocated : Bool) :
    SlotKept i s (acceptNewClient s fd now allocated) := by
  unfold acceptNewClient
  cases hslot : findFreeSlot s with
  | none => exact Or.inl rfl
  | some j =>
    have hij : i ≠ j := by
      rintro rfl
      have hfree := findFreeSlot_spec hslot
      omega
    cases allocated with
    | true => exact Or.inl (Function.update_of_ne hij _ _)
    | false =>
      refine Or.inl ?_
      simp [resetClient, sendLine, State.setClient, Function.update_of_ne hij]

theorem feedByte_others (s : State cfg) {i j : Fin cfg.maxClients} (hj : j ≠ i) (now : ℤ)
    (ch : Char) : (feedByte s i now ch).1.clients j = s.clients j := by
  have hset : ∀ c, (s.setClient i c).clients j = s.clients j :=
    fun c => Function.update_of_ne hj _ _
  rw [feedByte_eq_perform]
  cases (s.clients i).buffer.action ch with
  | none => exact hset _
  | some a =>
    cases a with
    | execute line =>
      refine (outcome_others (processCommand_outcome _ i now line) hj).trans ?_
      exact (Function.update_of_ne hj _ _).trans (hset _)
    | tooLong => exact hset _

theorem feedClientData_others {i j : Fin cfg.maxClients} (hj : j ≠ i) (chunk : List Char)
    (clock : ℕ → ℤ) (s : State cfg) :
    (feedClientData i chunk clock s).1.clients j = s.clients j := by
  induction chunk generalizing clock s with
  | nil => rfl
  | cons ch rest ih =>
    simp only [feedClientData]
    split_ifs
    · exact feedByte_others s hj _ ch
    · exact (ih _ _).trans (feedByte_others s hj _ ch)

def Action.bytesFor (i : Fin cfg.maxClients) : Action cfg → Option (List Char × (ℕ → ℤ))
  | .recv j chunk clock => if j = i then some (chunk, clock) else none
  | _ => none

theorem step_bytesFor {s s' : State cfg} {a : Action cfg} {i : Fin cfg.maxClients}
    {chunk : List Char} {clock : ℕ → ℤ} (h : step s a = some s')
    (ha : a.bytesFor i = some (chunk, clock)) : s' = (feedClientData i chunk clock s).1 := by
  cases a with
  | recv j chunk' clock' =>
    simp only [Action.bytesFor] at ha
    split_ifs at ha with hji
    simp only [Option.some.injEq, Prod.mk.injEq] at ha
    obtain ⟨rfl, rfl⟩ := ha
    subst hji
    simp only [step] at h
    split_ifs at h
    exact (Option.some.inj h).symm
  | accept | hangup | expire | shutdown => cases ha

theorem step_slotKept {s s' : State cfg} {a : Action cfg} {i : Fin cfg.maxClients}
    (h : step s a = some s') (ha : a.bytesFor i = none) (hc : 0 ≤ (s.clients i).fd) :
    SlotKept i s s' := by
  unfold step at h
  split_ifs at h with hrun
  cases a with
  | accept fd now allocated =>
    simp only at h
    split_ifs at h
    exact Option.some.inj h ▸ slotKept_acceptNewClient hc fd now allocated
  | recv j chunk clock =>
    have hij : i ≠ j := by
      rintro rfl
      simp [Action.bytesFor] at ha
    simp only at h
    split_ifs at h
    exact Option.some.inj h ▸ Or.inl (feedClientData_others hij chunk clock s)
  | hangup j =>
    simp only at h
    split_ifs at h
    exact Option.some.inj h ▸ slotKept_disconnectClient i j s
  | expire now =>
    exact Option.some.inj h ▸ slotKept_foldl (slotKept_expireClient i now) _ s
  | shutdown =>
    obtain rfl := Option.some.inj h
    exact slotKept_foldl (slotKept_shutdownClient i) (List.finRange cfg.maxClients) s

def received (i : Fin cfg.maxClients) (as : List (Action cfg)) : List Char :=
  as.flatMap (fun a => ((a.bytesFor i).map Prod.fst).getD [])

def slotLog (i : Fin cfg.maxClients) (tr : List (State cfg × Action cfg)) :
    List (LineAction × Bool) :=
  tr.flatMap (fun p => ((p.2.bytesFor i).map (fun b => feedLog i b.1 b.2 p.1)).getD [])

theorem performs_slotLog {s s' : State cfg} {as : List (Action cfg)} {i : Fin cfg.maxClients}
    (hrun : (machine cfg).run s as = some s')
    (hconn : ∀ p ∈ (machine cfg).trace s as, 0 ≤ (p.1.clients i).fd) :
    Performs (slotLog i ((machine cfg).trace s as))
      ((s.clients i).buffer.actions (received i as)) := by
  -- the unfinished line of the slot is what one chunk hands to the next
  induction as generalizing s with
  | nil => exact Performs.nil
  | cons a as ih =>
    obtain ⟨t, ht, hrest⟩ := Option.bind_eq_some_iff.mp hrun
    simp only [Machine.trace, ht, Option.elim_some, List.mem_cons, forall_eq_or_imp] at hconn
    have hnext : as ≠ [] → 0 ≤ (t.clients i).fd := by
      intro hne
      obtain ⟨b, bs, rfl⟩ := List.exists_cons_of_ne_nil hne
      exact hconn.2 (t, b) (by simp [Machine.trace])
    have htail := ih hrest hconn.2
    simp only [Machine.trace, ht, Option.elim_some, slotLog, received, List.flatMap_cons] at htail ⊢
    cases ha : a.bytesFor i with
    | none =>
      simp only [Option.map_none, Option.getD_none, List.nil_append]
      rcases step_slotKept ht ha hconn.1 with hsame | hgone
      · rwa [hsame] at htail
      · obtain rfl : as = [] := by
          by_contra hne
          have := hnext hne
          omega
        exact Performs.nil
    | some b =>
      obtain ⟨chunk, clock⟩ := b
      have hchunk := step_bytesFor ht ha
      simp only [Option.map_some, Option.getD_some]
      cases hstop : (feedClientData i chunk clock s).2 with
      | false =>
        obtain ⟨hflags, hactions, hbuf⟩ := feedLog_go hstop
        have hbuft : (t.clients i).buffer = chunk.foldl LineBuffer.next (s.clients i).buffer :=
          hchunk ▸ hbuf
        rw [hbuft] at htail
        rw [actions_append]
        exact Performs.append hflags hactions htail
      | true =>
        obtain ⟨hperf, hgone⟩ := feedLog_stop hstop []
        obtain rfl : as = [] := by
          by_contra hne
          have := hnext hne
          rw [hchunk] at this
          omega
        simpa [Machine.trace] using hperf

theorem buffer_acceptNewClient {s : State cfg} (h : (machine cfg).Reachable s)
    {i : Fin cfg.maxClients} (hslot : findFreeSlot s = some i) (fd now : ℤ) :
    ((acceptNewClient s fd now true).clients i).buffer = .empty := by
  have hfree := (tableInvariant_reachable h).free i (findFreeSlot_spec hslot)
  simp only [acceptNewClient, hslot, ↓reduceIte, setClient_clients_self, hfree]
  rfl

/-- A client that connects: whatever chunks its bytes arrive in, the server does
exactly what the lines of the whole stream ask for; and in every run of the
server, whatever happens to other clients in between, its actions for the slot
are those of the stream received so far, up to the line that disconnects. -/
theorem framing_follows_stream {s : State cfg} (h : (machine cfg).Reachable s)
    {i : Fin cfg.maxClients} (hslot : findFreeSlot s = some i) (fd now : ℤ) :
    let t := acceptNewClient s fd now true
    (∀ chunks clock, feedChunks i chunks clock t = executeStream i chunks.flatten clock t) ∧
    ∀ as t', (machine cfg).run t as = some t' →
      (∀ p ∈ (machine cfg).trace t as, 0 ≤ (p.1.clients i).fd) →
      Performs (slotLog i ((machine cfg).trace t as)) (streamActions (received i as)) := by
  intro t
  have hbuf : (t.clients i).buffer = .empty := buffer_acceptNewClient h hslot fd now
  refine ⟨fun chunks clock => feedChunks_eq_executeStream hbuf chunks clock, ?_⟩
  intro as t' hrun hconn
  have hperf := performs_slotLog hrun hconn
  rwa [hbuf, actions_empty] at hperf

def enrollInChunks : List (Action smallSchool) :=
  [.recv firstSlot "ENROLL WIZ".toList (fun _ => 0),
    .recv firstSlot "ARD ada\nBR".toList (fun _ => 0)]

theorem framing_enrollInChunks :
    findFreeSlot (initial smallSchool) = some firstSlot ∧
    Performs (slotLog firstSlot
        ((machine smallSchool).trace (acceptNewClient (initial smallSchool) 5 0 true)
        enrollInChunks))
      (streamActions (received firstSlot enrollInChunks)) := by
  have hslot : findFreeSlot (initial smallSchool) = some firstSlot := by decide
  refine ⟨hslot, ?_⟩
  exact (framing_follows_stream Machine.Reachable.start hslot 5 0).2 enrollInChunks _ rfl
      (by decide)

end SysProg.HW6

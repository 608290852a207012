import SysProg.HW6.MagicCommon
import SysProg.Lib.Execution

/-!
# The Hogwarts server as a transition system

One thread serves a fixed table of client slots. Each turn of its `select` loop
accepts a connection, feeds received bytes to the line buffer of a slot, drops
slots that hung up or expired, or shuts down; the actions are these events, in
any order and with any clock values. Lines written to sockets are collected in
`sent`; failures of `send` are ignored by the server and the log file is left
out. Quantities are `int` values: every stored sum is wrapped.
-/

namespace SysProg.HW6
open SysProg.Lib

/-- The table that `load_ingredients` accepted and the parsed arguments. -/
structure Config where
  ingredientCount : ℕ
  name : Fin ingredientCount → List Char
  initialQty : Fin ingredientCount → ℤ
  maxClients : ℕ
  timeoutSeconds : ℤ
  count_le : ingredientCount ≤ 128
  name_valid : ∀ i, validIngredientName (name i) = true
  qty_pos : ∀ i, 0 < initialQty i
  qty_le : ∀ i, initialQty i ≤ intMax
  maxClients_pos : 0 < maxClients
  timeout_pos : 0 < timeoutSeconds

/-- `line_buf` up to `line_len`; `none` is a `NULL` spellbook. -/
structure Client (k : ℕ) where
  fd : ℤ
  username : List Char
  type : List Char
  lineBuf : List Char
  discardLongLine : Bool
  lastActive : ℤ
  spellbook : Option (Fin k → ℤ)

def Client.free (k : ℕ) : Client k := ⟨-1, [], [], [], false, 0, none⟩

def Client.book {k : ℕ} (c : Client k) (i : Fin k) : ℤ := c.spellbook.elim 0 (fun b => b i)

/-- One accepted `BREW` of the client at `fd`: the values before and after its two
additions. The reply reports `newQty`. -/
structure Brew (k : ℕ) where
  fd : ℤ
  ingredient : Fin k
  qty : ℤ
  oldQty : ℤ
  newQty : ℤ
  oldBook : ℤ
  newBook : ℤ

/-- What departed clients held when they left, and the accepted brews. -/
structure History (k : ℕ) where
  departed : Fin k → ℤ
  brews : List (Brew k)

structure State (cfg : Config) where
  qty : Fin cfg.ingredientCount → ℤ
  clients : Fin cfg.maxClients → Client cfg.ingredientCount
  running : Bool
  sent : List (ℤ × List Char)
  hist : History cfg.ingredientCount

variable {cfg : Config}

def State.setClient (s : State cfg) (i : Fin cfg.maxClients) (c : Client cfg.ingredientCount) :
    State cfg :=
  { s with clients := Function.update s.clients i c }

def sendLine (s : State cfg) (fd : ℤ) (line : List Char) : State cfg :=
  { s with sent := s.sent ++ [(fd, line.take maxLine)] }

def reply (s : State cfg) (i : Fin cfg.maxClients) (line : List Char) : State cfg :=
  sendLine s (s.clients i).fd line

def findIngredient (cfg : Config) (name : List Char) : Option (Fin cfg.ingredientCount) :=
  (List.finRange cfg.ingredientCount).find? (fun i => cfg.name i == name)

def findFreeSlot (s : State cfg) : Option (Fin cfg.maxClients) :=
  (List.finRange cfg.maxClients).find? (fun i => decide ((s.clients i).fd < 0))

def usernameExists (s : State cfg) (username : List Char) : Prop :=
  ∃ j, 0 ≤ (s.clients j).fd ∧ (s.clients j).username ≠ [] ∧ (s.clients j).username = username

instance (s : State cfg) (username : List Char) : Decidable (usernameExists s username) :=
  inferInstanceAs (Decidable (∃ _, _))

/-- `reset_client`, with what the client held added to the history. -/
def resetClient (s : State cfg) (i : Fin cfg.maxClients) : State cfg :=
  { s with
    clients := Function.update s.clients i (.free _)
    hist := { s.hist with
      departed := fun j => s.hist.departed j + (s.clients i).book j } }

def disconnectClient (s : State cfg) (i : Fin cfg.maxClients) : State cfg :=
  if (s.clients i).fd < 0 then s else resetClient s i

/-! ### Commands -/

def wizard : List Char := "WIZARD".toList
def professor : List Char := "PROFESSOR".toList

/-- `char response[MAX_LINE + 1]` filled by `snprintf`. -/
def response (text : List Char) : List Char := snprintf (maxLine + 1) text

def sendUnknown (s : State cfg) (i : Fin cfg.maxClients) (command : List Char) : State cfg :=
  reply s i (response ("ERR UNKNOWN ".toList ++ command))

def handleEnroll (s : State cfg) (i : Fin cfg.maxClients) (tokens : List (List Char)) : State cfg :=
  match tokens with
  | [_, type, username] =>
    if (type ≠ wizard ∧ type ≠ professor) ∨ validUsername username = false then
      reply s i "ERR UNKNOWN ENROLL".toList
    else if (s.clients i).username ≠ [] ∨ usernameExists s username then
      reply s i "ERR ENROLL name_taken".toList
    else
      let c := { s.clients i with
        username := snprintf 32 username
        type := snprintf 16 type }
      reply (s.setClient i c) i (response ("OK ENROLL ".toList ++ c.username))
  | _ => reply s i "ERR UNKNOWN ENROLL".toList

/-- The checks that `handle_brew` and `handle_consume` share: the index and the
quantity, or the reply that refuses the command. -/
def parseStockCommand (s : State cfg) (i : Fin cfg.maxClients) (tokens : List (List Char)) :
    Except (List Char) (Fin cfg.ingredientCount × ℤ) :=
  if (s.clients i).type ≠ wizard then .error "ERR UNAUTHORIZED".toList
  else
    match tokens with
    | [_, name, text] =>
      match parsePositiveInt text with
      | none => .error (response ("ERR UNKNOWN ".toList ++ tokens.headD []))
      | some qty =>
        match findIngredient cfg name with
        | none => .error "ERR UNKNOWN_INGREDIENT".toList
        | some idx => .ok (idx, qty)
    | _ => .error (response ("ERR UNKNOWN ".toList ++ tokens.headD []))

def stockReply (verb : List Char) (cfg : Config) (idx : Fin cfg.ingredientCount) (qty newQty : ℤ) :
    List Char :=
  response (verb ++ cfg.name idx ++ ' ' :: decimal qty ++ ' ' :: decimal newQty)

/-- `ingredients[idx].qty` and `c->spellbook[idx]` both change by `delta`. -/
def addStock (s : State cfg) (i : Fin cfg.maxClients) (idx : Fin cfg.ingredientCount) (delta : ℤ) :
    State cfg :=
  { s with
    qty := Function.update s.qty idx (int32 (s.qty idx + delta))
    clients := Function.update s.clients i { s.clients i with
      spellbook := (s.clients i).spellbook.map (fun book =>
        Function.update book idx (int32 (book idx + delta))) } }

def recordBrew (s : State cfg) (i : Fin cfg.maxClients) (idx : Fin cfg.ingredientCount) (qty : ℤ) :
    Brew cfg.ingredientCount where
  fd := (s.clients i).fd
  ingredient := idx
  qty := qty
  oldQty := s.qty idx
  newQty := (addStock s i idx qty).qty idx
  oldBook := (s.clients i).book idx
  newBook := ((addStock s i idx qty).clients i).book idx

/-- The two additions of `handle_brew` and the reply with the new quantity. -/
def brewStock (s : State cfg) (i : Fin cfg.maxClients) (idx : Fin cfg.ingredientCount) (qty : ℤ) :
    State cfg :=
  let s' := { addStock s i idx qty with
    hist := { s.hist with brews := s.hist.brews ++ [recordBrew s i idx qty] } }
  reply s' i (stockReply "OK BREW ".toList cfg idx qty (s'.qty idx))

def handleBrew (s : State cfg) (i : Fin cfg.maxClients) (tokens : List (List Char)) : State cfg :=
  match parseStockCommand s i tokens with
  | .error line => reply s i line
  | .ok (idx, qty) => brewStock s i idx qty

def handleConsume (s : State cfg) (i : Fin cfg.maxClients) (tokens : List (List Char)) :
    State cfg :=
  match parseStockCommand s i tokens with
  | .error line => reply s i line
  | .ok (idx, qty) =>
    if s.qty idx < qty ∨ (s.clients i).book idx < qty then
      reply s i "ERR INSUFFICIENT_INGREDIENTS".toList
    else
      let s' := addStock s i idx (-qty)
      reply s' i (stockReply "OK CONSUME ".toList cfg idx qty (s'.qty idx))

/-- `append_csv_ingredients` over the given quantities. -/
def csvIngredients (cfg : Config) (onlyNonzero : Bool) (values : Fin cfg.ingredientCount → ℤ) :
    List Char :=
  let listed := (List.finRange cfg.ingredientCount).filter
    (fun i => !(onlyNonzero && decide (values i ≤ 0)))
  appendCsv (maxLine + 1) (listed.map (fun i => cfg.name i ++ ':' :: decimal (values i))) [] true

def handleSpellbook (s : State cfg) (i : Fin cfg.maxClients) (tokens : List (List Char)) :
    State cfg :=
  if (s.clients i).type ≠ wizard then reply s i "ERR UNAUTHORIZED".toList
  else if tokens.length ≠ 1 then sendUnknown s i "SPELLBOOK".toList
  else
    let csv := csvIngredients cfg true (s.clients i).book
    if csv = [] then reply s i "OK SPELLBOOK EMPTY".toList
    else reply s i (response ("OK SPELLBOOK ".toList ++ csv))

def handleInspect (s : State cfg) (i : Fin cfg.maxClients) (tokens : List (List Char)) :
    State cfg :=
  if (s.clients i).type ≠ professor then reply s i "ERR UNAUTHORIZED".toList
  else
    match tokens with
    | [_, name] =>
      match findIngredient cfg name with
      | none => reply s i "ERR UNKNOWN_INGREDIENT".toList
      | some idx => reply s i (response
          ("OK INSPECT ".toList ++ cfg.name idx ++ ' ' :: decimal (s.qty idx)))
    | _ => sendUnknown s i (tokens.headD [])

def handleScroll (s : State cfg) (i : Fin cfg.maxClients) (tokens : List (List Char)) :
    State cfg :=
  if (s.clients i).type ≠ professor then reply s i "ERR UNAUTHORIZED".toList
  else if tokens.length ≠ 1 then sendUnknown s i "SCROLL".toList
  else reply s i (response ("OK SCROLL ".toList ++ csvIngredients cfg false s.qty))

def handleRoster (s : State cfg) (i : Fin cfg.maxClients) (tokens : List (List Char)) :
    State cfg :=
  if (s.clients i).type ≠ professor then reply s i "ERR UNAUTHORIZED".toList
  else if tokens.length ≠ 1 then sendUnknown s i "ROSTER".toList
  else
    let listed := (List.finRange cfg.maxClients).filter
      (fun j => decide (0 ≤ (s.clients j).fd) && (s.clients j).username != [])
    let roster := appendCsv (maxLine + 1) (listed.map (fun j => (s.clients j).username)) [] true
    reply s i (response ("OK ROSTER ".toList ++ roster))

/-- The state after one line and whether the client has been disconnected. -/
def processCommand (s : State cfg) (i : Fin cfg.maxClients) (now : ℤ) (line : List Char) :
    State cfg × Bool :=
  let s := s.setClient i { s.clients i with lastActive := now }
  let tokens := tokenize line
  match tokens with
  | [] => (s, false)
  | command :: _ =>
    if command = "ENROLL".toList then (handleEnroll s i tokens, false)
    else if (s.clients i).username = [] then (reply s i "ERR NOT_ENROLLED".toList, false)
    else if command = "APPARATE".toList then
      if tokens.length ≠ 1 then (sendUnknown s i command, false)
      else (disconnectClient (reply s i "OK APPARATE".toList) i, true)
    else if command = "BREW".toList then (handleBrew s i tokens, false)
    else if command = "CONSUME".toList then (handleConsume s i tokens, false)
    else if command = "SPELLBOOK".toList then (handleSpellbook s i tokens, false)
    else if command = "INSPECT".toList then (handleInspect s i tokens, false)
    else if command = "SCROLL".toList then (handleScroll s i tokens, false)
    else if command = "ROSTER".toList then (handleRoster s i tokens, false)
    else (sendUnknown s i command, false)

/-! ### Events -/

/-- The body of the loop in `feed_client_data`. -/
def feedByte (s : State cfg) (i : Fin cfg.maxClients) (now : ℤ) (ch : Char) : State cfg × Bool :=
  let c := s.clients i
  if c.discardLongLine then
    if ch = '\n' then (s.setClient i { c with discardLongLine := false, lineBuf := [] }, false)
    else (s, false)
  else if ch = '\n' then
    processCommand (s.setClient i { c with lineBuf := [] }) i now c.lineBuf
  else if maxLine ≤ c.lineBuf.length then
    ((reply s i "ERR TOOLONG".toList).setClient i
      { c with discardLongLine := true, lineBuf := [] }, false)
  else (s.setClient i { c with lineBuf := c.lineBuf ++ [ch] }, false)

/-- `clock n` is the time at the `n`-th byte of the chunk. -/
def feedClientData (i : Fin cfg.maxClients) :
    List Char → (ℕ → ℤ) → State cfg → State cfg × Bool
  | [], _, s => (s, false)
  | ch :: rest, clock, s =>
    let r := feedByte s i (clock 0) ch
    if r.2 then r else feedClientData i rest (fun n => clock (n + 1)) r.1

/-- `accept` has returned the descriptor; `calloc` may fail. -/
def acceptNewClient (s : State cfg) (fd now : ℤ) (allocated : Bool) : State cfg :=
  match findFreeSlot s with
  | none => sendLine s fd "ERR HOGWARTS_FULL".toList
  | some i =>
    let s' := s.setClient i { s.clients i with
      fd := fd
      lastActive := now
      spellbook := if allocated then some (fun _ => 0) else none }
    if allocated then s' else resetClient (sendLine s' fd "ERR SERVER".toList) i

def expireClient (now : ℤ) (s : State cfg) (i : Fin cfg.maxClients) : State cfg :=
  if 0 ≤ (s.clients i).fd ∧ cfg.timeoutSeconds ≤ now - (s.clients i).lastActive then
    disconnectClient (reply s i "TIMEOUT DISCONNECT".toList) i
  else s

def disconnectExpiredClients (s : State cfg) (now : ℤ) : State cfg :=
  (List.finRange cfg.maxClients).foldl (expireClient now) s

def shutdownClient (s : State cfg) (i : Fin cfg.maxClients) : State cfg :=
  if 0 ≤ (s.clients i).fd then resetClient (reply s i "SERVER SHUTDOWN".toList) i else s

def shutdownAllClients (s : State cfg) : State cfg :=
  (List.finRange cfg.maxClients).foldl shutdownClient s

inductive Action (cfg : Config) where
  | accept (fd now : ℤ) (allocated : Bool)
  | recv (i : Fin cfg.maxClients) (chunk : List Char) (clock : ℕ → ℤ)
  | hangup (i : Fin cfg.maxClients)
  | expire (now : ℤ)
  | shutdown

def step (s : State cfg) (a : Action cfg) : Option (State cfg) :=
  if s.running then
    match a with
    | .accept fd now allocated =>
      if 0 ≤ fd then some (acceptNewClient s fd now allocated) else none
    | .recv i chunk clock =>
      if 0 ≤ (s.clients i).fd then some (feedClientData i chunk clock s).1 else none
    | .hangup i => if 0 ≤ (s.clients i).fd then some (disconnectClient s i) else none
    | .expire now => some (disconnectExpiredClients s now)
    | .shutdown => some { shutdownAllClients s with running := false }
  else none

def initial (cfg : Config) : State cfg where
  qty := cfg.initialQty
  clients := fun _ => .free _
  running := true
  sent := []
  hist := ⟨fun _ => 0, []⟩

def machine (cfg : Config) : Machine (State cfg) (Action cfg) := ⟨initial cfg, step⟩

end SysProg.HW6

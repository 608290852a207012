import SysProg.HW6.Replies

/-!
# The main loop of the server

Each turn of the loop drops the clients that have been idle for too long, sleeps
in `select` until the next of them would be, and serves what is ready: the
listening socket first, then every slot. What the kernel and the clock answer in
a turn is given. A turn is a run of the server of events, so what holds in every
reachable state of that one holds in the loop. A turn that sleeps to the end of
its timeout is followed by one that drops a client, so the loop does not spin.
-/

namespace SysProg.HW6
open SysProg.Lib
variable {cfg : Config}

/-- The result of `recv`; an error is a hang-up unless it is `EINTR`. -/
inductive Received where
  | bytes (chunk : List Char) (clock : ℕ → ℤ)
  | closed
  | error
  | interrupted

/-- A connection that `accept` returns: its descriptor, the time, and whether
`calloc` finds memory for its spellbook. -/
structure Connection where
  fd : ℤ
  now : ℤ
  allocated : Bool
  fd_nonneg : 0 ≤ fd

/-- The result of `select`. A failing `accept` counts as no connection. -/
inductive Wakeup where
  | interrupted
  | failed
  | timedOut
  | ready (connection : Option Connection) (received : ℤ → Option Received)

/-- What a turn is told: the two values of `time` and the result of `select`. -/
structure Turn where
  now : ℤ
  selectNow : ℤ
  wakeup : Wakeup

/-- The loop of `compute_select_timeout`, on `min_remaining` and `have_clients`. -/
def minRemaining (s : State cfg) (now : ℤ) :
    List (Fin cfg.maxClients) → ℤ × Bool → ℤ × Bool
  | [], found => found
  | i :: rest, found =>
    if 0 ≤ (s.clients i).fd then
      let remaining := cfg.timeoutSeconds - (now - (s.clients i).lastActive)
      let remaining := if remaining < 0 then 0 else remaining
      minRemaining s now rest
        (if !found.2 || decide (remaining < found.1) then remaining else found.1, true)
    else minRemaining s now rest found

/-- The field `tv_sec`. -/
def computeSelectTimeout (s : State cfg) (now : ℤ) : ℤ :=
  let found := minRemaining s now (List.finRange cfg.maxClients) (cfg.timeoutSeconds, false)
  if found.2 then found.1 else cfg.timeoutSeconds

def acceptConnection (s : State cfg) : Option Connection → State cfg
  | none => s
  | some c => acceptNewClient s c.fd c.now c.allocated

def serveSlot (received : ℤ → Option Received) (s : State cfg) (i : Fin cfg.maxClients) :
    State cfg :=
  if 0 ≤ (s.clients i).fd then
    match received (s.clients i).fd with
    | none | some .interrupted => s
    | some .closed | some .error => disconnectClient s i
    | some (.bytes chunk clock) => (feedClientData i chunk clock s).1
  else s

def serverTurn (s : State cfg) (t : Turn) : State cfg × Bool :=
  let s := disconnectExpiredClients s t.now
  match t.wakeup with
  | .interrupted | .timedOut => (s, true)
  | .failed => (s, false)
  | .ready connection received =>
    ((List.finRange cfg.maxClients).foldl (serveSlot received) (acceptConnection s connection),
      true)

/-- Turns until `select` fails or `SIGINT` has arrived, which ends the list. -/
def serverLoop : State cfg → List Turn → State cfg
  | s, [] => s
  | s, t :: rest =>
    let r := serverTurn s t
    if r.2 then serverLoop r.1 rest else r.1

def serve (cfg : Config) (turns : List Turn) : State cfg :=
  { shutdownAllClients (serverLoop (initial cfg) turns) with running := false }

def activeClientCount (s : State cfg) : ℕ :=
  (List.finRange cfg.maxClients).countP (fun i => decide (0 ≤ (s.clients i).fd))

/-! ### A turn is a run of events -/

abbrev Leads : State cfg → State cfg → Prop :=
  Relation.ReflTransGen (fun s s' => ∃ a, step s a = some s')

theorem Leads.reachable {s s' : State cfg} (h : Leads s s') (hs : (machine cfg).Reachable s) :
    (machine cfg).Reachable s' := by
  induction h with
  | refl => exact hs
  | tail _ hlast ih =>
    obtain ⟨a, ha⟩ := hlast
    exact ih.next ha

structure Turned (s s' : State cfg) : Prop where
  leads : Leads s s'
  running : s'.running = true

theorem turned_of_step {s s' : State cfg} {a : Action cfg} (hrun : s.running = true)
    (h : step s a = some s') (ha : a ≠ .shutdown) : Turned s s' :=
  ⟨.single ⟨a, h⟩, by rw [step_running h ha, hrun]⟩

theorem turned_expired {s : State cfg} (hrun : s.running = true) (now : ℤ) :
    Turned s (disconnectExpiredClients s now) :=
  turned_of_step (a := .expire now) hrun (by simp [step, hrun]) (by simp)

theorem turned_acceptConnection {s : State cfg} (hrun : s.running = true)
    (connection : Option Connection) : Turned s (acceptConnection s connection) := by
  cases connection with
  | none => exact ⟨.refl, hrun⟩
  | some c =>
    exact turned_of_step (a := .accept c.fd c.now c.allocated) hrun
      (by simp [step, hrun, c.fd_nonneg, acceptConnection]) (by simp)

theorem turned_serveSlot {s : State cfg} (hrun : s.running = true)
    (received : ℤ → Option Received) (i : Fin cfg.maxClients) :
    Turned s (serveSlot received s i) := by
  have hangup : 0 ≤ (s.clients i).fd → Turned s (disconnectClient s i) := fun hc =>
    turned_of_step (a := .hangup i) hrun (by simp [step, hrun, hc]) (by simp)
  unfold serveSlot
  split_ifs with hc
  · cases received (s.clients i).fd with
    | none => exact ⟨.refl, hrun⟩
    | some result =>
      cases result with
      | interrupted => exact ⟨.refl, hrun⟩
      | closed => exact hangup hc
      | error => exact hangup hc
      | bytes chunk clock =>
        exact turned_of_step (a := .recv i chunk clock) hrun (by simp [step, hrun, hc]) (by simp)
  · exact ⟨.refl, hrun⟩

theorem turned_serveSlots {s : State cfg} (hrun : s.running = true)
    (received : ℤ → Option Received) (slots : List (Fin cfg.maxClients)) :
    Turned s (slots.foldl (serveSlot received) s) := by
  induction slots generalizing s with
  | nil => exact ⟨.refl, hrun⟩
  | cons i slots ih =>
    have hslot := turned_serveSlot hrun received i
    have hrest := ih hslot.running
    exact ⟨hslot.leads.trans hrest.leads, hrest.running⟩

theorem turned_serverTurn {s : State cfg} (hrun : s.running = true) (t : Turn) :
    Turned s (serverTurn s t).1 := by
  have hexpired := turned_expired hrun t.now
  simp only [serverTurn]
  cases t.wakeup with
  | interrupted => exact hexpired
  | failed => exact hexpired
  | timedOut => exact hexpired
  | ready connection received =>
    have haccepted := turned_acceptConnection hexpired.running connection
    have hserved := turned_serveSlots haccepted.running received (List.finRange cfg.maxClients)
    exact ⟨hexpired.leads.trans (haccepted.leads.trans hserved.leads), hserved.running⟩

theorem turned_serverLoop {s : State cfg} (hrun : s.running = true) (turns : List Turn) :
    Turned s (serverLoop s turns) := by
  induction turns generalizing s with
  | nil => exact ⟨.refl, hrun⟩
  | cons t turns ih =>
    have hturn := turned_serverTurn hrun t
    simp only [serverLoop]
    split_ifs
    · have hrest := ih hturn.running
      exact ⟨hturn.leads.trans hrest.leads, hrest.running⟩
    · exact hturn

theorem serve_reachable (cfg : Config) (turns : List Turn) :
    (machine cfg).Reachable (serverLoop (initial cfg) turns) ∧
      (machine cfg).Reachable (serve cfg turns) := by
  have hloop := turned_serverLoop (s := initial cfg) rfl turns
  have hreach := hloop.leads.reachable .start
  refine ⟨hreach, hreach.next (a := .shutdown) ?_⟩
  simp [machine, step, hloop.running, serve]

/-! ### Deadlines -/

def Connected (s : State cfg) (i : Fin cfg.maxClients) : Prop := 0 ≤ (s.clients i).fd

def Expired (s : State cfg) (now : ℤ) (i : Fin cfg.maxClients) : Prop :=
  Connected s i ∧ cfg.timeoutSeconds ≤ now - (s.clients i).lastActive

instance (s : State cfg) (i : Fin cfg.maxClients) : Decidable (Connected s i) :=
  inferInstanceAs (Decidable (_ ≤ _))

instance (s : State cfg) (now : ℤ) (i : Fin cfg.maxClients) : Decidable (Expired s now i) :=
  inferInstanceAs (Decidable (_ ∧ _))

theorem expireClient_clients (now : ℤ) (s : State cfg) (i j : Fin cfg.maxClients) :
    (expireClient now s j).clients i =
      if i = j ∧ Expired s now i then .free _ else s.clients i := by
  by_cases hj : Expired s now j
  · have hexpire : expireClient now s j =
        disconnectClient (reply s j "TIMEOUT DISCONNECT".toList) j := if_pos hj
    have hnot : ¬ ((reply s j "TIMEOUT DISCONNECT".toList).clients j).fd < 0 := not_lt.mpr hj.1
    rw [hexpire, disconnectClient, if_neg hnot]
    by_cases hij : i = j
    · subst hij
      rw [if_pos ⟨rfl, hj⟩]
      simp [resetClient]
    · rw [if_neg (fun h => hij h.1)]
      exact Function.update_of_ne hij _ _
  · have hexpire : expireClient now s j = s := if_neg hj
    rw [hexpire, if_neg]
    rintro ⟨rfl, hi⟩
    exact hj hi

theorem foldl_expireClient_clients (now : ℤ) (slots : List (Fin cfg.maxClients)) (s : State cfg)
    (i : Fin cfg.maxClients) : (slots.foldl (expireClient now) s).clients i =
      if i ∈ slots ∧ Expired s now i then .free _ else s.clients i := by
  induction slots generalizing s with
  | nil => simp
  | cons j slots ih =>
    have hstep := expireClient_clients now s i j
    rw [List.foldl_cons, ih]
    by_cases hgone : i = j ∧ Expired s now i
    · rw [if_pos hgone] at hstep
      have hnot : ¬ (i ∈ slots ∧ Expired (expireClient now s j) now i) := by
        rintro ⟨-, hconnected, -⟩
        rw [Connected, hstep] at hconnected
        simp [Client.free] at hconnected
      rw [if_neg hnot, hstep, if_pos ⟨by simp [hgone.1], hgone.2⟩]
    · rw [if_neg hgone] at hstep
      have hsame : Expired (expireClient now s j) now i ↔ Expired s now i := by
        simp only [Expired, Connected, hstep]
      rw [hstep]
      apply if_congr ?_ rfl rfl
      rw [hsame, List.mem_cons]
      constructor
      · rintro ⟨hmem, hexpired⟩
        exact ⟨Or.inr hmem, hexpired⟩
      · rintro ⟨rfl | hmem, hexpired⟩
        · exact absurd ⟨rfl, hexpired⟩ hgone
        · exact ⟨hmem, hexpired⟩

theorem disconnectExpiredClients_clients (s : State cfg) (now : ℤ) (i : Fin cfg.maxClients) :
    (disconnectExpiredClients s now).clients i =
      if Expired s now i then .free _ else s.clients i := by
  rw [disconnectExpiredClients, foldl_expireClient_clients]
  simp only [List.mem_finRange, true_and]

theorem connected_expired_iff (s : State cfg) (now : ℤ) (i : Fin cfg.maxClients) :
    Connected (disconnectExpiredClients s now) i ↔ Connected s i ∧ ¬ Expired s now i := by
  rw [Connected, disconnectExpiredClients_clients]
  split_ifs with hexpired
  · simp [Client.free, hexpired]
  · simp only [hexpired, not_false_eq_true, and_true]
    exact Iff.rfl

def remaining (s : State cfg) (now : ℤ) (i : Fin cfg.maxClients) : ℤ :=
  max 0 (cfg.timeoutSeconds - (now - (s.clients i).lastActive))

theorem minRemaining_spec (s : State cfg) (now : ℤ) (slots : List (Fin cfg.maxClients))
    {found : ℤ × Bool}
    (hfound : found.2 = true → ∃ i, Connected s i ∧ found.1 = remaining s now i) :
    let r := minRemaining s now slots found
    (r.2 = true → ∃ i, Connected s i ∧ r.1 = remaining s now i) ∧
      (found.2 = true → r.2 = true ∧ r.1 ≤ found.1) ∧
      ∀ i ∈ slots, Connected s i → r.2 = true ∧ r.1 ≤ remaining s now i := by
  induction slots generalizing found with
  | nil =>
    refine ⟨hfound, fun h => ⟨h, le_rfl⟩, ?_⟩
    intro i hi
    cases hi
  | cons j slots ih =>
    by_cases hj : Connected s j
    · have hremaining : (if cfg.timeoutSeconds - (now - (s.clients j).lastActive) < 0 then 0
          else cfg.timeoutSeconds - (now - (s.clients j).lastActive)) = remaining s now j := by
        rw [remaining]
        split_ifs <;> omega
      simp only [minRemaining, if_pos (show 0 ≤ (s.clients j).fd from hj), hremaining]
      set next := if (!found.2 || decide (remaining s now j < found.1)) = true then
        remaining s now j else found.1 with hnext
      have hleast : next ≤ remaining s now j ∧ (found.2 = true → next ≤ found.1) := by
        cases hseen : found.2 with
        | false => simp [hnext, hseen]
        | true =>
          simp only [hnext, hseen, Bool.not_true, Bool.false_or, decide_eq_true_eq]
          split_ifs with hlt
          · exact ⟨le_rfl, fun _ => hlt.le⟩
          · exact ⟨not_lt.mp hlt, fun _ => le_rfl⟩
      have hmeets : ∃ i, Connected s i ∧ next = remaining s now i := by
        by_cases htake : (!found.2 || decide (remaining s now j < found.1)) = true
        · exact ⟨j, hj, if_pos htake⟩
        · have hseen : found.2 = true := by
            by_contra hne
            simp [hne] at htake
          obtain ⟨i, hi, heq⟩ := hfound hseen
          exact ⟨i, hi, (if_neg htake).trans heq⟩
      obtain ⟨hattained, hless, hall⟩ := @ih (next, true) (fun _ => hmeets)
      obtain ⟨hseen, hle⟩ := hless rfl
      refine ⟨hattained, fun h => ⟨hseen, hle.trans (hleast.2 h)⟩, ?_⟩
      intro i hi hconnected
      rcases List.mem_cons.mp hi with rfl | hi
      · exact ⟨hseen, hle.trans hleast.1⟩
      · exact hall i hi hconnected
    · have hskip : minRemaining s now (j :: slots) found = minRemaining s now slots found := by
        rw [minRemaining, if_neg (show ¬ 0 ≤ (s.clients j).fd from hj)]
      rw [hskip]
      obtain ⟨hattained, hless, hall⟩ := ih hfound
      refine ⟨hattained, hless, ?_⟩
      intro i hi hconnected
      rcases List.mem_cons.mp hi with rfl | hi
      · exact absurd hconnected hj
      · exact hall i hi hconnected

theorem computeSelectTimeout_spec (s : State cfg) (now : ℤ) :
    (∀ i, Connected s i → computeSelectTimeout s now ≤ remaining s now i) ∧
      ((∃ i, Connected s i) →
        ∃ i, Connected s i ∧ computeSelectTimeout s now = remaining s now i) := by
  obtain ⟨hattained, -, hall⟩ := @minRemaining_spec cfg s now (List.finRange cfg.maxClients)
    (cfg.timeoutSeconds, false) (by simp)
  unfold computeSelectTimeout
  constructor
  · intro i hi
    obtain ⟨hseen, hle⟩ := hall i (List.mem_finRange i) hi
    rw [if_pos hseen]
    exact hle
  · rintro ⟨i, hi⟩
    obtain ⟨hseen, -⟩ := hall i (List.mem_finRange i) hi
    rw [if_pos hseen]
    exact hattained hseen

/-! ### Turns that sleep for nothing -/

def asleep (s : State cfg) (t : Turn) : State cfg := disconnectExpiredClients s t.now

def Wakeup.isTimeout : Wakeup → Bool
  | .timedOut => true
  | _ => false

def idleTurn (s : State cfg) (t : Turn) : Bool :=
  t.wakeup.isTimeout && decide (0 < activeClientCount (asleep s t))

def Wakeup.allocates : Wakeup → Bool
  | .ready (some c) _ => c.allocated
  | _ => false

def admitsTurn (s : State cfg) (t : Turn) : Bool :=
  t.wakeup.allocates && (findFreeSlot (asleep s t)).isSome

def turnsMade : State cfg → List Turn → List (State cfg × Turn)
  | _, [] => []
  | s, t :: rest => (s, t) :: if (serverTurn s t).2 then turnsMade (serverTurn s t).1 rest else []

def countTurns (p : State cfg → Turn → Bool) (s : State cfg) (turns : List Turn) : ℕ :=
  (turnsMade s turns).countP (fun x => p x.1 x.2)

/-- `select` does not return early for its timeout, and time does not go back. -/
def Punctual : State cfg → List Turn → Prop
  | s, t :: u :: rest =>
    (t.wakeup.isTimeout = true →
      t.selectNow + computeSelectTimeout (asleep s t) t.selectNow ≤ u.now) ∧
      Punctual (serverTurn s t).1 (u :: rest)
  | _, _ => True

instance : (s : State cfg) → (turns : List Turn) → Decidable (Punctual s turns)
  | _, [] => .isTrue trivial
  | _, [_] => .isTrue trivial
  | s, t :: u :: rest =>
    @instDecidableAnd _ _ inferInstance (instDecidablePunctual (serverTurn s t).1 (u :: rest))

theorem countP_lt_of_imp {α : Type*} {p q : α → Bool} {xs : List α}
    (himp : ∀ x ∈ xs, p x = true → q x = true) {x : α} (hx : x ∈ xs) (hq : q x = true)
    (hp : p x = false) : xs.countP p < xs.countP q := by
  obtain ⟨before, after, rfl⟩ := List.append_of_mem hx
  have hbefore : before.countP p ≤ before.countP q :=
    List.countP_mono_left (fun y hy => himp y (List.mem_append_left _ hy))
  have hafter : after.countP p ≤ after.countP q :=
    List.countP_mono_left (fun y hy => himp y (by simp [hy]))
  simp only [List.countP_append, List.countP_cons, hp, hq, if_true, Bool.false_eq_true, if_false]
  omega

theorem activeClientCount_mono {s s' : State cfg} (h : ∀ i, Connected s' i → Connected s i) :
    activeClientCount s' ≤ activeClientCount s := by
  apply List.countP_mono_left
  intro i _ hi
  exact decide_eq_true (h i (of_decide_eq_true hi))

theorem connected_of_fdsKept {s s' : State cfg} (h : FdsKept s s') (i : Fin cfg.maxClients)
    (hi : Connected s' i) : Connected s i := by
  rcases h i with heq | hneg
  · rwa [Connected, ← heq]
  · exact absurd hi (not_le.mpr hneg)

theorem activeClientCount_asleep (s : State cfg) (t : Turn) :
    activeClientCount (asleep s t) ≤ activeClientCount s :=
  activeClientCount_mono (fun i hi => ((connected_expired_iff s t.now i).mp hi).1)

theorem fdsKept_serveSlot (received : ℤ → Option Received) (s : State cfg)
    (i : Fin cfg.maxClients) : FdsKept s (serveSlot received s i) := by
  have hangup := effects_fdsKept (effects_disconnectClient s i)
  unfold serveSlot
  split_ifs with hc
  · cases received (s.clients i).fd with
    | none => exact fun _ => Or.inl rfl
    | some result =>
      cases result with
      | interrupted => exact fun _ => Or.inl rfl
      | closed => exact hangup
      | error => exact hangup
      | bytes chunk clock => exact effects_fdsKept (effects_feedClientData hc chunk clock)
  · exact fun _ => Or.inl rfl

theorem activeClientCount_serveSlots (received : ℤ → Option Received)
    (slots : List (Fin cfg.maxClients)) (s : State cfg) :
    activeClientCount (slots.foldl (serveSlot received) s) ≤ activeClientCount s := by
  induction slots generalizing s with
  | nil => exact le_rfl
  | cons i slots ih =>
    have hslot := activeClientCount_mono (connected_of_fdsKept (fdsKept_serveSlot received s i))
    exact (ih _).trans hslot

theorem countP_update_le {α β : Type*} [DecidableEq α] (p : β → Bool) (f : α → β) (i : α) (x : β)
    {xs : List α} (hxs : xs.Nodup) :
    xs.countP (fun j => p (Function.update f i x j)) ≤ xs.countP (fun j => p (f j)) + 1 := by
  induction xs with
  | nil => simp
  | cons j xs ih =>
    obtain ⟨hj, hrest⟩ := List.nodup_cons.mp hxs
    simp only [List.countP_cons]
    by_cases hij : j = i
    · subst hij
      have hsame : xs.countP (fun k => p (Function.update f j x k)) =
          xs.countP (fun k => p (f k)) := by
        apply List.countP_congr
        intro k hk
        have hne : k ≠ j := by
          rintro rfl
          exact hj hk
        rw [Function.update_of_ne hne]
      rw [hsame]
      split_ifs <;> omega
    · have hle := ih hrest
      rw [Function.update_of_ne hij]
      omega

theorem activeClientCount_accept (s : State cfg) (c : Connection) :
    activeClientCount (acceptNewClient s c.fd c.now c.allocated) ≤
      activeClientCount s + (c.allocated && (findFreeSlot s).isSome).toNat := by
  unfold acceptNewClient
  cases hslot : findFreeSlot s with
  | none => exact Nat.le_add_right _ _
  | some k =>
    cases hallocated : c.allocated with
    | true =>
      simp only [if_true, Option.isSome_some, Bool.and_self, Bool.toNat_true]
      exact countP_update_le (fun client : Client cfg.ingredientCount => decide (0 ≤ client.fd))
        s.clients k _ (List.nodup_finRange _)
    | false =>
      simp only [Bool.false_eq_true, if_false, Bool.false_and, Bool.toNat_false, Nat.add_zero]
      apply activeClientCount_mono
      intro i hi
      by_cases hik : i = k
      · simp [hik, Connected, resetClient, Client.free] at hi
      · simpa [Connected, resetClient, sendLine, State.setClient, Function.update_of_ne hik] using
          hi

theorem activeClientCount_serverTurn (s : State cfg) (t : Turn) :
    activeClientCount (serverTurn s t).1 ≤
      activeClientCount (asleep s t) + (admitsTurn s t).toNat := by
  simp only [serverTurn, admitsTurn]
  cases t.wakeup with
  | interrupted => exact Nat.le_add_right _ _
  | failed => exact Nat.le_add_right _ _
  | timedOut => exact Nat.le_add_right _ _
  | ready connection received =>
    have hserved := activeClientCount_serveSlots received (List.finRange cfg.maxClients)
      (acceptConnection (disconnectExpiredClients s t.now) connection)
    cases connection with
    | none => exact hserved.trans (Nat.le_add_right _ _)
    | some c => exact hserved.trans (activeClientCount_accept (asleep s t) c)

/-- After a sleep that lasted for its timeout the next turn drops a client. -/
theorem idleTurn_drops {s : State cfg} {t u : Turn} (hidle : idleTurn s t = true)
    (hwoken : t.selectNow + computeSelectTimeout (asleep s t) t.selectNow ≤ u.now) :
    activeClientCount (asleep (serverTurn s t).1 u) < activeClientCount (asleep s t) := by
  simp only [idleTurn, Bool.and_eq_true, decide_eq_true_eq] at hidle
  obtain ⟨htimeout, hactive⟩ := hidle
  have hturn : (serverTurn s t).1 = asleep s t := by
    cases hwakeup : t.wakeup with
    | timedOut => simp only [serverTurn, hwakeup, asleep]
    | _ => simp [hwakeup, Wakeup.isTimeout] at htimeout
  obtain ⟨i, -, hi⟩ := List.countP_pos_iff.mp hactive
  obtain ⟨j, hj, hleast⟩ := (computeSelectTimeout_spec (asleep s t) t.selectNow).2
    ⟨i, of_decide_eq_true hi⟩
  have hexpired : Expired (asleep s t) u.now j := by
    refine ⟨hj, ?_⟩
    rw [hleast, remaining] at hwoken
    omega
  rw [hturn]
  apply countP_lt_of_imp (x := j) ?_ (List.mem_finRange j) (decide_eq_true hj)
  · exact decide_eq_false (fun h => ((connected_expired_iff _ _ _).mp h).2 hexpired)
  · intro k _ hk
    exact decide_eq_true ((connected_expired_iff _ _ _).mp (of_decide_eq_true hk)).1

theorem countTurns_cons (p : State cfg → Turn → Bool) (s : State cfg) (t : Turn)
    (rest : List Turn) : countTurns p s (t :: rest) =
      (p s t).toNat + if (serverTurn s t).2 then countTurns p (serverTurn s t).1 rest else 0 := by
  rw [countTurns, turnsMade, List.countP_cons, Nat.add_comm]
  congr 1
  · cases p s t <;> rfl
  · split_ifs <;> rfl

theorem countTurns_idle_le {s : State cfg} {t : Turn} {rest : List Turn}
    (h : Punctual s (t :: rest)) : countTurns idleTurn s (t :: rest) ≤
      activeClientCount (asleep s t) + countTurns admitsTurn s (t :: rest) := by
  induction rest generalizing s t with
  | nil =>
    have hnone : ∀ p : State cfg → Turn → Bool, ∀ s' : State cfg, countTurns p s' [] = 0 :=
      fun _ _ => rfl
    rw [countTurns_cons idleTurn, countTurns_cons admitsTurn, hnone, hnone, ite_self]
    cases hidle : idleTurn s t with
    | false => exact Nat.zero_le _
    | true =>
      simp only [idleTurn, Bool.and_eq_true, decide_eq_true_eq] at hidle
      simp only [Bool.toNat_true]
      omega
  | cons u rest ih =>
    obtain ⟨hwoken, hrest⟩ := h
    have hgo := ih hrest
    have hserved := activeClientCount_serverTurn s t
    have hexpired := activeClientCount_asleep (serverTurn s t).1 u
    rw [countTurns_cons idleTurn s, countTurns_cons admitsTurn s]
    cases hidle : idleTurn s t with
    | false =>
      simp only [Bool.toNat_false]
      split_ifs <;> omega
    | true =>
      have hactive := hidle
      simp only [idleTurn, Bool.and_eq_true, decide_eq_true_eq] at hactive
      have hdrops := idleTurn_drops hidle (hwoken hactive.1)
      simp only [Bool.toNat_true]
      split_ifs <;> omega

/-! ### The whole loop -/

theorem reachable_turnsMade {s : State cfg} (hs : (machine cfg).Reachable s)
    (hrun : s.running = true) (turns : List Turn) :
    ∀ x ∈ turnsMade s turns, (machine cfg).Reachable x.1 ∧ x.1.running = true := by
  induction turns generalizing s with
  | nil => simp [turnsMade]
  | cons t rest ih =>
    have hturn := turned_serverTurn hrun t
    intro x hx
    rw [turnsMade, List.mem_cons] at hx
    rcases hx with rfl | hx
    · exact ⟨hs, hrun⟩
    · split_ifs at hx with hgo
      · exact ih (hturn.leads.reachable hs) hturn.running x hx
      · cases hx

theorem shutdownClients_gone (slots : List (Fin cfg.maxClients)) {s : State cfg}
    {i : Fin cfg.maxClients} (hi : i ∈ slots ∨ ¬ Connected s i) :
    ¬ Connected (slots.foldl shutdownClient s) i := by
  induction slots generalizing s with
  | nil => exact hi.resolve_left List.not_mem_nil
  | cons j slots ih =>
    apply ih
    by_cases hij : i = j
    · subst hij
      apply Or.inr
      rw [shutdownClient]
      split_ifs with hc
      · simp [Connected, resetClient, Client.free]
      · exact hc
    · apply hi.imp (fun hmem => (List.mem_cons.mp hmem).resolve_left hij)
      intro hfree hconnected
      exact hfree (connected_of_fdsKept (effects_fdsKept (effects_shutdownClient s j)) i hconnected)

theorem activeClientCount_serve (cfg : Config) (turns : List Turn) :
    activeClientCount (serve cfg turns) = 0 := by
  apply List.countP_eq_zero.mpr
  intro i _
  have hgone : ¬ Connected (shutdownAllClients (serverLoop (initial cfg) turns)) i :=
    shutdownClients_gone _ (Or.inl (List.mem_finRange i))
  exact fun hconnected => hgone (of_decide_eq_true hconnected)

/-- A client that stays is looked at again no later than at its deadline. -/
def WakesFor (s : State cfg) (t : Turn) (i : Fin cfg.maxClients) : Prop :=
  t.selectNow + computeSelectTimeout s t.selectNow ≤
    max t.selectNow ((s.clients i).lastActive + cfg.timeoutSeconds)

theorem wakesFor_asleep (s : State cfg) (t : Turn) {i : Fin cfg.maxClients}
    (hi : Connected (asleep s t) i) : WakesFor (asleep s t) t i := by
  have hle := (computeSelectTimeout_spec (asleep s t) t.selectNow).1 i hi
  rw [remaining] at hle
  rw [WakesFor]
  omega

/-- Every turn drops the expired clients and no others and sleeps past the deadline of
none that remains, no more turns sleep for nothing than clients have been admitted,
and nobody is connected at the end. -/
theorem serverLoop_deadlines {turns : List Turn} (h : Punctual (initial cfg) turns) :
    (∀ x ∈ turnsMade (initial cfg) turns, (machine cfg).Reachable (asleep x.1 x.2) ∧
      ∀ i, (Connected (asleep x.1 x.2) i ↔ Connected x.1 i ∧ ¬ Expired x.1 x.2.now i) ∧
        (Connected (asleep x.1 x.2) i → WakesFor (asleep x.1 x.2) x.2 i)) ∧
    countTurns idleTurn (initial cfg) turns ≤ countTurns admitsTurn (initial cfg) turns ∧
    (machine cfg).Reachable (serve cfg turns) ∧ activeClientCount (serve cfg turns) = 0 := by
  refine ⟨?_, ?_, (serve_reachable cfg turns).2, activeClientCount_serve cfg turns⟩
  · intro x hx
    obtain ⟨hreach, hrun⟩ := reachable_turnsMade .start rfl turns x hx
    refine ⟨(turned_expired hrun x.2.now).leads.reachable hreach, fun i => ?_⟩
    exact ⟨connected_expired_iff x.1 x.2.now i, wakesFor_asleep x.1 x.2⟩
  · cases turns with
    | nil => exact le_rfl
    | cons t rest =>
      have hle := countTurns_idle_le h
      have hempty : activeClientCount (initial cfg) = 0 :=
        List.countP_eq_zero.mpr (by simp [initial, Client.free])
      have hasleep := activeClientCount_asleep (initial cfg) t
      omega

/-- A client connects, says nothing and is dropped half a minute later. -/
def silentClient : List Turn :=
  [⟨0, 0, .ready (some ⟨5, 0, true, by decide⟩) (fun _ => none)⟩, ⟨1, 1, .timedOut⟩,
    ⟨31, 31, .failed⟩]

theorem serverLoop_silentClient :
    Punctual (initial smallSchool) silentClient ∧
    countTurns idleTurn (initial smallSchool) silentClient = 1 ∧
    countTurns idleTurn (initial smallSchool) silentClient ≤
      countTurns admitsTurn (initial smallSchool) silentClient := by
  have hpunctual : Punctual (initial smallSchool) silentClient := by decide
  exact ⟨hpunctual, by decide, (serverLoop_deadlines hpunctual).2.1⟩

end SysProg.HW6

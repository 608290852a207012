import SysProg.HW6.LineFraming

/-!
# Peers that vanish

A peer closes or resets its connection at any moment, also between two lines
that one step of the server sends. The server writes with `send` and no flags
and leaves `SIGPIPE` at its default, so a line to a peer that has vanished may
kill the process. Whether it does is the choice of the run. A send that fails
without the signal is ignored by the server.
-/

namespace SysProg.HW6
open SysProg.Lib
variable {cfg : Config}

/-- The server, the connections whose peer has vanished, and whether a signal
has killed the process. -/
structure FaultState (cfg : Config) where
  server : State cfg
  gone : ℤ → Bool
  killed : Bool

/-- `leaving n` are the peers that vanish before the last call of `send` for line
number `n` of a step; `raises n` tells whether a failing send raises the signal. -/
inductive FaultAction (cfg : Config) where
  | vanish (fd : ℤ)
  | serve (a : Action cfg) (leaving : ℕ → List ℤ) (raises : ℕ → Bool)

def newlySent (s s' : State cfg) : List (ℤ × List Char) := s'.sent.drop s.sent.length

def leave (gone : ℤ → Bool) (leaving : List ℤ) (fd : ℤ) : Bool := gone fd || decide (fd ∈ leaving)

/-- The lines of a step are sent in order. There is no result when one of them
kills the process. -/
def deliver (leaving : ℕ → List ℤ) (raises : ℕ → Bool) :
    List (ℤ × List Char) → ℕ → (ℤ → Bool) → Option (ℤ → Bool)
  | [], _, gone => some gone
  | (fd, _) :: rest, n, gone =>
    if leave gone (leaving n) fd && raises n then none
    else deliver leaving raises rest (n + 1) (leave gone (leaving n))

/-- A descriptor that `accept` returns belongs to a new connection. -/
def freshGone (gone : ℤ → Bool) : Action cfg → ℤ → Bool
  | .accept fd _ _ => Function.update gone fd false
  | _ => gone

def faultStep (s : FaultState cfg) : FaultAction cfg → Option (FaultState cfg)
  | .vanish fd => if s.killed then none else some { s with gone := Function.update s.gone fd true }
  | .serve a leaving raises =>
    if s.killed then none
    else (step s.server a).map (fun t =>
      (deliver leaving raises (newlySent s.server t) 0 (freshGone s.gone a)).elim
        { s with killed := true } (fun gone => ⟨t, gone, false⟩))

def faultMachine (cfg : Config) : Machine (FaultState cfg) (FaultAction cfg) :=
  ⟨⟨initial cfg, fun _ => false, false⟩, faultStep⟩

def Terminated (s : FaultState cfg) : Prop := s.killed = true ∨ s.server.running = false

/-- The delivery of `SIGINT`, or the failure of `select` that is treated alike. -/
def isStop : FaultAction cfg → Bool
  | .serve .shutdown _ _ => true
  | _ => false

/-! ### When no choice of signals kills -/

def allPresent (leaving : ℕ → List ℤ) : List (ℤ × List Char) → ℕ → (ℤ → Bool) → Bool
  | [], _, _ => true
  | (fd, _) :: rest, n, gone =>
    !leave gone (leaving n) fd && allPresent leaving rest (n + 1) (leave gone (leaving n))

def peersPresent (s : FaultState cfg) : FaultAction cfg → Bool
  | .vanish _ => true
  | .serve a leaving _ => (step s.server a).elim true (fun t =>
      allPresent leaving (newlySent s.server t) 0 (freshGone s.gone a))

theorem deliver_of_present {leaving : ℕ → List ℤ} (raises : ℕ → Bool)
    {lines : List (ℤ × List Char)} {n : ℕ} {gone : ℤ → Bool}
    (h : allPresent leaving lines n gone = true) : deliver leaving raises lines n gone ≠ none := by
  induction lines generalizing n gone with
  | nil => simp [deliver]
  | cons line lines ih =>
    obtain ⟨fd, text⟩ := line
    simp only [allPresent, Bool.and_eq_true, Bool.not_eq_true'] at h
    rw [deliver, h.1, Bool.false_and, if_neg (by simp)]
    exact ih h.2

theorem present_of_deliver {leaving : ℕ → List ℤ} {lines : List (ℤ × List Char)} {n : ℕ}
    {gone : ℤ → Bool} (h : deliver leaving (fun _ => true) lines n gone ≠ none) :
    allPresent leaving lines n gone = true := by
  induction lines generalizing n gone with
  | nil => rfl
  | cons line lines ih =>
    obtain ⟨fd, text⟩ := line
    rw [deliver, Bool.and_true] at h
    split_ifs at h with hgone
    · exact absurd rfl h
    · simp only [allPresent, Bool.and_eq_true, Bool.not_eq_true']
      exact ⟨by simpa using hgone, ih h⟩

theorem faultStep_serve {s s' : FaultState cfg} {a : Action cfg} {leaving : ℕ → List ℤ}
    {raises : ℕ → Bool} (h : faultStep s (.serve a leaving raises) = some s') :
    s.killed = false ∧ ∃ t, step s.server a = some t ∧
      ((deliver leaving raises (newlySent s.server t) 0 (freshGone s.gone a) = none ∧
          s' = { s with killed := true }) ∨
        ∃ gone, deliver leaving raises (newlySent s.server t) 0 (freshGone s.gone a) = some gone ∧
          s' = ⟨t, gone, false⟩) := by
  simp only [faultStep] at h
  split_ifs at h with hkilled
  obtain ⟨t, ht, hs'⟩ := Option.map_eq_some_iff.mp h
  refine ⟨by simpa using hkilled, t, ht, ?_⟩
  cases hd : deliver leaving raises (newlySent s.server t) 0 (freshGone s.gone a) with
  | none => exact .inl ⟨rfl, by rw [← hs', hd]; rfl⟩
  | some gone => exact .inr ⟨gone, rfl, by rw [← hs', hd]; rfl⟩

/-- Exactly the steps that send to a vanished peer can be killed. -/
theorem present_iff_never_killed {s : FaultState cfg} (hs : s.killed = false) {a : Action cfg}
    {leaving : ℕ → List ℤ} {raises : ℕ → Bool} :
    peersPresent s (.serve a leaving raises) = true ↔
      ∀ raises' s', faultStep s (.serve a leaving raises') = some s' → s'.killed = false := by
  constructor
  · intro hpresent raises' s' hstep
    obtain ⟨-, t, ht, hcase⟩ := faultStep_serve hstep
    simp only [peersPresent, ht, Option.elim_some] at hpresent
    rcases hcase with ⟨hnone, -⟩ | ⟨gone, -, rfl⟩
    · exact absurd hnone (deliver_of_present raises' hpresent)
    · rfl
  · intro halways
    cases ht : step s.server a with
    | none => simp [peersPresent, ht]
    | some t =>
      simp only [peersPresent, ht, Option.elim_some]
      refine present_of_deliver (fun hnone => ?_)
      have hstep : faultStep s (.serve a leaving (fun _ => true)) =
          some { s with killed := true } := by
        simp [faultStep, hs, ht, hnone]
      exact absurd (halways _ _ hstep) (by simp)

/-! ### What the server does is what it does without faults -/

theorem effects_running {s s' : State cfg} (h : Effects s s') : s'.running = s.running := by
  induction h with
  | refl => rfl
  | tail _ hlast ih =>
    rw [← ih]
    cases hlast with
    | talk | touch | enroll | brew | consume | leave => rfl

theorem effects_sent {s s' : State cfg} (h : Effects s s') : s.sent <+: s'.sent := by
  induction h with
  | refl => exact List.prefix_refl _
  | tail _ hlast ih =>
    refine ih.trans ?_
    cases hlast with
    | talk | brew => exact List.prefix_append _ _
    | touch | enroll | consume | leave => exact List.prefix_refl _

theorem event_sent {s s' : State cfg} (h : Event s s') : s.sent <+: s'.sent := by
  cases h with
  | serve heff => exact effects_sent heff
  | connect i fd now hfree hfd => exact List.prefix_refl _
  | refuse i fd now line hfree => exact List.prefix_append _ _
  | stop heff =>
    have hsent := effects_sent heff
    exact hsent

theorem append_newlySent {s s' : State cfg} {a : Action cfg} (h : step s a = some s') :
    s.sent ++ newlySent s s' = s'.sent := by
  obtain ⟨lines, hlines⟩ := event_sent (step_event h)
  rw [newlySent, ← hlines, List.drop_left]

theorem acceptNewClient_running (s : State cfg) (fd now : ℤ) (allocated : Bool) :
    (acceptNewClient s fd now allocated).running = s.running := by
  unfold acceptNewClient
  cases findFreeSlot s with
  | none => rfl
  | some i => cases allocated <;> rfl

theorem step_running {s s' : State cfg} {a : Action cfg} (h : step s a = some s')
    (ha : a ≠ .shutdown) : s'.running = s.running := by
  unfold step at h
  split_ifs at h with hrun
  cases a with
  | accept fd now allocated =>
    simp only at h
    split_ifs at h
    exact Option.some.inj h ▸ acceptNewClient_running s fd now allocated
  | recv i chunk clock =>
    simp only at h
    split_ifs at h with hc
    exact Option.some.inj h ▸ effects_running (effects_feedClientData hc chunk clock)
  | hangup i =>
    simp only at h
    split_ifs at h
    exact Option.some.inj h ▸ effects_running (effects_disconnectClient s i)
  | expire now =>
    exact Option.some.inj h ▸ effects_running (effects_foldl (effects_expireClient now) _ s)
  | shutdown => exact absurd rfl ha

theorem hangup_removes_only {s s' : State cfg} {i : Fin cfg.maxClients}
    (h : step s (.hangup i) = some s') :
    OnlyOwn i s s' ∧ (s'.clients i).fd < 0 ∧ s'.sent = s.sent := by
  unfold step at h
  split_ifs at h with hrun
  simp only at h
  split_ifs at h with hc
  obtain rfl := Option.some.inj h
  simp only [disconnectClient, not_lt.mpr hc, ↓reduceIte]
  refine ⟨⟨rfl, fun j hj => Function.update_of_ne hj _ _⟩, ?_, rfl⟩
  simp [resetClient, Client.free]

theorem faultStep_server {s s' : FaultState cfg} {a : FaultAction cfg}
    (h : faultStep s a = some s') :
    s'.server = s.server ∨ ∃ b leaving raises, a = .serve b leaving raises ∧
      step s.server b = some s'.server := by
  cases a with
  | vanish fd =>
    simp only [faultStep] at h
    split_ifs at h
    exact .inl (Option.some.inj h ▸ rfl)
  | serve b leaving raises =>
    obtain ⟨-, t, ht, ⟨-, rfl⟩ | ⟨gone, -, rfl⟩⟩ := faultStep_serve h
    · exact .inl rfl
    · exact .inr ⟨b, leaving, raises, rfl, ht⟩

theorem server_reachable {s : FaultState cfg} (h : (faultMachine cfg).Reachable s) :
    (machine cfg).Reachable s.server := by
  refine h.invariant (P := fun s => (machine cfg).Reachable s.server) Machine.Reachable.start
    (fun s a s' _ hserver hs => ?_)
  rcases faultStep_server hs with hsame | ⟨b, -, -, -, hb⟩
  · rwa [hsame]
  · exact hserver.next hb

/-! ### Isolation -/

theorem terminated_step {s s' : FaultState cfg} {a : FaultAction cfg} (h : faultStep s a = some s')
    (hstop : isStop a = false) (hpresent : peersPresent s a = true) (hend : Terminated s') :
    Terminated s := by
  cases a with
  | vanish fd =>
    simp only [faultStep] at h
    split_ifs at h
    obtain rfl := Option.some.inj h
    exact hend
  | serve b leaving raises =>
    obtain ⟨hkilled, t, ht, hcase⟩ := faultStep_serve h
    have halive := (present_iff_never_killed hkilled).mp hpresent raises s' h
    have hb : b ≠ .shutdown := by
      rintro rfl
      cases hstop
    rcases hend with hend | hend
    · rw [halive] at hend
      cases hend
    · rcases hcase with ⟨-, rfl⟩ | ⟨gone, -, rfl⟩
      · exact Or.inr hend
      · exact Or.inr ((step_running ht hb).symm.trans hend)

/-- In a run in which every line goes to a peer that is there, only a stop
terminates the server, and the server goes through its own states. The condition
is the exact one: a step without it is killed by some choice of signals. The lines
of a step are those it adds, and a peer that vanishes costs the server no more
than its own slot. -/
theorem fault_isolation {tr : List (FaultState cfg × FaultAction cfg)} {s : FaultState cfg}
    (h : (faultMachine cfg).Execution tr s)
    (hpresent : ∀ p ∈ tr, isStop p.2 = false → peersPresent p.1 p.2 = true) :
    (Terminated s → ∃ p ∈ tr, isStop p.2 = true) ∧
    (machine cfg).Reachable s.server ∧
    (s.killed = false → ∀ a leaving raises, peersPresent s (.serve a leaving raises) = true ↔
      ∀ raises' s', faultStep s (.serve a leaving raises') = some s' → s'.killed = false) ∧
    (∀ a t, step s.server a = some t → s.server.sent ++ newlySent s.server t = t.sent) ∧
    ∀ i t, step s.server (.hangup i) = some t →
      OnlyOwn i s.server t ∧ (t.clients i).fd < 0 ∧ t.sent = s.server.sent := by
  refine ⟨?_, server_reachable h.reachable,
    fun hs a leaving raises => present_iff_never_killed hs, fun a t ht => append_newlySent ht,
    fun i t ht => hangup_removes_only ht⟩
  induction h with
  | start =>
    rintro (hkilled | hrunning)
    · cases hkilled
    · cases hrunning
  | @next tr s s' a prior hs ih =>
    intro hend
    have hmem : (s, a) ∈ tr ++ [(s, a)] := List.mem_append_right _ (List.mem_singleton_self _)
    cases hstop : isStop a with
    | true => exact ⟨(s, a), hmem, hstop⟩
    | false =>
      have hlast := hpresent (s, a) hmem hstop
      obtain ⟨p, hp, hpstop⟩ := ih (fun q hq => hpresent q (List.mem_append_left _ hq))
        (terminated_step hs hstop hlast hend)
      exact ⟨p, List.mem_append_left _ hp, hpstop⟩

/-! ### A peer that does not wait for its reply -/

def noneLeaving : ℕ → List ℤ := fun _ => []

def connectAda : FaultAction smallSchool := .serve (.accept 5 0 true) noneLeaving (fun _ => true)

def askSpellbook : FaultAction smallSchool :=
  .serve (.recv firstSlot "SPELLBOOK\n".toList (fun _ => 0)) noneLeaving (fun _ => true)

def polite : List (FaultAction smallSchool) :=
  [connectAda, askSpellbook, .vanish 5, .serve (.hangup firstSlot) noneLeaving (fun _ => true)]

def hasty : List (FaultAction smallSchool) := [connectAda, .vanish 5, askSpellbook]

theorem polite_isSome :
    ((faultMachine smallSchool).run (faultMachine smallSchool).init polite).isSome := by decide

theorem hasty_isSome :
    ((faultMachine smallSchool).run (faultMachine smallSchool).init hasty).isSome := by decide

/-- The reply to a peer that has already vanished kills the server. -/
theorem hasty_kills_server : ∃ tr s, (faultMachine smallSchool).Execution tr s ∧
    Terminated s ∧ ∀ p ∈ tr, isStop p.2 = false :=
  ⟨_, _, Machine.execution_of_isSome hasty_isSome, Or.inl (by decide), by decide⟩

theorem fault_isolation_polite : ∃ tr s, (faultMachine smallSchool).Execution tr s ∧
    (∀ p ∈ tr, isStop p.2 = false) ∧ ¬ Terminated s := by
  have hrun := Machine.execution_of_isSome polite_isSome
  have hstop : ∀ p ∈ (faultMachine smallSchool).trace (faultMachine smallSchool).init polite,
      isStop p.2 = false := by decide
  have hisolated := (fault_isolation hrun (by decide)).1
  refine ⟨_, _, hrun, hstop, fun hend => ?_⟩
  obtain ⟨p, hp, hpstop⟩ := hisolated hend
  rw [hstop p hp] at hpstop
  cases hpstop

end SysProg.HW6

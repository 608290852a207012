import SysProg.HW6.FaultIsolation

/-!
# One answer to each request

Every line that is not blank and every line that is too long gets one answer, on
the connection it came from and in the order of the requests. An answer begins
with `ERR` or with `OK` and the word of its command, so a client that sends
several lines at once can tell which answer belongs to which line. Otherwise a
connection carries one farewell at most, as its last line.
-/

namespace SysProg.HW6
open SysProg.Lib
variable {cfg : Config}

/-! ### What a handler says -/

def Fits (command line : List Char) : Prop := err <+: line ∨ "OK ".toList ++ command <+: line

def Told (s : State cfg) (i : Fin cfg.maxClients) (command : List Char) (s' : State cfg) : Prop :=
  ∃ line, s'.sent = s.sent ++ [((s.clients i).fd, line)] ∧ Fits command line

theorem told_reply {s t : State cfg} {i : Fin cfg.maxClients} {command line : List Char}
    (hsent : t.sent = s.sent) (hfd : (t.clients i).fd = (s.clients i).fd)
    (hcommand : ("OK ".toList ++ command).length ≤ maxLine) (h : Fits command line) :
    Told s i command (reply t i line) := by
  refine ⟨line.take maxLine, ?_, ?_⟩
  · simp only [reply, sendLine, hsent, hfd]
  · rcases h with herr | hok
    · exact Or.inl (isPrefix_take herr (by decide))
    · exact Or.inr (isPrefix_take hok hcommand)

theorem fits_error {command line : List Char} (h : err.isPrefixOf line = true) :
    Fits command line :=
  Or.inl (List.isPrefixOf_iff_prefix.mp h)

theorem told_sendUnknown (s : State cfg) (i : Fin cfg.maxClients) (command text : List Char)
    (hcommand : ("OK ".toList ++ command).length ≤ maxLine) :
    Told s i command (sendUnknown s i text) :=
  told_reply rfl rfl hcommand (Or.inl (isPrefix_response (by decide) (by decide) text))

theorem told_handleEnroll (s : State cfg) (i : Fin cfg.maxClients) (tokens : List (List Char)) :
    Told s i "ENROLL".toList (handleEnroll s i tokens) := by
  unfold handleEnroll
  split
  · split_ifs
    · exact told_reply rfl rfl (by decide) (fits_error (by decide))
    · exact told_reply rfl rfl (by decide) (fits_error (by decide))
    · refine told_reply (by rfl) ?_ (by decide)
        (Or.inr (isPrefix_response (by decide) (by decide) _))
      simp [State.setClient]
  · exact told_reply rfl rfl (by decide) (fits_error (by decide))

theorem told_handleBrew (s : State cfg) (i : Fin cfg.maxClients) (tokens : List (List Char)) :
    Told s i "BREW".toList (handleBrew s i tokens) := by
  unfold handleBrew
  rcases parseStockCommand_cases s i tokens with ⟨line, hp, hline⟩ |
    ⟨verb, name, text, idx, qty, hp, -⟩
  · rw [hp]
    exact told_reply rfl rfl (by decide) (Or.inl hline)
  · rw [hp]
    simp only [brewStock]
    refine told_reply (by rfl) ?_ (by decide) (Or.inr ?_)
    · simp [addStock]
    · simp only [stockReply, List.append_assoc]
      exact isPrefix_response (by decide) (by decide) _

theorem told_handleConsume (s : State cfg) (i : Fin cfg.maxClients) (tokens : List (List Char)) :
    Told s i "CONSUME".toList (handleConsume s i tokens) := by
  unfold handleConsume
  rcases parseStockCommand_cases s i tokens with ⟨line, hp, hline⟩ |
    ⟨verb, name, text, idx, qty, hp, -⟩
  · rw [hp]
    exact told_reply rfl rfl (by decide) (Or.inl hline)
  · rw [hp]
    simp only
    split_ifs
    · exact told_reply rfl rfl (by decide) (fits_error (by decide))
    · refine told_reply (by rfl) ?_ (by decide) (Or.inr ?_)
      · simp [addStock]
      · simp only [stockReply, List.append_assoc]
        exact isPrefix_response (by decide) (by decide) _

theorem told_handleSpellbook (s : State cfg) (i : Fin cfg.maxClients)
    (tokens : List (List Char)) : Told s i "SPELLBOOK".toList (handleSpellbook s i tokens) := by
  simp only [handleSpellbook]
  split_ifs
  · exact told_reply rfl rfl (by decide) (fits_error (by decide))
  · exact told_sendUnknown s i _ _ (by decide)
  · exact told_reply rfl rfl (by decide) (Or.inr (by decide))
  · exact told_reply rfl rfl (by decide) (Or.inr (isPrefix_response (by decide) (by decide) _))

theorem told_handleInspect (s : State cfg) (i : Fin cfg.maxClients) (tokens : List (List Char)) :
    Told s i "INSPECT".toList (handleInspect s i tokens) := by
  unfold handleInspect
  split_ifs
  · exact told_reply rfl rfl (by decide) (fits_error (by decide))
  · split
    · split
      · exact told_reply rfl rfl (by decide) (fits_error (by decide))
      · apply told_reply rfl rfl (by decide) (Or.inr ?_)
        rw [List.append_assoc]
        exact isPrefix_response (by decide) (by decide) _
    · exact told_sendUnknown s i _ _ (by decide)

theorem told_handleScroll (s : State cfg) (i : Fin cfg.maxClients) (tokens : List (List Char)) :
    Told s i "SCROLL".toList (handleScroll s i tokens) := by
  simp only [handleScroll]
  split_ifs
  · exact told_reply rfl rfl (by decide) (fits_error (by decide))
  · exact told_sendUnknown s i _ _ (by decide)
  · exact told_reply rfl rfl (by decide) (Or.inr (isPrefix_response (by decide) (by decide) _))

theorem told_handleRoster (s : State cfg) (i : Fin cfg.maxClients) (tokens : List (List Char)) :
    Told s i "ROSTER".toList (handleRoster s i tokens) := by
  simp only [handleRoster]
  split_ifs
  · exact told_reply rfl rfl (by decide) (fits_error (by decide))
  · exact told_sendUnknown s i _ _ (by decide)
  · exact told_reply rfl rfl (by decide) (Or.inr (isPrefix_response (by decide) (by decide) _))

theorem disconnectClient_sent (s : State cfg) (i : Fin cfg.maxClients) :
    (disconnectClient s i).sent = s.sent := by
  unfold disconnectClient
  split_ifs <;> rfl

theorem Told.weaken {s s' t : State cfg} {i : Fin cfg.maxClients} {command : List Char}
    (h : Told s i command s') (hsent : t.sent = s.sent)
    (hfd : (t.clients i).fd = (s.clients i).fd) : Told t i command s' := by
  obtain ⟨line, hline, hfits⟩ := h
  exact ⟨line, by rw [hline, hsent, hfd], hfits⟩

theorem Told.ite {s : State cfg} {i : Fin cfg.maxClients} {command : List Char} {c : Prop}
    [Decidable c] {r r' : State cfg × Bool} (h : c → Told s i command r.1)
    (h' : ¬c → Told s i command r'.1) : Told s i command (if c then r else r').1 := by
  by_cases hc : c
  · rw [if_pos hc]
    exact h hc
  · rw [if_neg hc]
    exact h' hc

theorem told_processCommand (s : State cfg) (i : Fin cfg.maxClients) (now : ℤ) (line : List Char) :
    (tokenize line = [] ∧ (processCommand s i now line).1.sent = s.sent) ∨
      ∃ command rest, tokenize line = command :: rest ∧
        Told s i command (processCommand s i now line).1 := by
  cases htokens : tokenize line with
  | nil =>
    refine Or.inl ⟨rfl, ?_⟩
    simp only [processCommand, htokens]
    rfl
  | cons command rest =>
    apply Or.inr
    refine ⟨command, rest, rfl, ?_⟩
    have herror : ∀ (t : State cfg) (text : List Char), t.sent = s.sent →
        (t.clients i).fd = (s.clients i).fd → err <+: text → Told s i command (reply t i text) := by
      intro t text hsent hfd herr
      refine ⟨text.take maxLine, ?_, Or.inl (isPrefix_take herr (by decide))⟩
      simp only [reply, sendLine, hsent, hfd]
    have hunknown : ∀ text : List Char, err <+: response ("ERR UNKNOWN ".toList ++ text) :=
      isPrefix_response (by decide) (by decide)
    have hfd : ((touch s i now).clients i).fd = (s.clients i).fd := by simp [touch, State.setClient]
    simp only [processCommand, htokens]
    refine .ite ?_ fun _ => ?_
    · rintro rfl
      exact (told_handleEnroll (touch s i now) i _).weaken rfl hfd.symm
    refine .ite (fun _ => herror _ _ rfl hfd (by decide)) fun _ => ?_
    refine .ite ?_ fun _ => ?_
    · rintro rfl
      refine .ite (fun _ => herror _ _ rfl hfd (hunknown _)) fun _ => ?_
      obtain ⟨text, htext, hfits⟩ := told_reply (s := touch s i now) (t := touch s i now) (i := i)
        rfl rfl (by decide : ("OK ".toList ++ "APPARATE".toList).length ≤ maxLine)
        (Or.inr (by decide) : Fits "APPARATE".toList "OK APPARATE".toList)
      refine ⟨text, (disconnectClient_sent _ _).trans (htext.trans ?_), hfits⟩
      rw [hfd]
      rfl
    refine .ite ?_ fun _ => ?_
    · rintro rfl
      exact (told_handleBrew (touch s i now) i _).weaken rfl hfd.symm
    refine .ite ?_ fun _ => ?_
    · rintro rfl
      exact (told_handleConsume (touch s i now) i _).weaken rfl hfd.symm
    refine .ite ?_ fun _ => ?_
    · rintro rfl
      exact (told_handleSpellbook (touch s i now) i _).weaken rfl hfd.symm
    refine .ite ?_ fun _ => ?_
    · rintro rfl
      exact (told_handleInspect (touch s i now) i _).weaken rfl hfd.symm
    refine .ite ?_ fun _ => ?_
    · rintro rfl
      exact (told_handleScroll (touch s i now) i _).weaken rfl hfd.symm
    refine .ite ?_ fun _ => ?_
    · rintro rfl
      exact (told_handleRoster (touch s i now) i _).weaken rfl hfd.symm
    exact herror _ _ rfl hfd (hunknown _)

/-! ### What is said while a client is served -/

def LineAction.asks : LineAction → Bool
  | .execute line => tokenize line != []
  | .tooLong => true

def Answers : LineAction → List Char → Prop
  | .execute request, line => ∃ command rest, tokenize request = command :: rest ∧ Fits command line
  | .tooLong, line => line = "ERR TOOLONG".toList

/-- One answer to each request, in order, and nothing else. -/
def Said (fd : ℤ) (actions : List LineAction) (s s' : State cfg) : Prop :=
  ∃ answers, s'.sent = s.sent ++ answers.map (fun line => (fd, line)) ∧
    List.Forall₂ Answers (actions.filter LineAction.asks) answers

theorem Said.nothing {fd : ℤ} {s s' : State cfg} (h : s'.sent = s.sent) : Said fd [] s s' :=
  ⟨[], by simpa using h, .nil⟩

theorem Said.append {fd : ℤ} {as bs : List LineAction} {s t u : State cfg} (h : Said fd as s t)
    (h' : Said fd bs t u) : Said fd (as ++ bs) s u := by
  obtain ⟨xs, hsent, hxs⟩ := h
  obtain ⟨ys, hsent', hys⟩ := h'
  refine ⟨xs ++ ys, ?_, ?_⟩
  · rw [hsent', hsent, List.map_append, List.append_assoc]
  · rw [List.filter_append]
    exact List.rel_append hxs hys

theorem said_perform (s : State cfg) (i : Fin cfg.maxClients) (now : ℤ) (a : Option LineAction) :
    Said (s.clients i).fd a.toList s (perform s i now a).1 := by
  cases a with
  | none => exact .nothing rfl
  | some a =>
    cases a with
    | tooLong =>
      refine ⟨["ERR TOOLONG".toList], ?_, ?_⟩
      · simp only [perform, reply, sendLine, List.map_cons, List.map_nil]
        rfl
      · exact .cons rfl .nil
    | execute line =>
      rcases told_processCommand s i now line with ⟨hblank, hsent⟩ |
        ⟨command, rest, htokens, text, hsent, hfits⟩
      · refine ⟨[], by simpa [perform] using hsent, ?_⟩
        simp [LineAction.asks, hblank]
      · refine ⟨[text], by simpa [perform] using hsent, ?_⟩
        have hasks : [LineAction.execute line].filter LineAction.asks = [.execute line] := by
          simp [LineAction.asks, htokens]
        rw [Option.toList_some, hasks]
        exact .cons ⟨command, rest, htokens, hfits⟩ .nil

theorem said_feedByte (s : State cfg) (i : Fin cfg.maxClients) (now : ℤ) (ch : Char) :
    Said (s.clients i).fd ((s.clients i).buffer.action ch).toList s (feedByte s i now ch).1 := by
  have hsaid := said_perform (s.setClient i ((s.clients i).hold ((s.clients i).buffer.next ch))) i
      now
    ((s.clients i).buffer.action ch)
  rw [setClient_clients_self] at hsaid
  rw [feedByte_eq_perform]
  exact hsaid

theorem feedByte_fd {s : State cfg} {i : Fin cfg.maxClients} (hc : 0 ≤ (s.clients i).fd) {now : ℤ}
    {ch : Char} (h : (feedByte s i now ch).2 = false) :
    ((feedByte s i now ch).1.clients i).fd = (s.clients i).fd :=
  ((effects_feedByte hc now ch).2 h).fd

theorem said_feedClientData {i : Fin cfg.maxClients} (chunk : List Char) (clock : ℕ → ℤ)
    {s : State cfg} (hc : 0 ≤ (s.clients i).fd) :
    Said (s.clients i).fd ((feedLog i chunk clock s).map Prod.fst) s
      (feedClientData i chunk clock s).1 := by
  induction chunk generalizing clock s with
  | nil => exact .nothing rfl
  | cons ch rest ih =>
    have hbyte := said_feedByte s i (clock 0) ch
    simp only [feedLog, feedClientData, List.map_append, List.map_map, Function.comp_def,
      List.map_id']
    cases hr : (feedByte s i (clock 0) ch).2 with
    | true =>
      simp only [if_true, List.map_nil, List.append_nil]
      exact hbyte
    | false =>
      simp only [Bool.false_eq_true, if_false]
      have hfd := feedByte_fd hc hr
      have hrest := ih (fun n => clock (n + 1)) (hfd ▸ hc)
      rw [hfd] at hrest
      exact hbyte.append hrest

/-! ### Descriptors of connected clients -/

/-- `accept` does not return a descriptor that is still open. -/
def Fresh (s : State cfg) : Action cfg → Prop
  | .accept fd _ _ => ∀ i, (s.clients i).fd ≠ fd
  | _ => True

instance (s : State cfg) (a : Action cfg) : Decidable (Fresh s a) :=
  match a with
  | .accept fd _ _ => inferInstanceAs (Decidable (∀ i, (s.clients i).fd ≠ fd))
  | .recv _ _ _ | .hangup _ | .expire _ | .shutdown => inferInstanceAs (Decidable True)

def wiredStep (s : State cfg) (a : Action cfg) : Option (State cfg) :=
  if Fresh s a then step s a else none

/-- The server behind a kernel that numbers connections. -/
def wired (cfg : Config) : Machine (State cfg) (Action cfg) := ⟨initial cfg, wiredStep⟩

theorem wiredStep_iff {s s' : State cfg} {a : Action cfg} :
    wiredStep s a = some s' ↔ Fresh s a ∧ step s a = some s' := by
  unfold wiredStep
  split_ifs with hfresh <;> simp [hfresh]

def Distinct (s : State cfg) : Prop :=
  ∀ i j, i ≠ j → 0 ≤ (s.clients i).fd → (s.clients i).fd ≠ (s.clients j).fd

def FdsKept (s s' : State cfg) : Prop :=
  ∀ i, (s'.clients i).fd = (s.clients i).fd ∨ (s'.clients i).fd < 0

theorem fdsKept_update {s s' : State cfg} {i : Fin cfg.maxClients}
    {c : Client cfg.ingredientCount} (hcl : s'.clients = Function.update s.clients i c)
    (hc : c.fd = (s.clients i).fd ∨ c.fd < 0) : FdsKept s s' := by
  intro j
  by_cases hj : j = i
  · rw [hj, hcl, Function.update_self]
    exact hc
  · rw [hcl, Function.update_of_ne hj]
    exact Or.inl rfl

theorem effect_fdsKept {s s' : State cfg} (h : Effect s s') : FdsKept s s' := by
  cases h with
  | talk fd line => exact fun _ => Or.inl rfl
  | touch i c hc hfd => exact fdsKept_update rfl (Or.inl hfd)
  | enroll i => exact fdsKept_update rfl (Or.inl rfl)
  | brew i idx => exact fdsKept_update rfl (Or.inl rfl)
  | consume i idx => exact fdsKept_update rfl (Or.inl rfl)
  | leave i => exact fdsKept_update rfl (Or.inr (by simp [Client.free]))

theorem effects_fdsKept {s s' : State cfg} (h : Effects s s') : FdsKept s s' := by
  induction h with
  | refl => exact fun _ => Or.inl rfl
  | tail _ hlast ih =>
    intro i
    rcases effect_fdsKept hlast i with heq | hneg
    · rw [heq]
      exact ih i
    · exact Or.inr hneg

theorem Distinct.kept {s s' : State cfg} (h : Distinct s) (hkept : FdsKept s s') : Distinct s' := by
  intro i j hij hi
  have hold := (hkept i).resolve_right (by omega)
  rcases hkept j with heq | hneg
  · rw [hold, heq]
    exact h i j hij (hold ▸ hi)
  · omega

theorem distinct_accept {s : State cfg} (h : Distinct s) {fd : ℤ}
    (hnew : ∀ i, (s.clients i).fd ≠ fd)
    (now : ℤ) (allocated : Bool) : Distinct (acceptNewClient s fd now allocated) := by
  unfold acceptNewClient
  cases hslot : findFreeSlot s with
  | none => exact h
  | some k =>
    cases allocated with
    | false =>
      apply h.kept
      simp only [Bool.false_eq_true, if_false]
      intro i
      by_cases hi : i = k
      · exact Or.inr (by simp [hi, resetClient, Client.free])
      · exact Or.inl (by simp [resetClient, sendLine, State.setClient, Function.update_of_ne hi])
    | true =>
      simp only [if_true]
      intro i j hij hi
      by_cases hik : i = k
      · subst hik
        simp only [State.setClient, Function.update_self, Function.update_of_ne (Ne.symm hij)]
        exact (hnew j).symm
      · by_cases hjk : j = k
        · subst hjk
          simp only [State.setClient, Function.update_self, Function.update_of_ne hik]
          exact hnew i
        · simp only [State.setClient, Function.update_of_ne hik, Function.update_of_ne hjk] at hi ⊢
          exact h i j hij hi

theorem step_effects {s s' : State cfg} {a : Action cfg} (h : step s a = some s')
    (ha : ∀ fd now allocated, a ≠ .accept fd now allocated) : FdsKept s s' := by
  unfold step at h
  split_ifs at h with hrun
  cases a with
  | accept fd now allocated => exact absurd rfl (ha fd now allocated)
  | recv i chunk clock =>
    simp only at h
    split_ifs at h with hc
    exact Option.some.inj h ▸ effects_fdsKept (effects_feedClientData hc chunk clock)
  | hangup i =>
    simp only at h
    split_ifs at h with hc
    exact Option.some.inj h ▸ effects_fdsKept (effects_disconnectClient s i)
  | expire now =>
    simp only [Option.some.injEq] at h
    exact h ▸ effects_fdsKept (effects_foldl (effects_expireClient now) _ s)
  | shutdown =>
    obtain rfl := Option.some.inj h
    have hkept := effects_fdsKept
      (effects_foldl effects_shutdownClient (List.finRange cfg.maxClients) s)
    exact fun i => hkept i

theorem distinct_step {s s' : State cfg} {a : Action cfg} (hd : Distinct s) (hfresh : Fresh s a)
    (h : step s a = some s') : Distinct s' := by
  cases a with
  | accept fd now allocated =>
    simp only [step] at h
    split_ifs at h
    exact Option.some.inj h ▸ distinct_accept hd hfresh now allocated
  | _ => exact hd.kept (step_effects h (by simp))

theorem distinct_initial : Distinct (initial cfg) := by
  intro i j hij hi
  simp [initial, Client.free] at hi

theorem distinct_reachable {s : State cfg} (h : (wired cfg).Reachable s) : Distinct s := by
  apply h.invariant distinct_initial
  intro t a t' _ hd hs
  obtain ⟨hfresh, hstep⟩ := wiredStep_iff.mp hs
  exact distinct_step hd hfresh hstep

theorem reachable_of_wired {s : State cfg} (h : (wired cfg).Reachable s) :
    (machine cfg).Reachable s := by
  apply h.invariant (P := (machine cfg).Reachable) .start
  intro t a t' _ hr hs
  exact hr.next (wiredStep_iff.mp hs).2

theorem run_of_wired {s s' : State cfg} {as : List (Action cfg)}
    (h : (wired cfg).run s as = some s') :
    (machine cfg).run s as = some s' ∧ (wired cfg).trace s as = (machine cfg).trace s as := by
  induction as generalizing s with
  | nil => exact ⟨h, rfl⟩
  | cons a as ih =>
    obtain ⟨t, ht, hrest⟩ := Option.bind_eq_some_iff.mp h
    have hstep : (machine cfg).step s a = some t := (wiredStep_iff.mp ht).2
    obtain ⟨hrun, htrace⟩ := ih hrest
    constructor
    · simp only [Machine.run, hstep, Option.bind_some, hrun]
    · simp only [Machine.trace, hstep, ht, Option.elim_some, htrace]

/-! ### The lines of one connection -/

def sentTo (fd : ℤ) (sent : List (ℤ × List Char)) : List (List Char) :=
  (sent.filter (fun p => decide (p.1 = fd))).map Prod.snd

theorem sentTo_append (fd : ℤ) (xs ys : List (ℤ × List Char)) :
    sentTo fd (xs ++ ys) = sentTo fd xs ++ sentTo fd ys := by
  simp only [sentTo, List.filter_append, List.map_append]

theorem sentTo_own (fd : ℤ) (lines : List (List Char)) :
    sentTo fd (lines.map (fun line => (fd, line))) = lines := by
  simp [sentTo, List.filter_map, Function.comp_def]

theorem sentTo_other {fd fd' : ℤ} (h : fd' ≠ fd) (lines : List (List Char)) :
    sentTo fd (lines.map (fun line => (fd', line))) = [] := by
  simp [sentTo, List.filter_map, Function.comp_def, h]

theorem Said.own {fd : ℤ} {actions : List LineAction} {s s' : State cfg}
    (h : Said fd actions s s') : ∃ answers, sentTo fd s'.sent = sentTo fd s.sent ++ answers ∧
      List.Forall₂ Answers (actions.filter LineAction.asks) answers := by
  obtain ⟨answers, hsent, hanswers⟩ := h
  exact ⟨answers, by rw [hsent, sentTo_append, sentTo_own], hanswers⟩

theorem Said.other {fd fd' : ℤ} {actions : List LineAction} {s s' : State cfg} (hne : fd' ≠ fd)
    (h : Said fd' actions s s') : sentTo fd s'.sent = sentTo fd s.sent := by
  obtain ⟨answers, hsent, -⟩ := h
  rw [hsent, sentTo_append, sentTo_other hne, List.append_nil]

/-- A client is left alone, or it is sent the line and its slot is cleared. -/
def Dismissal (line : List Char) (j : Fin cfg.maxClients) (s s' : State cfg) : Prop :=
  s' = s ∨ s'.sent = s.sent ++ [((s.clients j).fd, line)] ∧
    s'.clients = Function.update s.clients j (.free _) ∧ 0 ≤ (s.clients j).fd

theorem dismissal_expireClient (now : ℤ) (s : State cfg) (j : Fin cfg.maxClients) :
    Dismissal "TIMEOUT DISCONNECT".toList j s (expireClient now s j) := by
  unfold expireClient
  split_ifs with hexpired
  · apply Or.inr
    have hnot : ¬ ((reply s j "TIMEOUT DISCONNECT".toList).clients j).fd < 0 :=
        not_lt.mpr hexpired.1
    rw [disconnectClient, if_neg hnot]
    exact ⟨rfl, rfl, hexpired.1⟩
  · exact Or.inl rfl

theorem dismissal_shutdownClient (s : State cfg) (j : Fin cfg.maxClients) :
    Dismissal "SERVER SHUTDOWN".toList j s (shutdownClient s j) := by
  unfold shutdownClient
  split_ifs with hc
  · exact Or.inr ⟨rfl, rfl, hc⟩
  · exact Or.inl rfl

section Dismiss
variable {line : List Char} {f : State cfg → Fin cfg.maxClients → State cfg}
  (hf : ∀ s j, Dismissal line j s (f s j))

include hf in
theorem dismiss_gone {fd : ℤ} (hfd : 0 ≤ fd) (slots : List (Fin cfg.maxClients)) {s : State cfg}
    (h : ∀ j, (s.clients j).fd ≠ fd) : sentTo fd (slots.foldl f s).sent = sentTo fd s.sent := by
  induction slots generalizing s with
  | nil => rfl
  | cons j slots ih =>
    rw [List.foldl_cons]
    rcases hf s j with heq | ⟨hsent, hclients, hc⟩
    · rw [heq]
      exact ih h
    · have hstill : ∀ k, ((f s j).clients k).fd ≠ fd := by
        intro k
        rw [hclients]
        by_cases hk : k = j
        · rw [hk, Function.update_self]
          simp only [Client.free]
          omega
        · rw [Function.update_of_ne hk]
          exact h k
      have hother := sentTo_other (h j) [line]
      rw [List.map_singleton] at hother
      rw [ih hstill, hsent, sentTo_append, hother, List.append_nil]

include hf in
theorem dismiss_free (slots : List (Fin cfg.maxClients)) {s : State cfg} {i : Fin cfg.maxClients}
    (h : (s.clients i).fd < 0) : ((slots.foldl f s).clients i).fd < 0 := by
  induction slots generalizing s with
  | nil => exact h
  | cons j slots ih =>
    rw [List.foldl_cons]
    apply ih
    rcases hf s j with heq | ⟨-, hclients, -⟩
    · rwa [heq]
    · rw [hclients]
      by_cases hij : i = j
      · rw [hij, Function.update_self]
        simp [Client.free]
      · rwa [Function.update_of_ne hij]

include hf in
theorem dismiss_told (slots : List (Fin cfg.maxClients)) {s : State cfg} (hd : Distinct s)
    {i : Fin cfg.maxClients} (hi : 0 ≤ (s.clients i).fd) :
    ((slots.foldl f s).clients i = s.clients i ∧
      sentTo (s.clients i).fd (slots.foldl f s).sent = sentTo (s.clients i).fd s.sent) ∨
    sentTo (s.clients i).fd (slots.foldl f s).sent = sentTo (s.clients i).fd s.sent ++ [line] ∧
      ((slots.foldl f s).clients i).fd < 0 := by
  induction slots generalizing s with
  | nil => exact Or.inl ⟨rfl, rfl⟩
  | cons j slots ih =>
    rw [List.foldl_cons]
    rcases hf s j with heq | ⟨hsent, hclients, hc⟩
    · rw [heq]
      exact ih hd hi
    · have hown : sentTo (s.clients i).fd [((s.clients i).fd, line)] = [line] :=
        sentTo_own (s.clients i).fd [line]
      by_cases hij : i = j
      · subst hij
        have hgone : ∀ k, ((f s i).clients k).fd ≠ (s.clients i).fd := by
          intro k
          rw [hclients]
          by_cases hk : k = i
          · rw [hk, Function.update_self]
            simp only [Client.free]
            omega
          · rw [Function.update_of_ne hk]
            exact (hd i k (Ne.symm hk) hi).symm
        have hleft : ((f s i).clients i).fd < 0 := by
          rw [hclients, Function.update_self]
          simp [Client.free]
        rw [dismiss_gone hf hi slots hgone, hsent, sentTo_append, hown]
        exact Or.inr ⟨rfl, dismiss_free hf slots hleft⟩
      · have hkept : FdsKept s (f s j) := fdsKept_update hclients (Or.inr (by simp [Client.free]))
        have hsame : (f s j).clients i = s.clients i := by
          rw [hclients, Function.update_of_ne hij]
        have hother : sentTo (s.clients i).fd (f s j).sent = sentTo (s.clients i).fd s.sent := by
          have hne := (hd i j hij hi).symm
          have hnone := sentTo_other hne [line]
          rw [List.map_singleton] at hnone
          rw [hsent, sentTo_append, hnone, List.append_nil]
        have hrest := ih (hd.kept hkept) (hsame ▸ hi)
        rwa [hsame, hother] at hrest

end Dismiss

def dismissals : List (List Char) := ["TIMEOUT DISCONNECT".toList, "SERVER SHUTDOWN".toList]

/-- A step that brings no bytes for a connected client says nothing to it, or
dismisses it. -/
theorem step_farewell {s s' : State cfg} {a : Action cfg} {i : Fin cfg.maxClients}
    (hd : Distinct s) (hfresh : Fresh s a) (h : step s a = some s') (ha : a.bytesFor i = none)
    (hi : 0 ≤ (s.clients i).fd) :
    sentTo (s.clients i).fd s'.sent = sentTo (s.clients i).fd s.sent ∨
      ∃ line ∈ dismissals,
        sentTo (s.clients i).fd s'.sent = sentTo (s.clients i).fd s.sent ++ [line] ∧
        (s'.clients i).fd < 0 := by
  unfold step at h
  split_ifs at h with hrun
  cases a with
  | accept fd now allocated =>
    apply Or.inl
    simp only at h
    split_ifs at h
    have hnone := fun line : List Char => sentTo_other (hfresh i).symm [line]
    simp only [List.map_singleton] at hnone
    obtain rfl := Option.some.inj h
    unfold acceptNewClient
    cases findFreeSlot s with
    | none => simp only [sendLine, sentTo_append, hnone, List.append_nil]
    | some k =>
      cases allocated with
      | true => rfl
      | false =>
        simp only [Bool.false_eq_true, if_false, resetClient, sendLine, State.setClient,
          sentTo_append, hnone, List.append_nil]
  | recv j chunk clock =>
    apply Or.inl
    have hij : i ≠ j := by
      rintro rfl
      simp [Action.bytesFor] at ha
    simp only at h
    split_ifs at h with hc
    obtain rfl := Option.some.inj h
    exact (said_feedClientData chunk clock hc).other (hd i j hij hi).symm
  | hangup j =>
    apply Or.inl
    simp only at h
    split_ifs at h
    obtain rfl := Option.some.inj h
    rw [disconnectClient_sent]
  | expire now =>
    obtain rfl := Option.some.inj h
    rcases dismiss_told (dismissal_expireClient now) (List.finRange cfg.maxClients) hd hi with
      ⟨-, hsame⟩ | htold
    · exact Or.inl hsame
    · exact Or.inr ⟨_, by simp [dismissals], htold⟩
  | shutdown =>
    obtain rfl := Option.some.inj h
    rcases dismiss_told dismissal_shutdownClient (List.finRange cfg.maxClients) hd hi with
      ⟨-, hsame⟩ | htold
    · exact Or.inl hsame
    · exact Or.inr ⟨_, by simp [dismissals], htold⟩

/-- The answers to these requests in order, and a farewell if the client has been
dismissed. -/
def Conversation (actions : List LineAction) (connected : Prop) (lines : List (List Char)) : Prop :=
  ∃ answers farewell, lines = answers ++ farewell ∧
    List.Forall₂ Answers (actions.filter LineAction.asks) answers ∧
    (farewell = [] ∨ ∃ line ∈ dismissals, farewell = [line]) ∧ (connected → farewell = [])

theorem Conversation.before {actions actions' : List LineAction} {connected : Prop}
    {answers lines : List (List Char)}
    (h : List.Forall₂ Answers (actions.filter LineAction.asks) answers)
    (h' : Conversation actions' connected lines) :
    Conversation (actions ++ actions') connected (answers ++ lines) := by
  obtain ⟨rest, farewell, rfl, hrest, hfarewell, hnone⟩ := h'
  refine ⟨answers ++ rest, farewell, (List.append_assoc _ _ _).symm, ?_, hfarewell, hnone⟩
  rw [List.filter_append]
  exact List.rel_append h hrest

theorem Conversation.silent (connected : Prop) : Conversation [] connected [] :=
  ⟨[], [], rfl, .nil, Or.inl rfl, fun _ => rfl⟩

theorem step_fd {s s' : State cfg} {a : Action cfg} {i : Fin cfg.maxClients}
    (h : step s a = some s') (hi : 0 ≤ (s.clients i).fd) (hi' : 0 ≤ (s'.clients i).fd) :
    (s'.clients i).fd = (s.clients i).fd := by
  cases a with
  | accept fd now allocated =>
    rcases step_slotKept h rfl hi with hsame | hgone
    · rw [hsame]
    · omega
  | _ => exact (step_effects h (by simp) i).resolve_right (by omega)

/-- What one step says to a connected client. -/
theorem step_conversation {s s' : State cfg} {a : Action cfg} {i : Fin cfg.maxClients}
    (hd : Distinct s) (hfresh : Fresh s a) (h : step s a = some s') (hi : 0 ≤ (s.clients i).fd) :
    ∃ lines, sentTo (s.clients i).fd s'.sent = sentTo (s.clients i).fd s.sent ++ lines ∧
      Conversation ((slotLog i [(s, a)]).map Prod.fst) (0 ≤ (s'.clients i).fd) lines := by
  simp only [slotLog, List.flatMap_cons, List.flatMap_nil, List.append_nil]
  cases ha : a.bytesFor i with
  | none =>
    simp only [Option.map_none, Option.getD_none, List.map_nil]
    rcases step_farewell hd hfresh h ha hi with hsame | ⟨line, hline, hsent, hgone⟩
    · exact ⟨[], by rw [hsame, List.append_nil], .silent _⟩
    · refine ⟨[line], hsent, [], [line], rfl, .nil, Or.inr ⟨line, hline, rfl⟩, ?_⟩
      intro hc
      omega
  | some b =>
    obtain ⟨chunk, clock⟩ := b
    simp only [Option.map_some, Option.getD_some]
    obtain ⟨answers, hsent, hanswers⟩ := (said_feedClientData chunk clock hi).own
    rw [← step_bytesFor h ha] at hsent
    exact ⟨answers, hsent, answers, [], (List.append_nil _).symm, hanswers, Or.inl rfl,
        fun _ => rfl⟩

theorem run_conversation {s s' : State cfg} {as : List (Action cfg)} {i : Fin cfg.maxClients}
    (hd : Distinct s) (hrun : (wired cfg).run s as = some s')
    (hconn : ∀ p ∈ (wired cfg).trace s as, 0 ≤ (p.1.clients i).fd) (hi : 0 ≤ (s.clients i).fd) :
    ∃ lines, sentTo (s.clients i).fd s'.sent = sentTo (s.clients i).fd s.sent ++ lines ∧
      Conversation ((slotLog i ((wired cfg).trace s as)).map Prod.fst) (0 ≤ (s'.clients i).fd)
        lines := by
  induction as generalizing s with
  | nil =>
    obtain rfl : s = s' := by simpa [Machine.run] using hrun
    exact ⟨[], (List.append_nil _).symm, .silent _⟩
  | cons a as ih =>
    obtain ⟨t, ht, hrest⟩ := Option.bind_eq_some_iff.mp hrun
    obtain ⟨hfresh, hstep⟩ := wiredStep_iff.mp ht
    obtain ⟨lines, hlines, hconversation⟩ := step_conversation hd hfresh hstep hi
    simp only [Machine.trace, ht, Option.elim_some, List.mem_cons, forall_eq_or_imp] at hconn ⊢
    have hlog : slotLog i ((s, a) :: (wired cfg).trace t as) =
        slotLog i [(s, a)] ++ slotLog i ((wired cfg).trace t as) := by
      simp [slotLog]
    by_cases hnext : 0 ≤ (t.clients i).fd
    · have hfd := step_fd hstep hi hnext
      obtain ⟨more, hmore, hconversation'⟩ :=
        ih (distinct_step hd hfresh hstep) hrest hconn.2 hnext
      obtain ⟨answers, farewell, rfl, hanswers, -, hnone⟩ := hconversation
      rw [hnone hnext, List.append_nil] at hlines
      rw [hfd, hlines, List.append_assoc] at hmore
      refine ⟨answers ++ more, hmore, ?_⟩
      rw [hlog, List.map_append]
      exact hconversation'.before hanswers
    · -- the session is over, and so is the run
      have hlast : as = [] := by
        by_contra hne
        obtain ⟨b, bs, rfl⟩ := List.exists_cons_of_ne_nil hne
        exact hnext (hconn.2 (t, b) (by simp [Machine.trace]))
      subst hlast
      obtain rfl : t = s' := by simpa [Machine.run] using hrest
      refine ⟨lines, hlines, ?_⟩
      exact hconversation

theorem enrollInChunks_isSome : ((wired smallSchool).run
    (acceptNewClient (initial smallSchool) 5 0 true) enrollInChunks).isSome := by decide

end SysProg.HW6

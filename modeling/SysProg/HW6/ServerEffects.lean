import SysProg.HW6.CommandOutcome
import Mathlib.Logic.Relation

/-!
# What one event can do to the server state

Every event except an accepted connection is a sequence of elementary effects
on connected slots: lines are sent, a slot's buffer and clock move, a client
enrolls, a wizard changes the stock, or a slot is reset. Invariants are proved
once for each effect and carried along the sequence.
-/

namespace SysProg.HW6
open SysProg.Lib Relation
variable {cfg : Config}

inductive Effect (s : State cfg) : State cfg → Prop where
  | talk (fd : ℤ) (line : List Char) : Effect s (sendLine s fd line)
  | touch (i : Fin cfg.maxClients) (c : Client cfg.ingredientCount) : 0 ≤ (s.clients i).fd →
      c.fd = (s.clients i).fd → c.username = (s.clients i).username →
      c.type = (s.clients i).type → c.spellbook = (s.clients i).spellbook →
      (c.lineBuf.length ≤ maxLine ∨ c.lineBuf = (s.clients i).lineBuf) →
      Effect s (s.setClient i c)
  | enroll (i : Fin cfg.maxClients) {type username : List Char} : 0 ≤ (s.clients i).fd →
      (s.clients i).username = [] → ¬ usernameExists s username →
      type = wizard ∨ type = professor → validUsername username = true →
      Effect s (s.setClient i { s.clients i with
        username := snprintf 32 username
        type := snprintf 16 type })
  | brew (i : Fin cfg.maxClients) (idx : Fin cfg.ingredientCount) {qty : ℤ} :
      0 ≤ (s.clients i).fd → 0 < qty → qty ≤ intMax → Effect s (brewStock s i idx qty)
  | consume (i : Fin cfg.maxClients) (idx : Fin cfg.ingredientCount) {qty : ℤ} :
      0 ≤ (s.clients i).fd → 0 < qty → qty ≤ s.qty idx → qty ≤ (s.clients i).book idx →
      Effect s (addStock s i idx (-qty))
  | leave (i : Fin cfg.maxClients) : 0 ≤ (s.clients i).fd → Effect s (resetClient s i)

abbrev Effects : State cfg → State cfg → Prop := ReflTransGen Effect

structure Serves (i : Fin cfg.maxClients) (s s' : State cfg) : Prop where
  effects : Effects s s'
  fd : (s'.clients i).fd = (s.clients i).fd

theorem Serves.trans {i : Fin cfg.maxClients} {s t u : State cfg} (h : Serves i s t)
    (h' : Serves i t u) : Serves i s u :=
  ⟨h.effects.trans h'.effects, h'.fd.trans h.fd⟩

theorem serves_of_effect {i : Fin cfg.maxClients} {s s' : State cfg} (h : Effect s s')
    (hfd : (s'.clients i).fd = (s.clients i).fd) : Serves i s s' :=
  ⟨ReflTransGen.single h, hfd⟩

theorem serves_reply (s : State cfg) (i : Fin cfg.maxClients) (line : List Char) :
    Serves i s (reply s i line) :=
  serves_of_effect (.talk _ _) rfl

/-! ### Lines, bytes and chunks -/

theorem effects_disconnectClient (s : State cfg) (i : Fin cfg.maxClients) :
    Effects s (disconnectClient s i) := by
  unfold disconnectClient
  split_ifs with hfd
  · exact ReflTransGen.refl
  · exact ReflTransGen.single (.leave i (not_lt.mp hfd))

theorem effects_outcome {s : State cfg} {i : Fin cfg.maxClients} {tokens : List (List Char)}
    {r : State cfg × Bool} (h : Outcome s i tokens r) (hc : 0 ≤ (s.clients i).fd) :
    Effects s r.1 ∧ (r.2 = false → Serves i s r.1) := by
  have hserved : ∀ {s' : State cfg}, Serves i s s' →
      Effects s s' ∧ (false = false → Serves i s s') := fun h => ⟨h.effects, fun _ => h⟩
  cases h with
  | blank => exact hserved ⟨ReflTransGen.refl, rfl⟩
  | refused | told => exact hserved (serves_reply s i _)
  | enrolled _ hfresh hnew htype hvalid =>
    have henroll := serves_of_effect (i := i) (Effect.enroll i hc hfresh hnew htype hvalid)
      (by simp [State.setClient])
    exact hserved (henroll.trans (serves_reply _ i _))
  | @brewed _ _ _ idx qty _ _ hqty _ =>
    obtain ⟨hpos, hle⟩ := parsePositiveInt_bounds hqty
    exact hserved (serves_of_effect (.brew i idx hc hpos hle)
      (by simp [brewStock, addStock, reply, sendLine]))
  | @consumed _ _ _ idx qty _ _ hqty _ hstock hbook =>
    have hconsume := serves_of_effect (i := i)
      (Effect.consume i idx hc (parsePositiveInt_bounds hqty).1 hstock hbook) (by simp [addStock])
    exact hserved (hconsume.trans (serves_reply _ i _))
  | left =>
    refine ⟨?_, fun h => by cases h⟩
    exact (serves_reply s i _).effects.trans (effects_disconnectClient _ i)

theorem effects_processCommand {s : State cfg} {i : Fin cfg.maxClients}
    (hc : 0 ≤ (s.clients i).fd) (now : ℤ) (line : List Char) :
    Effects s (processCommand s i now line).1 ∧
      ((processCommand s i now line).2 = false → Serves i s (processCommand s i now line).1) := by
  have htouch : Serves i s (touch s i now) :=
    serves_of_effect (.touch i _ hc rfl rfl rfl rfl (Or.inr rfl)) (by simp [touch, State.setClient])
  obtain ⟨heffects, hserves⟩ := effects_outcome (processCommand_outcome s i now line)
      (htouch.fd ▸ hc)
  exact ⟨htouch.effects.trans heffects, fun hr => htouch.trans (hserves hr)⟩

theorem effects_feedByte {s : State cfg} {i : Fin cfg.maxClients}
    (hc : 0 ≤ (s.clients i).fd) (now : ℤ) (ch : Char) :
    Effects s (feedByte s i now ch).1 ∧
      ((feedByte s i now ch).2 = false → Serves i s (feedByte s i now ch).1) := by
  have htouch : ∀ c : Client cfg.ingredientCount, c.fd = (s.clients i).fd →
      c.username = (s.clients i).username → c.type = (s.clients i).type →
      c.spellbook = (s.clients i).spellbook → c.lineBuf.length ≤ maxLine →
      Serves i s (s.setClient i c) := by
    intro c hfd huser htype hbook hlen
    exact serves_of_effect (.touch i c hc hfd huser htype hbook (Or.inl hlen))
      (by simp [State.setClient, hfd])
  simp only [feedByte]
  split_ifs with hdiscard hnl hnl hfull
  · have h := htouch { s.clients i with discardLongLine := false, lineBuf := [] } rfl rfl rfl rfl
      (Nat.zero_le _)
    exact ⟨h.effects, fun _ => h⟩
  · exact ⟨ReflTransGen.refl, fun _ => ⟨ReflTransGen.refl, rfl⟩⟩
  · have h := htouch { s.clients i with lineBuf := [] } rfl rfl rfl rfl (Nat.zero_le _)
    have hline := effects_processCommand (h.fd ▸ hc) now (s.clients i).lineBuf
    exact ⟨h.effects.trans hline.1, fun hr => h.trans (hline.2 hr)⟩
  · have hreply := serves_reply s i "ERR TOOLONG".toList
    have h := hreply.trans (serves_of_effect (.touch i
      { s.clients i with discardLongLine := true, lineBuf := [] } hc rfl rfl rfl rfl
      (Or.inl (Nat.zero_le _))) (by simp [State.setClient, reply, sendLine]))
    exact ⟨h.effects, fun _ => h⟩
  · have h := htouch { s.clients i with lineBuf := (s.clients i).lineBuf ++ [ch] } rfl rfl rfl rfl
      (by simp; omega)
    exact ⟨h.effects, fun _ => h⟩

theorem effects_feedClientData {s : State cfg} {i : Fin cfg.maxClients}
    (hc : 0 ≤ (s.clients i).fd) (chunk : List Char) (clock : ℕ → ℤ) :
    Effects s (feedClientData i chunk clock s).1 := by
  induction chunk generalizing s clock with
  | nil => exact ReflTransGen.refl
  | cons ch rest ih =>
    obtain ⟨heff, hserve⟩ := effects_feedByte hc (clock 0) ch
    simp only [feedClientData]
    split_ifs with hgone
    · exact heff
    · have hs := hserve (by simpa using hgone)
      exact heff.trans (ih (hs.fd ▸ hc) _)

theorem effects_expireClient (now : ℤ) (s : State cfg) (i : Fin cfg.maxClients) :
    Effects s (expireClient now s i) := by
  unfold expireClient
  split_ifs
  · exact (serves_reply s i _).effects.trans (effects_disconnectClient _ i)
  · exact ReflTransGen.refl

theorem effects_shutdownClient (s : State cfg) (i : Fin cfg.maxClients) :
    Effects s (shutdownClient s i) := by
  unfold shutdownClient
  split_ifs with hc
  · exact (serves_reply s i _).effects.trans (ReflTransGen.single (.leave i hc))
  · exact ReflTransGen.refl

theorem effects_foldl {f : State cfg → Fin cfg.maxClients → State cfg}
    (hf : ∀ s i, Effects s (f s i)) (slots : List (Fin cfg.maxClients)) (s : State cfg) :
    Effects s (slots.foldl f s) := by
  induction slots generalizing s with
  | nil => exact ReflTransGen.refl
  | cons i slots ih => exact (hf s i).trans (ih (f s i))

/-! ### Events -/

/-- The slot that a new connection gets, as `accept_new_client` leaves it. -/
def connectClient (s : State cfg) (i : Fin cfg.maxClients) (fd now : ℤ) : State cfg :=
  s.setClient i { s.clients i with fd := fd, lastActive := now, spellbook := some (fun _ => 0) }

inductive Event (s : State cfg) : State cfg → Prop where
  | serve {s' : State cfg} : Effects s s' → Event s s'
  | connect (i : Fin cfg.maxClients) (fd now : ℤ) : (s.clients i).fd < 0 → 0 ≤ fd →
      Event s (connectClient s i fd now)
  | refuse (i : Fin cfg.maxClients) (fd now : ℤ) (line : List Char) : (s.clients i).fd < 0 →
      Event s (resetClient (sendLine (s.setClient i { s.clients i with
        fd := fd, lastActive := now, spellbook := none }) fd line) i)
  | stop {s' : State cfg} : Effects s s' → Event s { s' with running := false }

theorem findFreeSlot_spec {s : State cfg} {i : Fin cfg.maxClients} (h : findFreeSlot s = some i) :
    (s.clients i).fd < 0 := by
  simpa using List.find?_some h

theorem step_event {s s' : State cfg} {a : Action cfg} (h : step s a = some s') : Event s s' := by
  unfold step at h
  split_ifs at h with hrun
  cases a with
  | accept fd now allocated =>
    simp only at h
    split_ifs at h with hfd
    obtain rfl := Option.some.inj h
    unfold acceptNewClient
    cases hslot : findFreeSlot s with
    | none => exact .serve (ReflTransGen.single (.talk _ _))
    | some i =>
      have hfree := findFreeSlot_spec hslot
      cases allocated with
      | true => exact .connect i fd now hfree hfd
      | false => exact .refuse i fd now _ hfree
  | recv i chunk clock =>
    simp only at h
    split_ifs at h with hc
    exact Option.some.inj h ▸ .serve (effects_feedClientData hc chunk clock)
  | hangup i =>
    simp only at h
    split_ifs at h with hc
    exact Option.some.inj h ▸ .serve (effects_disconnectClient s i)
  | expire now =>
    simp only [Option.some.injEq] at h
    exact h ▸ .serve (effects_foldl (effects_expireClient now) _ s)
  | shutdown =>
    simp only [Option.some.injEq] at h
    exact h ▸ .stop (effects_foldl effects_shutdownClient _ s)

end SysProg.HW6

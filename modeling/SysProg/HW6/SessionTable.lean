import SysProg.HW6.ServerEffects

/-!
# The table of sessions

Names of connected clients are distinct, a name comes with a role, line buffers
stay within their array, and a slot that nobody uses looks as if nobody had ever
used it.
-/

namespace SysProg.HW6
open SysProg.Lib Relation

section Table
variable {m k : ℕ}

structure Client.WellFormed (c : Client k) : Prop where
  enrolled : c.username ≠ [] ↔ c.type = wizard ∨ c.type = professor
  line : c.lineBuf.length ≤ maxLine
  book : c.spellbook.isSome = true

structure TableInvariant (clients : Fin m → Client k) : Prop where
  unique : ∀ i j, i ≠ j → 0 ≤ (clients i).fd → 0 ≤ (clients j).fd →
    (clients i).username ≠ [] → (clients j).username ≠ [] →
    (clients i).username ≠ (clients j).username
  connected : ∀ i, 0 ≤ (clients i).fd → (clients i).WellFormed
  free : ∀ i, (clients i).fd < 0 → clients i = .free k

theorem tableInvariant_update {clients : Fin m → Client k} (h : TableInvariant clients)
    (i : Fin m) {c : Client k} (hwf : 0 ≤ c.fd → c.WellFormed) (hfree : c.fd < 0 → c = .free k)
    (huniq : 0 ≤ c.fd → c.username ≠ [] → ∀ j, j ≠ i → 0 ≤ (clients j).fd →
      (clients j).username ≠ c.username) :
    TableInvariant (Function.update clients i c) := by
  refine ⟨?_, ?_, ?_⟩
  · intro a b hab ha hb hua hub
    by_cases hai : a = i
    · subst hai
      have hba : b ≠ a := Ne.symm hab
      simp only [Function.update_self, Function.update_of_ne hba] at *
      exact Ne.symm (huniq ha hua b hba hb)
    · by_cases hbi : b = i
      · subst hbi
        simp only [Function.update_self, Function.update_of_ne hai] at *
        exact huniq hb hub a hai ha
      · simp only [Function.update_of_ne hai, Function.update_of_ne hbi] at *
        exact h.unique a b hab ha hb hua hub
  · rw [Function.forall_update_iff clients (fun _ c => 0 ≤ c.fd → c.WellFormed)]
    exact ⟨hwf, fun j _ => h.connected j⟩
  · rw [Function.forall_update_iff clients (fun _ c => c.fd < 0 → c = .free k)]
    exact ⟨hfree, fun j _ => h.free j⟩

theorem tableInvariant_same_name {clients : Fin m → Client k} (h : TableInvariant clients)
    {i : Fin m} {c : Client k} (hc : 0 ≤ (clients i).fd) (hfd : c.fd = (clients i).fd)
    (huser : c.username = (clients i).username) (hwf : c.WellFormed) :
    TableInvariant (Function.update clients i c) := by
  refine tableInvariant_update h i (fun _ => hwf) (fun hneg => by omega) ?_
  intro _ hne j hji hj heq
  rw [huser] at hne heq
  exact h.unique j i hji hj hc (heq ▸ hne) hne heq

end Table

variable {cfg : Config}

theorem tableInvariant_initial : TableInvariant (initial cfg).clients where
  unique := by simp [initial, Client.free]
  connected := by simp [initial, Client.free]
  free := fun _ _ => rfl

theorem tableInvariant_resetClient {s : State cfg} (h : TableInvariant s.clients)
    (i : Fin cfg.maxClients) : TableInvariant (resetClient s i).clients :=
  tableInvariant_update h i (by simp [Client.free]) (fun _ => rfl) (by simp [Client.free])

theorem tableInvariant_addStock {s : State cfg} (h : TableInvariant s.clients)
    {i : Fin cfg.maxClients} (hc : 0 ≤ (s.clients i).fd) (idx : Fin cfg.ingredientCount)
    (delta : ℤ) : TableInvariant (addStock s i idx delta).clients := by
  obtain ⟨henr, hline, hbook⟩ := h.connected i hc
  exact tableInvariant_same_name h hc rfl rfl ⟨henr, hline, by simpa using hbook⟩

theorem snprintf_of_lt {size : ℕ} {text : List Char} (h : text.length < size) :
    snprintf size text = text := List.take_of_length_le (by omega)

theorem tableInvariant_enroll {s : State cfg} (h : TableInvariant s.clients)
    {i : Fin cfg.maxClients} {type username : List Char} (hc : 0 ≤ (s.clients i).fd)
    (hnew : ¬ usernameExists s username) (htype : type = wizard ∨ type = professor)
    (hvalid : validUsername username = true) :
    TableInvariant (Function.update s.clients i { s.clients i with
      username := snprintf 32 username
      type := snprintf 16 type }) := by
  obtain ⟨henr, hline, hbook⟩ := h.connected i hc
  obtain ⟨hpos, hlen⟩ := validUsername_length hvalid
  have hne : username ≠ [] := List.length_pos_iff.mp hpos
  have hrole : snprintf 16 type = type := by rcases htype with rfl | rfl <;> decide
  rw [snprintf_of_lt hlen, hrole]
  refine tableInvariant_update h i (fun _ => ⟨?_, hline, hbook⟩) (fun hneg => ?_) ?_
  · simp [hne, htype]
  · simp only at hneg
    omega
  · intro _ _ j _ hj heq
    simp only at heq
    exact hnew ⟨j, hj, heq ▸ hne, heq⟩

theorem tableInvariant_effect {s s' : State cfg} (h : Effect s s')
    (hi : TableInvariant s.clients) : TableInvariant s'.clients := by
  cases h with
  | talk fd line => exact hi
  | touch i c hc hfd huser htype hbook hline =>
    have hwf := hi.connected i hc
    refine tableInvariant_same_name hi hc hfd huser ⟨?_, ?_, ?_⟩
    · rw [huser, htype]
      exact hwf.enrolled
    · rcases hline with hle | heq
      · exact hle
      · exact heq ▸ hwf.line
    · rw [hbook]
      exact hwf.book
  | enroll i hc hfresh hnew htype hvalid => exact tableInvariant_enroll hi hc hnew htype hvalid
  | brew i idx hc hpos hle => exact tableInvariant_addStock hi hc idx _
  | consume i idx hc hpos hqty hbook => exact tableInvariant_addStock hi hc idx _
  | leave i hc => exact tableInvariant_resetClient hi i

theorem tableInvariant_effects {s s' : State cfg} (h : Effects s s')
    (hi : TableInvariant s.clients) : TableInvariant s'.clients := by
  induction h with
  | refl => exact hi
  | tail _ hlast ih => exact tableInvariant_effect hlast ih

/-- A connection without memory for a spellbook gets its line and leaves no trace. -/
theorem refuseClient_eq {s : State cfg} (hi : TableInvariant s.clients) {i : Fin cfg.maxClients}
    (hfree : (s.clients i).fd < 0) (fd now : ℤ) (line : List Char) :
    resetClient (sendLine (s.setClient i { s.clients i with
      fd := fd, lastActive := now, spellbook := none }) fd line) i = sendLine s fd line := by
  have hsame : Function.update (Function.update s.clients i { s.clients i with
      fd := fd, lastActive := now, spellbook := none }) i (.free _) = s.clients := by
    rw [Function.update_idem, ← hi.free i hfree, Function.update_eq_self]
  simp [resetClient, sendLine, State.setClient, hsame, Client.book]

theorem nil_ne_wizard : [] ≠ wizard := by decide

theorem nil_ne_professor : [] ≠ professor := by decide

theorem tableInvariant_event {s s' : State cfg} (h : Event s s')
    (hi : TableInvariant s.clients) : TableInvariant s'.clients := by
  cases h with
  | serve heff => exact tableInvariant_effects heff hi
  | connect i fd now hfree hfd =>
    refine tableInvariant_update hi i (fun _ => ?_) (fun hneg => ?_) ?_
    · rw [hi.free i hfree]
      refine ⟨⟨fun hne => absurd rfl hne, fun hrole => ?_⟩, Nat.zero_le _, rfl⟩
      rcases hrole with hrole | hrole
      · exact absurd hrole nil_ne_wizard
      · exact absurd hrole nil_ne_professor
    · simp only at hneg
      omega
    · rw [hi.free i hfree]
      simp [Client.free]
  | refuse i fd now line hfree =>
    rw [refuseClient_eq hi hfree]
    exact hi
  | stop heff =>
    have hall := tableInvariant_effects heff hi
    exact ⟨hall.unique, hall.connected, hall.free⟩

theorem tableInvariant_reachable {s : State cfg} (h : (machine cfg).Reachable s) :
    TableInvariant s.clients :=
  h.invariant tableInvariant_initial (fun _ _ _ _ hi hs => tableInvariant_event (step_event hs) hi)

/-! ### A session keeps its name and its role -/

/-- The slot has been left, or it belongs to the same client. -/
def SameSession (i : Fin cfg.maxClients) (s s' : State cfg) : Prop :=
  (s'.clients i).fd < 0 ∨
    ((s'.clients i).fd = (s.clients i).fd ∧ (s'.clients i).username = (s.clients i).username ∧
      (s'.clients i).type = (s.clients i).type)

theorem sameSession_of_update {s s' : State cfg} {i j : Fin cfg.maxClients}
    {c : Client cfg.ingredientCount} (hcl : s'.clients = Function.update s.clients j c)
    (hc : i = j → c.fd < 0 ∨ c.fd = (s.clients i).fd ∧ c.username = (s.clients i).username ∧
      c.type = (s.clients i).type) : SameSession i s s' := by
  unfold SameSession
  by_cases hij : i = j
  · subst hij
    rw [hcl, Function.update_self]
    exact hc rfl
  · rw [hcl, Function.update_of_ne hij]
    exact Or.inr ⟨rfl, rfl, rfl⟩

theorem effect_sameSession {s s' : State cfg} (h : Effect s s') {i : Fin cfg.maxClients}
    (huser : (s.clients i).username ≠ []) : SameSession i s s' := by
  cases h with
  | talk fd line => exact Or.inr ⟨rfl, rfl, rfl⟩
  | touch j c hc hfd hu htype hbook hline =>
    refine sameSession_of_update rfl ?_
    rintro rfl
    exact Or.inr ⟨hfd, hu, htype⟩
  | enroll j hc hfresh hnew htype hvalid =>
    refine sameSession_of_update rfl ?_
    rintro rfl
    exact absurd hfresh huser
  | brew j idx hc hpos hle =>
    refine sameSession_of_update rfl ?_
    rintro rfl
    exact Or.inr ⟨rfl, rfl, rfl⟩
  | consume j idx hc hpos hqty hbook =>
    refine sameSession_of_update rfl ?_
    rintro rfl
    exact Or.inr ⟨rfl, rfl, rfl⟩
  | leave j hc =>
    refine sameSession_of_update rfl ?_
    rintro rfl
    exact Or.inl (by simp [Client.free])

theorem effect_free {s s' : State cfg} (h : Effect s s') {i : Fin cfg.maxClients}
    (hfree : (s.clients i).fd < 0) : (s'.clients i).fd < 0 := by
  have hother : ∀ {j : Fin cfg.maxClients} (c : Client cfg.ingredientCount),
      0 ≤ (s.clients j).fd → (Function.update s.clients j c i).fd < 0 := by
    intro j c hj
    have hij : i ≠ j := by
      rintro rfl
      omega
    rw [Function.update_of_ne hij]
    exact hfree
  cases h with
  | talk fd line => exact hfree
  | touch j c hc hfd hu htype hbook hline => exact hother c hc
  | enroll j hc hfresh hnew htype hvalid => exact hother _ hc
  | brew j idx hc hpos hle => exact hother _ hc
  | consume j idx hc hpos hqty hbook => exact hother _ hc
  | leave j hc => exact hother _ hc

theorem effects_sameSession {s s' : State cfg} (h : Effects s s') {i : Fin cfg.maxClients}
    (huser : (s.clients i).username ≠ []) : SameSession i s s' := by
  induction h with
  | refl => exact Or.inr ⟨rfl, rfl, rfl⟩
  | tail _ hlast ih =>
    rcases ih with hgone | ⟨hfd, hname, htype⟩
    · exact Or.inl (effect_free hlast hgone)
    · rcases effect_sameSession hlast (hname ▸ huser) with hgone | ⟨hfd', hname', htype'⟩
      · exact Or.inl hgone
      · exact Or.inr ⟨hfd'.trans hfd, hname'.trans hname, htype'.trans htype⟩

theorem event_sameSession {s s' : State cfg} (h : Event s s') {i : Fin cfg.maxClients}
    (hc : 0 ≤ (s.clients i).fd) (huser : (s.clients i).username ≠ []) : SameSession i s s' := by
  cases h with
  | serve heff => exact effects_sameSession heff huser
  | connect j fd now hfree hfd =>
    refine sameSession_of_update rfl ?_
    rintro rfl
    omega
  | refuse j fd now line hfree =>
    have hij : i ≠ j := by
      rintro rfl
      omega
    refine Or.inr ?_
    simp only [resetClient, sendLine, State.setClient, Function.update_of_ne hij, and_self]
  | stop heff => exact effects_sameSession heff huser

theorem run_sameSession {s s' : State cfg} {as : List (Action cfg)} {i : Fin cfg.maxClients}
    (hrun : (machine cfg).run s as = some s')
    (hconn : ∀ p ∈ (machine cfg).trace s as, 0 ≤ (p.1.clients i).fd)
    (hlast : 0 ≤ (s'.clients i).fd) (huser : (s.clients i).username ≠ []) :
    (s'.clients i).username = (s.clients i).username ∧
      (s'.clients i).type = (s.clients i).type := by
  induction as generalizing s with
  | nil =>
    obtain rfl : s = s' := by simpa [Machine.run] using hrun
    exact ⟨rfl, rfl⟩
  | cons a as ih =>
    obtain ⟨t, ht, hrest⟩ := Option.bind_eq_some_iff.mp hrun
    simp only [Machine.trace, ht, Option.elim_some, List.mem_cons, forall_eq_or_imp] at hconn
    have ht0 : 0 ≤ (t.clients i).fd := by
      cases as with
      | nil =>
        obtain rfl : t = s' := by simpa [Machine.run] using hrest
        exact hlast
      | cons b bs => exact hconn.2 (t, b) (by simp [Machine.trace])
    rcases event_sameSession (step_event ht) hconn.1 huser with hgone | ⟨-, hname, htype⟩
    · omega
    · have htail := ih hrest hconn.2 (hname ▸ huser)
      exact ⟨htail.1.trans hname, htail.2.trans htype⟩

/-- In every reachable state the table invariant holds, from there on every
session keeps its name and role as long as it is connected, and whoever gets a
free slot finds it as new. -/
theorem sessionTable_reachable {s : State cfg} (h : (machine cfg).Reachable s) :
    TableInvariant s.clients ∧
      (∀ i as s', (machine cfg).run s as = some s' →
        (∀ p ∈ (machine cfg).trace s as, 0 ≤ (p.1.clients i).fd) → 0 ≤ (s'.clients i).fd →
        (s.clients i).username ≠ [] →
        (s'.clients i).username = (s.clients i).username ∧
          (s'.clients i).type = (s.clients i).type) ∧
      (∀ i fd now, findFreeSlot s = some i →
        (acceptNewClient s fd now true).clients i =
          ⟨fd, [], [], [], false, now, some (fun _ => 0)⟩) := by
  have hi := tableInvariant_reachable h
  refine ⟨hi, fun i as s' hrun hconn hlast huser => run_sameSession hrun hconn hlast huser, ?_⟩
  intro i fd now hslot
  simp only [acceptNewClient, hslot, ↓reduceIte, State.setClient, Function.update_self,
    hi.free i (findFreeSlot_spec hslot), Client.free]

/-! ### A small school -/

def smallSchool : Config where
  ingredientCount := 1
  name := fun _ => "ROSE".toList
  initialQty := fun _ => 1
  maxClients := 2
  timeoutSeconds := 30
  count_le := by decide
  name_valid := by decide
  qty_pos := by decide
  qty_le := by decide
  maxClients_pos := Nat.two_pos
  timeout_pos := by decide

def firstSlot : Fin smallSchool.maxClients := ⟨0, smallSchool.maxClients_pos⟩

def oneClient (bytes : List Char) : List (Action smallSchool) :=
  [.accept 5 0 true, .recv firstSlot bytes (fun _ => 0)]

def secondSlot : Fin smallSchool.maxClients := ⟨1, Nat.one_lt_two⟩

/-- Ada and Bea enroll, and Ada leaves. -/
def adaLeaves : List (Action smallSchool) :=
  oneClient "ENROLL WIZARD ada\nBR".toList ++
    [.accept 6 1 true, .recv secondSlot "ENROLL PROFESSOR bea\n".toList (fun _ => 1),
      .recv firstSlot "EW ROSE 1\nAPPARATE\n".toList (fun _ => 2)]

def adaReturns : List (Action smallSchool) :=
  [.accept 7 3 true, .recv firstSlot "ENROLL PROFESSOR ada\n".toList (fun _ => 3)]

theorem adaLeaves_isSome :
    ((machine smallSchool).run (machine smallSchool).init adaLeaves).isSome := by decide +kernel

theorem adaReturns_isSome :
    ((machine smallSchool).run (((machine smallSchool).run (machine smallSchool).init adaLeaves).get
      adaLeaves_isSome) adaReturns).isSome := by
  decide +kernel

theorem sessionTable_adaReturns : ∃ s s', (machine smallSchool).Reachable s ∧
    TableInvariant s.clients ∧ (s.clients firstSlot).fd < 0 ∧
      (acceptNewClient s 7 3 true).clients firstSlot =
        ⟨7, [], [], [], false, 3, some (fun _ => 0)⟩ ∧
      (machine smallSchool).run s adaReturns = some s' ∧
      (s'.clients firstSlot).username = "ada".toList ∧
      (s'.clients secondSlot).username = (s.clients secondSlot).username ∧
      (s.clients secondSlot).username = "bea".toList := by
  have hreach := (Machine.execution_of_isSome adaLeaves_isSome).reachable
  obtain ⟨htable, hsession, hfresh⟩ := sessionTable_reachable hreach
  have hrun := (Option.some_get adaReturns_isSome).symm
  have hsame := hsession secondSlot adaReturns _ hrun (by decide +kernel) (by decide +kernel)
    (by decide +kernel)
  exact ⟨_, _, hreach, htable, by decide +kernel, hfresh firstSlot 7 3 (by decide +kernel), hrun,
    by decide +kernel, hsame.1, by decide +kernel⟩

end SysProg.HW6

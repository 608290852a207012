import SysProg.HW6.SessionTable
import Mathlib.Algebra.Order.BigOperators.Group.Finset
import Mathlib.Data.Int.ModEq

/-!
# The stock and the spellbooks

Every accepted command changes one quantity of the stock and the same entry of
one spellbook by the same amount, and a client that leaves takes nothing out of
the stock. So the stock is what it was initially, plus the spellbooks, plus what
departed clients held, up to the wrap-around of `int`. `handle_consume` compares
before it subtracts; `handle_brew` adds without a check, and the sums are exact
as long as no accepted brew exceeds the largest `int`.
-/

open scoped BigOperators
namespace SysProg.HW6
open SysProg.Lib Relation
variable {cfg : Config}

section Held
variable {m k : ℕ}

def Client.held (j : Fin k) (c : Client k) : ℤ := if 0 ≤ c.fd then c.book j else 0

def heldStock (clients : Fin m → Client k) (j : Fin k) : ℤ := ∑ c, (clients c).held j

theorem heldStock_update (clients : Fin m → Client k) (i : Fin m) (c : Client k) (j : Fin k) :
    heldStock (Function.update clients i c) j + (clients i).held j =
      heldStock clients j + c.held j :=
  sum_update_add (fun _ c => Client.held j c) clients i c

theorem heldStock_update_same {clients : Fin m → Client k} {i : Fin m} {c : Client k}
    (hfd : c.fd = (clients i).fd) (hbook : c.spellbook = (clients i).spellbook) (j : Fin k) :
    heldStock (Function.update clients i c) j = heldStock clients j := by
  have hu := heldStock_update clients i c j
  have hsame : c.held j = (clients i).held j := by simp only [Client.held, Client.book, hfd, hbook]
  omega

theorem held_free (j : Fin k) : (Client.free k).held j = 0 := by simp [Client.held, Client.free]

theorem held_of_fd_neg {c : Client k} (h : c.fd < 0) (j : Fin k) : c.held j = 0 := by
  simp [Client.held, not_le.mpr h]

theorem held_of_connected {c : Client k} (h : 0 ≤ c.fd) (j : Fin k) : c.held j = c.book j := by
  simp [Client.held, h]

end Held

/-! ### The two additions -/

theorem book_addStock {s : State cfg} (hi : TableInvariant s.clients) {i : Fin cfg.maxClients}
    (hc : 0 ≤ (s.clients i).fd) (idx : Fin cfg.ingredientCount) (delta : ℤ)
    (j : Fin cfg.ingredientCount) :
    ((addStock s i idx delta).clients i).book j =
      if j = idx then int32 ((s.clients i).book idx + delta) else (s.clients i).book j := by
  obtain ⟨book, hbook⟩ := Option.isSome_iff_exists.mp (hi.connected i hc).book
  simp only [addStock, Function.update_self, Client.book, hbook, Option.map_some, Option.elim_some,
    Function.update_apply]

theorem qty_addStock (s : State cfg) (i : Fin cfg.maxClients) (idx : Fin cfg.ingredientCount)
    (delta : ℤ) (j : Fin cfg.ingredientCount) :
    (addStock s i idx delta).qty j = if j = idx then int32 (s.qty idx + delta) else s.qty j := by
  simp only [addStock, Function.update_apply]

theorem heldStock_addStock {s : State cfg} (hi : TableInvariant s.clients)
    {i : Fin cfg.maxClients} (hc : 0 ≤ (s.clients i).fd) (idx : Fin cfg.ingredientCount)
    (delta : ℤ) (j : Fin cfg.ingredientCount) :
    heldStock (addStock s i idx delta).clients j + (s.clients i).book j =
      heldStock s.clients j +
        (if j = idx then int32 ((s.clients i).book idx + delta) else (s.clients i).book j) := by
  have hu := heldStock_update s.clients i ((addStock s i idx delta).clients i) j
  have hsame : Function.update s.clients i ((addStock s i idx delta).clients i) =
      (addStock s i idx delta).clients := by simp [addStock]
  have hc' : 0 ≤ ((addStock s i idx delta).clients i).fd := by simpa [addStock] using hc
  rw [hsame, held_of_connected hc, held_of_connected hc', book_addStock hi hc] at hu
  exact hu

/-! ### Accounting modulo the width of `int` -/

def StockBalanced (s : State cfg) : Prop :=
  ∀ j, s.qty j ≡ cfg.initialQty j + heldStock s.clients j + s.hist.departed j [ZMOD 4294967296]

theorem stockBalanced_addStock {s : State cfg} (h : StockBalanced s)
    (hi : TableInvariant s.clients) {i : Fin cfg.maxClients} (hc : 0 ≤ (s.clients i).fd)
    (idx : Fin cfg.ingredientCount) (delta : ℤ) : StockBalanced (addStock s i idx delta) := by
  intro j
  have hj := h j
  have hheld := heldStock_addStock hi hc idx delta j
  rw [qty_addStock]
  simp only [Int.ModEq] at hj ⊢
  have hhist : (addStock s i idx delta).hist = s.hist := rfl
  rw [hhist]
  by_cases hji : j = idx
  · subst hji
    simp only [↓reduceIte] at hheld ⊢
    have hq := int32_emod (s.qty j + delta)
    have hb := int32_emod ((s.clients i).book j + delta)
    omega
  · simp only [hji, ↓reduceIte] at hheld ⊢
    omega

theorem stockBalanced_same {s s' : State cfg} (h : StockBalanced s) (hqty : s'.qty = s.qty)
    (hheld : ∀ j, heldStock s'.clients j + s'.hist.departed j =
      heldStock s.clients j + s.hist.departed j) : StockBalanced s' := by
  intro j
  have hj := h j
  have hsum := hheld j
  rw [hqty]
  simp only [Int.ModEq] at hj ⊢
  omega

theorem resetClient_held {s : State cfg} {i : Fin cfg.maxClients} (hc : 0 ≤ (s.clients i).fd)
    (j : Fin cfg.ingredientCount) :
    heldStock (resetClient s i).clients j + (resetClient s i).hist.departed j =
      heldStock s.clients j + s.hist.departed j := by
  have hu := heldStock_update s.clients i (.free _) j
  rw [held_free, held_of_connected hc] at hu
  simp only [resetClient]
  omega

theorem connectClient_held {s : State cfg} {i : Fin cfg.maxClients} (hfree : (s.clients i).fd < 0)
    (fd now : ℤ) (j : Fin cfg.ingredientCount) :
    heldStock (connectClient s i fd now).clients j = heldStock s.clients j := by
  have hu := heldStock_update s.clients i
    { s.clients i with fd := fd, lastActive := now, spellbook := some (fun _ => 0) } j
  have hnew : Client.held j { s.clients i with
      fd := fd, lastActive := now, spellbook := some (fun _ => 0) } = 0 := by
    simp [Client.held, Client.book]
  rw [hnew, held_of_fd_neg hfree, add_zero, add_zero] at hu
  exact hu

theorem stockBalanced_effect {s s' : State cfg} (h : Effect s s') (hi : TableInvariant s.clients)
    (hb : StockBalanced s) : StockBalanced s' := by
  cases h with
  | talk fd line => exact hb
  | touch i c hc hfd huser htype hbook hline =>
    refine stockBalanced_same hb rfl (fun j => ?_)
    simp only [State.setClient, heldStock_update_same hfd hbook]
  | enroll i hc hfresh hnew htype hvalid =>
    refine stockBalanced_same hb rfl (fun j => ?_)
    refine congrArg (fun x => x + s.hist.departed j) (heldStock_update_same ?_ ?_ j) <;> rfl
  | brew i idx hc hpos hle => exact stockBalanced_addStock hb hi hc idx _
  | consume i idx hc hpos hqty hbook => exact stockBalanced_addStock hb hi hc idx _
  | leave i hc => exact stockBalanced_same hb rfl (resetClient_held hc)

theorem stockBalanced_effects {s s' : State cfg} (h : Effects s s')
    (hi : TableInvariant s.clients) (hb : StockBalanced s) : StockBalanced s' := by
  induction h with
  | refl => exact hb
  | tail hpre hlast ih => exact stockBalanced_effect hlast (tableInvariant_effects hpre hi) ih

theorem stockBalanced_event {s s' : State cfg} (h : Event s s') (hi : TableInvariant s.clients)
    (hb : StockBalanced s) : StockBalanced s' := by
  cases h with
  | serve heff => exact stockBalanced_effects heff hi hb
  | connect i fd now hfree hfd =>
    refine stockBalanced_same hb rfl (fun j => ?_)
    rw [connectClient_held hfree]
    rfl
  | refuse i fd now line hfree =>
    rw [refuseClient_eq hi hfree]
    exact hb
  | stop heff =>
    have hall := stockBalanced_effects heff hi hb
    exact hall

theorem stockBalanced_initial : StockBalanced (initial cfg) := by
  intro j
  have hheld : heldStock (initial cfg).clients j = 0 :=
    Finset.sum_eq_zero (fun c _ => held_free j)
  rw [hheld]
  simp [initial]

/-- In every reachable state each quantity is the initial one plus what connected
clients hold plus what departed clients held, modulo the width of `int`. -/
theorem stockBalanced_reachable {s : State cfg} (h : (machine cfg).Reachable s)
    (j : Fin cfg.ingredientCount) :
    s.qty j ≡ cfg.initialQty j +
      (∑ c, if 0 ≤ (s.clients c).fd then (s.clients c).book j else 0) + s.hist.departed j
      [ZMOD 2 ^ 32] := by
  have hall : StockBalanced s := h.invariant stockBalanced_initial
    (fun _ _ _ hr hb hs => stockBalanced_event (step_event hs) (tableInvariant_reachable hr) hb)
  exact hall j

/-! ### Exact sums -/

/-- Nothing has wrapped around so far. -/
structure StockExact (s : State cfg) : Prop where
  balance : ∀ j, s.qty j = cfg.initialQty j + heldStock s.clients j + s.hist.departed j
  limit : ∀ j, s.qty j ≤ intMax
  book : ∀ c, 0 ≤ (s.clients c).fd → ∀ j, 0 ≤ (s.clients c).book j
  departed : ∀ j, 0 ≤ s.hist.departed j
  sums : ∀ b ∈ s.hist.brews, b.newQty = b.oldQty + b.qty ∧ b.newBook = b.oldBook + b.qty

theorem held_nonneg {s : State cfg} (h : StockExact s) (c : Fin cfg.maxClients)
    (j : Fin cfg.ingredientCount) : 0 ≤ (s.clients c).held j := by
  unfold Client.held
  split_ifs with hc
  · exact h.book c hc j
  · exact le_rfl

theorem book_le_qty {s : State cfg} (h : StockExact s) {i : Fin cfg.maxClients}
    (hc : 0 ≤ (s.clients i).fd) (j : Fin cfg.ingredientCount) :
    (s.clients i).book j ≤ s.qty j := by
  have hle : (s.clients i).held j ≤ heldStock s.clients j :=
    Finset.single_le_sum (fun c _ => held_nonneg h c j) (Finset.mem_univ i)
  have hpos := cfg.qty_pos j
  have hbal := h.balance j
  have hdep := h.departed j
  rw [held_of_connected hc] at hle
  omega

theorem initialQty_le_qty {s : State cfg} (h : StockExact s) (j : Fin cfg.ingredientCount) :
    cfg.initialQty j ≤ s.qty j := by
  have hheld : 0 ≤ heldStock s.clients j := Finset.sum_nonneg (fun c _ => held_nonneg h c j)
  have hbal := h.balance j
  have hdep := h.departed j
  omega

theorem stockExact_addStock {s : State cfg} (h : StockExact s) (hi : TableInvariant s.clients)
    {i : Fin cfg.maxClients} (hc : 0 ≤ (s.clients i).fd) {idx : Fin cfg.ingredientCount} {delta : ℤ}
    (hbook : 0 ≤ (s.clients i).book idx + delta) (hmax : s.qty idx + delta ≤ intMax) :
    StockExact (addStock s i idx delta) ∧
      (addStock s i idx delta).qty idx = s.qty idx + delta ∧
      ((addStock s i idx delta).clients i).book idx = (s.clients i).book idx + delta := by
  have hle := book_le_qty h hc idx
  have hq : int32 (s.qty idx + delta) = s.qty idx + delta :=
    int32_of_range (by omega) hmax
  have hb : int32 ((s.clients i).book idx + delta) = (s.clients i).book idx + delta :=
    int32_of_range hbook (by omega)
  refine ⟨⟨?_, ?_, ?_, h.departed, h.sums⟩, ?_, ?_⟩
  · intro j
    have hheld := heldStock_addStock hi hc idx delta j
    have hbal := h.balance j
    have hhist : (addStock s i idx delta).hist = s.hist := rfl
    rw [qty_addStock, hhist]
    by_cases hji : j = idx
    · subst hji
      simp only [↓reduceIte] at hheld ⊢
      omega
    · simp only [hji, ↓reduceIte] at hheld ⊢
      omega
  · intro j
    rw [qty_addStock]
    split_ifs
    · exact int32_le _
    · exact h.limit j
  · intro c hcc j
    by_cases hci : c = i
    · subst hci
      rw [book_addStock hi hc]
      split_ifs
      · omega
      · exact h.book c hc j
    · have hother : (addStock s i idx delta).clients c = s.clients c := by
        simp only [addStock, Function.update_of_ne hci]
      rw [hother] at hcc ⊢
      exact h.book c hcc j
  · rw [qty_addStock, if_pos rfl, hq]
  · rw [book_addStock hi hc, if_pos rfl, hb]

/-- A step that leaves the stock, the books and the history of brews alone, or
moves the book of one client to the departed quantities. -/
theorem stockExact_same {s s' : State cfg} (h : StockExact s) (hqty : s'.qty = s.qty)
    (hheld : ∀ j, heldStock s'.clients j + s'.hist.departed j =
      heldStock s.clients j + s.hist.departed j)
    (hbook : ∀ c, 0 ≤ (s'.clients c).fd → ∀ j, 0 ≤ (s'.clients c).book j)
    (hdep : ∀ j, 0 ≤ s'.hist.departed j) (hbrews : s'.hist.brews = s.hist.brews) :
    StockExact s' := by
  refine ⟨fun j => ?_, fun j => hqty ▸ h.limit j, hbook, hdep, hbrews ▸ h.sums⟩
  have hsum := hheld j
  have hbal := h.balance j
  rw [hqty]
  omega

def BrewsFit (s : State cfg) : Prop := ∀ b ∈ s.hist.brews, b.oldQty + b.qty ≤ intMax

theorem stockExact_brew {s : State cfg} (h : StockExact s) (hi : TableInvariant s.clients)
    {i : Fin cfg.maxClients} (hc : 0 ≤ (s.clients i).fd) {idx : Fin cfg.ingredientCount} {qty : ℤ}
    (hpos : 0 < qty) (hfit : s.qty idx + qty ≤ intMax) : StockExact (brewStock s i idx qty) := by
  have hbook := h.book i hc idx
  obtain ⟨hadd, hqty, hnew⟩ := stockExact_addStock h hi hc (by omega) hfit
  refine ⟨hadd.balance, hadd.limit, hadd.book, hadd.departed, ?_⟩
  intro b hb
  rcases List.mem_append.mp hb with hb | hb
  · exact h.sums b hb
  · obtain rfl := List.mem_singleton.mp hb
    exact ⟨hqty, hnew⟩

theorem stockExact_effect {s s' : State cfg} (h : Effect s s') (hi : TableInvariant s.clients)
    (hfit : BrewsFit s') (he : StockExact s) : StockExact s' := by
  cases h with
  | talk fd line => exact ⟨he.balance, he.limit, he.book, he.departed, he.sums⟩
  | touch i c hc hfd huser htype hbook hline =>
    refine stockExact_same he rfl (fun j => ?_) ?_ he.departed rfl
    · simp only [State.setClient, heldStock_update_same hfd hbook]
    · simp only [State.setClient]
      rw [Function.forall_update_iff s.clients (fun _ c => 0 ≤ c.fd → ∀ j, 0 ≤ c.book j)]
      refine ⟨fun _ j => ?_, fun c _ => he.book c⟩
      simpa only [Client.book, hbook] using he.book i hc j
  | enroll i hc hfresh hnew htype hvalid =>
    refine stockExact_same he rfl (fun j => ?_) ?_ he.departed rfl
    · refine congrArg (fun x => x + s.hist.departed j) (heldStock_update_same ?_ ?_ j) <;> rfl
    · simp only [State.setClient]
      rw [Function.forall_update_iff s.clients (fun _ c => 0 ≤ c.fd → ∀ j, 0 ≤ c.book j)]
      exact ⟨fun _ => he.book i hc, fun c _ => he.book c⟩
  | brew i idx hc hpos hle =>
    refine stockExact_brew he hi hc hpos (hfit (recordBrew s i idx _) ?_)
    exact List.mem_append_right _ (List.mem_singleton_self _)
  | consume i idx hc hpos hqty hbook =>
    have hlimit := he.limit idx
    exact (stockExact_addStock he hi hc (by omega) (by omega)).1
  | leave i hc =>
    refine stockExact_same he rfl (resetClient_held hc) ?_ (fun j => ?_) rfl
    · simp only [resetClient]
      rw [Function.forall_update_iff s.clients (fun _ c => 0 ≤ c.fd → ∀ j, 0 ≤ c.book j)]
      exact ⟨fun hneg => by simp [Client.free] at hneg, fun c _ => he.book c⟩
    · have hdep := he.departed j
      have hbook := he.book i hc j
      simp only [resetClient]
      omega

theorem newBook_le (s : State cfg) (i : Fin cfg.maxClients) (idx : Fin cfg.ingredientCount)
    (qty : ℤ) : (recordBrew s i idx qty).newBook ≤ intMax := by
  simp only [recordBrew, addStock, Function.update_self, Client.book]
  cases (s.clients i).spellbook with
  | none => exact Int.zero_le_ofNat _
  | some book => simpa using int32_le _

def Brew.reply (b : Brew cfg.ingredientCount) (newQty : ℤ) : ℤ × List Char :=
  (b.fd, (stockReply "OK BREW ".toList cfg b.ingredient b.qty newQty).take maxLine)

/-- Brews are only added, each with a spellbook entry in range, and their clients are
answered in their order. -/
structure BrewsRecorded (s s' : State cfg) (brews : List (Brew cfg.ingredientCount))
    (lines : List (ℤ × List Char)) : Prop where
  hist : s'.hist.brews = s.hist.brews ++ brews
  sent : s'.sent = s.sent ++ lines
  book : ∀ b ∈ brews, b.newBook ≤ intMax
  answered : (brews.map fun b => b.reply b.newQty).Sublist lines

theorem brewsRecorded_none {s s' : State cfg} (hhist : s'.hist.brews = s.hist.brews)
    {lines : List (ℤ × List Char)} (hsent : s'.sent = s.sent ++ lines) :
    BrewsRecorded s s' [] lines :=
  ⟨by rw [hhist, List.append_nil], hsent, by simp, List.nil_sublist _⟩

theorem BrewsRecorded.trans {s t u : State cfg} {brews brews' : List (Brew cfg.ingredientCount)}
    {lines lines' : List (ℤ × List Char)} (h : BrewsRecorded s t brews lines)
    (h' : BrewsRecorded t u brews' lines') :
    BrewsRecorded s u (brews ++ brews') (lines ++ lines') where
  hist := by rw [h'.hist, h.hist, List.append_assoc]
  sent := by rw [h'.sent, h.sent, List.append_assoc]
  book := by
    intro b hb
    rcases List.mem_append.mp hb with hb | hb
    · exact h.book b hb
    · exact h'.book b hb
  answered := by
    rw [List.map_append]
    exact h.answered.append h'.answered

theorem brewsRecorded_effect {s s' : State cfg} (h : Effect s s') :
    ∃ brews lines, BrewsRecorded s s' brews lines := by
  have hquiet : s'.hist.brews = s.hist.brews → s'.sent = s.sent →
      ∃ brews lines, BrewsRecorded s s' brews lines := by
    intro hhist hsent
    exact ⟨_, _, brewsRecorded_none hhist (hsent.trans (List.append_nil _).symm)⟩
  cases h with
  | talk fd line =>
    refine ⟨[], [(fd, line.take maxLine)], brewsRecorded_none ?_ ?_⟩
    · rfl
    · rfl
  | @brew i idx qty hc hpos hle =>
    have hfd : ((addStock s i idx qty).clients i).fd = (s.clients i).fd := by simp [addStock]
    have hreply : (brewStock s i idx qty).sent = s.sent ++
        [(recordBrew s i idx qty).reply (recordBrew s i idx qty).newQty] := by
      simp only [brewStock, SysProg.HW6.reply, sendLine, hfd]
      rfl
    refine ⟨[recordBrew s i idx qty], _, rfl, hreply, ?_, List.Sublist.refl _⟩
    intro b hb
    rw [List.mem_singleton.mp hb]
    exact newBook_le s i idx qty
  | touch => exact hquiet rfl rfl
  | enroll => exact hquiet rfl rfl
  | consume => exact hquiet rfl rfl
  | leave => exact hquiet rfl rfl

theorem brewsRecorded_effects {s s' : State cfg} (h : Effects s s') :
    ∃ brews lines, BrewsRecorded s s' brews lines := by
  induction h with
  | refl => exact ⟨_, _, brewsRecorded_none rfl (List.append_nil _).symm⟩
  | tail _ hlast ih =>
    obtain ⟨brews, lines, hprior⟩ := ih
    obtain ⟨brews', lines', hnext⟩ := brewsRecorded_effect hlast
    exact ⟨_, _, hprior.trans hnext⟩

theorem brewsRecorded_event {s s' : State cfg} (h : Event s s') :
    ∃ brews lines, BrewsRecorded s s' brews lines := by
  cases h with
  | serve heff => exact brewsRecorded_effects heff
  | connect i fd now hfree hfd =>
    refine ⟨[], [], brewsRecorded_none ?_ (List.append_nil _).symm⟩
    rfl
  | refuse i fd now line hfree =>
    refine ⟨[], [(fd, line.take maxLine)], brewsRecorded_none ?_ ?_⟩
    · rfl
    · rfl
  | stop heff =>
    obtain ⟨brews, lines, hhist, hsent, hbook, hanswered⟩ := brewsRecorded_effects heff
    exact ⟨brews, lines, hhist, hsent, hbook, hanswered⟩

theorem BrewsRecorded.fit {s s' : State cfg} {brews : List (Brew cfg.ingredientCount)}
    {lines : List (ℤ × List Char)} (h : BrewsRecorded s s' brews lines) (hfit : BrewsFit s') :
    BrewsFit s := by
  intro b hb
  apply hfit b
  rw [h.hist]
  exact List.mem_append_left _ hb

theorem stockExact_effects {s s' : State cfg} (h : Effects s s') (hi : TableInvariant s.clients)
    (hfit : BrewsFit s') (he : StockExact s) : StockExact s' := by
  induction h with
  | refl => exact he
  | tail hpre hlast ih =>
    obtain ⟨brews, lines, hrec⟩ := brewsRecorded_effect hlast
    have hprior := ih (hrec.fit hfit)
    exact stockExact_effect hlast (tableInvariant_effects hpre hi) hfit hprior

theorem stockExact_event {s s' : State cfg} (h : Event s s') (hi : TableInvariant s.clients)
    (hfit : BrewsFit s') (he : StockExact s) : StockExact s' := by
  cases h with
  | serve heff => exact stockExact_effects heff hi hfit he
  | connect i fd now hfree hfd =>
    refine stockExact_same he rfl (fun j => ?_) ?_ he.departed rfl
    · rw [connectClient_held hfree]
      rfl
    · simp only [connectClient, State.setClient]
      rw [Function.forall_update_iff s.clients (fun _ c => 0 ≤ c.fd → ∀ j, 0 ≤ c.book j)]
      exact ⟨fun _ _ => le_rfl, fun c _ => he.book c⟩
  | refuse i fd now line hfree =>
    rw [refuseClient_eq hi hfree]
    exact ⟨he.balance, he.limit, he.book, he.departed, he.sums⟩
  | stop heff =>
    obtain ⟨hbal, hlimit, hbook, hdep, hsums⟩ := stockExact_effects heff hi hfit he
    exact ⟨hbal, hlimit, hbook, hdep, hsums⟩

theorem stockExact_initial : StockExact (initial cfg) where
  balance := by
    intro j
    have hheld : heldStock (initial cfg).clients j = 0 :=
      Finset.sum_eq_zero (fun c _ => held_free j)
    rw [hheld]
    simp [initial]
  limit := cfg.qty_le
  book := by simp [initial, Client.free]
  departed := fun _ => le_rfl
  sums := by simp [initial]

theorem stockExact_reachable {s : State cfg} (h : (machine cfg).Reachable s) (hfit : BrewsFit s) :
    StockExact s := by
  obtain ⟨tr, htr⟩ := h
  induction htr with
  | start => exact stockExact_initial
  | next prior hs ih =>
    have hev := step_event hs
    obtain ⟨brews, lines, hrec⟩ := brewsRecorded_event hev
    have hprior := ih (hrec.fit hfit)
    exact stockExact_event hev (tableInvariant_reachable prior.reachable) hfit hprior

theorem brewsRecorded_reachable {s : State cfg} (h : (machine cfg).Reachable s) :
    BrewsRecorded (initial cfg) s s.hist.brews s.sent := by
  obtain ⟨tr, htr⟩ := h
  induction htr with
  | start => exact brewsRecorded_none rfl rfl
  | next _ hs ih =>
    obtain ⟨brews, lines, hrec⟩ := brewsRecorded_event (step_event hs)
    rw [hrec.hist, hrec.sent]
    exact ih.trans hrec

/-- The additions of all brews so far stayed in range, the brewing clients were told
the mathematical sums in the order of their brews, and no quantity has been lost. -/
structure NoOverflow (s : State cfg) : Prop where
  range : ∀ b ∈ s.hist.brews, b.oldQty + b.qty ≤ intMax ∧ b.oldBook + b.qty ≤ intMax
  sums : ∀ b ∈ s.hist.brews, b.newQty = b.oldQty + b.qty ∧ b.newBook = b.oldBook + b.qty
  replies : (s.hist.brews.map fun b => b.reply (b.oldQty + b.qty)).Sublist s.sent
  qty : ∀ j, cfg.initialQty j ≤ s.qty j
  book : ∀ c, 0 ≤ (s.clients c).fd → ∀ j, 0 ≤ (s.clients c).book j

theorem noOverflow_iff_brewsFit {s : State cfg} (h : (machine cfg).Reachable s) :
    NoOverflow s ↔ ∀ b ∈ s.hist.brews, b.oldQty + b.qty ≤ intMax := by
  constructor
  · intro hno b hb
    exact (hno.range b hb).1
  · intro hfit
    have he := stockExact_reachable h hfit
    have hrec := brewsRecorded_reachable h
    refine ⟨fun b hb => ⟨hfit b hb, ?_⟩, he.sums, ?_, initialQty_le_qty he, he.book⟩
    · have hle := hrec.book b hb
      have hsum := (he.sums b hb).2
      omega
    · have hsums : s.hist.brews.map (fun b => b.reply (b.oldQty + b.qty)) =
          s.hist.brews.map fun b => b.reply b.newQty :=
        List.map_congr_left fun b hb => by rw [(he.sums b hb).1]
      rw [hsums]
      exact hrec.answered

/-! ### One ingredient and the largest quantity -/

def rose : Fin smallSchool.ingredientCount := ⟨0, Nat.one_pos⟩

def brewSmall : List (Action smallSchool) :=
  oneClient "ENROLL WIZARD ada\nBREW ROSE 2147483646\nCONSUME ROSE 4\n".toList ++
    [.hangup firstSlot]

def brewLarge : List (Action smallSchool) :=
  oneClient "ENROLL WIZARD ada\nBREW ROSE 2147483647\n".toList

theorem brewSmall_isSome :
    ((machine smallSchool).run (machine smallSchool).init brewSmall).isSome := by decide

theorem brewLarge_isSome :
    ((machine smallSchool).run (machine smallSchool).init brewLarge).isSome := by decide

theorem stockBalanced_brewSmall : ∃ s, (machine smallSchool).Reachable s ∧
    s.qty rose = 2147483643 ∧ s.hist.departed rose = 2147483642 ∧
    s.qty rose ≡ smallSchool.initialQty rose +
      (∑ c, if 0 ≤ (s.clients c).fd then (s.clients c).book rose else 0) + s.hist.departed rose
      [ZMOD 2 ^ 32] := by
  have hreach := (Machine.execution_of_isSome brewSmall_isSome).reachable
  exact ⟨_, hreach, by decide, by decide, stockBalanced_reachable hreach rose⟩

theorem noOverflow_brewSmall : ∃ s, (machine smallSchool).Reachable s ∧
    s.hist.brews.length = 1 ∧ NoOverflow s := by
  have hreach := (Machine.execution_of_isSome brewSmall_isSome).reachable
  exact ⟨_, hreach, by decide, (noOverflow_iff_brewsFit hreach).mpr (by decide)⟩

/-- A single brew of a quantity that `parse_positive_int` admits leaves a
negative stock. -/
theorem brewLarge_overflow : ∃ s, (machine smallSchool).Reachable s ∧
    s.qty rose = -2147483648 ∧ smallSchool.initialQty rose = 1 ∧ ¬ NoOverflow s := by
  have hreach := (Machine.execution_of_isSome brewLarge_isSome).reachable
  refine ⟨_, hreach, by decide, rfl, fun hno => ?_⟩
  have hqty := hno.qty rose
  revert hqty
  decide

end SysProg.HW6

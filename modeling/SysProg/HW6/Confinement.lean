import SysProg.HW6.SessionTable

/-!
# What one command line can change

Other clients are never touched, a refused line changes nothing but the clock
of its sender, and only wizards move the stock.
-/

namespace SysProg.HW6
open SysProg.Lib
variable {cfg : Config}

/-! ### What follows for one line -/

theorem outcome_others {s : State cfg} {i : Fin cfg.maxClients} {tokens : List (List Char)}
    {r : State cfg × Bool} (h : Outcome s i tokens r) {j : Fin cfg.maxClients} (hj : j ≠ i) :
    r.1.clients j = s.clients j := by
  cases h with
  | blank | refused | told => rfl
  | enrolled | brewed | consumed => exact Function.update_of_ne hj _ _
  | left =>
    simp only [disconnectClient]
    split_ifs
    · rfl
    · exact Function.update_of_ne hj _ _

theorem outcome_sent {s : State cfg} {i : Fin cfg.maxClients} {tokens : List (List Char)}
    {r : State cfg × Bool} (h : Outcome s i tokens r) :
    r.1.sent = s.sent ∨ ∃ line, r.1.sent = s.sent ++ [((s.clients i).fd, line)] := by
  cases h with
  | blank => exact .inl rfl
  | refused | told => exact .inr ⟨_, rfl⟩
  | enrolled | brewed | consumed =>
    exact .inr
        ⟨_, by simp [reply, sendLine, enrollClient, brewStock, addStock, State.setClient]; rfl⟩
  | left =>
    refine .inr ⟨"OK APPARATE".toList, ?_⟩
    simp only [disconnectClient]
    split_ifs <;> rfl

theorem reply_sent {s : State cfg} {i : Fin cfg.maxClients} {text line : List Char} {fd : ℤ}
    {sent : List (ℤ × List Char)} (hs : s.sent = sent)
    (h : (reply s i text).sent = sent ++ [(fd, line)]) : line = text.take maxLine := by
  simp only [reply, sendLine, hs, List.append_cancel_left_eq, List.cons.injEq, Prod.mk.injEq,
    and_true] at h
  exact h.2.symm

theorem isPrefix_stockReply (verb : List Char) (h : verb.length ≤ maxLine)
    (idx : Fin cfg.ingredientCount) (qty newQty : ℤ) :
    verb <+: (stockReply verb cfg idx qty newQty).take maxLine := by
  refine isPrefix_take (isPrefix_response ?_ h _) h
  exact List.prefix_append_of_prefix (List.prefix_append _ _)

theorem conflict {p q line : List Char} (hp : p <+: line) (hq : q <+: line)
    (hpq : ¬ p <+: q ∧ ¬ q <+: p) : False := by
  rcases List.prefix_or_prefix_of_prefix hp hq with h | h
  · exact hpq.1 h
  · exact hpq.2 h

theorem outcome_err {s : State cfg} {i : Fin cfg.maxClients} {tokens : List (List Char)}
    {r : State cfg × Bool} (h : Outcome s i tokens r) {fd : ℤ} {line : List Char}
    (hsent : r.1.sent = s.sent ++ [(fd, line)]) (herr : err <+: line) :
    r.1 = { s with sent := r.1.sent } := by
  cases h with
  | blank | refused | told => rfl
  | enrolled hok =>
    obtain rfl := reply_sent rfl hsent
    exact (conflict herr (isPrefix_take hok (by decide)) (by decide)).elim
  | brewed =>
    obtain rfl := reply_sent rfl hsent
    exact (conflict herr (isPrefix_stockReply okBrew (by decide) _ _ _) (by decide)).elim
  | consumed =>
    obtain rfl := reply_sent rfl hsent
    exact (conflict herr (isPrefix_stockReply okConsume (by decide) _ _ _)
      (by decide)).elim
  | left =>
    have hline : line = "OK APPARATE".toList.take maxLine := by
      refine reply_sent (i := i) rfl (Eq.trans ?_ hsent)
      simp only [disconnectClient]
      split_ifs <;> rfl
    subst hline
    exact absurd herr (by decide)

/-! ### Commands that move the stock -/

/-- An accepted `BREW` or `CONSUME`: one entry of the table and the same entry of
the spellbook of the client move by the given quantity. -/
structure StockMove (s s' : State cfg) (i : Fin cfg.maxClients) (tokens : List (List Char))
    (ok : List Char) (idx : Fin cfg.ingredientCount) (qty delta : ℤ) : Prop where
  role : (s.clients i).username ≠ [] ∧ (s.clients i).type = wizard
  request : ∃ verb text, tokens = [verb, cfg.name idx, text] ∧ parsePositiveInt text = some qty
  kind : ok = okBrew ∧ delta = qty ∨ ok = okConsume ∧ delta = -qty
  answer : s'.sent = s.sent ++ [((s.clients i).fd, stockReply ok cfg idx qty (s'.qty idx))]
  table : s'.qty = Function.update s.qty idx (int32 (s.qty idx + delta))
  moved : s'.qty idx ≠ s.qty idx
  book : ∃ book, (s.clients i).spellbook = some book ∧ (s'.clients i).spellbook =
    some (Function.update book idx (int32 (book idx + delta)))

theorem int32_add_ne {x delta : ℤ} (hne : delta ≠ 0) (hlo : -intMax ≤ delta)
    (hhi : delta ≤ intMax) : int32 (x + delta) ≠ x := by
  intro heq
  have hmod := int32_emod (x + delta)
  rw [heq] at hmod
  simp only [intMax] at hlo hhi
  omega

theorem findIngredient_name {name : List Char} {idx : Fin cfg.ingredientCount}
    (h : findIngredient cfg name = some idx) : cfg.name idx = name := by
  simpa using List.find?_some h

theorem take_stockReply (ok : List Char) (idx : Fin cfg.ingredientCount) (qty newQty : ℤ) :
    (stockReply ok cfg idx qty newQty).take maxLine = stockReply ok cfg idx qty newQty := by
  simp [stockReply, response, snprintf, List.take_take]

theorem okListings_spec : ∀ verb ∈ okListings, verb.length ≤ maxLine ∧
    (¬ okBrew <+: verb ∧ ¬ verb <+: okBrew) ∧ (¬ okConsume <+: verb ∧ ¬ verb <+: okConsume) := by
  decide

def NoStockReply (s s' : State cfg) : Prop :=
  ∀ fd line, s'.sent = s.sent ++ [(fd, line)] → ¬ okBrew <+: line ∧ ¬ okConsume <+: line

theorem noStockReply_of_prefix {s t : State cfg} {i : Fin cfg.maxClients} {text p : List Char}
    (ht : t.sent = s.sent) (hp : p <+: text.take maxLine)
    (hne : (¬ okBrew <+: p ∧ ¬ p <+: okBrew) ∧ (¬ okConsume <+: p ∧ ¬ p <+: okConsume)) :
    NoStockReply s (reply t i text) := by
  intro fd line hsent
  obtain rfl := reply_sent ht hsent
  exact ⟨fun hb => conflict hb hp hne.1, fun hb => conflict hb hp hne.2⟩

theorem stockMove_addStock {s s' : State cfg} {i : Fin cfg.maxClients}
    {verb name text ok : List Char} {idx : Fin cfg.ingredientCount} {qty delta : ℤ}
    (hwf : (s.clients i).WellFormed) (hname : findIngredient cfg name = some idx)
    (hqty : parsePositiveInt text = some qty) (htype : (s.clients i).type = wizard)
    (hkind : ok = okBrew ∧ delta = qty ∨ ok = okConsume ∧ delta = -qty)
    (hclients : s'.clients = (addStock s i idx delta).clients)
    (htable : s'.qty = (addStock s i idx delta).qty)
    (hsent : s'.sent = s.sent ++ [((s.clients i).fd, stockReply ok cfg idx qty (s'.qty idx))]) :
    StockMove s s' i [verb, name, text] ok idx qty delta := by
  obtain ⟨hpos, hle⟩ := parsePositiveInt_bounds hqty
  obtain ⟨book, hbook⟩ := Option.isSome_iff_exists.mp hwf.book
  have hdelta : delta ≠ 0 ∧ -intMax ≤ delta ∧ delta ≤ intMax := by
    simp only [intMax] at *
    omega
  refine ⟨⟨hwf.enrolled.mpr (.inl htype), htype⟩, ⟨verb, text, ?_, hqty⟩, hkind, hsent, htable, ?_,
    book, hbook, ?_⟩
  · rw [findIngredient_name hname]
  · rw [htable]
    simp only [addStock, Function.update_self]
    exact int32_add_ne hdelta.1 hdelta.2.1 hdelta.2.2
  · rw [hclients]
    simp [addStock, hbook]

theorem brewStock_sent (s : State cfg) (i : Fin cfg.maxClients) (idx : Fin cfg.ingredientCount)
    (qty : ℤ) : (brewStock s i idx qty).sent = s.sent ++
      [((s.clients i).fd, stockReply okBrew cfg idx qty ((brewStock s i idx qty).qty idx))] := by
  rw [← take_stockReply]
  simp only [brewStock, reply, sendLine, addStock, Function.update_self]
  rfl

theorem consumeStock_sent (s : State cfg) (i : Fin cfg.maxClients) (idx : Fin cfg.ingredientCount)
    (qty newQty : ℤ) :
    (reply (addStock s i idx (-qty)) i (stockReply okConsume cfg idx qty newQty)).sent
      = s.sent ++ [((s.clients i).fd, stockReply okConsume cfg idx qty newQty)] := by
  simp only [reply, sendLine, addStock, Function.update_self, take_stockReply]

/-- A line moves the stock and is answered so, or does neither. -/
theorem outcome_stock {s : State cfg} {i : Fin cfg.maxClients} {tokens : List (List Char)}
    {r : State cfg × Bool} (h : Outcome s i tokens r) (hwf : (s.clients i).WellFormed) :
    r.1.qty = s.qty ∧ NoStockReply s r.1 ∨
      ∃ ok idx qty delta, StockMove s r.1 i tokens ok idx qty delta := by
  cases h with
  | blank => exact .inl ⟨rfl, fun fd line hsent => by simp at hsent⟩
  | refused herr =>
    exact .inl ⟨rfl, noStockReply_of_prefix rfl (isPrefix_take herr (by decide)) (by decide)⟩
  | told hmem hline =>
    obtain ⟨hlen, hne⟩ := okListings_spec _ hmem
    exact .inl ⟨rfl, noStockReply_of_prefix rfl (isPrefix_take hline hlen) hne⟩
  | enrolled hok =>
    exact .inl ⟨rfl, noStockReply_of_prefix rfl (isPrefix_take hok (by decide)) (by decide)⟩
  | brewed htokens hname hqty htype =>
    subst htokens
    exact .inr ⟨okBrew, _, _, _, stockMove_addStock hwf hname hqty htype (.inl ⟨rfl, rfl⟩) rfl rfl
      (brewStock_sent s i _ _)⟩
  | consumed htokens hname hqty htype =>
    subst htokens
    exact .inr
        ⟨okConsume, _, _, _, stockMove_addStock hwf hname hqty htype (.inr ⟨rfl, rfl⟩) rfl rfl
      (consumeStock_sent s i _ _ _)⟩
  | left =>
    refine .inl ?_
    have hreply : NoStockReply s (reply s i "OK APPARATE".toList) :=
      noStockReply_of_prefix rfl (List.prefix_refl _) (by decide)
    simp only [disconnectClient]
    split_ifs
    · exact ⟨rfl, hreply⟩
    · exact ⟨rfl, hreply⟩

@[simp] theorem setClient_clients_self (s : State cfg) (i : Fin cfg.maxClients)
    (c : Client cfg.ingredientCount) : (s.setClient i c).clients i = c :=
  Function.update_self _ _ _

theorem touch_wellFormed {s : State cfg} {i : Fin cfg.maxClients} (h : (s.clients i).WellFormed)
    (now : ℤ) : ((touch s i now).clients i).WellFormed := by
  rw [touch, setClient_clients_self]
  exact ⟨h.enrolled, h.line, h.book⟩

theorem stockMove_of_touch {s s' : State cfg} {i : Fin cfg.maxClients} {now : ℤ}
    {tokens : List (List Char)} {ok : List Char} {idx : Fin cfg.ingredientCount} {qty delta : ℤ}
    (h : StockMove (touch s i now) s' i tokens ok idx qty delta) :
    StockMove s s' i tokens ok idx qty delta := by
  have hc : (touch s i now).clients i = { s.clients i with lastActive := now } :=
    setClient_clients_self s i _
  obtain ⟨hrole, hreq, hkind, hans, htable, hmoved, hbook⟩ := h
  rw [hc] at hrole hans hbook
  exact ⟨hrole, hreq, hkind, hans, htable, hmoved, hbook⟩

/-! ### Professors -/

structure OnlyOwn (i : Fin cfg.maxClients) (s s' : State cfg) : Prop where
  qty : s'.qty = s.qty
  others : ∀ j, j ≠ i → s'.clients j = s.clients j

def Professor (s : State cfg) (i : Fin cfg.maxClients) : Prop :=
  (s.clients i).username ≠ [] ∧ (s.clients i).type = professor

instance (s : State cfg) (i : Fin cfg.maxClients) : Decidable (Professor s i) :=
  inferInstanceAs (Decidable (_ ∧ _))

theorem OnlyOwn.trans {i : Fin cfg.maxClients} {s t u : State cfg} (h : OnlyOwn i s t)
    (h' : OnlyOwn i t u) : OnlyOwn i s u :=
  ⟨h'.qty.trans h.qty, fun j hj => (h'.others j hj).trans (h.others j hj)⟩

theorem onlyOwn_setClient (s : State cfg) (i : Fin cfg.maxClients)
    (c : Client cfg.ingredientCount) : OnlyOwn i s (s.setClient i c) :=
  ⟨rfl, fun _ hj => Function.update_of_ne hj _ _⟩

theorem professor_ne_wizard : professor ≠ wizard := by decide

theorem professor_outcome {s : State cfg} {i : Fin cfg.maxClients} {tokens : List (List Char)}
    {r : State cfg × Bool} (h : Outcome s i tokens r) (hp : Professor s i) :
    OnlyOwn i s r.1 ∧ (r.2 = false → Professor r.1 i) := by
  have hothers : ∀ j, j ≠ i → r.1.clients j = s.clients j := fun j hj => outcome_others h hj
  cases h with
  | blank | refused | told => exact ⟨⟨rfl, hothers⟩, fun _ => hp⟩
  | enrolled _ hfresh => exact absurd hfresh hp.1
  | brewed _ _ _ htype => exact absurd (hp.2.symm.trans htype) professor_ne_wizard
  | consumed _ _ _ htype => exact absurd (hp.2.symm.trans htype) professor_ne_wizard
  | left =>
    refine ⟨⟨?_, hothers⟩, fun hr => by cases hr⟩
    simp only [disconnectClient]
    split_ifs <;> rfl

theorem professor_setClient {s : State cfg} {i : Fin cfg.maxClients} (hp : Professor s i)
    {c : Client cfg.ingredientCount} (huser : c.username = (s.clients i).username)
    (htype : c.type = (s.clients i).type) : Professor (s.setClient i c) i := by
  rw [Professor, setClient_clients_self, huser, htype]
  exact hp

theorem professor_feedByte {s : State cfg} {i : Fin cfg.maxClients} (hp : Professor s i) (now : ℤ)
    (ch : Char) : OnlyOwn i s (feedByte s i now ch).1 ∧
      ((feedByte s i now ch).2 = false → Professor (feedByte s i now ch).1 i) := by
  simp only [feedByte]
  split_ifs
  · exact ⟨onlyOwn_setClient s i _, fun _ => professor_setClient hp rfl rfl⟩
  · exact ⟨⟨rfl, fun _ _ => rfl⟩, fun _ => hp⟩
  · have hline := professor_setClient hp (c := { s.clients i with lineBuf := [] }) rfl rfl
    have htouch := professor_setClient hline (c := { (State.setClient s i
      { s.clients i with lineBuf := [] }).clients i with lastActive := now }) rfl rfl
    have hout := professor_outcome (processCommand_outcome _ i now (s.clients i).lineBuf) htouch
    exact ⟨((onlyOwn_setClient s i _).trans (onlyOwn_setClient _ i _)).trans hout.1, hout.2⟩
  · exact ⟨⟨rfl, (onlyOwn_setClient s i _).others⟩, fun _ => professor_setClient hp rfl rfl⟩
  · exact ⟨onlyOwn_setClient s i _, fun _ => professor_setClient hp rfl rfl⟩

theorem professor_feedClientData {s : State cfg} {i : Fin cfg.maxClients} (hp : Professor s i)
    (chunk : List Char) (clock : ℕ → ℤ) : OnlyOwn i s (feedClientData i chunk clock s).1 := by
  induction chunk generalizing s clock with
  | nil => exact ⟨rfl, fun _ _ => rfl⟩
  | cons ch rest ih =>
    obtain ⟨hown, hstay⟩ := professor_feedByte hp (clock 0) ch
    simp only [feedClientData]
    split_ifs with hgone
    · exact hown
    · exact hown.trans (ih (hstay (by simpa using hgone)) _)

/-- As long as the session lasts, whatever arrives from a professor is confined
to the own slot. -/
theorem professor_session {s s' : State cfg} {as : List (Action cfg)} {i : Fin cfg.maxClients}
    (hp : Professor s i) (hrun : (machine cfg).run s as = some s')
    (hconn : ∀ p ∈ (machine cfg).trace s as, 0 ≤ (p.1.clients i).fd) {t t' : State cfg}
    {chunk : List Char} {clock : ℕ → ℤ} (hmem : (t, .recv i chunk clock) ∈ (machine cfg).trace s as)
    (ht : (machine cfg).step t (.recv i chunk clock) = some t') : OnlyOwn i t t' := by
  induction as generalizing s with
  | nil => simp [Machine.trace] at hmem
  | cons a as ih =>
    obtain ⟨u, hu, hrest⟩ := Option.bind_eq_some_iff.mp hrun
    simp only [Machine.trace, hu, Option.elim_some, List.mem_cons, forall_eq_or_imp] at hconn hmem
    rcases hmem with heq | hmem
    · obtain ⟨rfl, rfl⟩ := Prod.mk.inj heq
      have hstep : step t (.recv i chunk clock) = some t' := ht
      simp only [step] at hstep
      split_ifs at hstep
      obtain rfl := Option.some.inj hstep
      exact professor_feedClientData hp chunk clock
    · have hu0 : 0 ≤ (u.clients i).fd := by
        cases as with
        | nil => simp [Machine.trace] at hmem
        | cons b bs => exact hconn.2 (u, b) (by simp [Machine.trace])
      rcases event_sameSession (step_event hu) hconn.1 hp.1 with hgone | ⟨-, hname, htype⟩
      · omega
      · refine ih ⟨?_, ?_⟩ hrest hconn.2 hmem
        · rw [hname]
          exact hp.1
        · rw [htype]
          exact hp.2

/-! ### Confinement -/

/-- Every command line of a connected client leaves the other slots alone and
gets at most one reply; an error reply means that nothing but the clock of the
client has changed; the stock moves exactly with the replies that say so, by one
entry and for a wizard; and nothing a professor sends while connected reaches
the stock or another slot. -/
theorem command_confined {s : State cfg} (h : (machine cfg).Reachable s) {i : Fin cfg.maxClients}
    (hc : 0 ≤ (s.clients i).fd) :
    (∀ now line, let s' := (processCommand s i now line).1
      (∀ j, j ≠ i → s'.clients j = s.clients j) ∧
      (s'.sent = s.sent ∨ ∃ text, s'.sent = s.sent ++ [((s.clients i).fd, text)]) ∧
      (∀ fd text, s'.sent = s.sent ++ [(fd, text)] → err <+: text →
        s' = { touch s i now with sent := s'.sent }) ∧
      (s'.qty ≠ s.qty → ∃ ok idx qty delta,
        StockMove s s' i (tokenize line) ok idx qty delta) ∧
      (∀ fd text, s'.sent = s.sent ++ [(fd, text)] → okBrew <+: text ∨ okConsume <+: text →
        ∃ ok idx qty delta, StockMove s s' i (tokenize line) ok idx qty delta)) ∧
    (Professor s i → ∀ as s', (machine cfg).run s as = some s' →
      (∀ p ∈ (machine cfg).trace s as, 0 ≤ (p.1.clients i).fd) →
      ∀ t chunk clock t', (t, .recv i chunk clock) ∈ (machine cfg).trace s as →
        (machine cfg).step t (.recv i chunk clock) = some t' → OnlyOwn i t t') := by
  have hwf := (tableInvariant_reachable h).connected i hc
  refine ⟨fun now line => ?_, fun hp as s' hrun hconn t chunk clock t' hmem ht =>
    professor_session hp hrun hconn hmem ht⟩
  have hout := processCommand_outcome s i now line
  have hfd : ((touch s i now).clients i).fd = (s.clients i).fd := by
    simp [touch, State.setClient]
  refine ⟨fun j hj => ?_, ?_, fun fd text hsent herr => outcome_err hout hsent herr, fun hne => ?_,
    fun fd text hsent hok => ?_⟩
  · exact (outcome_others hout hj).trans (Function.update_of_ne hj _ _)
  · rw [← hfd]
    exact outcome_sent hout
  · rcases outcome_stock hout (touch_wellFormed hwf now) with ⟨hsame, -⟩ |
      ⟨ok, idx, qty, delta, hmove⟩
    · exact absurd hsame hne
    · exact ⟨ok, idx, qty, delta, stockMove_of_touch hmove⟩
  · rcases outcome_stock hout (touch_wellFormed hwf now) with ⟨-, hno⟩ |
      ⟨ok, idx, qty, delta, hmove⟩
    · obtain ⟨hbrew, hconsume⟩ := hno fd text hsent
      exact absurd hok (by simp [hbrew, hconsume])
    · exact ⟨ok, idx, qty, delta, stockMove_of_touch hmove⟩

/-- A wizard in the first slot and a professor in the second. -/
def twoClients : List (Action smallSchool) :=
  oneClient "ENROLL WIZARD ada\n".toList ++
    [.accept 6 0 true, .recv secondSlot "ENROLL PROFESSOR minerva\n".toList (fun _ => 0)]

theorem twoClients_isSome :
    ((machine smallSchool).run (machine smallSchool).init twoClients).isSome := by decide

def brewLine : List Char := "BREW ROSE 2".toList

/-- The wizard brews; the professor tries the same and reads the table. -/
theorem command_confined_twoClients : ∃ s t : State smallSchool, (machine smallSchool).Reachable s ∧
    (∃ ok idx qty delta, StockMove s (processCommand s firstSlot 0 brewLine).1 firstSlot
      (tokenize brewLine) ok idx qty delta) ∧
    (machine smallSchool).step s
      (.recv secondSlot "BREW ROSE 2\nSCROLL\n".toList (fun _ => 0)) = some t ∧
    OnlyOwn secondSlot s t := by
  have hreach := (Machine.execution_of_isSome twoClients_isSome).reachable
  have hwizard := (command_confined hreach (i := firstSlot) (by decide)).1 0 brewLine
  have hprofessor := (command_confined hreach (i := secondSlot) (by decide)).2 (by decide)
    [.recv secondSlot "BREW ROSE 2\nSCROLL\n".toList (fun _ => 0)]
  refine ⟨_, _, hreach, hwizard.2.2.2.1 ?_, rfl, ?_⟩
  · intro hsame
    have hrose := congrFun hsame ⟨0, Nat.one_pos⟩
    revert hrose
    decide
  · refine hprofessor _ rfl ?_ _ _ _ _ (List.mem_singleton_self _) rfl
    intro p hp
    obtain rfl := List.mem_singleton.mp hp
    decide

end SysProg.HW6

import SysProg.HW6.Hogwarts

/-!
# The ways in which a command line ends

A command line ends in one of seven ways: it is blank, it is refused, it is
answered without a change, or it enrolls, brews, consumes or leaves. The
handlers are opened here and nowhere else; what a line may and may not change
is read off the list.
-/

namespace SysProg.HW6
open SysProg.Lib
variable {cfg : Config}

def err : List Char := "ERR".toList
def okBrew : List Char := "OK BREW ".toList
def okConsume : List Char := "OK CONSUME ".toList
def okEnroll : List Char := "OK ENROLL ".toList

def okListings : List (List Char) :=
  ["OK SPELLBOOK ".toList, "OK INSPECT ".toList, "OK SCROLL ".toList, "OK ROSTER ".toList]

/-- The state in which a handler runs. -/
def touch (s : State cfg) (i : Fin cfg.maxClients) (now : ℤ) : State cfg :=
  s.setClient i { s.clients i with lastActive := now }

def enrollClient (s : State cfg) (i : Fin cfg.maxClients) (type username : List Char) : State cfg :=
  s.setClient i { s.clients i with username := snprintf 32 username, type := snprintf 16 type }

inductive Outcome (s : State cfg) (i : Fin cfg.maxClients) (tokens : List (List Char)) :
    State cfg × Bool → Prop where
  | blank : tokens = [] → Outcome s i tokens (s, false)
  | refused {line : List Char} : err <+: line → Outcome s i tokens (reply s i line, false)
  | told {verb line : List Char} : verb ∈ okListings → verb <+: line →
      Outcome s i tokens (reply s i line, false)
  | enrolled {type username line : List Char} : okEnroll <+: line →
      (s.clients i).username = [] → ¬ usernameExists s username →
      type = wizard ∨ type = professor → validUsername username = true →
      Outcome s i tokens (reply (enrollClient s i type username) i line, false)
  | brewed {verb name text : List Char} {idx : Fin cfg.ingredientCount} {qty : ℤ} :
      tokens = [verb, name, text] → findIngredient cfg name = some idx →
      parsePositiveInt text = some qty → (s.clients i).type = wizard →
      Outcome s i tokens (brewStock s i idx qty, false)
  | consumed {verb name text : List Char} {idx : Fin cfg.ingredientCount} {qty : ℤ} :
      tokens = [verb, name, text] → findIngredient cfg name = some idx →
      parsePositiveInt text = some qty → (s.clients i).type = wizard →
      qty ≤ s.qty idx → qty ≤ (s.clients i).book idx →
      Outcome s i tokens (reply (addStock s i idx (-qty)) i
        (stockReply okConsume cfg idx qty ((addStock s i idx (-qty)).qty idx)), false)
  | left : tokens = ["APPARATE".toList] → (s.clients i).username ≠ [] →
      Outcome s i tokens (disconnectClient (reply s i "OK APPARATE".toList) i, true)

theorem isPrefix_take {α : Type*} {p xs : List α} {n : ℕ} (h : p <+: xs) (hn : p.length ≤ n) :
    p <+: xs.take n := by
  obtain ⟨t, rfl⟩ := h
  rw [List.take_append, List.take_of_length_le hn]
  exact List.prefix_append _ _

theorem isPrefix_response {p head : List Char} (h : p <+: head) (hn : p.length ≤ maxLine)
    (rest : List Char) : p <+: response (head ++ rest) :=
  isPrefix_take (List.prefix_append_of_prefix h) hn

theorem outcome_sendUnknown (s : State cfg) (i : Fin cfg.maxClients) (tokens : List (List Char))
    (command : List Char) : Outcome s i tokens (sendUnknown s i command, false) :=
  .refused (isPrefix_response (by decide) (by decide) command)

theorem outcome_handleEnroll (s : State cfg) (i : Fin cfg.maxClients) (tokens : List (List Char)) :
    Outcome s i tokens (handleEnroll s i tokens, false) := by
  unfold handleEnroll
  split
  · rename_i token type username
    split_ifs with hbad htaken
    · exact .refused (by decide)
    · exact .refused (by decide)
    · push Not at hbad htaken
      have htype : type = wizard ∨ type = professor := by
        by_cases hw : type = wizard
        · exact Or.inl hw
        · exact Or.inr (hbad.1 hw)
      exact .enrolled (isPrefix_response (List.prefix_refl _) (by decide) _) htaken.1 htaken.2 htype
        (by simpa using hbad.2)
  · exact .refused (by decide)

theorem parseStockCommand_cases (s : State cfg) (i : Fin cfg.maxClients)
    (tokens : List (List Char)) :
    (∃ line, parseStockCommand s i tokens = .error line ∧ err <+: line) ∨
    ∃ verb name text idx qty, parseStockCommand s i tokens = .ok (idx, qty) ∧
      tokens = [verb, name, text] ∧ findIngredient cfg name = some idx ∧
      parsePositiveInt text = some qty ∧ (s.clients i).type = wizard := by
  have hunknown : ∀ command : List Char, err <+: response ("ERR UNKNOWN ".toList ++ command) :=
    isPrefix_response (by decide) (by decide)
  unfold parseStockCommand
  split_ifs with htype
  · exact .inl ⟨_, rfl, by decide⟩
  · split
    · rename_i verb name text
      cases hq : parsePositiveInt text with
      | none => exact .inl ⟨_, rfl, hunknown _⟩
      | some qty =>
        cases hf : findIngredient cfg name with
        | none => exact .inl ⟨_, rfl, by decide⟩
        | some idx =>
          exact .inr ⟨verb, name, text, idx, qty, rfl, rfl, hf, hq, by simpa using htype⟩
    · exact .inl ⟨_, rfl, hunknown _⟩

theorem outcome_handleBrew (s : State cfg) (i : Fin cfg.maxClients) (tokens : List (List Char)) :
    Outcome s i tokens (handleBrew s i tokens, false) := by
  unfold handleBrew
  rcases parseStockCommand_cases s i tokens with ⟨line, hp, hline⟩ |
    ⟨verb, name, text, idx, qty, hp, htokens, hname, hqty, htype⟩
  · rw [hp]
    exact .refused hline
  · rw [hp]
    exact .brewed htokens hname hqty htype

theorem outcome_handleConsume (s : State cfg) (i : Fin cfg.maxClients)
    (tokens : List (List Char)) : Outcome s i tokens (handleConsume s i tokens, false) := by
  unfold handleConsume
  rcases parseStockCommand_cases s i tokens with ⟨line, hp, hline⟩ |
    ⟨verb, name, text, idx, qty, hp, htokens, hname, hqty, htype⟩
  · rw [hp]
    exact .refused hline
  · rw [hp]
    simp only
    split_ifs with hfew
    · exact .refused (by decide)
    · push Not at hfew
      exact .consumed htokens hname hqty htype hfew.1 hfew.2

theorem outcome_handleSpellbook (s : State cfg) (i : Fin cfg.maxClients)
    (tokens : List (List Char)) : Outcome s i tokens (handleSpellbook s i tokens, false) := by
  have hmem : "OK SPELLBOOK ".toList ∈ okListings := by decide
  simp only [handleSpellbook]
  split_ifs
  · exact .refused (by decide)
  · exact outcome_sendUnknown s i tokens _
  · exact .told hmem (by decide)
  · exact .told hmem (isPrefix_response (List.prefix_refl _) (by decide) _)

theorem outcome_handleInspect (s : State cfg) (i : Fin cfg.maxClients)
    (tokens : List (List Char)) : Outcome s i tokens (handleInspect s i tokens, false) := by
  have hmem : "OK INSPECT ".toList ∈ okListings := by decide
  unfold handleInspect
  split_ifs
  · exact .refused (by decide)
  · split
    · split
      · exact .refused (by decide)
      · refine .told hmem (isPrefix_response ?_ (by decide) _)
        exact List.prefix_append _ _
    · exact outcome_sendUnknown s i _ _

theorem outcome_handleScroll (s : State cfg) (i : Fin cfg.maxClients)
    (tokens : List (List Char)) : Outcome s i tokens (handleScroll s i tokens, false) := by
  have hmem : "OK SCROLL ".toList ∈ okListings := by decide
  simp only [handleScroll]
  split_ifs
  · exact .refused (by decide)
  · exact outcome_sendUnknown s i tokens _
  · exact .told hmem (isPrefix_response (List.prefix_refl _) (by decide) _)

theorem outcome_handleRoster (s : State cfg) (i : Fin cfg.maxClients)
    (tokens : List (List Char)) : Outcome s i tokens (handleRoster s i tokens, false) := by
  have hmem : "OK ROSTER ".toList ∈ okListings := by decide
  simp only [handleRoster]
  split_ifs
  · exact .refused (by decide)
  · exact outcome_sendUnknown s i tokens _
  · exact .told hmem (isPrefix_response (List.prefix_refl _) (by decide) _)

theorem Outcome.ite {s : State cfg} {i : Fin cfg.maxClients} {tokens : List (List Char)} {c : Prop}
    [Decidable c] {r r' : State cfg × Bool} (h : c → Outcome s i tokens r)
    (h' : ¬c → Outcome s i tokens r') : Outcome s i tokens (if c then r else r') := by
  by_cases hc : c
  · rw [if_pos hc]
    exact h hc
  · rw [if_neg hc]
    exact h' hc

theorem processCommand_outcome (s : State cfg) (i : Fin cfg.maxClients) (now : ℤ)
    (line : List Char) :
    Outcome (touch s i now) i (tokenize line) (processCommand s i now line) := by
  simp only [processCommand]
  split
  · rename_i htokens
    exact .blank htokens
  · rename_i command rest htokens
    rw [htokens]
    refine .ite (fun _ => outcome_handleEnroll _ i _) fun _ => ?_
    refine .ite (fun _ => .refused (by decide)) fun huser => ?_
    refine .ite ?_ fun _ => ?_
    · intro happ
      refine .ite (fun _ => outcome_sendUnknown _ i _ _) fun hone => ?_
      obtain rfl : rest = [] := by simpa using hone
      exact .left (by rw [happ]) huser
    refine .ite (fun _ => outcome_handleBrew _ i _) fun _ => ?_
    refine .ite (fun _ => outcome_handleConsume _ i _) fun _ => ?_
    refine .ite (fun _ => outcome_handleSpellbook _ i _) fun _ => ?_
    refine .ite (fun _ => outcome_handleInspect _ i _) fun _ => ?_
    refine .ite (fun _ => outcome_handleScroll _ i _) fun _ => ?_
    refine .ite (fun _ => outcome_handleRoster _ i _) fun _ => ?_
    exact outcome_sendUnknown _ i _ _

end SysProg.HW6

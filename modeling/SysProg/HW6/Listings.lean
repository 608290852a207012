import SysProg.HW6.Confinement
import Mathlib.Data.List.Basic

/-!
# What the listing commands report

`SCROLL`, `SPELLBOOK` and `ROSTER` print items separated by commas into buffers
of `MAX_LINE + 1` bytes. Two cuts one behind the other are one cut of the whole
text, so a reply is the first `MAX_LINE` bytes of its full listing, and its items
are true exactly when that cut falls between two of them.
-/

namespace SysProg.HW6
open SysProg.Lib
variable {cfg : Config}

def csv (items : List (List Char)) : List Char := [','].intercalate items

def csvItems (text : List Char) : List (List Char) := if text = [] then [] else text.splitOn ','

theorem csv_cons (item : List Char) (items : List (List Char)) :
    csv (item :: items) = item ++ items.flatMap (',' :: ·) := by
  induction items generalizing item with
  | nil => simp [csv]
  | cons next items ih =>
    have hnext := ih next
    rw [csv] at hnext ⊢
    rw [List.intercalate_cons_cons, hnext]
    simp

theorem append_snprintf {size : ℕ} {out piece : List Char} (hout : out.length < size)
    (hfull : size - out.length ≤ piece.length) (more : List Char) :
    out ++ snprintf (size - out.length) piece = (out ++ (piece ++ more)).take (size - 1) := by
  rw [List.take_append, List.take_of_length_le (by omega), snprintf,
    List.take_append_of_le_length (by omega)]
  congr 2
  omega

theorem appendCsv_rest {size : ℕ} (items : List (List Char)) {out : List Char}
    (hout : out.length < size) :
    appendCsv size items out false = (out ++ items.flatMap (',' :: ·)).take (size - 1) := by
  induction items generalizing out with
  | nil =>
    rw [appendCsv, List.flatMap_nil, List.append_nil, List.take_of_length_le (by omega)]
  | cons item items ih =>
    simp only [appendCsv, Bool.false_eq_true, ↓reduceIte, List.flatMap_cons]
    split_ifs with hfull
    · exact append_snprintf hout hfull _
    · rw [ih (by rw [List.length_append]; omega), List.append_assoc]

theorem appendCsv_eq {size : ℕ} (hsize : 0 < size) (items : List (List Char)) :
    appendCsv size items [] true = (csv items).take (size - 1) := by
  cases items with
  | nil => simp [appendCsv, csv]
  | cons item items =>
    rw [csv_cons]
    simp only [appendCsv, ↓reduceIte]
    split_ifs with hfull
    · exact append_snprintf hsize hfull _
    · rw [appendCsv_rest items (by simpa using hfull)]
      rfl

theorem take_response_csv (verb : List Char) (items : List (List Char)) :
    (response (verb ++ appendCsv (maxLine + 1) items [] true)).take maxLine =
      (verb ++ csv items).take maxLine := by
  rw [appendCsv_eq (Nat.succ_pos _), response, snprintf, List.take_take, Nat.add_sub_cancel,
    Nat.min_self, List.take_append, List.take_append, List.take_take]
  congr 2
  omega

/-! ### When the cut falls between two items -/

/-- The whole listing fits into a line, or some of its first items fill it. -/
def FitsOrFills (verb : List Char) (items : List (List Char)) : Prop :=
  (verb ++ csv items).length ≤ maxLine ∨
    ∃ k ≤ items.length, (verb ++ csv (items.take k)).length = maxLine

theorem csv_take_isPrefix (items : List (List Char)) (k : ℕ) :
    csv (items.take k) <+: csv items := by
  cases items with
  | nil => simp
  | cons item items =>
    cases k with
    | zero => exact List.nil_prefix
    | succ k =>
      rw [List.take_succ_cons, csv_cons, csv_cons]
      refine (List.prefix_append_right_inj _).mpr ?_
      exact (List.take_prefix k items).flatMap _

theorem csvItems_csv {items : List (List Char)} (hcomma : ∀ item ∈ items, ',' ∉ item)
    (hne : ∀ item ∈ items, item ≠ []) : csvItems (csv items) = items := by
  cases items with
  | nil => rfl
  | cons item items =>
    have htext : csv (item :: items) ≠ [] := by
      rw [csv_cons]
      simp [hne item List.mem_cons_self]
    rw [csvItems, if_neg htext]
    exact List.splitOn_intercalate ',' hcomma (List.cons_ne_nil _ _)

theorem csv_csvItems (text : List Char) : csv (csvItems text) = text := by
  unfold csvItems
  split_ifs with htext
  · exact htext.symm
  · exact List.intercalate_splitOn ','

/-- The items of a cut listing are the first items of the list exactly when the
cut falls between two of them. -/
theorem csvItems_prefix_iff {verb : List Char} {items : List (List Char)}
    (hverb : verb.length ≤ maxLine) (hcomma : ∀ item ∈ items, ',' ∉ item)
    (hne : ∀ item ∈ items, item ≠ []) {text : List Char}
    (htext : verb ++ text = (verb ++ csv items).take maxLine) :
    csvItems text <+: items ↔ FitsOrFills verb items := by
  have hcut : text = (csv items).take (maxLine - verb.length) := by
    rw [List.take_append, List.take_of_length_le hverb] at htext
    exact List.append_cancel_left htext
  have hparts : ∀ k, csvItems (csv (items.take k)) <+: items := by
    intro k
    rw [csvItems_csv (fun item hi => hcomma item (List.mem_of_mem_take hi))
      (fun item hi => hne item (List.mem_of_mem_take hi))]
    exact List.take_prefix k items
  constructor
  · intro hprefix
    by_cases hfit : (verb ++ csv items).length ≤ maxLine
    · exact Or.inl hfit
    · refine Or.inr ⟨(csvItems text).length, hprefix.length_le, ?_⟩
      rw [← List.prefix_iff_eq_take.mp hprefix, csv_csvItems, htext, List.length_take]
      omega
  · rintro (hfit | ⟨k, -, hfill⟩)
    · rw [List.length_append] at hfit
      have hwhole : text = csv (items.take items.length) := by
        rw [hcut, List.take_length, List.take_of_length_le (by omega)]
      rw [hwhole]
      exact hparts items.length
    · rw [List.length_append] at hfill
      have hfirst : text = csv (items.take k) := by
        rw [hcut, List.prefix_iff_eq_take.mp (csv_take_isPrefix items k)]
        congr 1
        omega
      rw [hfirst]
      exact hparts k

/-! ### The items -/

def stockItem (cfg : Config) (values : Fin cfg.ingredientCount → ℤ)
    (idx : Fin cfg.ingredientCount) : List Char := cfg.name idx ++ ':' :: decimal (values idx)

def scrollItems (s : State cfg) : List (List Char) :=
  (List.finRange cfg.ingredientCount).map (stockItem cfg s.qty)

def spellbookItems (s : State cfg) (i : Fin cfg.maxClients) : List (List Char) :=
  ((List.finRange cfg.ingredientCount).filter (fun idx => decide (0 < (s.clients i).book idx))).map
    (stockItem cfg (s.clients i).book)

def rosterItems (s : State cfg) : List (List Char) :=
  ((List.finRange cfg.maxClients).filter
    (fun j => decide (0 ≤ (s.clients j).fd) && (s.clients j).username != [])).map
    (fun j => (s.clients j).username)

theorem comma_notMem_name (cfg : Config) (idx : Fin cfg.ingredientCount) : ',' ∉ cfg.name idx := by
  intro hmem
  have h := cfg.name_valid idx
  simp only [validIngredientName, Bool.and_eq_true, List.all_eq_true] at h
  exact absurd (h.2 ',' hmem) (by decide)

theorem stockItem_spec {values : Fin cfg.ingredientCount → ℤ}
    {idxs : List (Fin cfg.ingredientCount)}
    {item : List Char} (hi : item ∈ idxs.map (stockItem cfg values)) : ',' ∉ item ∧ item ≠ [] := by
  obtain ⟨idx, -, rfl⟩ := List.mem_map.mp hi
  refine ⟨?_, by simp [stockItem]⟩
  have hname := comma_notMem_name cfg idx
  have hvalue : ',' ∉ decimal (values idx) := notMem_decimal (by decide) (by decide) _
  simp [stockItem, hname, hvalue]

/-! ### Names of clients -/

def NamesValid (s : State cfg) : Prop :=
  ∀ i, (s.clients i).username = [] ∨ validUsername (s.clients i).username = true

theorem namesValid_update {s : State cfg} (h : NamesValid s) (i : Fin cfg.maxClients)
    {c : Client cfg.ingredientCount} (hc : c.username = [] ∨ validUsername c.username = true)
    (j : Fin cfg.maxClients) :
    (Function.update s.clients i c j).username = [] ∨
      validUsername (Function.update s.clients i c j).username = true := by
  by_cases hj : j = i
  · subst hj
    rw [Function.update_self]
    exact hc
  · rw [Function.update_of_ne hj]
    exact h j

theorem namesValid_effect {s s' : State cfg} (h : Effect s s') (hi : NamesValid s) :
    NamesValid s' := by
  cases h with
  | talk fd line => exact hi
  | touch i c hc hfd huser => exact namesValid_update hi i (huser ▸ hi i)
  | enroll i hc hfresh hnew htype hvalid =>
    refine namesValid_update hi i (Or.inr ?_)
    rwa [snprintf_of_lt (validUsername_length hvalid).2]
  | brew i idx hc hpos hle => exact namesValid_update hi i (hi i)
  | consume i idx hc hpos hqty hbook => exact namesValid_update hi i (hi i)
  | leave i hc => exact namesValid_update hi i (Or.inl rfl)

theorem namesValid_effects {s s' : State cfg} (h : Effects s s') (hi : NamesValid s) :
    NamesValid s' := by
  induction h with
  | refl => exact hi
  | tail _ hlast ih => exact namesValid_effect hlast ih

theorem namesValid_event {s s' : State cfg} (h : Event s s') (hi : NamesValid s) :
    NamesValid s' := by
  cases h with
  | serve heff => exact namesValid_effects heff hi
  | connect i fd now hfree hfd => exact namesValid_update hi i (hi i)
  | refuse i fd now line hfree =>
    refine namesValid_update ?_ i (Or.inl rfl)
    exact namesValid_update hi i (hi i)
  | stop heff =>
    have hall := namesValid_effects heff hi
    exact fun j => hall j

theorem namesValid_reachable {s : State cfg} (h : (machine cfg).Reachable s) : NamesValid s :=
  h.invariant (fun _ => Or.inl rfl) (fun _ _ _ _ hi hs => namesValid_event (step_event hs) hi)

theorem rosterItems_spec {s : State cfg} (h : NamesValid s) {item : List Char}
    (hi : item ∈ rosterItems s) : ',' ∉ item ∧ item ≠ [] := by
  obtain ⟨j, hj, rfl⟩ := List.mem_map.mp hi
  have hne : (s.clients j).username ≠ [] := by
    have hfilter := (List.mem_filter.mp hj).2
    simpa using (Bool.and_eq_true_iff.mp hfilter).2
  refine ⟨fun hmem => ?_, hne⟩
  have hvalid := (h j).resolve_left hne
  simp only [validUsername, Bool.and_eq_true, List.all_eq_true] at hvalid
  exact absurd (hvalid.2 ',' hmem) (by decide)

/-! ### The replies -/

def okScroll : List Char := "OK SCROLL ".toList
def okSpellbook : List Char := "OK SPELLBOOK ".toList
def okRoster : List Char := "OK ROSTER ".toList

theorem processCommand_listing {s : State cfg} {i : Fin cfg.maxClients} {now : ℤ}
    {line : List Char} (huser : (s.clients i).username ≠ []) :
    (tokenize line = ["SCROLL".toList] →
      (processCommand s i now line).1 = handleScroll (touch s i now) i ["SCROLL".toList]) ∧
    (tokenize line = ["SPELLBOOK".toList] →
      (processCommand s i now line).1 = handleSpellbook (touch s i now) i ["SPELLBOOK".toList]) ∧
    (tokenize line = ["ROSTER".toList] →
      (processCommand s i now line).1 = handleRoster (touch s i now) i ["ROSTER".toList]) := by
  refine ⟨fun h => ?_, fun h => ?_, fun h => ?_⟩
  · simp only [processCommand, h, setClient_clients_self]
    rw [if_neg (by decide), if_neg huser, if_neg (by decide), if_neg (by decide),
      if_neg (by decide), if_neg (by decide), if_neg (by decide), if_pos trivial]
    rfl
  · simp only [processCommand, h, setClient_clients_self]
    rw [if_neg (by decide), if_neg huser, if_neg (by decide), if_neg (by decide),
      if_neg (by decide), if_pos trivial]
    rfl
  · simp only [processCommand, h, setClient_clients_self]
    rw [if_neg (by decide), if_neg huser, if_neg (by decide), if_neg (by decide),
      if_neg (by decide), if_neg (by decide), if_neg (by decide), if_neg (by decide),
          if_pos trivial]
    rfl

section Replies
variable {s : State cfg} {i : Fin cfg.maxClients}

theorem reply_csv (verb : List Char) (items : List (List Char)) :
    (reply s i (response (verb ++ appendCsv (maxLine + 1) items [] true))).sent =
      s.sent ++ [((s.clients i).fd, (verb ++ csv items).take maxLine)] := by
  rw [← take_response_csv]
  rfl

theorem csvIngredients_scroll :
    csvIngredients cfg false s.qty = appendCsv (maxLine + 1) (scrollItems s) [] true := by
  have hall : (List.finRange cfg.ingredientCount).filter
      (fun idx => !(false && decide (s.qty idx ≤ 0))) = List.finRange cfg.ingredientCount := by
    simp
  rw [csvIngredients, hall]
  rfl

theorem handleScroll_sent (htype : (s.clients i).type = professor) :
    (handleScroll s i ["SCROLL".toList]).sent =
      s.sent ++ [((s.clients i).fd, (okScroll ++ csv (scrollItems s)).take maxLine)] := by
  rw [handleScroll, if_neg (by simp [htype]), if_neg (by simp), csvIngredients_scroll]
  exact reply_csv okScroll (scrollItems s)

theorem handleRoster_sent (htype : (s.clients i).type = professor) :
    (handleRoster s i ["ROSTER".toList]).sent =
      s.sent ++ [((s.clients i).fd, (okRoster ++ csv (rosterItems s)).take maxLine)] := by
  simp only [handleRoster]
  rw [if_neg (by simp [htype]), if_neg (by simp)]
  exact reply_csv okRoster (rosterItems s)

theorem csvIngredients_spellbook :
    csvIngredients cfg true (s.clients i).book =
      appendCsv (maxLine + 1) (spellbookItems s i) [] true := by
  have hpos : ∀ idx, (!(true && decide ((s.clients i).book idx ≤ 0))) =
      decide (0 < (s.clients i).book idx) := by
    intro idx
    by_cases h : (s.clients i).book idx ≤ 0
    · simp [h, not_lt.mpr h]
    · simp [h, not_le.mp h]
  simp only [csvIngredients, hpos]
  rfl

theorem csv_eq_nil {items : List (List Char)} (hne : ∀ item ∈ items, item ≠ []) :
    csv items = [] ↔ items = [] := by
  cases items with
  | nil => simp [csv]
  | cons item items =>
    rw [csv_cons]
    simp [hne item List.mem_cons_self]

theorem handleSpellbook_sent (htype : (s.clients i).type = wizard) :
    (handleSpellbook s i ["SPELLBOOK".toList]).sent = s.sent ++ [((s.clients i).fd,
      if spellbookItems s i = [] then okSpellbook ++ "EMPTY".toList
      else (okSpellbook ++ csv (spellbookItems s i)).take maxLine)] := by
  have hne : ∀ item ∈ spellbookItems s i, item ≠ [] := fun item hi => (stockItem_spec hi).2
  simp only [handleSpellbook, csvIngredients_spellbook]
  rw [if_neg (by simp [htype]), if_neg (by simp)]
  by_cases hnone : spellbookItems s i = []
  · rw [if_pos hnone, hnone, if_pos (by rfl)]
    rfl
  · have hcsv : ¬ csv (spellbookItems s i) = [] := (csv_eq_nil hne).not.mpr hnone
    have hcut : ¬ appendCsv (maxLine + 1) (spellbookItems s i) [] true = [] := by
      rw [appendCsv_eq (Nat.succ_pos _), List.take_eq_nil_iff]
      simp [hcsv, maxLine]
    rw [if_neg hnone, if_neg hcut]
    exact reply_csv okSpellbook (spellbookItems s i)

end Replies

/-! ### Listings tell the truth exactly when they are cut between items -/

/-- The reply `EMPTY` stands for no items. -/
def spellbookReported (text : List Char) : List (List Char) :=
  if text = "EMPTY".toList then [] else csvItems text

theorem scrollItems_touch (s : State cfg) (i : Fin cfg.maxClients) (now : ℤ) :
    scrollItems (touch s i now) = scrollItems s := rfl

theorem spellbookItems_touch (s : State cfg) (i : Fin cfg.maxClients) (now : ℤ) :
    spellbookItems (touch s i now) i = spellbookItems s i := by
  have hbook : ((touch s i now).clients i).book = (s.clients i).book := by
    rw [touch, setClient_clients_self]
    rfl
  rw [spellbookItems, spellbookItems, hbook]

theorem rosterItems_touch (s : State cfg) (i : Fin cfg.maxClients) (now : ℤ) :
    rosterItems (touch s i now) = rosterItems s := by
  have hfd : ∀ j, ((touch s i now).clients j).fd = (s.clients j).fd :=
    apply_update_of_eq Client.fd rfl
  have huser : ∀ j, ((touch s i now).clients j).username = (s.clients j).username :=
    apply_update_of_eq Client.username rfl
  simp only [rosterItems, hfd, huser]

theorem touch_client (s : State cfg) (i : Fin cfg.maxClients) (now : ℤ) :
    (touch s i now).clients i = { s.clients i with lastActive := now } :=
  setClient_clients_self _ _ _

theorem take_verb {verb : List Char} (hverb : verb.length ≤ maxLine) (items : List (List Char)) :
    ∃ text, (verb ++ csv items).take maxLine = verb ++ text := by
  refine ⟨(csv items).take (maxLine - verb.length), ?_⟩
  rw [List.take_append, List.take_of_length_le hverb]

theorem spellbookReported_cut {s : State cfg} {i : Fin cfg.maxClients} {text : List Char}
    (hne : spellbookItems s i ≠ [])
    (htext : okSpellbook ++ text = (okSpellbook ++ csv (spellbookItems s i)).take maxLine) :
    spellbookReported text = csvItems text := by
  refine if_neg (fun hempty => ?_)
  have hlen := congrArg List.length htext
  rw [hempty, List.length_append, List.length_take] at hlen
  have hshort : ("EMPTY".toList).length = 5 := by decide
  have hverb : okSpellbook.length = 13 := by decide
  have hwhole : (okSpellbook ++ csv (spellbookItems s i)).length ≤ maxLine := by
    simp only [maxLine] at hlen ⊢
    omega
  rw [List.take_of_length_le hwhole, hempty] at htext
  have hcsv : "EMPTY".toList = csv (spellbookItems s i) := List.append_cancel_left htext
  obtain ⟨item, items, hitems⟩ := List.exists_cons_of_ne_nil hne
  have hmem : item ∈ spellbookItems s i := hitems ▸ List.mem_cons_self
  obtain ⟨idx, -, rfl⟩ := List.mem_map.mp hmem
  have hcolon : ':' ∈ csv (spellbookItems s i) := by
    rw [hitems, csv_cons]
    simp [stockItem]
  rw [← hcsv] at hcolon
  exact absurd hcolon (by decide)

theorem scroll_true_iff {s : State cfg} {i : Fin cfg.maxClients}
    (huser : (s.clients i).username ≠ []) (htype : (s.clients i).type = professor) (now : ℤ)
    {line : List Char} (hline : tokenize line = ["SCROLL".toList]) :
    ∃ text, (processCommand s i now line).1.sent =
        s.sent ++ [((s.clients i).fd, okScroll ++ text)] ∧
      (csvItems text <+: scrollItems s ↔ FitsOrFills okScroll (scrollItems s)) := by
  obtain ⟨text, hcut⟩ := take_verb (by decide : okScroll.length ≤ maxLine) (scrollItems s)
  have hsent := handleScroll_sent (s := touch s i now) (i := i) (by rw [touch_client]; exact htype)
  rw [scrollItems_touch, touch_client, hcut] at hsent
  refine ⟨text, ?_, csvItems_prefix_iff (by decide) (fun item hi => (stockItem_spec hi).1)
    (fun item hi => (stockItem_spec hi).2) hcut.symm⟩
  rw [(processCommand_listing huser).1 hline]
  exact hsent

theorem roster_true_iff {s : State cfg} {i : Fin cfg.maxClients} (hnames : NamesValid s)
    (huser : (s.clients i).username ≠ []) (htype : (s.clients i).type = professor) (now : ℤ)
    {line : List Char} (hline : tokenize line = ["ROSTER".toList]) :
    ∃ text, (processCommand s i now line).1.sent =
        s.sent ++ [((s.clients i).fd, okRoster ++ text)] ∧
      (csvItems text <+: rosterItems s ↔ FitsOrFills okRoster (rosterItems s)) := by
  obtain ⟨text, hcut⟩ := take_verb (by decide : okRoster.length ≤ maxLine) (rosterItems s)
  have hsent := handleRoster_sent (s := touch s i now) (i := i) (by rw [touch_client]; exact htype)
  rw [rosterItems_touch, touch_client, hcut] at hsent
  refine ⟨text, ?_, csvItems_prefix_iff (by decide) (fun item hi => (rosterItems_spec hnames hi).1)
    (fun item hi => (rosterItems_spec hnames hi).2) hcut.symm⟩
  rw [(processCommand_listing huser).2.2 hline]
  exact hsent

theorem spellbook_true_iff {s : State cfg} {i : Fin cfg.maxClients}
    (huser : (s.clients i).username ≠ []) (htype : (s.clients i).type = wizard) (now : ℤ)
    {line : List Char} (hline : tokenize line = ["SPELLBOOK".toList]) :
    ∃ text, (processCommand s i now line).1.sent =
        s.sent ++ [((s.clients i).fd, okSpellbook ++ text)] ∧
      (spellbookReported text <+: spellbookItems s i ↔
        FitsOrFills okSpellbook (spellbookItems s i)) := by
  have hsent := handleSpellbook_sent (s := touch s i now) (i := i)
      (by rw [touch_client]; exact htype)
  rw [spellbookItems_touch, touch_client, ← (processCommand_listing huser).2.1 hline] at hsent
  by_cases hnone : spellbookItems s i = []
  · rw [if_pos hnone] at hsent
    refine ⟨_, hsent, ?_⟩
    have hfits : FitsOrFills okSpellbook [] := Or.inl (by decide)
    simp [spellbookReported, hnone, hfits]
  · rw [if_neg hnone] at hsent
    obtain ⟨text, hcut⟩ := take_verb (by decide : okSpellbook.length ≤ maxLine) (spellbookItems s i)
    rw [hcut] at hsent
    refine ⟨text, hsent, ?_⟩
    rw [spellbookReported_cut hnone hcut.symm]
    exact csvItems_prefix_iff (by decide) (fun item hi => (stockItem_spec hi).1)
      (fun item hi => (stockItem_spec hi).2) hcut.symm

/-- In every reachable state, the items of a listing are the first items of the
true list if and only if the reply is not cut inside an item. -/
theorem listings_true_iff {s : State cfg} (h : (machine cfg).Reachable s)
    {i : Fin cfg.maxClients} (hc : 0 ≤ (s.clients i).fd) (now : ℤ) (line : List Char) :
    ((s.clients i).type = professor → tokenize line = ["SCROLL".toList] →
      ∃ text, (processCommand s i now line).1.sent =
          s.sent ++ [((s.clients i).fd, okScroll ++ text)] ∧
        (csvItems text <+: scrollItems s ↔ FitsOrFills okScroll (scrollItems s))) ∧
    ((s.clients i).type = wizard → tokenize line = ["SPELLBOOK".toList] →
      ∃ text, (processCommand s i now line).1.sent =
          s.sent ++ [((s.clients i).fd, okSpellbook ++ text)] ∧
        (spellbookReported text <+: spellbookItems s i ↔
          FitsOrFills okSpellbook (spellbookItems s i))) ∧
    ((s.clients i).type = professor → tokenize line = ["ROSTER".toList] →
      ∃ text, (processCommand s i now line).1.sent =
          s.sent ++ [((s.clients i).fd, okRoster ++ text)] ∧
        (csvItems text <+: rosterItems s ↔ FitsOrFills okRoster (rosterItems s))) := by
  have hrole := ((tableInvariant_reachable h).connected i hc).enrolled
  refine ⟨fun htype hline => ?_, fun htype hline => ?_, fun htype hline => ?_⟩
  · exact scroll_true_iff (hrole.mpr (.inr htype)) htype now hline
  · exact spellbook_true_iff (hrole.mpr (.inl htype)) htype now hline
  · exact roster_true_iff (namesValid_reachable h) (hrole.mpr (.inr htype)) htype now hline

theorem listings_true_twoClients : ∃ s : State smallSchool, (machine smallSchool).Reachable s ∧
    (∃ text, (processCommand s secondSlot 0 "SCROLL".toList).1.sent =
        s.sent ++ [((s.clients secondSlot).fd, okScroll ++ text)] ∧
      csvItems text <+: scrollItems s) ∧
    (∃ text, (processCommand s firstSlot 0 "SPELLBOOK".toList).1.sent =
        s.sent ++ [((s.clients firstSlot).fd, okSpellbook ++ text)] ∧
      spellbookReported text <+: spellbookItems s firstSlot) ∧
    (∃ text, (processCommand s secondSlot 0 "ROSTER".toList).1.sent =
        s.sent ++ [((s.clients secondSlot).fd, okRoster ++ text)] ∧
      csvItems text <+: rosterItems s) := by
  have hreach := (Machine.execution_of_isSome twoClients_isSome).reachable
  refine ⟨_, hreach, ?_, ?_, ?_⟩
  · obtain ⟨text, hsent, htrue⟩ := (listings_true_iff hreach (i := secondSlot) (by decide) 0
      "SCROLL".toList).1 (by decide) (by decide)
    exact ⟨text, hsent, htrue.mpr (Or.inl (by decide))⟩
  · obtain ⟨text, hsent, htrue⟩ := (listings_true_iff hreach (i := firstSlot) (by decide) 0
      "SPELLBOOK".toList).2.1 (by decide) (by decide)
    exact ⟨text, hsent, htrue.mpr (Or.inl (by decide))⟩
  · obtain ⟨text, hsent, htrue⟩ := (listings_true_iff hreach (i := secondSlot) (by decide) 0
      "ROSTER".toList).2.2 (by decide) (by decide)
    exact ⟨text, hsent, htrue.mpr (Or.inl (by decide))⟩

/-! ### A long table -/

theorem length_csv {items : List (List Char)} {n : ℕ} (hlen : ∀ item ∈ items, item.length = n)
    (hne : items ≠ []) : (csv items).length + 1 = items.length * (n + 1) := by
  obtain ⟨item, items, rfl⟩ := List.exists_cons_of_ne_nil hne
  rw [csv_cons, List.length_append, hlen item List.mem_cons_self, List.length_cons]
  have hrest : (items.flatMap (',' :: ·)).length = items.length * (n + 1) := by
    have hall : ∀ item ∈ items, item.length = n :=
      fun item hi => hlen item (List.mem_cons_of_mem _ hi)
    clear hlen hne
    induction items with
    | nil => simp
    | cons next items ih =>
      rw [List.flatMap_cons, List.length_append, List.length_cons,
        hall next List.mem_cons_self, ih (fun item hi => hall item (List.mem_cons_of_mem _ hi)),
        List.length_cons, Nat.add_mul]
      omega
  rw [hrest, Nat.add_mul]
  omega

def fullStore : Config where
  ingredientCount := 40
  name := fun idx => "INGREDIENT_".toList ++ Nat.toDigits 10 (10000 + idx)
  initialQty := fun _ => 1
  maxClients := 1
  timeoutSeconds := 60
  count_le := by decide
  name_valid := by decide
  qty_pos := by decide
  qty_le := by decide
  maxClients_pos := Nat.one_pos
  timeout_pos := by decide

def onlySlot : Fin fullStore.maxClients := ⟨0, Nat.one_pos⟩

def enrollMinerva : List (Action fullStore) :=
  [.accept 5 0 true, .recv onlySlot "ENROLL PROFESSOR minerva\n".toList (fun _ => 0)]

theorem enrollMinerva_isSome :
    ((machine fullStore).run (machine fullStore).init enrollMinerva).isSome := by decide

theorem fullStore_item_length (values : Fin fullStore.ingredientCount → ℤ)
    (h : ∀ idx, values idx = 1) (idx : Fin fullStore.ingredientCount) :
    (stockItem fullStore values idx).length = 18 := by
  rw [stockItem, h idx]
  revert idx
  decide

theorem not_fitsOrFills_fullStore {s : State fullStore} (h : ∀ idx, s.qty idx = 1) :
    ¬ FitsOrFills okScroll (scrollItems s) := by
  have hcount : (scrollItems s).length = 40 := by simp [scrollItems, fullStore]
  have hlen : ∀ item ∈ scrollItems s, item.length = 18 := by
    intro item hi
    obtain ⟨idx, -, rfl⟩ := List.mem_map.mp hi
    exact fullStore_item_length s.qty h idx
  have hverb : okScroll.length = 10 := by decide
  have hne : scrollItems s ≠ [] := by
    intro heq
    rw [heq] at hcount
    cases hcount
  rintro (hfit | ⟨k, hk, hfill⟩)
  · have hall := length_csv hlen hne
    rw [List.length_append, hverb] at hfit
    simp only [maxLine] at hfit
    omega
  · rw [List.length_append, hverb] at hfill
    simp only [maxLine] at hfill
    by_cases hzero : (scrollItems s).take k = []
    · simp [hzero, csv] at hfill
    · have hpart := length_csv (fun item hi => hlen item (List.mem_of_mem_take hi)) hzero
      rw [List.length_take, Nat.min_eq_left hk] at hpart
      omega

/-- The reply ends inside the twenty-seventh name. -/
theorem scroll_cut_inside_name : ∃ s : State fullStore, (machine fullStore).Reachable s ∧
    0 ≤ (s.clients onlySlot).fd ∧ (s.clients onlySlot).type = professor ∧
    ∃ text, (processCommand s onlySlot 0 "SCROLL".toList).1.sent =
        s.sent ++ [((s.clients onlySlot).fd, okScroll ++ text)] ∧
      ¬ csvItems text <+: scrollItems s := by
  have hreach := (Machine.execution_of_isSome enrollMinerva_isSome).reachable
  obtain ⟨text, hsent, htrue⟩ := scroll_true_iff (s := ((machine fullStore).run
    (machine fullStore).init enrollMinerva).get enrollMinerva_isSome) (i := onlySlot) (by decide)
    (by decide) 0 (by decide : tokenize "SCROLL".toList = ["SCROLL".toList])
  refine ⟨_, hreach, by decide, by decide, text, hsent, ?_⟩
  rw [htrue]
  exact not_fitsOrFills_fullStore (by decide)

end SysProg.HW6

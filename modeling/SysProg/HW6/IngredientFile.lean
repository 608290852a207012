import SysProg.HW6.Hogwarts
import SysProg.Lib.FileReads
import SysProg.Lib.ScanFormat

/-!
# The ingredient file

`load_ingredients` fills its table from the lines that `sscanf` splits into
exactly two fields, a name and a quantity, until the table is full. What it
takes from a line is a grammar; the table is the first 128 ingredients of the
lines in their order, and a table that is written out is read back.
-/

namespace SysProg.HW6
open SysProg.Lib

def maxIngredients : ℕ := 128

structure Ingredient where
  name : List Char
  qty : ℤ
  deriving DecidableEq, Repr

def ingredientFormat : List Directive :=
  [.string 63, .space, .string 63, .space, .string 63]

/-- What the body of the loop stores: `strncpy` leaves room for the final zero. -/
def readIngredient (text : List Char) : Option Ingredient :=
  match sscanf ingredientFormat text with
  | [.string name, .string qtyText] =>
    if validIngredientName name = false then none
    else (parsePositiveInt qtyText).map (fun qty => ⟨name.take 16, qty⟩)
  | _ => none

/-- The loop over an open file. It reads a line before it looks at the table. -/
def loadIngredients (ingredients : List Ingredient) (file : List Char) : List Ingredient :=
  if h : file = [] then ingredients
  else
    let line := fgets 255 file
    have : line.2.length < file.length := fgets_shorter h
    if ingredients.length < maxIngredients then
      match readIngredient (cString line.1) with
      | none => loadIngredients ingredients line.2
      | some ingredient => loadIngredients (ingredients ++ [ingredient]) line.2
    else ingredients
termination_by file.length

/-! ### The grammar of a line -/

structure IngredientText where
  lead : List Char
  name : List Char
  gap : List Char
  qtyText : List Char
  trail : List Char
  qty : ℤ
  lead_blank : Blank lead
  gap_blank : Blank gap
  gap_ne : gap ≠ []
  trail_blank : Blank trail
  name_valid : validIngredientName name = true
  qtyText_value : intValue qtyText = some qty
  qtyText_length : qtyText.length ≤ 63
  qty_pos : 0 < qty
  qty_le : qty ≤ intMax

namespace IngredientText

def fields (x : IngredientText) : List Char := x.lead ++ (x.name ++ (x.gap ++ x.qtyText))
def text (x : IngredientText) : List Char := x.fields ++ x.trail
def ingredient (x : IngredientText) : Ingredient := ⟨x.name, x.qty⟩

end IngredientText

def IngredientLine (text : List Char) (ingredient : Ingredient) : Prop :=
  ∃ x : IngredientText, x.text = text ∧ x.ingredient = ingredient

def isIngredientChar (c : Char) : Bool := c.isUpper || c.isDigit || c == '_'

theorem validIngredientName_iff {name : List Char} : validIngredientName name = true ↔
    name ≠ [] ∧ name.length ≤ 16 ∧ ∀ c ∈ name, isIngredientChar c = true := by
  simp only [validIngredientName, Bool.and_eq_true, bne_iff_ne, ne_eq, List.length_eq_zero_iff,
    decide_eq_true_eq, List.all_eq_true, and_assoc]
  exact Iff.rfl

theorem isInk_ingredientName {name : List Char} (h : validIngredientName name = true) :
    Run isInk name := by
  intro c hc
  have hchar := (validIngredientName_iff.mp h).2.2 c hc
  have hspace : isSpace c = false := isSpace_of_class (by decide) hchar
  simp [isInk, hspace]

theorem parsePositiveInt_iff {text : List Char} (htext : Run isInk text) {q : ℤ} :
    parsePositiveInt text = some q ↔ intValue text = some q ∧ 0 < q ∧ q ≤ intMax := by
  have hdrop : text.dropWhile isSpace = text := by
    cases text with
    | nil => rfl
    | cons c rest =>
      have hc : isSpace c = false := by simpa [isInk] using htext c List.mem_cons_self
      rw [List.dropWhile_cons_of_neg (by simp [hc])]
  simp only [parsePositiveInt, hdrop, intValue]
  split_ifs with hdigits hrange
  · simp
  · simp only [Option.some.injEq, false_iff]
    rintro ⟨rfl, hpos, hle⟩
    omega
  · simp only [Option.some.injEq]
    constructor
    · rintro rfl
      refine ⟨rfl, ?_, ?_⟩ <;> omega
    · exact And.left

theorem readIngredient_scan {text : List Char} {ingredient : Ingredient} :
    readIngredient text = some ingredient ↔ ∃ qtyText,
      sscanf ingredientFormat text = [.string ingredient.name, .string qtyText] ∧
        validIngredientName ingredient.name = true ∧
        parsePositiveInt qtyText = some ingredient.qty := by
  have htake : ∀ {name}, validIngredientName name = true → name.take 16 = name :=
    fun h => List.take_of_length_le (validIngredientName_iff.mp h).2.1
  constructor
  · intro h
    unfold readIngredient at h
    split at h
    · rename_i name qtyText hscan
      split_ifs at h with hname
      rw [Bool.not_eq_false] at hname
      obtain ⟨qty, hqty, rfl⟩ := Option.map_eq_some_iff.mp h
      rw [htake hname]
      exact ⟨qtyText, hscan, hname, hqty⟩
    · cases h
  · rintro ⟨qtyText, hscan, hname, hqty⟩
    simp [readIngredient, hscan, hname, hqty, htake hname]

theorem readIngredient_iff {text : List Char} {ingredient : Ingredient} :
    readIngredient text = some ingredient ↔ IngredientLine text ingredient := by
  rw [readIngredient_scan]
  simp only [ingredientFormat, sscanf_space_string, sscanf_string_iff, sscanf_last_iff]
  constructor
  · rintro ⟨qtyText, ⟨lead, rest, hlead, hne, hink, hlen, hend, rfl, gap, trail, hgap, hqne, hqink,
      hqlen, hqend, rfl, htrail⟩, hname, hqty⟩
    have hshort := (validIngredientName_iff.mp hname).2.1
    have hstop := hend.resolve_left (by omega)
    obtain ⟨hvalue, hpos, hle⟩ := (parsePositiveInt_iff hqink).mp hqty
    refine ⟨⟨lead, ingredient.name, gap, qtyText, trail, ingredient.qty, hlead, hgap,
      gap_ne_nil hqne hqink hstop, htrail, hname, hvalue, hqlen, hpos, hle⟩, ?_, rfl⟩
    simp only [IngredientText.text, IngredientText.fields, List.append_assoc]
  · rintro ⟨x, rfl, rfl⟩
    obtain ⟨hne, hshort, -⟩ := validIngredientName_iff.mp x.name_valid
    have hqink := isInk_intValue x.qtyText_value
    refine ⟨x.qtyText, ⟨x.lead, _, x.lead_blank, hne, isInk_ingredientName x.name_valid,
      hshort.trans (by decide), .inr ?_, ?_, x.gap, x.trail, x.gap_blank,
      ne_nil_of_intValue x.qtyText_value, hqink, x.qtyText_length,
      .inr (stops_isInk_of_blank x.trail_blank), rfl, x.trail_blank⟩, x.name_valid,
      (parsePositiveInt_iff hqink).mpr ⟨x.qtyText_value, x.qty_pos, x.qty_le⟩⟩
    · exact (stops_append x.gap_ne _).mpr (stops_isInk_of_blank x.gap_blank)
    · simp only [IngredientText.text, IngredientText.fields, List.append_assoc]
      rfl

/-! ### The table of a file -/

theorem IngredientText.stopsBack_fields (x : IngredientText) : StopsBack isSpace x.fields := by
  have hlast : StopsBack isSpace x.qtyText :=
    stopsBack_of_forall (isSpace_of_intValue x.qtyText_value)
  rw [IngredientText.fields, ← List.append_assoc, ← List.append_assoc]
  exact (stopsBack_append (ne_nil_of_intValue x.qtyText_value) _).mpr hlast

theorem ingredientLine_newline {text : List Char} {ingredient : Ingredient} :
    IngredientLine (text ++ ['\n']) ingredient ↔ IngredientLine text ingredient := by
  have hnewline : Blank ['\n'] := by
    intro c hc
    rw [List.mem_singleton.mp hc]
    exact isSpace_newline
  constructor
  · rintro ⟨x, htext, rfl⟩
    obtain ⟨front, run, rfl, hrun, hstop⟩ := exists_split_back isSpace text
    rw [IngredientText.text, List.append_assoc] at htext
    obtain ⟨hfront, -⟩ := run_split_back x.trail_blank (hrun.append hnewline) x.stopsBack_fields
      hstop htext
    refine ⟨{ x with trail := run, trail_blank := hrun }, ?_, rfl⟩
    rw [← hfront]
    rfl
  · rintro ⟨x, rfl, rfl⟩
    refine ⟨{ x with trail := x.trail ++ ['\n'], trail_blank := x.trail_blank.append hnewline }, ?_,
      rfl⟩
    exact (List.append_assoc _ _ _).symm

def listedBy (buffer : List Char) : List Ingredient := (readIngredient (cString buffer)).toList

theorem mem_listedBy {buffer : List Char} {ingredient : Ingredient} :
    ingredient ∈ listedBy buffer ↔ IngredientLine (cString buffer) ingredient := by
  rw [listedBy, Option.mem_toList, readIngredient_iff]

theorem newlineBlind_listedBy : NewlineBlind listedBy := by
  apply @newlineBlind_cString Ingredient (fun text => (readIngredient text).toList) rfl
  intro text _
  have hread : readIngredient (text ++ ['\n']) = readIngredient text := by
    apply Option.ext
    intro ingredient
    rw [readIngredient_iff, readIngredient_iff, ingredientLine_newline]
  simp only [hread]

def listedIn (line : List Char) : List Ingredient := (blocks 254 line).flatMap listedBy

theorem loadIngredients_eq {ingredients : List Ingredient}
    (hroom : ingredients.length ≤ maxIngredients) (file : List Char) :
    loadIngredients ingredients file =
      (ingredients ++ (readsOf 254 file).flatMap listedBy).take maxIngredients := by
  by_cases h : file = []
  · subst h
    rw [loadIngredients, dif_pos rfl, readsOf_nil, List.flatMap_nil, List.append_nil,
      List.take_of_length_le hroom]
  · rw [loadIngredients, dif_neg h, readsOf_read 254 h, List.flatMap_cons]
    dsimp only
    split_ifs with hfree
    · cases hread : readIngredient (cString (fgets 255 file).1) with
      | none =>
        have hnone : listedBy (fgets 255 file).1 = [] := by rw [listedBy, hread]; rfl
        rw [hnone, List.nil_append]
        exact loadIngredients_eq hroom (fgets 255 file).2
      | some ingredient =>
        have hsome : listedBy (fgets 255 file).1 = [ingredient] := by rw [listedBy, hread]; rfl
        have hlen : (ingredients ++ [ingredient]).length ≤ maxIngredients := by
          rw [List.length_append, List.length_singleton]
          omega
        rw [hsome, ← List.append_assoc]
        exact loadIngredients_eq hlen (fgets 255 file).2
    · rw [List.take_append, List.take_of_length_le hroom]
      have hfull : maxIngredients - ingredients.length = 0 := by omega
      rw [hfull, List.take_zero, List.append_nil]
termination_by file.length
decreasing_by all_goals exact fgets_shorter h

theorem loadIngredients_lines (file : List Char) :
    loadIngredients [] file = ((fileLines file).flatMap listedIn).take maxIngredients := by
  rw [loadIngredients_eq (Nat.zero_le _), List.nil_append,
    flatMap_readsOf_file newlineBlind_listedBy]
  rfl

theorem listedIn_short {line : List Char} (hlen : line.length ≤ 255) :
    listedIn line = listedBy line := by
  by_cases h : line = []
  · rw [h, listedIn, blocks_nil]
    rfl
  · rw [listedIn, blocks_short 254 h hlen, List.flatMap_singleton]

/-! ### A table that is written out -/

structure Ingredient.Valid (ingredient : Ingredient) : Prop where
  name : validIngredientName ingredient.name = true
  qty_pos : 0 < ingredient.qty
  qty_le : ingredient.qty ≤ intMax

def ingredientLine (ingredient : Ingredient) : List Char :=
  ingredient.name ++ (' ' :: decimal ingredient.qty)

def tableText (table : List Ingredient) : List Char := joinLines '\n' (table.map ingredientLine) []

theorem valid_of_ingredientLine {text : List Char} {ingredient : Ingredient}
    (h : IngredientLine text ingredient) : ingredient.Valid := by
  obtain ⟨x, -, rfl⟩ := h
  exact ⟨x.name_valid, x.qty_pos, x.qty_le⟩

theorem valid_of_mem_loadIngredients {file : List Char} {ingredient : Ingredient}
    (h : ingredient ∈ loadIngredients [] file) : ingredient.Valid := by
  rw [loadIngredients_eq (Nat.zero_le _), List.nil_append] at h
  obtain ⟨buffer, -, hlisted⟩ := List.mem_flatMap.mp (List.mem_of_mem_take h)
  exact valid_of_ingredientLine (mem_listedBy.mp hlisted)

theorem length_loadIngredients (file : List Char) :
    (loadIngredients [] file).length ≤ maxIngredients := by
  rw [loadIngredients_eq (Nat.zero_le _)]
  exact List.length_take_le _ _

theorem ingredientLine_valid {ingredient : Ingredient} (h : ingredient.Valid) :
    IngredientLine (ingredientLine ingredient) ingredient ∧
      (ingredientLine ingredient).length ≤ 255 ∧ '\n' ∉ ingredientLine ingredient ∧
      '\x00' ∉ ingredientLine ingredient := by
  obtain ⟨hvalue, hlen, hdigits⟩ := decimal_of_pos h.qty_pos h.qty_le
  obtain ⟨-, hshort, hchars⟩ := validIngredientName_iff.mp h.name
  have hgap : Blank [' '] := by
    intro c hc
    rw [List.mem_singleton.mp hc]
    decide
  have hplain : ∀ c, isIngredientChar c = false → c ≠ ' ' → c.isDigit = false →
      c ∉ ingredientLine ingredient := by
    intro c hname hblank hdigit hmem
    rcases List.mem_append.mp hmem with hin | hin
    · rw [hchars c hin] at hname
      cases hname
    · rcases List.mem_cons.mp hin with heq | hin
      · exact hblank heq
      · rw [hdigits c hin] at hdigit
        cases hdigit
  refine ⟨⟨⟨[], ingredient.name, [' '], decimal ingredient.qty, [], ingredient.qty, ?_, hgap,
    by simp, ?_, h.name, hvalue, by omega, h.qty_pos, h.qty_le⟩, ?_, rfl⟩, ?_,
    hplain _ (by decide) (by decide) (by decide), hplain _ (by decide) (by decide) (by decide)⟩
  · intro c hc
    cases hc
  · intro c hc
    cases hc
  · simp only [IngredientText.text, IngredientText.fields, List.nil_append, List.append_nil]
    rfl
  · simp only [ingredientLine, List.length_append, List.length_cons]
    omega

theorem listedIn_ingredientLine {ingredient : Ingredient} (h : ingredient.Valid) :
    listedIn (ingredientLine ingredient) = [ingredient] := by
  obtain ⟨hline, hlen, -, hnul⟩ := ingredientLine_valid h
  rw [listedIn_short hlen, listedBy, cString_of_notMem hnul, readIngredient_iff.mpr hline]
  rfl

theorem loadIngredients_tableText {table : List Ingredient} (h : ∀ x ∈ table, x.Valid)
    (hlen : table.length ≤ maxIngredients) : loadIngredients [] (tableText table) = table := by
  have hlines : ∀ line ∈ table.map ingredientLine, '\n' ∉ line := by
    intro line hmem
    obtain ⟨x, hx, rfl⟩ := List.mem_map.mp hmem
    exact (ingredientLine_valid (h x hx)).2.2.1
  have hlisted : ∀ xs : List Ingredient, (∀ x ∈ xs, x.Valid) →
      (xs.map ingredientLine).flatMap listedIn = xs := by
    intro xs hxs
    induction xs with
    | nil => rfl
    | cons x xs ih =>
      rw [List.map_cons, List.flatMap_cons, listedIn_ingredientLine (hxs x List.mem_cons_self),
        ih fun y hy => hxs y (List.mem_cons_of_mem _ hy)]
      rfl
  have hempty : listedIn [] = [] := by
    rw [listedIn, blocks_nil]
    rfl
  rw [loadIngredients_lines, tableText, fileLines_joinLines hlines, List.flatMap_append,
    hlisted table h, List.flatMap_singleton, hempty, List.append_nil, List.take_of_length_le hlen]

/-- The table holds the first 128 ingredients of the lines of the file, where a
line that fits the buffer has what the grammar says; and the tables that are
read back as they are written are those of at most 128 valid ingredients. -/
theorem loadIngredients_grammar (file : List Char) (table : List Ingredient) :
    loadIngredients [] file = ((fileLines file).flatMap listedIn).take maxIngredients ∧
      (∀ line, line.length ≤ 255 → ∀ ingredient,
        ingredient ∈ listedIn line ↔ IngredientLine (cString line) ingredient) ∧
      (loadIngredients [] (tableText table) = table ↔
        table.length ≤ maxIngredients ∧ ∀ x ∈ table, x.Valid) := by
  refine ⟨loadIngredients_lines file, ?_, ?_⟩
  · intro line hlen ingredient
    rw [listedIn_short hlen, mem_listedBy]
  · constructor
    · intro hback
      rw [← hback]
      exact ⟨length_loadIngredients _, fun _ hx => valid_of_mem_loadIngredients hx⟩
    · rintro ⟨hlen, hvalid⟩
      exact loadIngredients_tableText hvalid hlen

/-! ### The school of a file -/

def schoolOf (file : List Char) (maxClients : ℕ) (timeoutSeconds : ℤ) (hclients : 0 < maxClients)
    (htimeout : 0 < timeoutSeconds) : Config where
  ingredientCount := (loadIngredients [] file).length
  name i := ((loadIngredients [] file).get i).name
  initialQty i := ((loadIngredients [] file).get i).qty
  maxClients := maxClients
  timeoutSeconds := timeoutSeconds
  count_le := length_loadIngredients file
  name_valid i := (valid_of_mem_loadIngredients (List.get_mem _ i)).name
  qty_pos i := (valid_of_mem_loadIngredients (List.get_mem _ i)).qty_pos
  qty_le i := (valid_of_mem_loadIngredients (List.get_mem _ i)).qty_le
  maxClients_pos := hclients
  timeout_pos := htimeout

def Config.table (cfg : Config) : List Ingredient :=
  List.ofFn fun i => ⟨cfg.name i, cfg.initialQty i⟩

theorem valid_of_mem_table {cfg : Config} {x : Ingredient} (h : x ∈ cfg.table) : x.Valid := by
  obtain ⟨i, rfl⟩ := List.mem_ofFn.mp h
  exact ⟨cfg.name_valid i, cfg.qty_pos i, cfg.qty_le i⟩

theorem config_eq_of_table {c d : Config} (htable : c.table = d.table)
    (hclients : c.maxClients = d.maxClients) (htime : c.timeoutSeconds = d.timeoutSeconds) :
    c = d := by
  have hcount : c.ingredientCount = d.ingredientCount := by
    simpa [Config.table] using congrArg List.length htable
  cases c with
  | mk k name qty maxClients timeoutSeconds =>
  cases d with
  | mk k' name' qty' =>
  obtain rfl : k = k' := hcount
  cases hclients
  cases htime
  have hentry := List.ofFn_injective htable
  have hname : name = name' := funext fun i => congrArg Ingredient.name (congrFun hentry i)
  have hqty : qty = qty' := funext fun i => congrArg Ingredient.qty (congrFun hentry i)
  cases hname
  cases hqty
  rfl

/-- The server runs with the ingredients of its file, and every school has such a file. -/
theorem schools_of_files :
    (∀ file maxClients timeoutSeconds hclients htimeout,
      (schoolOf file maxClients timeoutSeconds hclients htimeout).table = loadIngredients [] file) ∧
    ∀ cfg : Config, ∃ file,
      schoolOf file cfg.maxClients cfg.timeoutSeconds cfg.maxClients_pos cfg.timeout_pos = cfg := by
  have htable : ∀ file maxClients timeoutSeconds hclients htimeout,
      (schoolOf file maxClients timeoutSeconds hclients htimeout).table = loadIngredients [] file :=
    fun _ _ _ _ _ => List.ofFn_get _
  refine ⟨htable, ?_⟩
  intro cfg
  have hlen : cfg.table.length ≤ maxIngredients := by
    rw [Config.table, List.length_ofFn]
    exact cfg.count_le
  have hload := loadIngredients_tableText (fun x => valid_of_mem_table) hlen
  exact ⟨tableText cfg.table, config_eq_of_table ((htable ..).trans hload) rfl rfl⟩

end SysProg.HW6

import SysProg.HW5.OrderFile

/-!
# Which lines of the order file become orders

The loop does not know lines, only what `fgets` leaves in the buffer: a line of
more than 255 characters is scanned in pieces. A line of four proper fields is
queued when one piece is a line of these fields by itself. Any other line is
queued when a piece of it can be scanned.
-/

namespace SysProg.HW5
open SysProg.Lib

/-- A line of exactly four fields queues its order and nothing else, any other line
nothing. -/
structure QueuedByGrammar (line : List Char) : Prop where
  order : ∀ o, OrderLine line o → queuedFor line = [o]
  other : (∀ o, ¬OrderLine line o) → queuedFor line = []

/-- The buffer holds such a line with its four fields at one time, and of any other line it
never holds a text in which fields touch, a number is out of range or a NUL hides the rest. -/
structure BufferedWhole (line : List Char) : Prop where
  order : ∀ o, OrderLine line o → ∃ piece ∈ readsOf 254 line, OrderLine piece o
  other : (∀ o, ¬OrderLine line o) → ∀ piece ∈ readsOf 254 line, ∀ o, ¬LooseOrder (cString piece) o

/-! ### The loop -/

theorem queuedFor_nil : queuedFor [] = [] := by
  rw [queuedFor, readsOf_nil, List.flatMap_nil]

theorem queuedFor_read {file : List Char} (h : file ≠ []) : queuedFor file =
    (readOrderLine (fgets 255 file).1).toList ++ queuedFor (fgets 255 file).2 := by
  rw [queuedFor, readsOf_read 254 h, List.flatMap_cons]
  rfl

theorem loadOrdersFromFile_eq (loaded : OrderQueue × ℕ) (file : List Char) :
    loadOrdersFromFile loaded file =
      ((queuedFor file).foldl queuePush loaded.1, loaded.2 + (queuedFor file).length) := by
  by_cases h : file = []
  · subst h
    rw [loadOrdersFromFile, dif_pos rfl, queuedFor_nil]
    rfl
  · rw [loadOrdersFromFile, dif_neg h, queuedFor_read h]
    dsimp only
    split
    · rename_i hnone
      rw [hnone, Option.toList_none, List.nil_append]
      exact loadOrdersFromFile_eq loaded (fgets 255 file).2
    · rename_i o hsome
      rw [hsome, Option.toList_some, List.singleton_append, List.foldl_cons, List.length_cons,
        loadOrdersFromFile_eq _ (fgets 255 file).2]
      simp only [Nat.add_assoc, Nat.add_comm 1]
termination_by file.length
decreasing_by all_goals exact fgets_shorter h

/-! ### The end of a line -/

def OrderText.fields (x : OrderText) : List Char :=
  x.lead ++ (x.idText ++ (x.beforeName ++ (x.name ++ (x.beforePriority ++
    (priorityToString x.priority ++ (x.beforeDuration ++ x.durationText))))))

theorem OrderText.text_eq (x : OrderText) : x.text = x.fields ++ x.trail := by
  simp only [OrderText.text, OrderText.fields, List.append_assoc]

theorem stopsBack_fields (x : OrderText) : StopsBack isSpace x.fields := by
  have hlast : StopsBack isSpace x.durationText :=
    stopsBack_of_forall (isSpace_of_intValue x.durationText_value)
  have hfields : x.fields = (x.lead ++ (x.idText ++ (x.beforeName ++ (x.name ++
      (x.beforePriority ++ (priorityToString x.priority ++ x.beforeDuration)))))) ++
      x.durationText := by
    simp only [OrderText.fields, List.append_assoc]
  rw [hfields]
  exact (stopsBack_append (ne_nil_of_intValue x.durationText_value) _).mpr hlast

theorem looseOrder_newline {text : List Char} {o : Order} :
    LooseOrder (text ++ ['\n']) o ↔ LooseOrder text o := by
  have hnewline : Blank ['\n'] := by
    intro c hc
    rw [List.mem_singleton.mp hc]
    exact isSpace_newline
  constructor
  · rintro ⟨x, htext, hx, rfl⟩
    obtain ⟨front, run, rfl, hrun, hstop⟩ := exists_split_back isSpace text
    rw [x.text_eq, List.append_assoc] at htext
    obtain ⟨hfront, -⟩ := run_split_back x.trail_blank (hrun.append hnewline) (stopsBack_fields x)
      hstop htext
    refine ⟨{ x with trail := run, trail_blank := hrun }, ?_,
      ⟨hx.beforeName, hx.beforePriority, hx.beforeDuration, hx.id, hx.duration⟩, rfl⟩
    rw [OrderText.text_eq, ← hfront]
    rfl
  · rintro ⟨x, rfl, hx, rfl⟩
    refine ⟨{ x with trail := x.trail ++ ['\n'], trail_blank := x.trail_blank.append hnewline }, ?_,
      ⟨hx.beforeName, hx.beforePriority, hx.beforeDuration, hx.id, hx.duration⟩, rfl⟩
    simp only [OrderText.text, List.append_assoc]

theorem readOrderLine_newline (text : List Char) :
    readOrderLine (text ++ ['\n']) = readOrderLine text := by
  apply Option.ext
  intro o
  rw [readOrderLine_eq_some_iff, readOrderLine_eq_some_iff]
  by_cases hnul : '\x00' ∈ text
  · rw [cString_append_of_mem hnul]
  · rw [cString_of_notMem hnul, cString_of_notMem (by simp [hnul]), looseOrder_newline]

theorem queuedFor_file (file : List Char) :
    queuedFor file = (fileLines file).flatMap queuedFor := by
  have hread : NewlineBlind fun buffer => (readOrderLine buffer).toList :=
    ⟨by decide, fun text => congrArg Option.toList (readOrderLine_newline text)⟩
  rw [queuedFor, flatMap_readsOf_file hread]
  apply List.flatMap_congr
  intro line hline
  rw [queuedFor, readsOf_tail 254 (newline_notMem_fileLines hline)]

/-! ### Letters -/

def capitals (text : List Char) : ℕ := text.countP Char.isUpper

theorem capitals_append (s t : List Char) : capitals (s ++ t) = capitals s + capitals t :=
  List.countP_append

theorem capitals_eq_zero_iff {text : List Char} :
    capitals text = 0 ↔ ∀ c ∈ text, c.isUpper = false := by
  simp [capitals, List.countP_eq_zero]

theorem capitals_blank {b : List Char} (hb : Blank b) : capitals b = 0 := by
  refine capitals_eq_zero_iff.mpr fun c hc => ?_
  by_contra hupper
  have hspace := isSpace_of_isUpper (Bool.not_eq_false _ ▸ hupper)
  rw [hb c hc] at hspace
  cases hspace

theorem capitals_intValue {w : List Char} {u : ℤ} (h : intValue w = some u) : capitals w = 0 := by
  obtain ⟨t, sign, ds, ht, -, hds, rfl, -⟩ := exists_of_intValue h
  have hsign : capitals t = 0 := by
    obtain ⟨rfl, -⟩ | ⟨rfl, -⟩ | ⟨rfl, -⟩ := ht <;> rfl
  have hdigits : capitals ds = 0 :=
    capitals_eq_zero_iff.mpr fun c hc => isUpper_of_isDigit (hds c hc)
  rw [capitals_append, hsign, hdigits]

def orderCapitals (o : Order) : ℕ := capitals o.recipient + capitals (priorityToString o.priority)

theorem orderCapitals_pos (o : Order) : 0 < orderCapitals o := by
  have hpriority : ∀ p, 0 < capitals (priorityToString p) := by
    intro p
    cases p <;> decide
  exact Nat.add_pos_right _ (hpriority o.priority)

theorem capitals_text (x : OrderText) : capitals x.text = orderCapitals x.order := by
  simp only [OrderText.text, capitals_append, capitals_blank x.lead_blank,
    capitals_blank x.beforeName_blank, capitals_blank x.beforePriority_blank,
    capitals_blank x.beforeDuration_blank, capitals_blank x.trail_blank,
    capitals_intValue x.idText_value, capitals_intValue x.durationText_value, Nat.zero_add,
    Nat.add_zero]
  rfl

theorem capitals_orderLine {text : List Char} {o : Order} (h : OrderLine text o) :
    capitals text = orderCapitals o := by
  obtain ⟨x, rfl, -, rfl⟩ := h
  exact capitals_text x

theorem capitals_looseOrder {text : List Char} {o : Order} (h : LooseOrder text o) :
    capitals text = orderCapitals o := by
  obtain ⟨x, rfl, -, rfl⟩ := h
  exact capitals_text x

/-! ### A piece of a line -/

theorem duration_of_piece {gap gap' w w' trail rest : List Char} {u v : ℤ} (hgap : Blank gap)
    (hgap' : Blank gap') (htrail : Blank trail) (hw : intValue w = some u)
    (hw' : intValue w' = some v) (hlo : 1 ≤ u) (hhi : u ≤ 2147483647)
    (hstored : int32 (clampLong v) = u) (h : gap ++ (w ++ trail) = gap' ++ (w' ++ rest)) :
    gap = gap' ∧ v = u := by
  have hstops : Stops isSpace (w ++ trail) :=
    (stops_append (ne_nil_of_intValue hw) _).mpr (stops_of_forall (isSpace_of_intValue hw))
  have hstops' : Stops isSpace (w' ++ rest) :=
    (stops_append (ne_nil_of_intValue hw') _).mpr (stops_of_forall (isSpace_of_intValue hw'))
  obtain ⟨hsame, hnumbers⟩ := run_split hgap hgap' hstops hstops' h
  rw [← List.takeWhile_append_dropWhile (p := isInk) (l := rest), ← List.append_assoc] at hnumbers
  obtain ⟨hdigits, -⟩ := run_split (isInk_intValue hw)
    ((isInk_intValue hw').append (run_takeWhile rest)) (stops_isInk_of_blank htrail)
    (stops_dropWhile rest) hnumbers
  rw [hdigits] at hw
  have hnone := intValue_longer hw hw' hlo hhi hstored
  rw [hnone, List.append_nil, hw'] at hw
  exact ⟨hsame, Option.some.inj hw⟩

/-- In front of the name, it shows the same gap and a number of the same value: what it lacks
are blanks, a sign and leading zeros. -/
theorem id_of_piece {lead gap gap' w w' before : List Char} {u v : ℤ} (hlead : Blank lead)
    (hgap : Blank gap) (hgap' : Blank gap') (hw : intValue w = some u) (hw' : intValue w' = some v)
    (hlo : 1 ≤ u) (hhi : u ≤ 2147483647) (hstored : int32 (clampLong v) = u)
    (h : (lead ++ w) ++ gap = (before ++ w') ++ gap') : gap = gap' ∧ v = u := by
  have hstops : StopsBack isSpace (lead ++ w) :=
    (stopsBack_append (ne_nil_of_intValue hw) _).mpr (stopsBack_of_forall (isSpace_of_intValue hw))
  have hstops' : StopsBack isSpace (before ++ w') :=
    (stopsBack_append (ne_nil_of_intValue hw') _).mpr
      (stopsBack_of_forall (isSpace_of_intValue hw'))
  obtain ⟨hnumbers, hsame⟩ := run_split_back hgap hgap' hstops hstops' h
  obtain ⟨front, cut, rfl, hcut, hfront⟩ := exists_split_back isInk before
  have hblank : StopsBack isInk lead := stopsBack_of_forall fun c hc => by simp [isInk, hlead c hc]
  rw [List.append_assoc] at hnumbers
  obtain ⟨-, hdigits⟩ := run_split_back (isInk_intValue hw) (hcut.append (isInk_intValue hw'))
    hblank hfront hnumbers
  refine ⟨hsame, ?_⟩
  by_cases hnone : cut = []
  · rw [hdigits, hnone, List.nil_append, hw'] at hw
    exact Option.some.inj hw
  · rw [hdigits] at hw
    obtain ⟨hnonneg, hle⟩ := intValue_suffix hnone hw hw' hlo
    rw [← hstored, stored_of_range hnonneg (hle.trans hhi)]

theorem orderLine_piece {before piece after : List Char} {o : Order}
    (hline : OrderLine (before ++ (piece ++ after)) o) (hpiece : LooseOrder piece o) :
    OrderLine piece o := by
  have hcapitals := capitals_orderLine hline
  rw [capitals_append, capitals_append, capitals_looseOrder hpiece] at hcapitals
  have hafter : capitals after = 0 := by omega
  obtain ⟨x, htext, hx, rfl⟩ := hline
  obtain ⟨y, rfl, hy, horder⟩ := hpiece
  obtain ⟨hid, hname, hpriority, hduration⟩ := Order.mk.inj horder
  have hshape : (x.lead ++ x.idText ++ x.beforeName ++ x.name ++ x.beforePriority ++
        priorityToString x.priority) ++ (x.beforeDuration ++ (x.durationText ++ x.trail)) =
      (before ++ y.lead ++ y.idText ++ y.beforeName ++ x.name ++ y.beforePriority ++
        priorityToString x.priority) ++
        (y.beforeDuration ++ (y.durationText ++ (y.trail ++ after))) := by
    rw [← hname, ← hpriority]
    simpa only [OrderText.text, List.append_assoc, hname, hpriority] using htext
  -- both texts end their last capital letter with the priority
  have hupper : StopsBack (fun c => !c.isUpper) (priorityToString x.priority) :=
    stopsBack_of_forall fun c hc => by simp [priorityToString_chars x.priority c hc]
  have hplain : ∀ {text : List Char}, capitals text = 0 → Run (fun c => !c.isUpper) text := by
    intro text htext c hc
    simp [capitals_eq_zero_iff.mp htext c hc]
  have hbehind : capitals (x.beforeDuration ++ (x.durationText ++ x.trail)) = 0 := by
    simp only [capitals_append, capitals_blank x.beforeDuration_blank,
      capitals_intValue x.durationText_value, capitals_blank x.trail_blank, Nat.zero_add]
  have hbehind' :
      capitals (y.beforeDuration ++ (y.durationText ++ (y.trail ++ after))) = 0 := by
    simp only [capitals_append, capitals_blank y.beforeDuration_blank,
      capitals_intValue y.durationText_value, capitals_blank y.trail_blank, hafter, Nat.zero_add]
  have hne := priorityToString_ne_nil x.priority
  obtain ⟨hfront, hback⟩ := run_split_back (hplain hbehind) (hplain hbehind')
    ((stopsBack_append hne _).mpr hupper) ((stopsBack_append hne _).mpr hupper) hshape
  obtain ⟨hgapDuration, hdurationValue⟩ :=
      duration_of_piece x.beforeDuration_blank y.beforeDuration_blank
    x.trail_blank x.durationText_value y.durationText_value hx.duration.1 hx.duration.2 hduration
    hback
  have hnameEnd : StopsBack isSpace x.name :=
    stopsBack_of_forall fun c hc => isSpace_of_isNameChar (x.name_chars c hc)
  have hnameStops := fun front => (stopsBack_append x.name_nonempty front).mpr hnameEnd
  obtain ⟨hnames, hgapPriority⟩ := run_split_back x.beforePriority_blank y.beforePriority_blank
    (hnameStops _) (hnameStops _) (List.append_cancel_right hfront)
  obtain ⟨hgapName, hidValue⟩ := id_of_piece x.lead_blank x.beforeName_blank y.beforeName_blank
    x.idText_value y.idText_value hx.id.1 hx.id.2 hid (List.append_cancel_right hnames)
  refine ⟨y, rfl, ⟨hgapName ▸ hx.beforeName, hgapPriority ▸ hx.beforePriority,
    hgapDuration ▸ hx.beforeDuration, hidValue ▸ hx.id, hdurationValue ▸ hx.duration⟩, ?_⟩
  simp only [OrderText.order, hidValue, hname, hpriority, hdurationValue]

/-! ### Lines -/

theorem nul_notMem_text (x : OrderText) : '\x00' ∉ x.text := by
  have hblank : ∀ {b : List Char}, Blank b → '\x00' ∉ b := fun hb => nul_notMem hb (by decide)
  have hname : '\x00' ∉ x.name := nul_notMem x.name_chars (by decide)
  have hpriority := nul_notMem (priorityToString_chars x.priority) (by decide)
  simp only [OrderText.text, List.mem_append, not_or]
  exact ⟨hblank x.lead_blank, nul_notMem_intValue x.idText_value, hblank x.beforeName_blank, hname,
    hblank x.beforePriority_blank, hpriority, hblank x.beforeDuration_blank,
    nul_notMem_intValue x.durationText_value, hblank x.trail_blank⟩

theorem looseOrder_of_orderLine {text : List Char} {o : Order} (h : OrderLine text o) :
    LooseOrder text o := by
  obtain ⟨x, rfl, hx, rfl⟩ := h
  have hid := stored_of_range (zero_le_one.trans hx.id.1) hx.id.2
  have hduration := stored_of_range (zero_le_one.trans hx.duration.1) hx.duration.2
  have hstored : x.stored = x.order := by
    rw [OrderText.stored, hid, hduration, OrderText.order]
  refine ⟨x, rfl, ⟨fun h => absurd h hx.beforeName, fun h => absurd h hx.beforePriority,
    fun h => absurd h hx.beforeDuration, ?_, ?_⟩, hstored⟩
  · rw [hstored]
    exact hx.id.1
  · rw [hstored]
    exact hx.duration.1

theorem readOrderLine_plain {text : List Char} (h : capitals text = 0) :
    readOrderLine text = none := by
  cases hread : readOrderLine text with
  | none => rfl
  | some o =>
    have hcapitals := capitals_looseOrder (readOrderLine_eq_some_iff.mp hread)
    have hpos := orderCapitals_pos o
    have hcut : capitals (cString text) ≤ capitals text :=
      (List.takeWhile_sublist _).countP_le
    omega

theorem flatMap_plain {pieces : List (List Char)} (h : capitals pieces.flatten = 0) :
    pieces.flatMap (fun buffer => (readOrderLine buffer).toList) = [] := by
  refine List.flatMap_eq_nil_iff.mpr fun piece hpiece => ?_
  rw [readOrderLine_plain, Option.toList_none]
  refine capitals_eq_zero_iff.mpr fun c hc => ?_
  exact capitals_eq_zero_iff.mp h c (List.mem_flatten.mpr ⟨piece, hpiece, hc⟩)

theorem exists_around {line piece : List Char} (h : piece ∈ readsOf 254 line) :
    ∃ before after, readsOf 254 line = before ++ piece :: after ∧
      line = before.flatten ++ (piece ++ after.flatten) := by
  obtain ⟨before, after, hpieces⟩ := List.append_of_mem h
  refine ⟨before, after, hpieces, ?_⟩
  have hline := flatten_readsOf 254 line
  rw [hpieces, List.flatten_append, List.flatten_cons] at hline
  exact hline.symm

/-- At most one piece of a proper line can be scanned: that one has all its capital letters. -/
theorem queuedFor_eq_singleton {line piece : List Char} {o : Order} (hline : OrderLine line o)
    (hpiece : piece ∈ readsOf 254 line) (horder : OrderLine piece o) : queuedFor line = [o] := by
  obtain ⟨before, after, hpieces, htext⟩ := exists_around hpiece
  have hcapitals := capitals_orderLine hline
  rw [htext, capitals_append, capitals_append, capitals_orderLine horder] at hcapitals
  have hloose := looseOrder_of_orderLine horder
  have hread : readOrderLine piece = some o := by
    obtain ⟨x, rfl, -, -⟩ := id horder
    rw [readOrderLine_eq_some_iff, cString_of_notMem (nul_notMem_text x)]
    exact hloose
  rw [queuedFor, hpieces, List.flatMap_append, List.flatMap_cons, hread,
    flatMap_plain (by omega : capitals before.flatten = 0),
    flatMap_plain (by omega : capitals after.flatten = 0)]
  rfl

theorem exists_piece_of_queuedFor {line : List Char} {o : Order} (hline : OrderLine line o)
    (h : queuedFor line = [o]) : ∃ piece ∈ readsOf 254 line, OrderLine piece o := by
  have hmem : o ∈ queuedFor line := by
    rw [h]
    exact List.mem_singleton.mpr rfl
  obtain ⟨piece, hpiece, hlisted⟩ := List.mem_flatMap.mp hmem
  have hread := Option.mem_toList.mp hlisted
  obtain ⟨before, after, -, htext⟩ := exists_around hpiece
  have hnul : '\x00' ∉ piece := by
    obtain ⟨x, hx, -, -⟩ := id hline
    have hwhole := nul_notMem_text x
    rw [hx, htext] at hwhole
    simp only [List.mem_append, not_or] at hwhole
    exact hwhole.2.1
  rw [readOrderLine_eq_some_iff, cString_of_notMem hnul] at hread
  rw [htext] at hline
  exact ⟨piece, hpiece, orderLine_piece hline hread⟩

theorem queuedFor_eq_nil_iff {line : List Char} : queuedFor line = [] ↔
    ∀ piece ∈ readsOf 254 line, ∀ o, ¬LooseOrder (cString piece) o := by
  simp only [queuedFor, List.flatMap_eq_nil_iff, Option.toList_eq_nil_iff,
    Option.eq_none_iff_forall_ne_some, ne_eq, readOrderLine_eq_some_iff]

theorem queuedByGrammar_iff (line : List Char) : QueuedByGrammar line ↔ BufferedWhole line := by
  constructor
  · intro h
    refine ⟨fun o ho => exists_piece_of_queuedFor ho (h.order o ho), fun hnone => ?_⟩
    exact queuedFor_eq_nil_iff.mp (h.other hnone)
  · intro h
    refine ⟨fun o ho => ?_, fun hnone => queuedFor_eq_nil_iff.mpr (h.other hnone)⟩
    obtain ⟨piece, hpiece, horder⟩ := h.order o ho
    exact queuedFor_eq_singleton ho hpiece horder

/-- The loop queues what its lines queue, and every line by the grammar exactly when the buffer
holds each of them whole. -/
theorem loadOrdersFromFile_grammar (file : List Char) :
    loadOrdersFromFile (queueInit, 0) file =
        (loadOrders ((fileLines file).flatMap queuedFor),
          ((fileLines file).flatMap queuedFor).length) ∧
      ((∀ line ∈ fileLines file, QueuedByGrammar line) ↔
        ∀ line ∈ fileLines file, BufferedWhole line) := by
  constructor
  · rw [loadOrdersFromFile_eq, ← queuedFor_file, Nat.zero_add]
    rfl
  · exact forall₂_congr fun line _ => queuedByGrammar_iff line

theorem blanks_orderLine {line : List Char} {o : Order} (h : OrderLine line o) :
    3 ≤ line.countP isSpace := by
  obtain ⟨x, rfl, hx, -⟩ := h
  have hgap : ∀ {b : List Char}, Blank b → b ≠ [] → 1 ≤ b.countP isSpace := by
    intro b hb hne
    rw [List.countP_eq_length.mpr hb]
    exact List.length_pos_iff.mpr hne
  have hname := hgap x.beforeName_blank hx.beforeName
  have hpriority := hgap x.beforePriority_blank hx.beforePriority
  have hduration := hgap x.beforeDuration_blank hx.beforeDuration
  simp only [OrderText.text, List.countP_append]
  omega

/-- Without a blank behind the id, the line has three fields and is queued. -/
theorem gluedFields_queued :
    loadOrdersFromFile (queueInit, 0) "1bob EXPRESS 5\n".toList =
        (loadOrders [⟨1, "bob".toList, .express, 5⟩], 1) ∧
      "1bob EXPRESS 5".toList ∈ fileLines "1bob EXPRESS 5\n".toList ∧
      ¬QueuedByGrammar "1bob EXPRESS 5".toList := by
  have hread : queuedFor "1bob EXPRESS 5".toList = [⟨1, "bob".toList, .express, 5⟩] := by
    rw [queuedFor_read (by decide), fgets_tail (by decide) (by decide), queuedFor_nil]
    decide
  have hlines : fileLines "1bob EXPRESS 5\n".toList = ["1bob EXPRESS 5".toList, []] := by decide
  refine ⟨?_, ?_, ?_⟩
  · rw [loadOrdersFromFile_eq, queuedFor_file, hlines, List.flatMap_cons, List.flatMap_singleton,
      hread, queuedFor_nil]
    rfl
  · rw [hlines]
    exact List.mem_cons_self
  · intro h
    have hnone : ∀ o, ¬OrderLine "1bob EXPRESS 5".toList o := by
      intro o ho
      exact absurd (blanks_orderLine ho) (by decide)
    have hempty := h.other hnone
    rw [hread] at hempty
    cases hempty

end SysProg.HW5

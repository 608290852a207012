import SysProg.Lib.CText
import Mathlib.Data.List.DropRight

/-!
# Formats of `sscanf`

A format is a list of directives. The scan gives the values that it assigns
before the first failure.
-/

namespace SysProg.Lib

/-- Directives of a `scanf` format. -/
inductive Directive where
  | text (c : Char)
  | space
  | int
  | long
  | string (width : ℕ)

inductive ScanValue where
  | number (v : ℤ)
  | string (s : List Char)
  deriving DecidableEq

/-- The values assigned before the first failure. -/
def sscanf : List Directive → List Char → List ScanValue
  | [], _ => []
  | .text _ :: _, [] => []
  | .text c :: ds, x :: input => if x = c then sscanf ds input else []
  | .space :: ds, input => sscanf ds (input.dropWhile isSpace)
  | .int :: ds, input =>
    match scanNumber input with
    | none => []
    | some (v, rest) => .number (int32 v) :: sscanf ds rest
  | .long :: ds, input =>
    match scanNumber input with
    | none => []
    | some (v, rest) => .number v :: sscanf ds rest
  | .string width :: ds, input =>
    let token := ((input.dropWhile isSpace).take width).takeWhile (fun c => !isSpace c)
    if token = [] then []
    else .string token :: sscanf ds ((input.dropWhile isSpace).drop token.length)

def literal (text : List Char) : List Directive := text.map .text

/-! ### Formats that the input follows -/

theorem sscanf_literal (w x : List Char) (ds : List Directive) :
    sscanf (literal w ++ ds) (w ++ x) = sscanf ds x := by
  induction w with
  | nil => rfl
  | cons c w ih =>
    simp only [literal, List.map_cons, List.cons_append, sscanf, ↓reduceIte]
    exact ih

theorem sscanf_space (ds : List Directive) {x : List Char} (hx : x.dropWhile isSpace = x) :
    sscanf (.space :: ds) (' ' :: x) = sscanf ds x := by
  have hspace : isSpace ' ' = true := by decide
  rw [sscanf, List.dropWhile_cons_of_pos hspace, hx]

theorem sscanf_string {t y : List Char} {width : ℕ} {ds : List Directive} (hne : t ≠ [])
    (ht : ∀ c ∈ t, isSpace c = false) (hwidth : t.length ≤ width)
    (hy : y.takeWhile (fun c => !isSpace c) = []) :
    sscanf (.string width :: ds) (t ++ y) = .string t :: sscanf ds y := by
  obtain ⟨c, rest, rfl⟩ := List.exists_cons_of_ne_nil hne
  have hdrop : (c :: rest ++ y).dropWhile isSpace = c :: rest ++ y := by
    rw [List.cons_append, List.dropWhile_cons_of_neg (by simp [ht c List.mem_cons_self])]
  have hcut : (y.take (width - (c :: rest).length)).takeWhile (fun c => !isSpace c) = [] := by
    cases y with
    | nil => simp
    | cons d y =>
      have hd : isSpace d = true := by
        by_contra hd
        simp [hd] at hy
      cases width - (c :: rest).length <;> simp [hd]
  have htoken : ((c :: rest ++ y).take width).takeWhile (fun c => !isSpace c) = c :: rest := by
    rw [List.take_append, List.take_of_length_le hwidth, List.takeWhile_append_of_pos, hcut,
      List.append_nil]
    intro d hd
    simp [ht d hd]
  simp only [sscanf, hdrop, htoken]
  rw [if_neg (by simp), List.drop_left']
  rfl

theorem sscanf_no_assignment {ds : List Directive}
    (h : ∀ d ∈ ds, (∃ c, d = .text c) ∨ d = .space) (x : List Char) : sscanf ds x = [] := by
  induction ds generalizing x with
  | nil => rfl
  | cons d ds ih =>
    have hds := fun e he => h e (List.mem_cons_of_mem d he)
    rcases h d List.mem_cons_self with ⟨c, rfl⟩ | rfl
    · cases x with
      | nil => rfl
      | cons y x =>
        rw [sscanf]
        split_ifs
        · exact ih hds x
        · rfl
    · rw [sscanf]
      exact ih hds _

/-! ### All that a directive can take -/

theorem sscanf_int_iff {ds : List Directive} {x : List Char} {v : ℤ} {vs : List ScanValue} :
    sscanf (.int :: ds) x = .number v :: vs ↔ ∃ b w u rest, Blank b ∧ intValue w = some u ∧
      Stops Char.isDigit rest ∧ x = b ++ (w ++ rest) ∧ v = int32 (clampLong u) ∧
      sscanf ds rest = vs := by
  constructor
  · intro h
    rw [sscanf] at h
    split at h
    · cases h
    · rename_i number rest hscan
      obtain ⟨b, w, u, hb, hw, rfl, hrest, rfl⟩ := exists_of_scanNumber hscan
      obtain ⟨hv, hvs⟩ := List.cons.inj h
      exact ⟨b, w, u, rest, hb, hw, hrest, rfl, (ScanValue.number.inj hv).symm, hvs⟩
  · rintro ⟨b, w, u, rest, hb, hw, hrest, rfl, rfl, rfl⟩
    rw [sscanf, scanNumber_intValue hb hw hrest]

theorem sscanf_string_token {width : ℕ} (ds : List Directive) {x s token : List Char}
    (hs : x.dropWhile isSpace = s) (htoken : (s.takeWhile isInk).take width = token) :
    sscanf (.string width :: ds) x =
      if token = [] then [] else .string token :: sscanf ds (s.drop token.length) := by
  rw [List.take_takeWhile] at htoken
  subst hs htoken
  rfl

/-- A token ends at a blank, at the end or at its width. -/
theorem sscanf_string_iff {width : ℕ} {ds : List Directive} {x tok : List Char}
    {vs : List ScanValue} :
    sscanf (.string width :: ds) x = .string tok :: vs ↔ ∃ b rest, Blank b ∧ tok ≠ [] ∧
      Run isInk tok ∧ tok.length ≤ width ∧ (tok.length = width ∨ Stops isInk rest) ∧
      x = b ++ (tok ++ rest) ∧ sscanf ds rest = vs := by
  constructor
  · intro h
    rw [sscanf_string_token ds rfl rfl] at h
    split_ifs at h with hne
    obtain ⟨htok, hvs⟩ := List.cons.inj h
    obtain ⟨rest, hrest, hend⟩ := exists_after_take isInk width (x.dropWhile isSpace)
    rw [ScanValue.string.inj htok] at hne hvs hrest hend
    rw [hrest, List.drop_left] at hvs
    refine ⟨x.takeWhile isSpace, rest, run_takeWhile x, hne, ?_, ?_, hend, ?_, hvs⟩
    · rw [← ScanValue.string.inj htok]
      intro c hc
      exact run_takeWhile _ c (List.mem_of_mem_take hc)
    · rw [← ScanValue.string.inj htok]
      exact List.length_take_le _ _
    · rw [← hrest, List.takeWhile_append_dropWhile]
  · rintro ⟨b, rest, hb, hne, htok, hwidth, hend, rfl, rfl⟩
    have hstops : Stops isSpace (tok ++ rest) := by
      refine (stops_append hne rest).mpr (stops_of_forall ?_)
      intro c hc
      simpa [isInk] using htok c hc
    have htoken : ((tok ++ rest).takeWhile isInk).take width = tok := by
      rcases hend with hfull | hend
      · rw [List.take_takeWhile, ← hfull, List.take_left]
        exact List.takeWhile_eq_self_iff.mpr htok
      · rw [takeWhile_run htok hend, List.take_of_length_le hwidth]
    rw [sscanf_string_token ds (dropWhile_run hb hstops) htoken, if_neg hne, List.drop_left]

theorem sscanf_last_iff {width : ℕ} {x : List Char} :
    sscanf [.string (width + 1)] x = [] ↔ Blank x := by
  rw [sscanf_string_token [] rfl rfl]
  constructor
  · intro h
    split_ifs at h with hnone
    apply List.dropWhile_eq_nil_iff.mp
    cases hx : x.dropWhile isSpace with
    | nil => rfl
    | cons c rest =>
      have hc : isSpace c = false := stops_cons.mp (hx ▸ stops_dropWhile x)
      simp [hx, isInk, hc] at hnone
  · intro hx
    have hall : x.dropWhile isSpace = [] := List.dropWhile_eq_nil_iff.mpr hx
    simp [hall]

theorem sscanf_space_int (ds : List Directive) (x : List Char) :
    sscanf (.space :: .int :: ds) x = sscanf (.int :: ds) x := by
  simp only [sscanf, scanNumber, List.dropWhile_idempotent]

theorem sscanf_space_string (width : ℕ) (ds : List Directive) (x : List Char) :
    sscanf (.space :: .string width :: ds) x = sscanf (.string width :: ds) x := by
  simp only [sscanf, List.dropWhile_idempotent]

theorem sscanf_token {ds : List Directive} {input t : List Char}
    (h : .string t ∈ sscanf ds input) :
    t ≠ [] ∧ (∀ c ∈ t, isSpace c = false) ∧ t.length ≤ input.length := by
  fun_induction sscanf ds input with
  | case1 input => cases h
  | case2 c ds => cases h
  | case3 c ds input ih =>
    obtain ⟨hne, hspace, hlen⟩ := ih h
    exact ⟨hne, hspace, hlen.trans (Nat.le_succ _)⟩
  | case4 c ds x input hx => cases h
  | case5 ds input ih =>
    obtain ⟨hne, hspace, hlen⟩ := ih h
    exact ⟨hne, hspace, hlen.trans (List.dropWhile_suffix _).length_le⟩
  | case6 ds input hnone => cases h
  | case7 ds input v rest hsome ih =>
    obtain ⟨hne, hspace, hlen⟩ := ih (by simpa using h)
    exact ⟨hne, hspace, hlen.trans (scanNumber_length hsome)⟩
  | case8 ds input hnone => cases h
  | case9 ds input v rest hsome ih =>
    obtain ⟨hne, hspace, hlen⟩ := ih (by simpa using h)
    exact ⟨hne, hspace, hlen.trans (scanNumber_length hsome)⟩
  | case10 width ds input token hnil => cases h
  | case11 width ds input token hne ih =>
    have hdrop := (List.dropWhile_suffix (p := isSpace) (l := input)).length_le
    rcases List.mem_cons.mp h with hhead | htail
    · obtain rfl := ScanValue.string.inj hhead
      refine ⟨hne, ?_, ?_⟩
      · intro c hc
        simpa using List.mem_takeWhile_imp hc
      · have hcut := List.takeWhile_prefix (fun c => !isSpace c)
          (l := (input.dropWhile isSpace).take width)
        exact (hcut.length_le.trans (List.length_take_le' _ _)).trans hdrop
    · obtain ⟨hne', hspace, hlen⟩ := ih htail
      refine ⟨hne', hspace, hlen.trans ?_⟩
      rw [List.length_drop]
      omega

end SysProg.Lib

import SysProg.HW4.Pipeline
import SysProg.Lib.TopWindow
import Mathlib.Data.List.GetD
import Mathlib.Data.List.TakeWhile

/-!
# Selection of the three top sources

`compute_top3` keeps three hit values and three names in fixed `char [64]`
buffers, moves both down from the place of a better source, and at the end
copies them to the result, whose memory `init_shared_regions` has zeroed.
`strncpy` fills its range with zeros behind a short name, so a name never keeps
the end of a longer one that was there before. The buffers read as the rows of
`Top3`, and `Top3` is the window of the first three ranks of the table.
-/

namespace SysProg.HW4
open SysProg.Lib

/-! ### Names in buffers of 64 characters -/

/-- The C string in a `char [64]`. -/
def cellText (cells : ℕ → Char) : List Char :=
  ((List.range 64).map cells).takeWhile (· != '\x00')

/-- `strncpy`: at most `n` characters, zeros up to `n`, nothing behind. -/
def strncpy (dst : ℕ → Char) (src : List Char) (n : ℕ) : ℕ → Char :=
  fun i => if i < n then src.getD i '\x00' else dst i

/-- What a `char [64]` with a terminating zero can hold. -/
structure FitsName (text : List Char) : Prop where
  length_le : text.length ≤ 63
  no_nul : '\x00' ∉ text

theorem strncpy_last (dst : ℕ → Char) (src : List Char) : strncpy dst src 63 63 = dst 63 :=
  if_neg (lt_irrefl 63)

theorem map_range_strncpy {dst : ℕ → Char} {src : List Char} (hsrc : src.length ≤ 63)
    (hdst : dst 63 = '\x00') :
    (List.range 64).map (strncpy dst src 63) =
      src ++ List.replicate (64 - src.length) '\x00' := by
  apply List.ext_getElem
  · simp
    omega
  · intro i hi _
    rw [List.getElem_map, List.getElem_range, strncpy]
    have hi64 : i < 64 := by simpa using hi
    by_cases hin : i < src.length
    · rw [if_pos (hin.trans_le hsrc), List.getElem_append_left hin]
      exact List.getD_eq_getElem src '\x00' hin
    · rw [List.getElem_append_right (not_lt.mp hin), List.getElem_replicate]
      split_ifs with h63
      · exact List.getD_eq_default src '\x00' (not_lt.mp hin)
      · have hi : i = 63 := by omega
        rw [hi, hdst]

theorem cellText_strncpy {dst : ℕ → Char} {src : List Char} (hsrc : FitsName src)
    (hdst : dst 63 = '\x00') : cellText (strncpy dst src 63) = src := by
  rw [cellText, map_range_strncpy hsrc.length_le hdst, List.takeWhile_append_of_pos]
  · simp
  · intro c hc
    have hne : c ≠ '\x00' := fun h => hsrc.no_nul (h ▸ hc)
    simpa using hne

theorem fitsName_cellText {cells : ℕ → Char} (h : cells 63 = '\x00') :
    FitsName (cellText cells) := by
  constructor
  · have hsplit : (List.range 64).map cells = (List.range 63).map cells ++ ['\x00'] := by
      rw [List.range_succ, List.map_append, List.map_singleton, h]
    rw [cellText, hsplit]
    have hle :=
        (List.takeWhile_sublist (fun c => c != '\x00') (l := (List.range 63).map cells)).length_le
    rw [List.length_map, List.length_range] at hle
    by_cases hall : ∀ c ∈ (List.range 63).map cells, (c != '\x00') = true
    · rw [List.takeWhile_append_of_pos hall]
      simp
    · rw [List.takeWhile_append, if_neg]
      · exact hle
      · intro hlen
        apply hall
        have hself := (List.takeWhile_sublist _).eq_of_length hlen
        exact List.takeWhile_eq_self_iff.mp hself
  · intro hmem
    have hc := List.mem_takeWhile_imp hmem
    simp at hc

/-! ### The loops of `compute_top3` -/

/-- One row of `source_names` and `source_hits`. -/
structure SourceRow where
  name : List Char
  hits : ℕ
  fits : FitsName name

def SourceRow.toPair (row : SourceRow) : List Char × ℕ := (row.name, row.hits)

/-- `best_names` and `best_hits`; also `top_source` and `top_source_hits` of the result. -/
structure TopRows where
  names : ℕ → ℕ → Char
  hits : ℕ → ℕ

namespace TopRows

def zeroed : TopRows := ⟨fun _ _ => '\x00', fun _ => 0⟩

/-- The body of the inner loop over `move`. -/
def copyDown (b : TopRows) (move : ℕ) : TopRows where
  names := Function.update b.names move
    (strncpy (b.names move) (cellText (b.names (move - 1))) 63)
  hits := Function.update b.hits move (b.hits (move - 1))

/-- `for (; move > j; --move)`. -/
def shiftFrom (j : ℕ) : ℕ → TopRows → TopRows
  | 0, b => b
  | move + 1, b => if j < move + 1 then shiftFrom j move (b.copyDown (move + 1)) else b

def place (b : TopRows) (j : ℕ) (row : SourceRow) : TopRows :=
  let shifted := shiftFrom j 2 b
  { names := Function.update shifted.names j (strncpy (shifted.names j) row.name 63)
    hits := Function.update shifted.hits j row.hits }

/-- The loop over `j` with its `break`. -/
def consider (b : TopRows) (row : SourceRow) : TopRows :=
  match (List.range 3).find? (fun j => b.hits j < row.hits) with
  | some j => b.place j row
  | none => b

def writeTo (b result : TopRows) : TopRows where
  names := fun i =>
    if i < 3 then strncpy (result.names i) (cellText (b.names i)) 63 else result.names i
  hits := fun i => if i < 3 then b.hits i else result.hits i

def computeTop3 (table : List SourceRow) (result : TopRows) : TopRows :=
  (table.foldl consider zeroed).writeTo result

def view (b : TopRows) : Top3 := ⟨fun i => cellText (b.names i), fun i => b.hits i⟩

def Terminated (b : TopRows) : Prop := ∀ i, b.names i 63 = '\x00'

theorem terminated_zeroed : zeroed.Terminated := fun _ => rfl

variable {b : TopRows}

theorem terminated_update_strncpy (h : b.Terminated) (m : ℕ) (src : List Char) (i : ℕ) :
    Function.update b.names m (strncpy (b.names m) src 63) i 63 = '\x00' := by
  by_cases him : i = m
  · subst him
    rw [Function.update_self, strncpy_last]
    exact h i
  · rw [Function.update_of_ne him]
    exact h i

theorem terminated_copyDown (h : b.Terminated) (move : ℕ) : (b.copyDown move).Terminated :=
  fun i => terminated_update_strncpy h move _ i

theorem terminated_shiftFrom (h : b.Terminated) (j move : ℕ) : (shiftFrom j move b).Terminated := by
  induction move generalizing b with
  | zero => exact h
  | succ move ih =>
    unfold shiftFrom
    split_ifs
    · exact ih (terminated_copyDown h (move + 1))
    · exact h

theorem terminated_place (h : b.Terminated) (j : ℕ) (row : SourceRow) :
    (b.place j row).Terminated := by
  intro i
  exact terminated_update_strncpy (terminated_shiftFrom h j 2) j row.name i

theorem shiftFrom_row (h : b.Terminated) (j move m : ℕ) :
    (shiftFrom j move b).hits m = (if j < m ∧ m ≤ move then b.hits (m - 1) else b.hits m) ∧
    cellText ((shiftFrom j move b).names m) =
      if j < m ∧ m ≤ move then cellText (b.names (m - 1)) else cellText (b.names m) := by
  induction move generalizing b with
  | zero =>
    have hnone : ¬ (j < m ∧ m ≤ 0) := by omega
    rw [if_neg hnone, if_neg hnone]
    exact ⟨rfl, rfl⟩
  | succ move ih =>
    unfold shiftFrom
    by_cases hj : j < move + 1
    · rw [if_pos hj]
      obtain ⟨hhits, hname⟩ := ih (terminated_copyDown h (move + 1))
      rw [hhits, hname]
      rcases Nat.lt_trichotomy m (move + 1) with hlt | rfl | hgt
      · -- the rows below the one just copied are still the old ones
        have hiff : (j < m ∧ m ≤ move) ↔ (j < m ∧ m ≤ move + 1) := by omega
        have hm : m ≠ move + 1 := hlt.ne
        have hm1 : m - 1 ≠ move + 1 := by omega
        simp only [hiff, copyDown, Function.update_of_ne hm, Function.update_of_ne hm1, and_self]
      · have hnew : j < move + 1 ∧ move + 1 ≤ move + 1 := ⟨hj, le_rfl⟩
        have hold : ¬ (j < move + 1 ∧ move + 1 ≤ move) := by omega
        rw [if_neg hold, if_neg hold, if_pos hnew, if_pos hnew]
        simp only [copyDown, Function.update_self, true_and]
        exact cellText_strncpy (fitsName_cellText (h _)) (h _)
      · have hold : ¬ (j < m ∧ m ≤ move) := by omega
        have hnew : ¬ (j < m ∧ m ≤ move + 1) := by omega
        rw [if_neg hold, if_neg hold, if_neg hnew, if_neg hnew]
        simp only [copyDown, Function.update_of_ne hgt.ne', and_self]
    · have hnone : ¬ (j < m ∧ m ≤ move + 1) := by omega
      rw [if_neg hj, if_neg hnone, if_neg hnone]
      exact ⟨rfl, rfl⟩

theorem view_place (h : b.Terminated) (j : Fin 3) (row : SourceRow) :
    (b.place j row).view = b.view.insertAt j row.name row.hits := by
  have hrow : ∀ m : Fin 3, (b.place j row).hits m = (b.view.insertAt j row.name row.hits).hits m ∧
      cellText ((b.place j row).names m) = (b.view.insertAt j row.name row.hits).names m := by
    intro m
    obtain ⟨hhits, hname⟩ := shiftFrom_row h j 2 m
    rcases lt_trichotomy m j with hlt | heq | hgt
    · have hne : (m : ℕ) ≠ j := (Fin.lt_def.mp hlt).ne
      have hold : ¬ ((j : ℕ) < m ∧ (m : ℕ) ≤ 2) := by
        have := Fin.lt_def.mp hlt
        omega
      simp only [place, Top3.insertAt, if_pos hlt, Function.update_of_ne hne, hhits, hname,
        if_neg hold, view, and_self]
    · subst heq
      simp only [place, Top3.insertAt, lt_irrefl, if_false, if_true, Function.update_self, true_and]
      exact cellText_strncpy row.fits (terminated_shiftFrom h m 2 m)
    · have hne : (m : ℕ) ≠ j := (Fin.lt_def.mp hgt).ne'
      have hnew : (j : ℕ) < m ∧ (m : ℕ) ≤ 2 := ⟨hgt, by omega⟩
      have hpred : ((m - 1 : Fin 3) : ℕ) = (m : ℕ) - 1 := by
        have := Fin.lt_def.mp hgt
        omega
      simp only [place, Top3.insertAt, if_neg hgt.not_gt, if_neg hgt.ne', Function.update_of_ne hne,
        hhits, hname, if_pos hnew, view, hpred, and_self]
  refine Top3.mk.injEq .. |>.mpr ⟨?_, ?_⟩
  · exact funext fun m => (hrow m).2
  · exact funext fun m => (hrow m).1

theorem view_consider (h : b.Terminated) (row : SourceRow) :
    (b.consider row).view = b.view.offer row.toPair ∧ (b.consider row).Terminated := by
  have hfind : (List.range 3).find? (fun j => b.hits j < row.hits) =
      ((List.finRange 3).find? (fun j => b.view.hits j < row.toPair.2)).map Fin.val := by
    have hrange : List.range 3 = (List.finRange 3).map Fin.val := by decide
    rw [hrange, List.find?_map]
    rfl
  unfold consider Top3.offer
  rw [hfind]
  cases (List.finRange 3).find? (fun j => b.view.hits j < row.toPair.2) with
  | none => exact ⟨rfl, h⟩
  | some j => exact ⟨view_place h j row, terminated_place h j row⟩

theorem view_foldl_consider (h : b.Terminated) (table : List SourceRow) :
    (table.foldl consider b).view = (table.map SourceRow.toPair).foldl Top3.offer b.view ∧
    (table.foldl consider b).Terminated := by
  induction table generalizing b with
  | nil => exact ⟨rfl, h⟩
  | cons row table ih =>
    obtain ⟨hview, hterm⟩ := view_consider h row
    rw [List.map_cons, List.foldl_cons, List.foldl_cons, ← hview]
    exact ih hterm

theorem view_writeTo {result : TopRows} (hb : b.Terminated) (hr : result.Terminated) :
    (b.writeTo result).view = b.view := by
  refine Top3.mk.injEq .. |>.mpr ⟨?_, ?_⟩
  · funext i
    simp only [writeTo, if_pos i.isLt]
    exact cellText_strncpy (fitsName_cellText (hb i)) (hr i)
  · funext i
    exact if_pos i.isLt

theorem view_computeTop3 (table : List SourceRow) {result : TopRows} (hr : result.Terminated) :
    (computeTop3 table result).view = SysProg.HW4.computeTop3 (table.map SourceRow.toPair) := by
  obtain ⟨hview, hterm⟩ := view_foldl_consider terminated_zeroed table
  have hzero : zeroed.view = Top3.zero := by
    refine Top3.mk.injEq .. |>.mpr ⟨?_, rfl⟩
    funext i
    simp [cellText, zeroed]
  rw [computeTop3, view_writeTo hterm hr, hview, hzero]
  rfl

end TopRows

/-! ### The three rows as a window of the table -/

def hitsKey (row : List Char × ℕ) : ℕᵒᵈ := OrderDual.toDual row.2

def Top3.ofWindow (w : List (List Char × ℕ)) : Top3 where
  names := fun r => (w[(r : ℕ)]?.map Prod.fst).getD []
  hits := fun r => (w[(r : ℕ)]?.map Prod.snd).getD 0

theorem Top3.hits_ofWindow_lt_iff {w : List (List Char × ℕ)} {row : List Char × ℕ}
    (hrow : 0 < row.2) (j : Fin 3) :
    (Top3.ofWindow w).hits j < row.2 ↔
      ∀ h : (j : ℕ) < w.length, hitsKey row < hitsKey w[(j : ℕ)] := by
  by_cases hj : (j : ℕ) < w.length
  · simp [Top3.ofWindow, hitsKey, hj]
  · simp [Top3.ofWindow, hj, hrow]

theorem find_finRange_eq_some {n : ℕ} {p : Fin n → Bool} {j : Fin n}
    (h : (List.finRange n).find? p = some j) : p j = true ∧ ∀ i < j, p i = false := by
  obtain ⟨hj, before, after, hsplit, hbefore⟩ := List.find?_eq_some_iff_append.mp h
  refine ⟨hj, fun i hij => ?_⟩
  have hsorted := List.pairwise_lt_finRange n
  rw [hsplit] at hsorted
  have hmem : i ∈ before ++ j :: after := hsplit ▸ List.mem_finRange i
  rcases List.mem_append.mp hmem with hi | hi
  · simpa using hbefore i hi
  · rcases List.mem_cons.mp hi with rfl | hi
    · exact absurd hij (lt_irrefl i)
    · have hji := (List.pairwise_cons.mp (List.pairwise_append.mp hsorted).2.1).1 i hi
      exact absurd hij hji.asymm

theorem Top3.insertAt_ofWindow (w : List (List Char × ℕ)) (row : List Char × ℕ) (j : Fin 3)
    (hj : (j : ℕ) ≤ w.length) :
    (Top3.ofWindow w).insertAt j row.1 row.2 =
      Top3.ofWindow ((w.take j ++ row :: w.drop j).take 3) := by
  have hcell : ∀ m : Fin 3, ((w.take j ++ row :: w.drop j).take 3)[(m : ℕ)]? =
      if m < j then w[(m : ℕ)]? else if m = j then some row else w[((m - 1 : Fin 3) : ℕ)]? := by
    intro m
    have hlen : (w.take j).length = j := by rw [List.length_take, min_eq_left hj]
    rw [List.getElem?_take_of_lt m.isLt]
    rcases lt_trichotomy m j with hlt | rfl | hgt
    · have hm : (m : ℕ) < (w.take j).length := by
        rw [hlen]
        exact hlt
      rw [if_pos hlt, List.getElem?_append_left hm, List.getElem?_take_of_lt (Fin.lt_def.mp hlt)]
    · rw [if_neg (lt_irrefl m), if_pos rfl, List.getElem?_append_right hlen.le, hlen, Nat.sub_self]
      rfl
    · have hgt' := Fin.lt_def.mp hgt
      have hpred : ((m - 1 : Fin 3) : ℕ) = (m : ℕ) - 1 := by omega
      obtain ⟨k, hk⟩ := Nat.exists_eq_add_of_lt hgt'
      have hsub : (m : ℕ) - (w.take j).length = k + 1 := by omega
      have hsum : (j : ℕ) + k = (m : ℕ) - 1 := by omega
      rw [if_neg hgt.not_gt, if_neg hgt.ne', hpred, List.getElem?_append_right (by omega), hsub,
        List.getElem?_cons_succ, List.getElem?_drop, hsum]
  refine Top3.mk.injEq .. |>.mpr ⟨?_, ?_⟩
  · funext m
    simp only [Top3.ofWindow, hcell]
    split_ifs <;> rfl
  · funext m
    simp only [Top3.ofWindow, hcell]
    split_ifs <;> rfl

theorem Top3.offer_ofWindow {w : List (List Char × ℕ)} (hw : w.length ≤ 3)
    {row : List Char × ℕ} (hrow : 0 < row.2) :
    (Top3.ofWindow w).offer row = Top3.ofWindow (offerTo hitsKey 3 w row) := by
  rw [offerTo, insertBehind_eq_take_drop, Top3.offer]
  cases hfind : (List.finRange 3).find? (fun j => (Top3.ofWindow w).hits j < row.2) with
  | some j =>
    obtain ⟨hj, hbefore⟩ := find_finRange_eq_some hfind
    have htest := (Top3.hits_ofWindow_lt_iff hrow j).mp (of_decide_eq_true hj)
    have hearlier : ∀ i < j, ∃ h : (i : ℕ) < w.length, ¬ hitsKey row < hitsKey w[(i : ℕ)] := by
      intro i hij
      have hi := (Top3.hits_ofWindow_lt_iff hrow i).not.mp (of_decide_eq_false (hbefore i hij))
      exact not_forall.mp hi
    have hjle : (j : ℕ) ≤ w.length := by
      rcases Nat.eq_zero_or_pos j with hzero | hpos
      · rw [hzero]
        exact Nat.zero_le _
      · obtain ⟨hlt, _⟩ := hearlier ⟨j - 1, by omega⟩ (Fin.lt_def.mpr (Nat.sub_one_lt_of_lt hpos))
        simp only at hlt
        omega
    have hplace : w.findIdx (fun y => hitsKey row < hitsKey y) = j := by
      rcases hjle.lt_or_eq with hlt | heq
      · rw [List.findIdx_eq hlt]
        refine ⟨decide_eq_true (htest hlt), fun i hi => ?_⟩
        obtain ⟨_, hnot⟩ := hearlier ⟨i, hi.trans j.isLt⟩ hi
        exact decide_eq_false hnot
      · rw [heq, List.findIdx_eq_length]
        intro y hy
        obtain ⟨i, hi, rfl⟩ := List.getElem_of_mem hy
        obtain ⟨_, hnot⟩ := hearlier ⟨i, by omega⟩ (Fin.lt_def.mpr (heq ▸ hi))
        exact decide_eq_false hnot
    rw [hplace]
    exact Top3.insertAt_ofWindow w row j hjle
  | none =>
    -- every place is taken by a row that is not smaller
    have hall : ∀ j : Fin 3, ∃ h : (j : ℕ) < w.length, ¬ hitsKey row < hitsKey w[(j : ℕ)] := by
      intro j
      have hj := List.find?_eq_none.mp hfind j (List.mem_finRange j)
      exact not_forall.mp ((Top3.hits_ofWindow_lt_iff hrow j).not.mp (by simpa using hj))
    have hlen : w.length = 3 := by
      obtain ⟨h, _⟩ := hall ⟨2, by decide⟩
      simp only at h
      omega
    have hplace : w.findIdx (fun y => hitsKey row < hitsKey y) = w.length := by
      rw [List.findIdx_eq_length]
      intro y hy
      obtain ⟨i, hi, rfl⟩ := List.getElem_of_mem hy
      obtain ⟨_, hnot⟩ := hall ⟨i, hlen ▸ hi⟩
      exact decide_eq_false hnot
    rw [hplace, List.take_length, List.take_append_of_le_length hlen.ge,
      List.take_of_length_le hlen.le]

theorem computeTop3_eq_ofWindow {rows : List (List Char × ℕ)} (hpos : ∀ row ∈ rows, 0 < row.2) :
    computeTop3 rows = Top3.ofWindow (rows.foldl (offerTo hitsKey 3) []) := by
  have hrun : ∀ w : List (List Char × ℕ), w.length ≤ 3 →
      rows.foldl Top3.offer (Top3.ofWindow w) =
      Top3.ofWindow (rows.foldl (offerTo hitsKey 3) w) := by
    induction rows with
    | nil => exact fun w _ => rfl
    | cons row rows ih =>
      intro w hw
      rw [List.foldl_cons, List.foldl_cons, Top3.offer_ofWindow hw (hpos row List.mem_cons_self)]
      apply ih (fun r hr => hpos r (List.mem_cons_of_mem _ hr))
      exact (List.length_take_le ..)
  exact hrun [] (Nat.zero_le 3)

/-! ### The result of `compute_top3` -/

/-- Row `i` of the table is ranked before row `j`: more hits, or as many and earlier. -/
def Outranks (table : List SourceRow) (i j : Fin table.length) : Prop :=
  (table.get j).hits < (table.get i).hits ∨ (table.get i).hits = (table.get j).hits ∧ i < j

/-- `best` are the rows of the first three ranks. -/
structure TopRanks (table : List SourceRow) (best : List (Fin table.length)) : Prop where
  length_eq : best.length = min 3 table.length
  ordered : best.Pairwise (Outranks table)
  first : ∀ b ∈ best, ∀ i, i ∉ best → Outranks table b i

theorem topRanks_iff {table : List SourceRow} {best : List (Fin table.length)} :
    TopRanks table best ↔ FirstRanks (hitsKey ∘ SourceRow.toPair) table 3 best :=
  ⟨fun h => ⟨h.length_eq, h.ordered, h.first⟩, fun h => ⟨h.length_eq, h.ordered, h.first⟩⟩

theorem view_computeTop3_ranks {table : List SourceRow} (hpos : ∀ row ∈ table, 0 < row.hits) :
    ∃ best, TopRanks table best ∧
      (TopRows.computeTop3 table TopRows.zeroed).view =
        Top3.ofWindow (best.map (fun b => (table.get b).toPair)) := by
  obtain ⟨best, hranks, hwindow⟩ :=
    foldl_offerTo_ranks (hitsKey ∘ SourceRow.toPair) 3 table
  refine ⟨best, topRanks_iff.mpr hranks, ?_⟩
  have hrows : ∀ row ∈ table.map SourceRow.toPair, 0 < row.2 := by
    intro row hrow
    obtain ⟨r, hr, rfl⟩ := List.mem_map.mp hrow
    exact hpos r hr
  have hmap := foldl_offerTo_map hitsKey SourceRow.toPair 3 table []
  rw [List.map_nil, hwindow, List.map_map] at hmap
  rw [TopRows.view_computeTop3 table TopRows.terminated_zeroed, computeTop3_eq_ofWindow hrows, hmap]
  rfl

theorem Top3.ofWindow_of_lt {w : List (List Char × ℕ)} {r : Fin 3} (h : (r : ℕ) < w.length) :
    (Top3.ofWindow w).names r = w[(r : ℕ)].1 ∧ (Top3.ofWindow w).hits r = w[(r : ℕ)].2 := by
  simp [Top3.ofWindow, h]

theorem Top3.ofWindow_of_le {w : List (List Char × ℕ)} {r : Fin 3} (h : w.length ≤ r) :
    (Top3.ofWindow w).names r = [] ∧ (Top3.ofWindow w).hits r = 0 := by
  simp [Top3.ofWindow, h]

/-- The buffers of the result show the rows of the first three ranks, each with its own hits,
and zeros with empty names behind them. -/
theorem computeTop3_writes_ranks (table : List SourceRow)
    (hnames : (table.map SourceRow.name).Nodup)
    (hne : ∀ row ∈ table, row.name ≠ []) (hpos : ∀ row ∈ table, 0 < row.hits) :
    let result := TopRows.computeTop3 table TopRows.zeroed
    ∃ best, TopRanks table best ∧
      (∀ r, ∀ h : r < best.length,
        result.hits r = (table.get best[r]).hits ∧
        cellText (result.names r) = (table.get best[r]).name) ∧
      (∀ r < 3, best.length ≤ r → result.hits r = 0 ∧ cellText (result.names r) = []) ∧
      (∀ r < 3, ∀ r' < 3, r ≤ r' → result.hits r' ≤ result.hits r) ∧
      ∀ r < best.length, cellText (result.names r) ≠ [] ∧
        ∀ r' < 3, cellText (result.names r) = cellText (result.names r') → r = r' := by
  intro result
  obtain ⟨best, hbest, hview⟩ := view_computeTop3_ranks hpos
  have hthree : best.length ≤ 3 := hbest.length_eq ▸ min_le_left _ _
  have hlen : (best.map (fun b => (table.get b).toPair)).length = best.length := List.length_map _
  have hhits : ∀ r : Fin 3, result.hits r = result.view.hits r := fun _ => rfl
  have hname : ∀ r : Fin 3, cellText (result.names r) = result.view.names r := fun _ => rfl
  have hrow : ∀ r, ∀ h : r < best.length, result.hits r = (table.get best[r]).hits ∧
      cellText (result.names r) = (table.get best[r]).name := by
    intro r h
    obtain ⟨hn, hh⟩ := Top3.ofWindow_of_lt (r := ⟨r, h.trans_le hthree⟩) (hlen.symm ▸ h)
    rw [hhits ⟨r, h.trans_le hthree⟩, hname ⟨r, h.trans_le hthree⟩, hview, hh, hn, List.getElem_map]
    exact ⟨rfl, rfl⟩
  have hpad : ∀ r < 3, best.length ≤ r → result.hits r = 0 ∧ cellText (result.names r) = [] := by
    intro r hr h
    obtain ⟨hn, hh⟩ := Top3.ofWindow_of_le (r := ⟨r, hr⟩) (hlen.symm ▸ h)
    rw [hhits ⟨r, hr⟩, hname ⟨r, hr⟩, hview]
    exact ⟨hh, hn⟩
  refine ⟨best, hbest, hrow, hpad, ?_, ?_⟩
  · intro r hr r' hr' hle
    by_cases h' : r' < best.length
    · rw [(hrow r' h').1, (hrow r (hle.trans_lt h')).1]
      rcases hle.lt_or_eq with hlt | rfl
      · rcases List.pairwise_iff_getElem.mp hbest.ordered r r' (hle.trans_lt h') h' hlt with h |
          ⟨h, _⟩
        · exact h.le
        · exact h.ge
      · exact le_rfl
    · rw [(hpad r' hr' (not_lt.mp h')).1]
      exact Nat.zero_le _
  · intro r hr
    have hrne : cellText (result.names r) ≠ [] := by
      rw [(hrow r hr).2]
      exact hne _ (List.get_mem table _)
    refine ⟨hrne, fun r' hr' heq => ?_⟩
    have hr'len : r' < best.length := by
      by_contra h
      exact hrne (heq.trans (hpad r' hr' (not_lt.mp h)).2)
    rw [(hrow r hr).2, (hrow r' hr'len).2] at heq
    have hposition : best[r] = best[r'] := by
      have hsame := List.inj_on_of_nodup_map hnames (List.get_mem table _)
          (List.get_mem table _) heq
      exact List.nodup_iff_injective_get.mp (List.Nodup.of_map _ hnames) hsame
    exact (List.Nodup.getElem_inj_iff (topRanks_iff.mp hbest).nodup).mp hposition

def fourSources : List SourceRow :=
  [⟨['a', 'p', 'p'], 2, by decide, by decide⟩, ⟨['d', 'b'], 5, by decide, by decide⟩,
    ⟨['n', 'e', 't'], 2, by decide, by decide⟩, ⟨['x'], 1, by decide, by decide⟩]

theorem fourSources_top :
    let result := TopRows.computeTop3 fourSources TopRows.zeroed
    ∃ best, TopRanks fourSources best ∧
      (∀ r, ∀ h : r < best.length,
        result.hits r = (fourSources.get best[r]).hits ∧
        cellText (result.names r) = (fourSources.get best[r]).name) ∧
      (∀ r < 3, best.length ≤ r → result.hits r = 0 ∧ cellText (result.names r) = []) ∧
      (∀ r < 3, ∀ r' < 3, r ≤ r' → result.hits r' ≤ result.hits r) ∧
      ∀ r < best.length, cellText (result.names r) ≠ [] ∧
        ∀ r' < 3, cellText (result.names r) = cellText (result.names r') → r = r' :=
  computeTop3_writes_ranks fourSources (by decide) (by decide) (by decide)

end SysProg.HW4

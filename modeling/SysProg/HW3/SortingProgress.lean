import Mathlib.Data.Finset.Card
import SysProg.HW3.ExactlyOnce

/-!
# Every pass of the sorter makes progress

In an arrangement of delivered characters the position of a character that is
not yet fixed cannot be fixed by another one. A pass therefore fixes the first
character it finds out of place, whatever it moves afterwards, and a word whose
characters have all been delivered is complete after as many passes as it has
characters.
-/

namespace SysProg.HW3
open SysProg.Lib SharedWord
variable {F : ℕ} {w : SharedWord F}

namespace SharedWord

def occupiedSlots (w : SharedWord F) : Finset ℕ :=
  (Finset.range w.length).filter fun i => w.occupied i = true

def fixedSlots (w : SharedWord F) : Finset ℕ :=
  (Finset.range w.length).filter fun i => w.fixed i = true

def deliveredChars (w : SharedWord F) : Finset ℕ :=
  (Finset.range w.length).filter fun ci => w.charDelivered ci = true

def Loose (w : SharedWord F) (i : ℕ) : Prop := w.occupied i = true ∧ w.fixed i = false

instance (w : SharedWord F) (i : ℕ) : Decidable (w.Loose i) := by
  unfold Loose
  infer_instance

def passPrefix (w : SharedWord F) (k : ℕ) : SharedWord F :=
  ((List.range k).foldl sortSlot (w, false)).1

def afterPasses (w : SharedWord F) (n : ℕ) : SharedWord F := (fun v => v.sortPass.1)^[n] w

def tryCompleteResult (w : SharedWord F) : Bool := w.allFixed && !w.completed

end SharedWord

/-! ### Slots and characters -/

theorem card_occupiedSlots (h : Arranged w) : w.occupiedSlots.card = w.deliveredChars.card := by
  refine Finset.card_nbij (fun i => (w.sortingMeta i).toNat) ?_ ?_ ?_
  · intro i hi
    obtain ⟨hlt, hocc⟩ := Finset.mem_filter.mp hi
    obtain ⟨m, hm, hmeta, hdel, -⟩ := h.holds i (Finset.mem_range.mp hlt) hocc
    simp only [deliveredChars, hmeta, Int.toNat_natCast]
    exact Finset.mem_filter.mpr ⟨Finset.mem_range.mpr hm, hdel⟩
  · intro i hi j hj hij
    obtain ⟨hi, hoi⟩ := Finset.mem_filter.mp (Finset.mem_coe.mp hi)
    obtain ⟨hj, hoj⟩ := Finset.mem_filter.mp (Finset.mem_coe.mp hj)
    obtain ⟨m, -, hm, -, -⟩ := h.holds i (Finset.mem_range.mp hi) hoi
    obtain ⟨m', -, hm', -, -⟩ := h.holds j (Finset.mem_range.mp hj) hoj
    simp only [hm, hm', Int.toNat_natCast] at hij
    exact h.injective i (Finset.mem_range.mp hi) j (Finset.mem_range.mp hj) hoi hoj
      (by rw [hm, hm', hij])
  · intro m hm
    obtain ⟨hlt, hdel⟩ := Finset.mem_filter.mp (Finset.mem_coe.mp hm)
    obtain ⟨i, hi, hocc, hmeta⟩ := h.image m (Finset.mem_range.mp hlt) hdel
    refine ⟨i, Finset.mem_coe.mpr (Finset.mem_filter.mpr ⟨Finset.mem_range.mpr hi, hocc⟩), ?_⟩
    simp only [hmeta, Int.toNat_natCast]

/-- A character out of place has its position in range and free of a fixed one. -/
theorem target_of_loose (h : Arranged w) {i : ℕ} (hi : i < w.length) (hloose : w.Loose i) :
    ∃ m < w.length, w.sortingMeta i = m ∧ w.fixed m = false := by
  obtain ⟨m, hm, hmeta, -, -⟩ := h.holds i hi hloose.1
  refine ⟨m, hm, hmeta, ?_⟩
  by_contra hfixed
  obtain ⟨hocc, hself⟩ := h.fixed m hm (by simpa using hfixed)
  obtain rfl := h.injective i hi m hm hloose.1 hocc (hmeta.trans hself.symm)
  exact hfixed hloose.2

/-! ### One slot of a pass -/

theorem sortSlot_of_not_loose {p : SharedWord F × Bool} {i : ℕ} (h : ¬ p.1.Loose i) :
    sortSlot p i = p := by
  have hskip : p.1.occupied i = false ∨ p.1.fixed i = true := by
    by_contra hboth
    push Not at hboth
    exact h ⟨by simpa using hboth.1, by simpa using hboth.2⟩
  simp only [sortSlot, if_pos hskip]

structure SlotKept (w w' : SharedWord F) (j : ℕ) : Prop where
  fixed : w'.fixed j = w.fixed j
  occupied : w'.occupied j = w.occupied j
  index : w'.sortingMeta j = w.sortingMeta j
  char : w'.sortingArea j = w.sortingArea j

theorem SlotKept.refl (w : SharedWord F) (j : ℕ) : SlotKept w w j := ⟨rfl, rfl, rfl, rfl⟩

theorem SlotKept.trans {w w' w'' : SharedWord F} {j : ℕ} (h : SlotKept w w' j)
    (h' : SlotKept w' w'' j) : SlotKept w w'' j :=
  ⟨h'.fixed.trans h.fixed, h'.occupied.trans h.occupied, h'.index.trans h.index,
    h'.char.trans h.char⟩

theorem slotKept_sortSlot (p : SharedWord F × Bool) (i : ℕ) {j : ℕ} (hj : p.1.fixed j = true) :
    SlotKept p.1 (sortSlot p i).1 j := by
  by_cases hloose : p.1.Loose i
  · have hji : j ≠ i := by
      rintro rfl
      rw [hloose.2] at hj
      cases hj
    have hoi : ¬ (p.1.occupied i = false ∨ p.1.fixed i = true) := by
      rw [hloose.1, hloose.2]
      simp
    simp only [sortSlot, if_neg hoi]
    split_ifs with hself hmove hempty
    · exact ⟨by simp [hji], rfl, rfl, rfl⟩
    · have hjt : j ≠ (p.1.sortingMeta i).toNat := by
        rintro rfl
        rw [hmove.2.2] at hj
        cases hj
      refine ⟨?_, by simp [moveSlot, hji, hjt], by simp [moveSlot, hji, hjt],
        by simp [moveSlot, hji, hjt]⟩
      simp only [moveSlot]
      split_ifs
      · rw [Function.update_of_ne hjt]
      · rfl
    · have hjt : j ≠ (p.1.sortingMeta i).toNat := by
        rintro rfl
        rw [hmove.2.2] at hj
        cases hj
      refine ⟨?_, rfl, by simp [swapSlot, hji, hjt], by simp [swapSlot, hji, hjt]⟩
      simp only [swapSlot]
      split_ifs <;> simp [hji, hjt]
    · exact .refl _ j
  · rw [sortSlot_of_not_loose hloose]
    exact .refl _ j

theorem sortSlot_fixes {p : SharedWord F × Bool} (h : Arranged p.1) {i : ℕ}
    (hi : i < p.1.length) (hloose : p.1.Loose i) :
    ∃ m < p.1.length, p.1.fixed m = false ∧ (sortSlot p i).1.fixed m = true := by
  obtain ⟨m, hm, hmeta, hfree⟩ := target_of_loose h hi hloose
  refine ⟨m, hm, hfree, ?_⟩
  have hoi : ¬ (p.1.occupied i = false ∨ p.1.fixed i = true) := by
    rw [hloose.1, hloose.2]
    simp
  have hmove : 0 ≤ p.1.sortingMeta i ∧ p.1.sortingMeta i < p.1.length ∧
      p.1.fixed (p.1.sortingMeta i).toNat = false := by
    rw [hmeta, Int.toNat_natCast]
    exact ⟨by omega, by omega, hfree⟩
  simp only [sortSlot, if_neg hoi, if_pos hmove]
  split_ifs with hself hempty
  · obtain rfl : m = i := by exact_mod_cast hmeta.symm.trans hself
    simp
  · simp [moveSlot, hmeta]
  · simp only [swapSlot, hmeta, Int.toNat_natCast, if_true]
    split_ifs
    · by_cases hmi : m = i
      · simp [hmi]
      · simp [hmi]
    · simp

/-! ### A pass -/

theorem slotKept_foldl (slots : List ℕ) (p : SharedWord F × Bool) {j : ℕ}
    (hj : p.1.fixed j = true) : SlotKept p.1 (slots.foldl sortSlot p).1 j := by
  induction slots generalizing p with
  | nil => exact .refl _ j
  | cons i slots ih =>
    have hfirst := slotKept_sortSlot p i hj
    exact hfirst.trans (ih _ (hfirst.fixed.trans hj))

theorem length_of_sorted {w w' : SharedWord F} (h : Sorted w w') : w'.length = w.length := by
  rw [h.same]
  rfl

theorem fixedSlots_subset {w w' : SharedWord F} (h : Sorted w w') :
    w.fixedSlots ⊆ w'.fixedSlots := by
  intro i hi
  obtain ⟨hlt, hfix⟩ := Finset.mem_filter.mp hi
  refine Finset.mem_filter.mpr ⟨?_, h.fixed i hfix⟩
  rwa [length_of_sorted h]

/-- The first slot that a pass acts on adds a fixed one. -/
theorem fixedSlots_foldl {slots : List ℕ} {p : SharedWord F × Bool} (h : Arranged p.1)
    (hslots : ∀ i ∈ slots, i < p.1.length) (hloose : ∃ i ∈ slots, p.1.Loose i) :
    p.1.fixedSlots.card < (slots.foldl sortSlot p).1.fixedSlots.card := by
  induction slots generalizing p with
  | nil =>
    obtain ⟨i, hi, -⟩ := hloose
    cases hi
  | cons i slots ih =>
    have hi := hslots i List.mem_cons_self
    have hrest : ∀ j ∈ slots, j < p.1.length := fun j hj => hslots j (List.mem_cons_of_mem i hj)
    rw [List.foldl_cons]
    by_cases hfirst : p.1.Loose i
    · have hsorted := sorted_sortSlot h hi
      have hlen := length_of_sorted hsorted
      have hafter := sorted_foldl hsorted.arranged (fun j hj => hlen.symm ▸ hrest j hj)
      obtain ⟨m, hm, hfree, hfixed⟩ := sortSlot_fixes h hi hfirst
      have hnew : m ∈ (sortSlot p i).1.fixedSlots :=
        Finset.mem_filter.mpr ⟨Finset.mem_range.mpr (hlen.symm ▸ hm), hfixed⟩
      have hold : m ∉ p.1.fixedSlots := by
        intro hmem
        rw [(Finset.mem_filter.mp hmem).2] at hfree
        cases hfree
      have hgrow : p.1.fixedSlots ⊂ (sortSlot p i).1.fixedSlots :=
        (Finset.ssubset_iff_of_subset (fixedSlots_subset hsorted)).mpr ⟨m, hnew, hold⟩
      exact lt_of_lt_of_le (Finset.card_lt_card hgrow)
        (Finset.card_le_card (fixedSlots_subset hafter))
    · rw [sortSlot_of_not_loose hfirst]
      refine ih h hrest ?_
      obtain ⟨j, hj, hjl⟩ := hloose
      rcases List.mem_cons.mp hj with rfl | hj
      · exact absurd hjl hfirst
      · exact ⟨j, hj, hjl⟩

theorem fixedSlots_sortPass (h : Arranged w) (hloose : ∃ i < w.length, w.Loose i) :
    w.fixedSlots.card < w.sortPass.1.fixedSlots.card := by
  obtain ⟨i, hi, hloose⟩ := hloose
  exact fixedSlots_foldl (p := (w, false)) h (fun j hj => List.mem_range.mp hj)
    ⟨i, List.mem_range.mpr hi, hloose⟩

theorem sorted_passPrefix (h : Arranged w) {k : ℕ} (hk : k ≤ w.length) :
    Sorted w (w.passPrefix k) := by
  refine sorted_foldl (p := (w, false)) h fun i hi => ?_
  exact lt_of_lt_of_le (List.mem_range.mp hi) hk

theorem slotKept_passPrefix (w : SharedWord F) {j k i : ℕ} (hjk : j ≤ k)
    (hi : (w.passPrefix j).fixed i = true) : SlotKept (w.passPrefix j) (w.passPrefix k) i := by
  obtain ⟨d, rfl⟩ := Nat.exists_eq_add_of_le hjk
  have hsplit : w.passPrefix (j + d) = (((List.range d).map (j + ·)).foldl sortSlot
      ((List.range j).foldl sortSlot (w, false))).1 := by
    rw [passPrefix, List.range_add, List.foldl_append]
  rw [hsplit]
  exact slotKept_foldl _ _ hi

/-! ### All passes -/

theorem sorted_afterPasses (h : Arranged w) (n : ℕ) : Sorted w (w.afterPasses n) := by
  induction n with
  | zero => exact ⟨h, fun _ => id, rfl⟩
  | succ n ih =>
    rw [afterPasses, Function.iterate_succ_apply']
    exact ih.trans (sorted_sortPass ih.arranged)

theorem allFixed_iff : w.allFixed = true ↔ w.fixedSlots.card = w.length := by
  have hcard : w.fixedSlots.card = w.length ↔ w.fixedSlots = Finset.range w.length := by
    constructor
    · intro h
      refine Finset.eq_of_subset_of_card_le (Finset.filter_subset _ _) ?_
      rw [Finset.card_range, h]
    · intro h
      rw [h, Finset.card_range]
  rw [hcard, fixedSlots, Finset.filter_eq_self, allFixed, List.all_eq_true]
  simp only [List.mem_range, Finset.mem_range]

theorem occupied_of_delivered (h : Arranged w) (hall : ∀ ci < w.length, w.charDelivered ci = true)
    {i : ℕ} (hi : i < w.length) : w.occupied i = true := by
  have hdelivered : w.deliveredChars = Finset.range w.length :=
    Finset.filter_true_of_mem fun ci hci => hall ci (Finset.mem_range.mp hci)
  have hfull : w.occupiedSlots = Finset.range w.length := by
    refine Finset.eq_of_subset_of_card_le (Finset.filter_subset _ _) ?_
    rw [card_occupiedSlots h, hdelivered]
  have hmem : i ∈ w.occupiedSlots := by
    rw [hfull]
    exact Finset.mem_range.mpr hi
  exact (Finset.mem_filter.mp hmem).2

theorem fixedSlots_afterPasses (h : Arranged w)
    (hall : ∀ ci < w.length, w.charDelivered ci = true) (n : ℕ) :
    min n w.length ≤ (w.afterPasses n).fixedSlots.card := by
  induction n with
  | zero => simp
  | succ n ih =>
    have hsorted := sorted_afterPasses h n
    have hlen := length_of_sorted hsorted
    have hstep : w.afterPasses (n + 1) = (w.afterPasses n).sortPass.1 :=
      Function.iterate_succ_apply' _ _ _
    have hafter := sorted_sortPass hsorted.arranged
    rw [hstep]
    by_cases hdone : (w.afterPasses n).allFixed = true
    · have hcard := allFixed_iff.mp hdone
      have hmono := Finset.card_le_card (fixedSlots_subset hafter)
      omega
    · obtain ⟨i, hi, hfree⟩ :
          ∃ i < (w.afterPasses n).length, (w.afterPasses n).fixed i = false := by
        rw [allFixed, List.all_eq_true] at hdone
        push Not at hdone
        obtain ⟨i, hi, hfree⟩ := hdone
        exact ⟨i, List.mem_range.mp hi, by simpa using hfree⟩
      have hocc : (w.afterPasses n).occupied i = true := by
        refine occupied_of_delivered hsorted.arranged ?_ hi
        intro ci hci
        rw [hsorted.same]
        exact hall ci (hlen ▸ hci)
      have hgrow := fixedSlots_sortPass hsorted.arranged ⟨i, hi, hocc, hfree⟩
      omega

structure SorterProgress (w : SharedWord F) : Prop where
  kept : ∀ j k, j ≤ k → k ≤ w.length → ∀ i, (w.passPrefix j).fixed i = true →
    SlotKept (w.passPrefix j) (w.passPrefix k) i
  target : ∀ k ≤ w.length, ∀ i < w.length, (w.passPrefix k).Loose i →
    ∃ m < w.length, (w.passPrefix k).sortingMeta i = m ∧ (w.passPrefix k).fixed m = false
  grows : (∃ i < w.length, w.Loose i) → w.fixedSlots.card < w.sortPass.1.fixedSlots.card
  finishes : (∀ ci < w.length, w.charDelivered ci = true) →
    (w.afterPasses w.length).allFixed = true ∧
    (0 < w.length → w.completed = false → ∃ n, 1 ≤ n ∧ n ≤ w.length ∧
      (w.afterPasses n).tryCompleteResult = true ∧
      ∀ m, 1 ≤ m → m < n → (w.afterPasses m).tryCompleteResult = false)

theorem sorterProgress_of_arranged (h : Arranged w) : SorterProgress w where
  kept := fun j k hjk _ i hi => slotKept_passPrefix w hjk hi
  target := by
    intro k hk i hi hloose
    have hsorted := sorted_passPrefix h hk
    have hlen := length_of_sorted hsorted
    obtain ⟨m, hm, hmeta, hfree⟩ := target_of_loose hsorted.arranged (hlen.symm ▸ hi) hloose
    exact ⟨m, hlen ▸ hm, hmeta, hfree⟩
  grows := fixedSlots_sortPass h
  finishes := by
    intro hall
    have hsorted := sorted_afterPasses h w.length
    have hlen := length_of_sorted hsorted
    have hdone : (w.afterPasses w.length).allFixed = true := by
      have hcount := fixedSlots_afterPasses h hall w.length
      have hbound : (w.afterPasses w.length).fixedSlots.card ≤ (w.afterPasses w.length).length := by
        have hsub := Finset.card_le_card (Finset.filter_subset
          (fun i => (w.afterPasses w.length).fixed i = true)
          (Finset.range (w.afterPasses w.length).length))
        rwa [Finset.card_range] at hsub
      rw [allFixed_iff]
      omega
    refine ⟨hdone, fun hpos hopen => ?_⟩
    have hcompleted : (w.afterPasses w.length).completed = false := by
      rw [hsorted.same]
      exact hopen
    have hlast : 1 ≤ w.length ∧ (w.afterPasses w.length).tryCompleteResult = true := by
      rw [tryCompleteResult, hdone, hcompleted]
      exact ⟨hpos, rfl⟩
    have hsome : ∃ n, 1 ≤ n ∧ (w.afterPasses n).tryCompleteResult = true := ⟨w.length, hlast⟩
    obtain ⟨hone, hdone'⟩ := Nat.find_spec hsome
    refine ⟨Nat.find hsome, hone, Nat.find_min' hsome hlast, hdone', ?_⟩
    intro m hm hlt
    simpa [hm] using Nat.find_min hsome hlt

/-- The passes make progress on every arrangement of delivered characters, and
the words of every reachable state are such arrangements. -/
theorem sorterProgress_reachable :
    (∀ (F : ℕ) (w : SharedWord F), Arranged w → SorterProgress w) ∧
    ∀ (cfg : Config) (s : State cfg), (building cfg).Reachable s →
      ∀ wi, Arranged (s.words wi) ∧ SorterProgress (s.words wi) := by
  refine ⟨fun F w h => sorterProgress_of_arranged h, fun cfg s h wi => ?_⟩
  have harr := ((transportInvariant_reachable h).word wi).arranged
  exact ⟨harr, sorterProgress_of_arranged harr⟩

/-! ### Both letters of a word in the wrong slots -/

def swappedRun : List (Action oneWord) :=
  List.replicate 7 .parent ++ List.replicate 4 (.wordCarrier (firstWordCarrier oneWord)) ++
    List.replicate 4 (.letterCarrier firstSlot (fun _ => 1)) ++
    List.replicate 4 (.letterCarrier firstSlot (fun _ => 0))

theorem swappedRun_isSome :
    ((building oneWord).run (building oneWord).init swappedRun).isSome := by decide

theorem sorterProgress_swappedRun :
    ∃ s, (building oneWord).Reachable s ∧
      (s.words (oneWord.wordAt 0)).sortingMeta 0 = 1 ∧
      (s.words (oneWord.wordAt 0)).fixedSlots.card <
        (s.words (oneWord.wordAt 0)).sortPass.1.fixedSlots.card := by
  have hreach := (Machine.execution_of_isSome swappedRun_isSome).reachable
  have hmeta : ((((building oneWord).run (building oneWord).init swappedRun).get
      swappedRun_isSome).words (oneWord.wordAt 0)).sortingMeta 0 = 1 := by decide
  have hloose : ∃ i < ((((building oneWord).run (building oneWord).init swappedRun).get
      swappedRun_isSome).words (oneWord.wordAt 0)).length,
      ((((building oneWord).run (building oneWord).init swappedRun).get
        swappedRun_isSome).words (oneWord.wordAt 0)).Loose i := ⟨0, by decide⟩
  have hgrows := (sorterProgress_reachable.2 _ _ hreach (oneWord.wordAt 0)).2.grows
  exact ⟨_, hreach, hmeta, hgrows hloose⟩

end SysProg.HW3

import Mathlib.Logic.Equiv.Basic
import Mathlib.Data.List.Basic
import Mathlib.Tactic.SplitIfs

/-!
# The shared record of one word

All operations on a word run under its mutex: letter carriers claim characters,
carriers and the delivery elevator place them into the sorting area, and sorters
move them to their positions. The arrays are functions on indices of which only
those below the length of the word are used. `placements` counts how often a
character has been placed.
-/

namespace SysProg.HW3

structure SharedWord (F : ℕ) where
  text : List Char
  sortingFloor : Fin F
  arrivalFloor : Fin F
  claimed : Bool
  admitted : Bool
  completed : Bool
  activeReservation : Bool
  sortingArea : ℕ → Char
  sortingMeta : ℕ → ℤ
  occupied : ℕ → Bool
  fixed : ℕ → Bool
  charClaimed : ℕ → Bool
  charDelivered : ℕ → Bool
  charInTransit : ℕ → Bool
  charArrived : ℕ → Bool
  placements : ℕ → ℕ

variable {F : ℕ}

namespace SharedWord

def length (w : SharedWord F) : ℕ := w.text.length

def charAt (w : SharedWord F) (ci : ℕ) : Char := w.text.getD ci '\x00'

/-- The record that `load_input` prepares. -/
def load (text : List Char) (sortingFloor groundFloor : Fin F) : SharedWord F where
  text := text
  sortingFloor := sortingFloor
  arrivalFloor := groundFloor
  claimed := false
  admitted := false
  completed := false
  activeReservation := false
  sortingArea := fun _ => '\x00'
  sortingMeta := fun i => if i < text.length then -1 else 0
  occupied := fun _ => false
  fixed := fun _ => false
  charClaimed := fun _ => false
  charDelivered := fun _ => false
  charInTransit := fun _ => false
  charArrived := fun _ => false
  placements := fun _ => 0

def unclaimedChar (w : SharedWord F) (ci : ℕ) : Bool :=
  !w.charClaimed ci && !w.charDelivered ci && !w.charInTransit ci

/-- The claim loop: in round `j` the index is shifted by a random draw. -/
def findChar (w : SharedWord F) (rand : ℕ → ℕ) : Option ℕ :=
  ((List.range w.length).map (fun j => (j + rand j % w.length) % w.length)).find? w.unclaimedChar

def claimChar (w : SharedWord F) (ci : ℕ) : SharedWord F :=
  { w with
    charClaimed := Function.update w.charClaimed ci true
    charInTransit := Function.update w.charInTransit ci true }

def freeSlot (w : SharedWord F) : Option ℕ :=
  (List.range w.length).find? (fun i => !w.fixed i && !w.occupied i)

def placeCharInSortingArea (w : SharedWord F) (ci : ℕ) : Option (SharedWord F) :=
  w.freeSlot.map (fun i =>
    { w with
      sortingArea := Function.update w.sortingArea i (w.charAt ci)
      sortingMeta := Function.update w.sortingMeta i ci
      occupied := Function.update w.occupied i true
      charArrived := Function.update w.charArrived ci true
      placements := Function.update w.placements ci (w.placements ci + 1) })

def deliverChar (w : SharedWord F) (ci : ℕ) : SharedWord F :=
  match w.placeCharInSortingArea ci with
  | some w' => { w' with
      charDelivered := Function.update w.charDelivered ci true
      charInTransit := Function.update w.charInTransit ci false }
  | none => { w with
      charClaimed := Function.update w.charClaimed ci false
      charInTransit := Function.update w.charInTransit ci false }

/-- Case 4a of the sorting rules: the target is empty. -/
def moveSlot (w : SharedWord F) (i tgt : ℕ) : SharedWord F :=
  { w with
    sortingArea := Function.update (Function.update w.sortingArea tgt (w.sortingArea i)) i '\x00'
    sortingMeta := Function.update (Function.update w.sortingMeta tgt (w.sortingMeta i)) i (-1)
    occupied := Function.update (Function.update w.occupied tgt true) i false
    fixed := if w.sortingMeta i = tgt then Function.update w.fixed tgt true else w.fixed }

/-- Case 4b: the target is occupied and not fixed. -/
def swapSlot (w : SharedWord F) (i tgt : ℕ) : SharedWord F :=
  { w with
    sortingArea := Function.update (Function.update w.sortingArea tgt (w.sortingArea i)) i
      (w.sortingArea tgt)
    sortingMeta := Function.update (Function.update w.sortingMeta tgt (w.sortingMeta i)) i
      (w.sortingMeta tgt)
    fixed :=
      let fixedTgt := if w.sortingMeta i = tgt then Function.update w.fixed tgt true else w.fixed
      if w.sortingMeta tgt = i then Function.update fixedTgt i true else fixedTgt }

/-- The body of the sorter's loop over the slots: the word and `progress`. -/
def sortSlot (p : SharedWord F × Bool) (i : ℕ) : SharedWord F × Bool :=
  let w := p.1
  if w.occupied i = false ∨ w.fixed i = true then p
  else
    let tgt := w.sortingMeta i
    if tgt = i then ({ w with fixed := Function.update w.fixed i true }, true)
    else if 0 ≤ tgt ∧ tgt < w.length ∧ w.fixed tgt.toNat = false then
      if w.occupied tgt.toNat = false then (w.moveSlot i tgt.toNat, true)
      else (w.swapSlot i tgt.toNat, true)
    else p

def sortPass (w : SharedWord F) : SharedWord F × Bool :=
  (List.range w.length).foldl sortSlot (w, false)

def allFixed (w : SharedWord F) : Bool := (List.range w.length).all w.fixed

end SharedWord
open SharedWord

/-! ### Claiming, delivering and sorting leave the admission fields alone -/

structure SameHeader (w w' : SharedWord F) : Prop where
  text : w'.text = w.text
  sortingFloor : w'.sortingFloor = w.sortingFloor
  arrivalFloor : w'.arrivalFloor = w.arrivalFloor
  claimed : w'.claimed = w.claimed
  admitted : w'.admitted = w.admitted
  completed : w'.completed = w.completed
  activeReservation : w'.activeReservation = w.activeReservation

theorem SameHeader.refl (w : SharedWord F) : SameHeader w w := ⟨rfl, rfl, rfl, rfl, rfl, rfl, rfl⟩

theorem SameHeader.trans {w w' w'' : SharedWord F} (h : SameHeader w w') (h' : SameHeader w' w'') :
    SameHeader w w'' :=
  ⟨h'.text.trans h.text, h'.sortingFloor.trans h.sortingFloor,
    h'.arrivalFloor.trans h.arrivalFloor, h'.claimed.trans h.claimed,
    h'.admitted.trans h.admitted, h'.completed.trans h.completed,
    h'.activeReservation.trans h.activeReservation⟩

theorem sameHeader_claimChar (w : SharedWord F) (ci : ℕ) : SameHeader w (w.claimChar ci) :=
  ⟨rfl, rfl, rfl, rfl, rfl, rfl, rfl⟩

theorem sameHeader_deliverChar (w : SharedWord F) (ci : ℕ) : SameHeader w (w.deliverChar ci) := by
  cases h : w.freeSlot <;> simp only [deliverChar, placeCharInSortingArea, h] <;>
    exact ⟨rfl, rfl, rfl, rfl, rfl, rfl, rfl⟩

theorem sameHeader_sortSlot (p : SharedWord F × Bool) (i : ℕ) :
    SameHeader p.1 (sortSlot p i).1 := by
  simp only [sortSlot]
  split_ifs <;> exact ⟨rfl, rfl, rfl, rfl, rfl, rfl, rfl⟩

theorem sameHeader_sortPass (w : SharedWord F) : SameHeader w w.sortPass.1 := by
  have hfold : ∀ (slots : List ℕ) (p : SharedWord F × Bool),
      SameHeader p.1 (slots.foldl sortSlot p).1 := by
    intro slots
    induction slots with
    | nil => exact fun p => .refl p.1
    | cons i slots ih => exact fun p => (sameHeader_sortSlot p i).trans (ih _)
  exact hfold (List.range w.length) (w, false)

/-! ### The arrangement of delivered characters -/

/-- Occupied slots hold delivered characters, each in exactly one slot. -/
structure Arranged (w : SharedWord F) : Prop where
  holds : ∀ i < w.length, w.occupied i = true → ∃ m < w.length, w.sortingMeta i = m ∧
    w.charDelivered m = true ∧ w.sortingArea i = w.charAt m
  injective : ∀ i < w.length, ∀ j < w.length, w.occupied i = true → w.occupied j = true →
    w.sortingMeta i = w.sortingMeta j → i = j
  image : ∀ m < w.length, w.charDelivered m = true →
    ∃ i < w.length, w.occupied i = true ∧ w.sortingMeta i = m
  fixed : ∀ i < w.length, w.fixed i = true → w.occupied i = true ∧ w.sortingMeta i = i

inductive CharStatus (w : SharedWord F) (ci : ℕ) : Prop where
  | unclaimed : w.charClaimed ci = false → w.charInTransit ci = false →
      w.charDelivered ci = false → CharStatus w ci
  | inTransit : w.charClaimed ci = true → w.charInTransit ci = true →
      w.charDelivered ci = false → CharStatus w ci
  | delivered : w.charClaimed ci = true → w.charInTransit ci = false →
      w.charDelivered ci = true → CharStatus w ci

structure WordInvariant (w : SharedWord F) : Prop where
  status : ∀ ci, CharStatus w ci
  placed : ∀ ci, w.placements ci = if w.charDelivered ci then 1 else 0
  arranged : Arranged w
  completed : w.completed = true → ∀ i < w.length, w.fixed i = true

theorem wordInvariant_load (text : List Char) (sf ground : Fin F) :
    WordInvariant (SharedWord.load text sf ground) where
  status := fun _ => .unclaimed rfl rfl rfl
  placed := fun _ => rfl
  arranged := by constructor <;> simp [SharedWord.load]
  completed := by simp [SharedWord.load]

theorem WordInvariant.congr {w w' : SharedWord F} (h : WordInvariant w) (htext : w'.text = w.text)
    (harea : w'.sortingArea = w.sortingArea) (hmeta : w'.sortingMeta = w.sortingMeta)
    (hocc : w'.occupied = w.occupied) (hfix : w'.fixed = w.fixed)
    (hclaim : w'.charClaimed = w.charClaimed) (hdel : w'.charDelivered = w.charDelivered)
    (htransit : w'.charInTransit = w.charInTransit) (hplace : w'.placements = w.placements)
    (hcomp : w'.completed = true → ∀ i < w.length, w.fixed i = true) : WordInvariant w' := by
  obtain ⟨hstatus, hplaced, ⟨hholds, hinj, himage, hfixed⟩, -⟩ := h
  refine ⟨?_, ?_, ⟨?_, ?_, ?_, ?_⟩, ?_⟩
  · intro ci
    rcases hstatus ci with ⟨hc, ht, hd⟩ | ⟨hc, ht, hd⟩ | ⟨hc, ht, hd⟩
    · exact .unclaimed (hclaim ▸ hc) (htransit ▸ ht) (hdel ▸ hd)
    · exact .inTransit (hclaim ▸ hc) (htransit ▸ ht) (hdel ▸ hd)
    · exact .delivered (hclaim ▸ hc) (htransit ▸ ht) (hdel ▸ hd)
  · rw [hplace, hdel]
    exact hplaced
  · simpa only [SharedWord.length, SharedWord.charAt, htext, hocc, hmeta, hdel, harea] using hholds
  · simpa only [SharedWord.length, htext, hocc, hmeta] using hinj
  · simpa only [SharedWord.length, htext, hocc, hmeta, hdel] using himage
  · simpa only [SharedWord.length, htext, hocc, hmeta, hfix] using hfixed
  · simpa only [SharedWord.length, htext, hfix] using hcomp

theorem wordInvariant_claimChar {w : SharedWord F} (h : WordInvariant w) {ci : ℕ}
    (hfree : w.unclaimedChar ci = true) : WordInvariant (w.claimChar ci) := by
  obtain ⟨hstatus, hplaced, harr, hcomp⟩ := h
  simp only [unclaimedChar, Bool.and_eq_true, Bool.not_eq_true'] at hfree
  refine ⟨?_, hplaced, ⟨harr.holds, harr.injective, harr.image, harr.fixed⟩, hcomp⟩
  intro c
  by_cases hc : c = ci
  · subst hc
    exact .inTransit (by simp [claimChar]) (by simp [claimChar]) hfree.1.2
  · rcases hstatus c with ⟨h1, h2, h3⟩ | ⟨h1, h2, h3⟩ | ⟨h1, h2, h3⟩
    · exact .unclaimed (by simpa [claimChar, hc] using h1) (by simpa [claimChar, hc] using h2) h3
    · exact .inTransit (by simpa [claimChar, hc] using h1) (by simpa [claimChar, hc] using h2) h3
    · exact .delivered (by simpa [claimChar, hc] using h1) (by simpa [claimChar, hc] using h2) h3

theorem freeSlot_spec {w : SharedWord F} {i : ℕ} (h : w.freeSlot = some i) :
    i < w.length ∧ w.fixed i = false ∧ w.occupied i = false := by
  have hmem := List.mem_of_find?_eq_some h
  have hfree := List.find?_some h
  simp only [Bool.and_eq_true, Bool.not_eq_true'] at hfree
  exact ⟨List.mem_range.mp hmem, hfree⟩

theorem deliverChar_some {w : SharedWord F} {i : ℕ} (h : w.freeSlot = some i) (ci : ℕ) :
    w.deliverChar ci = { w with
      sortingArea := Function.update w.sortingArea i (w.charAt ci)
      sortingMeta := Function.update w.sortingMeta i ci
      occupied := Function.update w.occupied i true
      charArrived := Function.update w.charArrived ci true
      placements := Function.update w.placements ci (w.placements ci + 1)
      charDelivered := Function.update w.charDelivered ci true
      charInTransit := Function.update w.charInTransit ci false } := by
  simp only [deliverChar, placeCharInSortingArea, h, Option.map_some]

theorem deliverChar_none {w : SharedWord F} (h : w.freeSlot = none) (ci : ℕ) :
    w.deliverChar ci = { w with
      charClaimed := Function.update w.charClaimed ci false
      charInTransit := Function.update w.charInTransit ci false } := by
  simp only [deliverChar, placeCharInSortingArea, h, Option.map_none]

/-- A character that was not delivered before gets a slot that was empty. -/
theorem arranged_place {w : SharedWord F} (h : Arranged w) {i ci : ℕ}
    (hslot : w.freeSlot = some i) (hci : ci < w.length) (hnew : w.charDelivered ci = false) :
    Arranged (w.deliverChar ci) := by
  obtain ⟨hi, hfree, hempty⟩ := freeSlot_spec hslot
  rw [deliverChar_some hslot]
  have hother : ∀ j < w.length, w.occupied j = true → w.sortingMeta j ≠ ci := by
    intro j hj hocc hm
    obtain ⟨m, -, hmeta, hdel, -⟩ := h.holds j hj hocc
    obtain rfl : m = ci := by exact_mod_cast hmeta.symm.trans hm
    rw [hnew] at hdel
    cases hdel
  refine ⟨?_, ?_, ?_, ?_⟩
  · intro j hj hocc
    by_cases hji : j = i
    · subst hji
      exact ⟨ci, hci, by simp, by simp, by simp [charAt]⟩
    · simp only [Function.update_of_ne hji] at hocc ⊢
      obtain ⟨m, hm, hmeta, hdel, harea⟩ := h.holds j hj hocc
      have hmc : m ≠ ci := by
        rintro rfl
        exact hother j hj hocc hmeta
      exact ⟨m, hm, hmeta, by simpa [hmc] using hdel, harea⟩
  · intro a ha b hb hoa hob hab
    by_cases hai : a = i
    · by_cases hbi : b = i
      · exact hai.trans hbi.symm
      · subst hai
        simp only [Function.update_self, Function.update_of_ne hbi] at hob hab
        exact absurd hab.symm (hother b hb hob)
    · by_cases hbi : b = i
      · subst hbi
        simp only [Function.update_self, Function.update_of_ne hai] at hoa hab
        exact absurd hab (hother a ha hoa)
      · simp only [Function.update_of_ne hai, Function.update_of_ne hbi] at hoa hob hab
        exact h.injective a ha b hb hoa hob hab
  · intro m hm hdel
    by_cases hmc : m = ci
    · subst hmc
      exact ⟨i, hi, by simp, by simp⟩
    · simp only [Function.update_of_ne hmc] at hdel
      obtain ⟨j, hj, hocc, hmeta⟩ := h.image m hm hdel
      have hji : j ≠ i := by
        rintro rfl
        rw [hempty] at hocc
        cases hocc
      exact ⟨j, hj, by simpa [hji] using hocc, by simpa [hji] using hmeta⟩
  · intro j hj hfix
    have hji : j ≠ i := by
      rintro rfl
      simp only at hfix
      rw [hfree] at hfix
      cases hfix
    simpa only [Function.update_of_ne hji] using h.fixed j hj hfix

theorem wordInvariant_deliverChar {w : SharedWord F} (h : WordInvariant w) {ci : ℕ}
    (hci : ci < w.length) (htransit : w.charInTransit ci = true) :
    WordInvariant (w.deliverChar ci) := by
  obtain ⟨hstatus, hplaced, harr, hcomp⟩ := h
  obtain ⟨hclaim, hnew⟩ : w.charClaimed ci = true ∧ w.charDelivered ci = false := by
    rcases hstatus ci with ⟨h1, h2, h3⟩ | ⟨h1, h2, h3⟩ | ⟨h1, h2, h3⟩
    · rw [htransit] at h2
      cases h2
    · exact ⟨h1, h3⟩
    · rw [htransit] at h2
      cases h2
  cases hslot : w.freeSlot with
  | some i =>
    have harr' := arranged_place harr hslot hci hnew
    rw [deliverChar_some hslot] at harr' ⊢
    refine ⟨?_, ?_, harr', hcomp⟩
    · intro c
      by_cases hc : c = ci
      · subst hc
        exact .delivered hclaim (by simp) (by simp)
      · rcases hstatus c with ⟨h1, h2, h3⟩ | ⟨h1, h2, h3⟩ | ⟨h1, h2, h3⟩
        · exact .unclaimed h1 (by simpa [hc] using h2) (by simpa [hc] using h3)
        · exact .inTransit h1 (by simpa [hc] using h2) (by simpa [hc] using h3)
        · exact .delivered h1 (by simpa [hc] using h2) (by simpa [hc] using h3)
    · intro c
      by_cases hc : c = ci
      · subst hc
        simp [hplaced, hnew]
      · simpa [hc] using hplaced c
  | none =>
    rw [deliverChar_none hslot]
    refine ⟨?_, hplaced, ⟨harr.holds, harr.injective, harr.image, harr.fixed⟩, hcomp⟩
    intro c
    by_cases hc : c = ci
    · subst hc
      exact .unclaimed (by simp) (by simp) hnew
    · rcases hstatus c with ⟨h1, h2, h3⟩ | ⟨h1, h2, h3⟩ | ⟨h1, h2, h3⟩
      · exact .unclaimed (by simpa [hc] using h1) (by simpa [hc] using h2) h3
      · exact .inTransit (by simpa [hc] using h1) (by simpa [hc] using h2) h3
      · exact .delivered (by simpa [hc] using h1) (by simpa [hc] using h2) h3

/-! ### The sorting rules -/

theorem swap_lt {i tgt j n : ℕ} (hi : i < n) (ht : tgt < n) (hj : j < n) :
    Equiv.swap i tgt j < n := by
  rw [Equiv.swap_apply_def]
  split_ifs <;> omega

theorem arranged_exchange {w w' : SharedWord F} (h : Arranged w) {i tgt : ℕ} (hi : i < w.length)
    (ht : tgt < w.length) (htext : w'.text = w.text) (hdel : w'.charDelivered = w.charDelivered)
    (hocc : ∀ j, w'.occupied j = w.occupied (Equiv.swap i tgt j))
    (hval : ∀ j, w'.occupied j = true → w'.sortingMeta j = w.sortingMeta (Equiv.swap i tgt j) ∧
      w'.sortingArea j = w.sortingArea (Equiv.swap i tgt j))
    (hfix : ∀ j < w.length, w'.fixed j = true → w'.occupied j = true ∧ w'.sortingMeta j = j) :
    Arranged w' := by
  have hlen : w'.length = w.length := by simp only [SharedWord.length, htext]
  refine ⟨?_, ?_, ?_, ?_⟩
  · intro j hj hoj
    obtain ⟨hm, harea⟩ := hval j hoj
    obtain ⟨m, hml, hmeta, hdm, ham⟩ := h.holds _ (swap_lt hi ht (hlen ▸ hj)) (hocc j ▸ hoj)
    refine ⟨m, hlen.symm ▸ hml, hm.trans hmeta, hdel ▸ hdm, ?_⟩
    rw [harea, ham]
    simp only [charAt, htext]
  · intro a ha b hb hoa hob hab
    rw [(hval a hoa).1, (hval b hob).1] at hab
    exact (Equiv.swap i tgt).injective (h.injective _ (swap_lt hi ht (hlen ▸ ha)) _
      (swap_lt hi ht (hlen ▸ hb)) (hocc a ▸ hoa) (hocc b ▸ hob) hab)
  · intro m hm hdm
    obtain ⟨j, hj, hoj, hmeta⟩ := h.image m (hlen ▸ hm) (hdel ▸ hdm)
    have hback : Equiv.swap i tgt (Equiv.swap i tgt j) = j := Equiv.swap_apply_self i tgt j
    have hocc' : w'.occupied (Equiv.swap i tgt j) = true := by rw [hocc, hback, hoj]
    refine ⟨Equiv.swap i tgt j, hlen.symm ▸ swap_lt hi ht hj, hocc', ?_⟩
    rw [(hval _ hocc').1, hback, hmeta]
  · intro j hj
    exact hfix j (hlen ▸ hj)

theorem arranged_moveSlot {w : SharedWord F} (h : Arranged w) {i tgt : ℕ} (hi : i < w.length)
    (ht : tgt < w.length) (hne : tgt ≠ i) (hocc : w.occupied i = true)
    (hempty : w.occupied tgt = false) (hloose : w.fixed i = false) (hmeta : w.sortingMeta i = tgt) :
    Arranged (w.moveSlot i tgt) := by
  refine arranged_exchange h hi ht rfl rfl ?_ ?_ ?_
  · intro j
    by_cases hji : j = i
    · subst hji
      simp [moveSlot, hempty]
    · by_cases hjt : j = tgt
      · subst hjt
        simp [moveSlot, hne, hocc]
      · simp [moveSlot, hji, hjt, Equiv.swap_apply_of_ne_of_ne]
  · intro j hoj
    by_cases hji : j = i
    · subst hji
      simp [moveSlot] at hoj
    · by_cases hjt : j = tgt
      · subst hjt
        simp [moveSlot, hne]
      · simp [moveSlot, hji, hjt, Equiv.swap_apply_of_ne_of_ne]
  · intro j hj hfix
    simp only [moveSlot, hmeta, ↓reduceIte] at hfix ⊢
    by_cases hjt : j = tgt
    · subst hjt
      simp [hne]
    · simp only [Function.update_of_ne hjt] at hfix
      have hji : j ≠ i := by
        rintro rfl
        rw [hloose] at hfix
        cases hfix
      simpa [hji, hjt] using h.fixed j hj hfix

theorem arranged_swapSlot {w : SharedWord F} (h : Arranged w) {i tgt : ℕ} (hi : i < w.length)
    (ht : tgt < w.length) (hne : tgt ≠ i) (hocc : w.occupied i = true)
    (hfull : w.occupied tgt = true) (hloose : w.fixed i = false) (hfree : w.fixed tgt = false)
    (hmeta : w.sortingMeta i = tgt) : Arranged (w.swapSlot i tgt) := by
  refine arranged_exchange h hi ht rfl rfl ?_ ?_ ?_
  · intro j
    by_cases hji : j = i
    · subst hji
      simp [swapSlot, hocc, hfull]
    · by_cases hjt : j = tgt
      · subst hjt
        simp [swapSlot, hocc, hfull]
      · simp [swapSlot, hji, hjt, Equiv.swap_apply_of_ne_of_ne]
  · intro j hoj
    by_cases hji : j = i
    · subst hji
      simp [swapSlot]
    · by_cases hjt : j = tgt
      · subst hjt
        simp [swapSlot, hne]
      · simp [swapSlot, hji, hjt, Equiv.swap_apply_of_ne_of_ne]
  · intro j hj hfix
    simp only [swapSlot, hmeta, ↓reduceIte] at hfix ⊢
    by_cases hjt : j = tgt
    · subst hjt
      simp [hne, hfull]
    · by_cases hji : j = i
      · subst hji
        by_cases hback : w.sortingMeta tgt = j
        · simp [hocc, hback]
        · simp [hback, hjt, hloose] at hfix
      · have hold : w.fixed j = true := by
          split_ifs at hfix
          · simpa [hji, hjt] using hfix
          · simpa [hjt] using hfix
        simpa [hji, hjt] using h.fixed j hj hold

/-- One slot of the pass rearranges delivered characters and changes nothing else. -/
structure Sorted (w w' : SharedWord F) : Prop where
  arranged : Arranged w'
  fixed : ∀ i, w.fixed i = true → w'.fixed i = true
  same : w' = { w with
    sortingArea := w'.sortingArea
    sortingMeta := w'.sortingMeta
    occupied := w'.occupied
    fixed := w'.fixed }

theorem Sorted.trans {w w' w'' : SharedWord F} (h : Sorted w w') (h' : Sorted w' w'') :
    Sorted w w'' := by
  refine ⟨h'.arranged, fun i hi => h'.fixed i (h.fixed i hi), ?_⟩
  have hs := h.same
  have hs' := h'.same
  rw [hs] at hs'
  exact hs'

theorem target_spec {w : SharedWord F} {i : ℕ} (hself : w.sortingMeta i ≠ i)
    (hnonneg : 0 ≤ w.sortingMeta i) (hlt : w.sortingMeta i < w.length) :
    w.sortingMeta i = (w.sortingMeta i).toNat ∧ (w.sortingMeta i).toNat < w.length ∧
      (w.sortingMeta i).toNat ≠ i := by
  have hmeta : w.sortingMeta i = (w.sortingMeta i).toNat := (Int.toNat_of_nonneg hnonneg).symm
  refine ⟨hmeta, by omega, ?_⟩
  intro heq
  exact hself (by rw [hmeta, heq])

theorem sorted_sortSlot {p : SharedWord F × Bool} (h : Arranged p.1) {i : ℕ}
    (hi : i < p.1.length) : Sorted p.1 (sortSlot p i).1 := by
  obtain ⟨w, progress⟩ := p
  simp only at h hi ⊢
  simp only [sortSlot]
  split_ifs with hskip hself hmove hempty
  · exact ⟨h, fun _ => id, rfl⟩
  · -- already in the correct position
    push Not at hskip
    refine ⟨⟨h.holds, h.injective, h.image, ?_⟩, ?_, rfl⟩
    · intro j hj hfix
      by_cases hji : j = i
      · subst hji
        exact ⟨by simpa using hskip.1, hself⟩
      · exact h.fixed j hj (by simpa [hji] using hfix)
    · intro j hj
      by_cases hji : j = i
      · subst hji
        simp
      · simpa [hji] using hj
  · push Not at hskip
    obtain ⟨hmeta, hlt, hne⟩ := target_spec hself hmove.1 hmove.2.1
    refine ⟨arranged_moveSlot h hi hlt hne (by simpa using hskip.1) hempty
      (by simpa using hskip.2) hmeta, ?_, rfl⟩
    intro j hj
    simp only [moveSlot, ← hmeta, ↓reduceIte, Function.update_apply]
    split_ifs
    · rfl
    · exact hj
  · push Not at hskip
    obtain ⟨hmeta, hlt, hne⟩ := target_spec hself hmove.1 hmove.2.1
    refine ⟨arranged_swapSlot h hi hlt hne (by simpa using hskip.1) (by simpa using hempty)
      (by simpa using hskip.2) hmove.2.2 hmeta, ?_, rfl⟩
    intro j hj
    simp only [swapSlot]
    split_ifs <;> simp only [Function.update_apply] <;> split_ifs <;> first | rfl | exact hj
  · exact ⟨h, fun _ => id, rfl⟩

theorem sorted_foldl {slots : List ℕ} {p : SharedWord F × Bool} (h : Arranged p.1)
    (hslots : ∀ i ∈ slots, i < p.1.length) : Sorted p.1 (slots.foldl sortSlot p).1 := by
  induction slots generalizing p with
  | nil => exact ⟨h, fun _ => id, rfl⟩
  | cons i slots ih =>
    have hfirst := sorted_sortSlot h (hslots i List.mem_cons_self)
    have hlen : (sortSlot p i).1.length = p.1.length := by
      rw [hfirst.same]
      rfl
    have hrest := ih hfirst.arranged
      (fun j hj => hlen.symm ▸ hslots j (List.mem_cons_of_mem _ hj))
    exact hfirst.trans hrest

theorem sorted_sortPass {w : SharedWord F} (h : Arranged w) : Sorted w w.sortPass.1 := by
  have hall : ∀ i ∈ List.range w.length, i < (w, false).1.length :=
    fun _ hi => List.mem_range.mp hi
  exact sorted_foldl h hall

theorem wordInvariant_sortPass {w : SharedWord F} (h : WordInvariant w) :
    WordInvariant w.sortPass.1 := by
  have hs := sorted_sortPass h.arranged
  have harr := hs.arranged
  have hfixed := hs.fixed
  rw [hs.same] at harr ⊢
  refine ⟨fun ci => ?_, h.placed, harr, ?_⟩
  · rcases h.status ci with ⟨h1, h2, h3⟩ | ⟨h1, h2, h3⟩ | ⟨h1, h2, h3⟩
    · exact .unclaimed h1 h2 h3
    · exact .inTransit h1 h2 h3
    · exact .delivered h1 h2 h3
  · intro hc i hi
    exact hfixed i (h.completed hc i hi)

theorem reconstructed_of_fixed {w : SharedWord F} (h : Arranged w)
    (hall : ∀ i < w.length, w.fixed i = true) :
    (List.range w.length).map w.sortingArea = w.text := by
  apply List.ext_getElem
  · simp [SharedWord.length]
  · intro i hi hi'
    have hlt : i < w.length := by simpa using hi
    obtain ⟨hocc, hmeta⟩ := h.fixed i hlt (hall i hlt)
    obtain ⟨m, -, hm, -, harea⟩ := h.holds i hlt hocc
    obtain rfl : i = m := by exact_mod_cast hmeta.symm.trans hm
    simp [harea, charAt, List.getElem?_eq_getElem hi']

end SysProg.HW3

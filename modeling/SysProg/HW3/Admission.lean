import Mathlib.Algebra.Order.BigOperators.Group.Finset
import SysProg.HW3.SystemSteps

/-!
# Admission of words and the capacity of floors

A word carrier claims a word under the global mutex, reserves capacity on two
floors under their mutexes and writes its decision under the mutex of the word;
the sorter that completes the word returns the capacity. The invariant follows
one word through these sections and counts the words that hold capacity on a
floor.
-/

open scoped BigOperators
namespace SysProg.HW3
open SysProg.Lib SharedWord
variable {cfg : Config}

namespace WordCarrierPc

def held : WordCarrierPc cfg → Option cfg.WordIndex
  | .holding wi => some wi
  | .decided wi _ => some wi
  | _ => none

/-- The word for which the carrier has reserved capacity and not yet said so. -/
def reserving : WordCarrierPc cfg → Option cfg.WordIndex
  | .decided wi true => some wi
  | _ => none

theorem held_of_reserving {pc : WordCarrierPc cfg} {wi : cfg.WordIndex}
    (h : pc.reserving = some wi) : pc.held = some wi := by
  cases pc with
  | decided wj ok =>
    cases ok with
    | true => exact h
    | false => cases h
  | _ => cases h

end WordCarrierPc

def holders (carriers : cfg.WordCarrier → WordCarrierPc cfg) (wi : cfg.WordIndex) : ℕ :=
  ∑ c, if (carriers c).held = some wi then 1 else 0

/-- `try_complete_word` has marked the word and not yet returned. -/
def BeingCompleted (sorters : cfg.Sorter → SorterPc cfg) (wi : cfg.WordIndex) : Prop :=
  ∃ x, (sorters x).completing = some wi

/-- A carrier has passed the capacity check for the word on floor `af`, and the word is
not completed or its sorter is still inside `try_complete_word`. -/
def HoldsReservation (s : State cfg) (wi : cfg.WordIndex) (af : cfg.Floor) : Prop :=
  (∃ c, (s.wordCarriers c).reserving = some wi ∧ c.1 = af) ∨
    ((s.words wi).admitted = true ∧ (s.words wi).arrivalFloor = af ∧
      ((s.words wi).completed = false ∨ BeingCompleted s.sorters wi))

instance (sorters : cfg.Sorter → SorterPc cfg) (wi : cfg.WordIndex) :
    Decidable (BeingCompleted sorters wi) :=
  inferInstanceAs (Decidable (∃ x, (sorters x).completing = some wi))

instance (s : State cfg) (wi : cfg.WordIndex) (af : cfg.Floor) :
    Decidable (HoldsReservation s wi af) := inferInstanceAs (Decidable (_ ∨ _))

/-- What is known of one word between its claim and its completion. -/
structure WordAdmission (s : State cfg) (wi : cfg.WordIndex) : Prop where
  sortingFloor : (s.words wi).sortingFloor = cfg.sortingFloor wi
  holders : holders s.wordCarriers wi + (if (s.words wi).admitted then 1 else 0) =
    if (s.words wi).claimed then 1 else 0
  admissions : s.admissions wi = if (s.words wi).admitted then 1 else 0
  reserved : ∀ a, s.reservedAt wi = some a ↔
    (∃ c, (s.wordCarriers c).reserving = some wi ∧ c.1 = a) ∨
      ((s.words wi).activeReservation = true ∧ (s.words wi).arrivalFloor = a)
  reservation : (s.words wi).activeReservation = true ↔ (s.words wi).admitted = true ∧
    ((s.words wi).completed = false ∨ BeingCompleted s.sorters wi)
  completed : (s.words wi).completed = true → (s.words wi).admitted = true
  completing : BeingCompleted s.sorters wi → (s.words wi).completed = true
  unique : ∀ x y, (s.sorters x).completing = some wi → (s.sorters y).completing = some wi → x = y

theorem WordAdmission.congr {s s' : State cfg} {wi : cfg.WordIndex} (h : WordAdmission s wi)
    (hword : SameHeader (s.words wi) (s'.words wi))
    (hheld : HW3.holders s'.wordCarriers wi = HW3.holders s.wordCarriers wi)
    (hadm : s'.admissions wi = s.admissions wi) (hres : s'.reservedAt wi = s.reservedAt wi)
    (hreserving : ∀ a, (∃ c, (s'.wordCarriers c).reserving = some wi ∧ c.1 = a) ↔
      ∃ c, (s.wordCarriers c).reserving = some wi ∧ c.1 = a)
    (hcompleting : ∀ x, (s'.sorters x).completing = some wi ↔ (s.sorters x).completing = some wi) :
    WordAdmission s' wi := by
  have hbeing : BeingCompleted s'.sorters wi ↔ BeingCompleted s.sorters wi :=
      exists_congr hcompleting
  refine ⟨?_, ?_, ?_, ?_, ?_, ?_, ?_, ?_⟩
  · rw [hword.sortingFloor, h.sortingFloor]
  · rw [hheld, hword.admitted, hword.claimed, h.holders]
  · rw [hadm, hword.admitted, h.admissions]
  · intro a
    rw [hres, hreserving, hword.activeReservation, hword.arrivalFloor, h.reserved]
  · rw [hword.activeReservation, hword.admitted, hword.completed, hbeing, h.reservation]
  · rw [hword.completed, hword.admitted]
    exact h.completed
  · rw [hbeing, hword.completed]
    exact h.completing
  · intro x y hx hy
    exact h.unique x y ((hcompleting x).mp hx) ((hcompleting y).mp hy)

theorem wordAdmission_init (cfg : Config) (wi : cfg.WordIndex) : WordAdmission (init cfg) wi := by
  refine ⟨rfl, ?_, rfl, ?_, ?_, ?_, ?_, ?_⟩
  · simp [holders, init, WordCarrierPc.held, SharedWord.load]
  · intro a
    simp [init, WordCarrierPc.reserving, SharedWord.load]
  · simp [init, SharedWord.load]
  · simp [init, SharedWord.load]
  · rintro ⟨x, hx⟩
    cases hx
  · intro x y hx
    cases hx

/-! ### Holding a word -/

section Holders
variable {carriers : cfg.WordCarrier → WordCarrierPc cfg} {c : cfg.WordCarrier}
  {pc : WordCarrierPc cfg} {wi : cfg.WordIndex}

variable (carriers c pc wi) in
theorem holders_update : holders (Function.update carriers c pc) wi +
    (if (carriers c).held = some wi then 1 else 0) =
      holders carriers wi + (if pc.held = some wi then 1 else 0) :=
  sum_update_add (fun _ (p : WordCarrierPc cfg) => if p.held = some wi then 1 else 0) carriers c pc

theorem holders_update_of_eq (h : pc.held = some wi ↔ (carriers c).held = some wi) :
    holders (Function.update carriers c pc) wi = holders carriers wi := by
  have hsum := holders_update carriers c pc wi
  simp only [h] at hsum
  exact Nat.add_right_cancel hsum

theorem holders_pos (h : (carriers c).held = some wi) : 0 < holders carriers wi := by
  have hone : (if (carriers c).held = some wi then 1 else 0) ≤ holders carriers wi :=
    Finset.single_le_sum (f := fun d => if (carriers d).held = some wi then 1 else 0)
      (fun _ _ => Nat.zero_le _) (Finset.mem_univ c)
  rw [if_pos h] at hone
  exact hone

theorem exists_update_iff {ι β : Type*} [DecidableEq ι] {f : ι → β} {i : ι} {x : β}
    {p : ι → β → Prop} (h : p i x ↔ p i (f i)) :
    (∃ j, p j (Function.update f i x j)) ↔ ∃ j, p j (f j) := by
  refine exists_congr (fun j => ?_)
  by_cases hj : j = i
  · subst hj
    simpa using h
  · rw [Function.update_of_ne hj]

theorem reserving_update (h : pc.reserving = some wi ↔ (carriers c).reserving = some wi)
    (a : cfg.Floor) :
    (∃ d, (Function.update carriers c pc d).reserving = some wi ∧ d.1 = a) ↔
      ∃ d, (carriers d).reserving = some wi ∧ d.1 = a :=
  exists_update_iff (p := fun (d : cfg.WordCarrier) (q : WordCarrierPc cfg) =>
    q.reserving = some wi ∧ d.1 = a) (and_congr_left' h)

end Holders

theorem WordAdmission.of_held {s : State cfg} {wi : cfg.WordIndex} (h : WordAdmission s wi)
    {c : cfg.WordCarrier} (hc : (s.wordCarriers c).held = some wi) :
    (s.words wi).claimed = true ∧ (s.words wi).admitted = false ∧
      HW3.holders s.wordCarriers wi = 1 := by
  have hpos := holders_pos hc
  have hcount := h.holders
  by_cases hadm : (s.words wi).admitted = true
  · rw [if_pos hadm] at hcount
    split at hcount <;> omega
  · rw [if_neg hadm] at hcount
    split at hcount
    case isTrue hclaimed => exact ⟨hclaimed, by simpa using hadm, hcount⟩
    case isFalse => omega

theorem WordAdmission.holder_unique {s : State cfg} {wi : cfg.WordIndex} (h : WordAdmission s wi)
    {c d : cfg.WordCarrier} (hc : (s.wordCarriers c).held = some wi)
    (hd : (s.wordCarriers d).held = some wi) : c = d := by
  obtain ⟨-, -, hone⟩ := h.of_held hc
  -- without the first holder nobody holds the word
  have hrest := holders_update s.wordCarriers c .head wi
  rw [if_pos hc, hone, if_neg (by simp [WordCarrierPc.held])] at hrest
  by_contra hne
  have hd' : (Function.update s.wordCarriers c .head d).held = some wi := by
    rw [Function.update_of_ne (Ne.symm hne), hd]
  have hpos := holders_pos hd'
  omega

theorem WordAdmission.of_carrier {s s' : State cfg} {wi : cfg.WordIndex} (h : WordAdmission s wi)
    {c : cfg.WordCarrier} {pc : WordCarrierPc cfg}
    (hpcs : s'.wordCarriers = Function.update s.wordCarriers c pc)
    (hheld : pc.held = some wi ↔ (s.wordCarriers c).held = some wi)
    (hreserving : pc.reserving = some wi ↔ (s.wordCarriers c).reserving = some wi)
    (hword : SameHeader (s.words wi) (s'.words wi)) (hadm : s'.admissions wi = s.admissions wi)
    (hres : s'.reservedAt wi = s.reservedAt wi) (hsorters : s'.sorters = s.sorters) :
    WordAdmission s' wi := by
  refine h.congr hword ?_ hadm hres ?_ ?_
  · rw [hpcs]
    exact holders_update_of_eq hheld
  · intro a
    rw [hpcs]
    exact reserving_update hreserving a
  · intro x
    rw [hsorters]

theorem SameHeader.of_update_ne {words : cfg.WordIndex → SharedWord cfg.numFloors}
    {wi wj : cfg.WordIndex} (w : SharedWord cfg.numFloors) (h : wj ≠ wi) :
    SameHeader (words wj) (Function.update words wi w wj) := by
  rw [Function.update_of_ne h]
  exact .refl _

theorem WordAdmission.of_claimed {s : State cfg} {c : cfg.WordCarrier} {wi : cfg.WordIndex}
    (h : WordAdmission s wi) (cursor : ℕ) {claimed : Bool} {pc : WordCarrierPc cfg}
    (hholders : HW3.holders (Function.update s.wordCarriers c pc) wi +
      (if (s.words wi).admitted then 1 else 0) = if claimed then 1 else 0)
    (hreserving : pc.reserving = some wi ↔ (s.wordCarriers c).reserving = some wi) :
    WordAdmission { s with
      words := Function.update s.words wi { s.words wi with claimed := claimed }
      rrCursor := cursor
      wordCarriers := Function.update s.wordCarriers c pc } wi := by
  refine ⟨?_, ?_, ?_, ?_, ?_, ?_, ?_, h.unique⟩
  · simpa using h.sortingFloor
  · simpa using hholders
  · simpa using h.admissions
  · intro a
    have hsame := reserving_update hreserving a
    simpa [hsame] using h.reserved a
  · simpa using h.reservation
  · simpa using h.completed
  · simpa using h.completing

theorem wordAdmission_claim {s : State cfg} {c : cfg.WordCarrier} {wi : cfg.WordIndex} {cursor : ℕ}
    (h : WordAdmission s wi) (hpc : s.wordCarriers c = .scanning)
    (hfree : unclaimedWord (s.words wi) = true) :
    WordAdmission { s with
      words := Function.update s.words wi { s.words wi with claimed := true }
      rrCursor := cursor
      wordCarriers := Function.update s.wordCarriers c (.holding wi) } wi := by
  simp only [unclaimedWord, Bool.and_eq_true, Bool.not_eq_true'] at hfree
  obtain ⟨⟨hclaimed, hadmitted⟩, -⟩ := hfree
  have hnone : holders s.wordCarriers wi = 0 := by
    have hcount := h.holders
    simpa [hclaimed, hadmitted] using hcount
  apply h.of_claimed cursor
  · have hsum := holders_update s.wordCarriers c (.holding wi) wi
    rw [hnone] at hsum
    simpa [hadmitted, hpc, WordCarrierPc.held] using hsum
  · simp [hpc, WordCarrierPc.reserving]

theorem wordAdmission_reserve {s : State cfg} {c : cfg.WordCarrier} {wi : cfg.WordIndex}
    {active : cfg.Floor → ℤ} (h : WordAdmission s wi) (hpc : s.wordCarriers c = .holding wi) :
    WordAdmission { s with
      activeWords := active
      wordCarriers := Function.update s.wordCarriers c (.decided wi true)
      reservedAt := Function.update s.reservedAt wi (some c.1) } wi := by
  have hheld : (s.wordCarriers c).held = some wi := by rw [hpc]; rfl
  obtain ⟨-, hadmitted, -⟩ := h.of_held hheld
  have hinactive : (s.words wi).activeReservation = false := by
    by_contra hactive
    have hadm := (h.reservation.mp (by simpa using hactive)).1
    rw [hadmitted] at hadm
    cases hadm
  refine ⟨h.sortingFloor, ?_, h.admissions, ?_, h.reservation, h.completed, h.completing, h.unique⟩
  · have hsame : holders (Function.update s.wordCarriers c (.decided wi true)) wi =
        holders s.wordCarriers wi := holders_update_of_eq (by simp [hpc, WordCarrierPc.held])
    simpa [hsame] using h.holders
  · intro a
    simp only [Function.update_self, Option.some.injEq, hinactive, Bool.false_eq_true, false_and,
      or_false]
    constructor
    · rintro rfl
      exact ⟨c, by simp [WordCarrierPc.reserving], rfl⟩
    · rintro ⟨d, hd, rfl⟩
      by_cases hdc : d = c
      · rw [hdc]
      · rw [Function.update_of_ne hdc] at hd
        rw [h.holder_unique hheld (WordCarrierPc.held_of_reserving hd)]

theorem wordAdmission_accept {s : State cfg} {c : cfg.WordCarrier} {wi : cfg.WordIndex}
    (h : WordAdmission s wi) (hpc : s.wordCarriers c = .decided wi true) :
    WordAdmission { s with
      words := Function.update s.words wi
        { s.words wi with admitted := true, arrivalFloor := c.1, activeReservation := true }
      wordCarriers := Function.update s.wordCarriers c .head
      admissions := Function.update s.admissions wi (s.admissions wi + 1) } wi := by
  have hheld : (s.wordCarriers c).held = some wi := by rw [hpc]; rfl
  obtain ⟨hclaimed, hadmitted, hone⟩ := h.of_held hheld
  have hopen : (s.words wi).completed = false := by
    by_contra hcompleted
    have hadm := h.completed (by simpa using hcompleted)
    rw [hadmitted] at hadm
    cases hadm
  have hfloor : s.reservedAt wi = some c.1 :=
    (h.reserved c.1).mpr (.inl ⟨c, by rw [hpc]; rfl, rfl⟩)
  refine ⟨?_, ?_, ?_, ?_, ?_, ?_, ?_, h.unique⟩
  · simpa using h.sortingFloor
  · have hsum := holders_update s.wordCarriers c .head wi
    rw [if_pos hheld, hone] at hsum
    simpa [hclaimed, WordCarrierPc.held] using hsum
  · have hadm := h.admissions
    simpa [hadmitted] using hadm
  · intro a
    simp only [Function.update_self, hfloor, Option.some.injEq, true_and]
    constructor
    · exact fun heq => .inr heq
    · rintro (⟨d, hd, rfl⟩ | heq)
      · by_cases hdc : d = c
        · rw [hdc]
        · rw [Function.update_of_ne hdc] at hd
          rw [h.holder_unique hheld (WordCarrierPc.held_of_reserving hd)]
      · exact heq
  · simp [hopen]
  · simp
  · simpa using h.completing

theorem wordAdmission_giveBack {s : State cfg} {c : cfg.WordCarrier} {wi : cfg.WordIndex}
    (h : WordAdmission s wi) (hpc : s.wordCarriers c = .decided wi false) :
    WordAdmission { s with
      words := Function.update s.words wi { s.words wi with claimed := false }
      wordCarriers := Function.update s.wordCarriers c .head } wi := by
  have hheld : (s.wordCarriers c).held = some wi := by rw [hpc]; rfl
  obtain ⟨-, hadmitted, hone⟩ := h.of_held hheld
  apply h.of_claimed s.rrCursor
  · have hsum := holders_update s.wordCarriers c .head wi
    rw [if_pos hheld, hone] at hsum
    simpa [hadmitted, WordCarrierPc.held] using hsum
  · simp [hpc, WordCarrierPc.reserving]

theorem wordAdmission_wordCarrier {s s' : State cfg} {c : cfg.WordCarrier}
    (h : ∀ wi, WordAdmission s wi) (ht : WordCarrierTransition s c s') (wj : cfg.WordIndex) :
    WordAdmission s' wj := by
  cases ht with
  | turn hpc hnext =>
    refine (h wj).of_carrier rfl ?_ ?_ (.refl _) rfl rfl rfl <;>
      rcases hnext with rfl | rfl <;> simp [hpc, WordCarrierPc.held, WordCarrierPc.reserving]
  | @claim wi hpc hfree =>
    by_cases hj : wj = wi
    · subst hj
      exact wordAdmission_claim (h wj) hpc hfree
    · refine (h wj).of_carrier rfl ?_ ?_ (.of_update_ne _ hj) rfl rfl rfl <;>
        simp [hpc, WordCarrierPc.held, WordCarrierPc.reserving, Ne.symm hj]
  | retry hpc _ =>
    refine (h wj).of_carrier rfl ?_ ?_ (.refl _) rfl rfl rfl <;>
      simp [hpc, WordCarrierPc.held, WordCarrierPc.reserving]
  | @reserve wi hpc _ =>
    by_cases hj : wj = wi
    · subst hj
      exact wordAdmission_reserve (h wj) hpc
    · refine (h wj).of_carrier rfl ?_ ?_ (.refl _) rfl (Function.update_of_ne hj _ _) rfl <;>
        simp [hpc, WordCarrierPc.held, WordCarrierPc.reserving, Ne.symm hj]
  | @refuse wi hpc _ =>
    refine (h wj).of_carrier rfl ?_ ?_ (.refl _) rfl rfl rfl <;>
      simp [hpc, WordCarrierPc.held, WordCarrierPc.reserving]
  | @accept wi hpc _ =>
    by_cases hj : wj = wi
    · subst hj
      exact wordAdmission_accept (h wj) hpc
    · refine (h wj).of_carrier rfl ?_ ?_ (.of_update_ne _ hj) (Function.update_of_ne hj _ _) rfl
        rfl <;> simp [hpc, WordCarrierPc.held, WordCarrierPc.reserving, Ne.symm hj]
  | @giveBack wi hpc _ =>
    by_cases hj : wj = wi
    · subst hj
      exact wordAdmission_giveBack (h wj) hpc
    · refine (h wj).of_carrier rfl ?_ ?_ (.of_update_ne _ hj) rfl rfl rfl <;>
        simp [hpc, WordCarrierPc.held, WordCarrierPc.reserving, Ne.symm hj]

/-! ### Completing a word -/

theorem WordAdmission.of_sorter {s s' : State cfg} {wi : cfg.WordIndex} (h : WordAdmission s wi)
    {x : cfg.Sorter} {pc : SorterPc cfg} (hpcs : s'.sorters = Function.update s.sorters x pc)
    (hcompleting : pc.completing = some wi ↔ (s.sorters x).completing = some wi)
    (hword : SameHeader (s.words wi) (s'.words wi)) (hcarriers : s'.wordCarriers = s.wordCarriers)
    (hadm : s'.admissions wi = s.admissions wi) (hres : s'.reservedAt wi = s.reservedAt wi) :
    WordAdmission s' wi := by
  refine h.congr hword ?_ hadm hres ?_ ?_
  · rw [hcarriers]
  · intro a
    rw [hcarriers]
  · intro y
    rw [hpcs]
    by_cases hy : y = x
    · subst hy
      simpa using hcompleting
    · rw [Function.update_of_ne hy]

theorem wordAdmission_complete {s : State cfg} {x : cfg.Sorter} {wi : cfg.WordIndex} {off : ℕ}
    {progress : Bool} {mutex : cfg.WordIndex → Bool} {w : SharedWord cfg.numFloors}
    (h : WordAdmission s wi) (hsort : sortable (s.words wi) x.1 = true)
    (hw : SameHeader (s.words wi) w) :
    WordAdmission { s with
      words := Function.update s.words wi { w with completed := true }
      wordMutex := mutex
      sorters := Function.update s.sorters x (.counting off wi progress) } wi := by
  simp only [sortable, Bool.and_eq_true, Bool.not_eq_true'] at hsort
  obtain ⟨⟨hadmitted, hopen⟩, -⟩ := hsort
  have hactive : (s.words wi).activeReservation = true :=
    h.reservation.mpr ⟨hadmitted, .inl hopen⟩
  have hbeing : BeingCompleted (Function.update s.sorters x (.counting off wi progress)) wi :=
    ⟨x, by simp [SorterPc.completing]⟩
  have honly : ∀ y, (Function.update s.sorters x (.counting off wi progress) y).completing =
      some wi →
      y = x := by
    intro y hy
    by_contra hyx
    rw [Function.update_of_ne hyx] at hy
    have hcompleted := h.completing ⟨y, hy⟩
    rw [hopen] at hcompleted
    cases hcompleted
  refine ⟨?_, ?_, ?_, ?_, ?_, ?_, ?_, ?_⟩
  · simpa [hw.sortingFloor] using h.sortingFloor
  · simpa [hw.admitted, hw.claimed] using h.holders
  · simpa [hw.admitted] using h.admissions
  · intro a
    simpa [hw.activeReservation, hw.arrivalFloor] using h.reserved a
  · simp [hw.activeReservation, hw.admitted, hactive, hadmitted, hbeing]
  · simp [hw.admitted, hadmitted]
  · simp
  · intro y z hy hz
    rw [honly y hy, honly z hz]

theorem wordAdmission_release {s : State cfg} {x : cfg.Sorter} {wi : cfg.WordIndex} {off : ℕ}
    {progress : Bool} {mutex lock : cfg.WordIndex → Bool} {active : cfg.Floor → ℤ}
    (h : WordAdmission s wi) (hpc : s.sorters x = .releasing off wi progress)
    (hactive : (s.words wi).activeReservation = true) :
    WordAdmission { s with
      activeWords := active
      words := Function.update s.words wi { s.words wi with activeReservation := false }
      reservedAt := Function.update s.reservedAt wi none
      wordMutex := mutex
      sorterLock := lock
      sorters := Function.update s.sorters x (afterWord off progress) } wi := by
  have hx : (s.sorters x).completing = some wi := by rw [hpc]; rfl
  have hcompleted := h.completing ⟨x, hx⟩
  have hadmitted := (h.reservation.mp hactive).1
  have hother : ∀ y, (Function.update s.sorters x (afterWord off progress) y).completing ≠
      some wi := by
    intro y hy
    by_cases hyx : y = x
    · subst hyx
      simp at hy
    · rw [Function.update_of_ne hyx] at hy
      exact hyx (h.unique y x hy hx)
  have hnobody : ∀ c, (s.wordCarriers c).reserving ≠ some wi := by
    intro c hc
    obtain ⟨-, hno, -⟩ := h.of_held (WordCarrierPc.held_of_reserving hc)
    rw [hadmitted] at hno
    cases hno
  refine ⟨?_, ?_, ?_, ?_, ?_, ?_, ?_, ?_⟩
  · simpa using h.sortingFloor
  · simpa using h.holders
  · simpa using h.admissions
  · intro a
    simp [hnobody]
  · simp [hcompleted, BeingCompleted, hother]
  · simp [hadmitted]
  · rintro ⟨y, hy⟩
    exact absurd hy (hother y)
  · intro y z hy
    exact absurd hy (hother y)

theorem wordAdmission_sorter {s s' : State cfg} {x : cfg.Sorter} (h : ∀ wi, WordAdmission s wi)
    (ht : SorterTransition s x s') (wj : cfg.WordIndex) : WordAdmission s' wj := by
  cases ht with
  | turn lock _ hold hnew =>
    exact (h wj).of_sorter rfl (by simp [hold, hnew]) (.refl _) rfl rfl rfl
  | @pass off wi hpc _ _ =>
    refine (h wj).of_sorter rfl ?_ (sameHeader_update (sameHeader_sortPass _) wj) rfl rfl rfl
    rw [SorterPc.completing_afterWord, hpc]
    rfl
  | @complete off wi hpc _ hsort _ =>
    by_cases hj : wj = wi
    · subst hj
      exact wordAdmission_complete (h wj) hsort (sameHeader_sortPass _)
    · refine (h wj).of_sorter rfl ?_ (.of_update_ne _ hj) rfl rfl rfl
      simp [hpc, SorterPc.completing, Ne.symm hj]
  | load hpc =>
    exact (h wj).of_sorter rfl (by simp [hpc, SorterPc.completing]) (.refl _) rfl rfl rfl
  | store hpc =>
    exact (h wj).of_sorter rfl (by simp [hpc, SorterPc.completing]) (.refl _) rfl rfl rfl
  | @release off wi progress hpc hactive =>
    by_cases hj : wj = wi
    · subst hj
      exact wordAdmission_release (h wj) hpc hactive
    · refine (h wj).of_sorter rfl ?_ (.of_update_ne _ hj) rfl rfl (Function.update_of_ne hj _ _)
      rw [SorterPc.completing_afterWord, hpc]
      simp [SorterPc.completing, Ne.symm hj]
  | @unreserved off wi progress hpc hinactive =>
    -- a sorter that releases a word finds the reservation still active
    have hbeing : BeingCompleted s.sorters wi := ⟨x, by rw [hpc]; rfl⟩
    have hcompleted := (h wi).completing hbeing
    have hactive := (h wi).reservation.mpr ⟨(h wi).completed hcompleted, .inr hbeing⟩
    rw [hinactive] at hactive
    cases hactive

/-! ### Counting on the floors -/

def occupies (sf f : cfg.Floor) : Option cfg.Floor → Bool
  | some af => decide (af = f ∨ sf = f)
  | none => false

@[simp] theorem occupies_some (af sf f : cfg.Floor) :
    occupies sf f (some af) = decide (af = f ∨ sf = f) := rfl

@[simp] theorem occupies_none (sf f : cfg.Floor) : occupies sf f none = false := rfl

def floorLoad (s : State cfg) (f : cfg.Floor) : ℕ :=
  ∑ wi, if occupies (cfg.sortingFloor wi) f (s.reservedAt wi) then 1 else 0

structure FloorInvariant (s : State cfg) : Prop where
  active : ∀ f, s.activeWords f = floorLoad s f
  capacity : ∀ f, s.activeWords f ≤ cfg.maxWordsPerFloor

theorem addActive_apply (active : cfg.Floor → ℤ) (af sf f : cfg.Floor) (d : ℤ) :
    addActive active af sf d f = active f + if af = f ∨ sf = f then d else 0 := by
  simp only [addActive]
  by_cases hsame : sf = af
  · subst hsame
    by_cases hf : f = sf
    · subst hf
      simp
    · simp [hf, Ne.symm hf]
  · rw [if_neg hsame]
    by_cases hf : f = sf
    · subst hf
      simp [hsame]
    · by_cases hg : f = af
      · subst hg
        simp [hf]
      · simp [hf, hg, Ne.symm hf, Ne.symm hg]

theorem floorLoad_update (s : State cfg) (wi : cfg.WordIndex) (r : Option cfg.Floor)
    (f : cfg.Floor) :
    (∑ wj, if occupies (cfg.sortingFloor wj) f (Function.update s.reservedAt wi r wj) then 1
        else 0) + (if occupies (cfg.sortingFloor wi) f (s.reservedAt wi) then 1 else 0) =
      floorLoad s f + (if occupies (cfg.sortingFloor wi) f r then 1 else 0) :=
  sum_update_add (fun wj r => if occupies (cfg.sortingFloor wj) f r then 1 else 0) s.reservedAt wi r

theorem floorInvariant_wordCarrier {s s' : State cfg} {c : cfg.WordCarrier}
    (hword : ∀ wi, WordAdmission s wi) (h : FloorInvariant s)
    (ht : WordCarrierTransition s c s') : FloorInvariant s' := by
  cases ht
  case reserve wi hpc hok =>
    have hfree : s.reservedAt wi = none := by
      by_contra hsome
      obtain ⟨a, ha⟩ := Option.ne_none_iff_exists'.mp hsome
      have hheld : (s.wordCarriers c).held = some wi := by rw [hpc]; rfl
      rcases ((hword wi).reserved a).mp ha with ⟨d, hd, -⟩ | ⟨hactive, -⟩
      · have hdc := (hword wi).holder_unique hheld (WordCarrierPc.held_of_reserving hd)
        subst hdc
        rw [hpc] at hd
        cases hd
      · have hadm := ((hword wi).reservation.mp hactive).1
        rw [((hword wi).of_held hheld).2.1] at hadm
        cases hadm
    simp only [hasCapacity, Bool.and_eq_true, Bool.or_eq_true, decide_eq_true_eq] at hok
    refine ⟨?_, ?_⟩
    · intro f
      have hsum := floorLoad_update s wi (some c.1) f
      have hold := h.active f
      simp only [hfree, occupies_none, occupies_some, Bool.false_eq_true, if_false, Nat.add_zero,
        decide_eq_true_eq] at hsum
      simp only [addActive_apply, (hword wi).sortingFloor, floorLoad]
      rw [hsum, hold]
      push_cast
      rfl
    · intro f
      have hcap := h.capacity f
      simp only [addActive_apply]
      split_ifs with hf
      · rcases hf with rfl | rfl
        · omega
        · rcases hok.2 with hsame | hroom
          · rw [← hsame] at hcap ⊢
            omega
          · omega
      · omega
  all_goals exact ⟨h.active, h.capacity⟩

theorem floorInvariant_sorter {s s' : State cfg} {x : cfg.Sorter}
    (hword : ∀ wi, WordAdmission s wi) (h : FloorInvariant s) (ht : SorterTransition s x s') :
    FloorInvariant s' := by
  cases ht
  case release off wi progress hpc hactive =>
    have hfloor : s.reservedAt wi = some (s.words wi).arrivalFloor :=
      ((hword wi).reserved _).mpr (.inr ⟨hactive, rfl⟩)
    refine ⟨?_, ?_⟩
    · intro f
      have hsum := floorLoad_update s wi none f
      have hold := h.active f
      simp only [hfloor, occupies_none, occupies_some, Bool.false_eq_true, if_false, Nat.add_zero,
        decide_eq_true_eq] at hsum
      simp only [addActive_apply, (hword wi).sortingFloor, floorLoad]
      rw [hold, ← hsum]
      push_cast
      split_ifs <;> omega
    · intro f
      have hcap := h.capacity f
      simp only [addActive_apply]
      split_ifs <;> omega
  all_goals exact ⟨h.active, h.capacity⟩

structure AdmissionInvariant (s : State cfg) : Prop where
  word : ∀ wi, WordAdmission s wi
  floor : FloorInvariant s

theorem AdmissionInvariant.congr {s s' : State cfg} (h : AdmissionInvariant s)
    (hword : ∀ wi, SameHeader (s.words wi) (s'.words wi))
    (hcarriers : s'.wordCarriers = s.wordCarriers) (hsorters : s'.sorters = s.sorters)
    (hactive : s'.activeWords = s.activeWords) (hres : s'.reservedAt = s.reservedAt)
    (hadm : s'.admissions = s.admissions) : AdmissionInvariant s' := by
  refine ⟨fun wi => ?_, ?_, ?_⟩
  · refine (h.word wi).congr (hword wi) ?_ ?_ ?_ ?_ ?_
    · rw [hcarriers]
    · rw [hadm]
    · rw [hres]
    · simp only [hcarriers, implies_true]
    · simp only [hsorters, implies_true]
  · intro f
    simp only [floorLoad, hactive, hres]
    exact h.floor.active f
  · intro f
    rw [hactive]
    exact h.floor.capacity f

theorem admissionInvariant_init (cfg : Config) : AdmissionInvariant (init cfg) := by
  refine ⟨wordAdmission_init cfg, ?_, ?_⟩
  · intro f
    simp [floorLoad, init]
  · intro f
    simp [init]

theorem admissionInvariant_parent {s s' : State cfg} (hstart : StartInvariant s)
    (h : AdmissionInvariant s) (ht : ParentTransition s s') : AdmissionInvariant s' := by
  cases ht with
  | @startWordCarrier c jobs hpc =>
    have hfirst : s.wordCarriers c = .notStarted := hstart.waiting _ hpc _ List.mem_cons_self
    refine ⟨fun wi => ?_, h.floor.active, h.floor.capacity⟩
    refine (h.word wi).of_carrier rfl ?_ ?_ (.refl _) rfl rfl rfl <;>
      simp [hfirst, WordCarrierPc.held, WordCarrierPc.reserving]
  | @startSorter x jobs hpc =>
    have hfirst : s.sorters x = .notStarted := hstart.waiting _ hpc _ List.mem_cons_self
    refine ⟨fun wi => ?_, h.floor.active, h.floor.capacity⟩
    exact (h.word wi).of_sorter rfl (by simp [hfirst, SorterPc.completing]) (.refl _) rfl rfl rfl
  | _ => exact h.congr (fun _ => .refl _) rfl rfl rfl rfl rfl

theorem admissionInvariant_step {s s' : State cfg} {a : Action cfg} (hstart : StartInvariant s)
    (h : AdmissionInvariant s) (hs : step s a = some s') : AdmissionInvariant s' := by
  cases step_spec hs with
  | wordCarrier ht =>
    exact ⟨wordAdmission_wordCarrier h.word ht, floorInvariant_wordCarrier h.word h.floor ht⟩
  | letterCarrier ht =>
    have hheader := ht.sameHeader
    obtain ⟨-, words, pc, d, r, di, ri, ev, rfl⟩ := ht.frame
    exact h.congr hheader rfl rfl rfl rfl rfl
  | sorter ht => exact ⟨wordAdmission_sorter h.word ht, floorInvariant_sorter h.word h.floor ht⟩
  | deliveryElevator ht =>
    have hheader := ht.sameHeader
    obtain ⟨-, words, pc, i, t, d, f, c, p, cur, ev, rfl⟩ := ht.frame
    exact h.congr hheader rfl rfl rfl rfl rfl
  | repositionElevator ht =>
    obtain ⟨-, pc, i, t, d, f, c, p, cur, ev, rfl⟩ := ht
    exact h.congr (fun _ => .refl _) rfl rfl rfl rfl rfl
  | parent ht => exact admissionInvariant_parent hstart h ht

theorem admissionInvariant_reachable {s : State cfg} (h : (building cfg).Reachable s) :
    AdmissionInvariant s :=
  h.invariant (admissionInvariant_init cfg)
    (fun _ _ _ hr hprior hs => admissionInvariant_step (startInvariant_reachable hr) hprior hs)

theorem WordAdmission.holdsReservation_iff {s : State cfg} {wi : cfg.WordIndex}
    (h : WordAdmission s wi) (a : cfg.Floor) :
    HoldsReservation s wi a ↔ s.reservedAt wi = some a := by
  rw [h.reserved a, h.reservation, HoldsReservation, and_assoc]
  exact or_congr_right (and_congr_right fun _ => and_comm)

def wordsOn (s : State cfg) (f : cfg.Floor) : Finset cfg.WordIndex :=
  Finset.univ.filter (fun wi =>
    ∃ af, HoldsReservation s wi af ∧ (af = f ∨ (s.words wi).sortingFloor = f))

theorem floorLoad_eq_card {s : State cfg} (h : ∀ wi, WordAdmission s wi) (f : cfg.Floor) :
    floorLoad s f = (wordsOn s f).card := by
  rw [floorLoad, wordsOn, Finset.card_filter]
  refine Finset.sum_congr rfl (fun wi _ => ?_)
  congr 1
  simp only [(h wi).holdsReservation_iff, (h wi).sortingFloor, eq_iff_iff]
  cases hr : s.reservedAt wi with
  | none => simp
  | some af => simp

def capacityCheck : List (Action oneWord) :=
  .parent :: List.replicate 3 (.wordCarrier (firstWordCarrier oneWord))

theorem capacityCheck_isSome :
    ((building oneWord).run (building oneWord).init capacityCheck).isSome := by decide

/-- The reservations of the words whose `completed` flag is not yet set. -/
def uncompletedOn (s : State cfg) (f : cfg.Floor) : Finset cfg.WordIndex :=
  (wordsOn s f).filter (fun wi => (s.words wi).completed = false)

def markedCompleted : List (Action oneWord) :=
  List.replicate 7 .parent ++ List.replicate 4 (.wordCarrier (firstWordCarrier oneWord)) ++
    List.replicate 4 (.letterCarrier firstSlot (fun _ => 1)) ++
    List.replicate 4 (.letterCarrier firstSlot (fun _ => 0)) ++
    List.replicate 4 (.sorter (oneWord.groundFloor, ⟨0, oneWord.sorters_pos⟩) 0)

theorem markedCompleted_isSome :
    ((building oneWord).run (building oneWord).init markedCompleted).isSome := by decide

end SysProg.HW3

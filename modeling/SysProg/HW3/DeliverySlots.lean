import SysProg.HW3.SortingProgress

/-!
# A delivery always finds a slot

The occupied slots of a word are as many as its delivered characters, at every
moment and wherever the sorters have moved them. As long as a character is
missing, a slot is empty, and an empty slot is never fixed. A character on its
way is claimed and not delivered, so no call of `deliver_char` fails.
-/

namespace SysProg.HW3
open SysProg.Lib SharedWord
variable {F : ℕ} {cfg : Config}

def SharedWord.deliverResult (w : SharedWord F) (ci : ℕ) : Bool :=
  (w.placeCharInSortingArea ci).isSome

theorem exists_empty_slot {w : SharedWord F} (h : Arranged w) {ci : ℕ} (hci : ci < w.length)
    (hmissing : w.charDelivered ci = false) : ∃ i < w.length, w.occupied i = false := by
  have hless : w.deliveredChars ⊂ Finset.range w.length := by
    refine (Finset.ssubset_iff_of_subset (Finset.filter_subset _ _)).mpr
      ⟨ci, Finset.mem_range.mpr hci, ?_⟩
    intro hmem
    rw [(Finset.mem_filter.mp hmem).2] at hmissing
    cases hmissing
  have hcard := Finset.card_lt_card hless
  rw [← card_occupiedSlots h, Finset.card_range] at hcard
  by_contra hfull
  push Not at hfull
  have hall : w.occupiedSlots = Finset.range w.length :=
    Finset.filter_true_of_mem fun i hi => by simpa using hfull i (Finset.mem_range.mp hi)
  rw [hall, Finset.card_range] at hcard
  exact lt_irrefl _ hcard

theorem freeSlot_of_missing {w : SharedWord F} (h : Arranged w) {ci : ℕ} (hci : ci < w.length)
    (hmissing : w.charDelivered ci = false) : ∃ i, w.freeSlot = some i := by
  obtain ⟨i, hi, hempty⟩ := exists_empty_slot h hci hmissing
  have hloose : w.fixed i = false := by
    by_contra hfixed
    rw [(h.fixed i hi (by simpa using hfixed)).1] at hempty
    cases hempty
  refine Option.isSome_iff_exists.mp (List.find?_isSome.mpr ⟨i, List.mem_range.mpr hi, ?_⟩)
  rw [hempty, hloose]
  rfl

/-- A call of `deliver_char` that succeeds: the character was claimed and missing,
the first empty slot takes it, and it stays claimed. -/
structure DeliverySucceeds (w : SharedWord F) (ci : ℕ) : Prop where
  inRange : ci < w.length
  claimed : w.charClaimed ci = true
  missing : w.charDelivered ci = false
  slot : ∃ i < w.length, w.freeSlot = some i ∧ w.occupied i = false ∧ w.fixed i = false
  result : w.deliverResult ci = true
  delivered : (w.deliverChar ci).charDelivered ci = true
  kept : (w.deliverChar ci).charClaimed = w.charClaimed

theorem deliverySucceeds_of_missing {w : SharedWord F} (h : Arranged w) {ci : ℕ}
    (hci : ci < w.length) (hclaimed : w.charClaimed ci = true)
    (hmissing : w.charDelivered ci = false) : DeliverySucceeds w ci := by
  obtain ⟨i, hslot⟩ := freeSlot_of_missing h hci hmissing
  obtain ⟨hi, hfixed, hempty⟩ := freeSlot_spec hslot
  refine ⟨hci, hclaimed, hmissing, ⟨i, hi, hslot, hempty, hfixed⟩, ?_, ?_, ?_⟩
  · rw [deliverResult, placeCharInSortingArea, hslot]
    rfl
  · rw [deliverChar_some hslot]
    exact Function.update_self _ _ _
  · rw [deliverChar_some hslot]

/-- A character that some process brings is claimed and missing. -/
theorem TransportInvariant.deliverySucceeds {s : State cfg} (h : TransportInvariant s)
    {t : Carriage cfg} {others : Multiset (Carriage cfg)} (ht : inTransit s = others + {t}) :
    DeliverySucceeds (s.words t.wordIndex) t.charIndex := by
  have hcount := h.transit t.wordIndex t.charIndex
  rw [ht, Multiset.countP_add, countP_carries_singleton, if_pos ⟨rfl, rfl⟩] at hcount
  have hflag : (s.words t.wordIndex).charInTransit t.charIndex = true := by
    by_contra hno
    rw [if_neg hno] at hcount
    omega
  have hword := h.word t.wordIndex
  rcases hword.status t.charIndex with ⟨h1, h2, h3⟩ | ⟨h1, h2, h3⟩ | ⟨h1, h2, h3⟩
  · rw [h2] at hflag
    cases hflag
  · exact deliverySucceeds_of_missing hword.arranged (h.bound _ _ hflag) h1 h3
  · rw [h2] at hflag
    cases hflag

theorem inTransit_of_holding {s : State cfg} {k : Fin maxCarriers} {floor : cfg.Floor}
    {wi : cfg.WordIndex} {ci : ℕ} (hpc : s.letterCarriers k = .holding floor wi ci) :
    ∃ others, inTransit s = others + {⟨k, wi, ci⟩} := by
  have hhands : carriedBy (Function.update s.letterCarriers k .head) + {⟨k, wi, ci⟩} =
      carriedBy s.letterCarriers + 0 := carriedBy_update (by rw [hpc]; rfl) rfl
  rw [add_zero] at hhands
  refine ⟨carriedBy (Function.update s.letterCarriers k .head) +
    (pending s.deliveryRequests + (↑s.deliveryElevator.batch : Multiset cfg.Delivery)).map carriage,
    ?_⟩
  simp only [inTransit, ← hhands, add_right_comm]

theorem inTransit_of_serving {s : State cfg} {req : cfg.Delivery} {rest : List cfg.Delivery}
    (hpc : s.deliveryElevator = .serving (req :: rest)) :
    ∃ others, inTransit s = others + {carriage req} := by
  refine ⟨carriedBy s.letterCarriers +
    (pending s.deliveryRequests + (↑rest : Multiset cfg.Delivery)).map carriage, ?_⟩
  simp only [inTransit, hpc, ElevatorPc.batch, ← Multiset.cons_coe, ← Multiset.singleton_add,
    Multiset.map_add, Multiset.map_singleton]
  abel

/-- In every reachable state the characters that a letter carrier holds and the
elevator serves, the only ones for which `deliver_char` is ever called, find an
empty slot, and so does every other claimed character that is missing. -/
theorem deliveries_succeed {s : State cfg} (h : (building cfg).Reachable s) :
    (∀ k floor wi ci, s.letterCarriers k = .holding floor wi ci →
      DeliverySucceeds (s.words wi) ci) ∧
    (∀ req rest, s.deliveryElevator = .serving (req :: rest) →
      DeliverySucceeds (s.words req.wordIndex) req.charIndex) ∧
    ∀ wi ci, ci < (s.words wi).length → (s.words wi).charClaimed ci = true →
      (s.words wi).charDelivered ci = false → DeliverySucceeds (s.words wi) ci := by
  have hinv := transportInvariant_reachable h
  refine ⟨?_, ?_, ?_⟩
  · intro k floor wi ci hpc
    obtain ⟨others, ht⟩ := inTransit_of_holding hpc
    exact hinv.deliverySucceeds ht
  · intro req rest hpc
    obtain ⟨others, ht⟩ := inTransit_of_serving hpc
    exact hinv.deliverySucceeds ht
  · intro wi ci hci hclaimed hmissing
    exact deliverySucceeds_of_missing (hinv.word wi).arranged hci hclaimed hmissing

/-! ### The letter carrier of a single word holds its second character -/

def claimRun : List (Action oneWord) :=
  List.replicate 7 .parent ++ List.replicate 4 (.wordCarrier (firstWordCarrier oneWord)) ++
    List.replicate 3 (.letterCarrier firstSlot (fun _ => 1))

theorem claimRun_isSome :
    ((building oneWord).run (building oneWord).init claimRun).isSome := by decide

theorem deliveries_succeed_claimRun :
    ∃ s, (building oneWord).Reachable s ∧
      s.letterCarriers firstSlot = .holding oneWord.groundFloor (oneWord.wordAt 0) 1 ∧
      DeliverySucceeds (s.words (oneWord.wordAt 0)) 1 := by
  have hreach := (Machine.execution_of_isSome claimRun_isSome).reachable
  have hpc : (((building oneWord).run (building oneWord).init claimRun).get
      claimRun_isSome).letterCarriers firstSlot =
        .holding oneWord.groundFloor (oneWord.wordAt 0) 1 := by decide
  exact ⟨_, hreach, hpc, (deliveries_succeed hreach).1 _ _ _ _ hpc⟩

end SysProg.HW3

import Mathlib.Data.Multiset.Count
import SysProg.HW3.CompletionCounter

/-!
# Every character is delivered once

A claimed character is in the hands of a letter carrier, in a delivery request
or in the batch of the delivery elevator until it is placed. An action leaves
these characters alone, adds one that was unclaimed or places one of them, so
each character in transit has exactly one carrier.
-/

open scoped BigOperators
namespace SysProg.HW3
open SysProg.Lib SharedWord
variable {cfg : Config}

structure Carriage (cfg : Config) where
  carrierSlot : Fin maxCarriers
  wordIndex : cfg.WordIndex
  charIndex : ℕ
  deriving DecidableEq

def LetterCarrierPc.carried (k : Fin maxCarriers) : LetterCarrierPc cfg → Multiset (Carriage cfg)
  | .holding _ wi ci => {⟨k, wi, ci⟩}
  | .overflowed (some p) => {⟨k, p.1, p.2⟩}
  | _ => 0

def carriage (req : cfg.Delivery) : Carriage cfg := ⟨req.carrierSlot, req.wordIndex, req.charIndex⟩

/-- The requests of the elevator's batch whose characters are not placed yet. -/
def ElevatorPc.batch {ρ : Type} : ElevatorPc cfg ρ → List ρ
  | .serving batch => batch
  | .moving _ rest _ => rest
  | _ => []

def carriedBy (carriers : Fin maxCarriers → LetterCarrierPc cfg) : Multiset (Carriage cfg) :=
  ∑ k, (carriers k).carried k

def inTransit (s : State cfg) : Multiset (Carriage cfg) :=
  carriedBy s.letterCarriers +
    (pending s.deliveryRequests + (↑s.deliveryElevator.batch : Multiset cfg.Delivery)).map carriage

/-- A change of one word that no character in transit notices. -/
structure Quiet (w w' : SharedWord cfg.numFloors) : Prop where
  invariant : WordInvariant w → WordInvariant w'
  text : w'.text = w.text
  transit : w'.charInTransit = w.charInTransit
  completed : w.completed = true → w'.completed = true

theorem Quiet.refl (w : SharedWord cfg.numFloors) : Quiet w w := ⟨id, rfl, rfl, id⟩

theorem quiet_update {words : cfg.WordIndex → SharedWord cfg.numFloors} {wi : cfg.WordIndex}
    {w : SharedWord cfg.numFloors} (h : Quiet (words wi) w) (wj : cfg.WordIndex) :
    Quiet (words wj) (Function.update words wi w wj) := by
  by_cases hj : wj = wi
  · subst hj
    simpa using h
  · rw [Function.update_of_ne hj]
    exact .refl _

inductive Effect (s s' : State cfg) : Prop where
  | quiet : inTransit s' = inTransit s → (∀ wi, Quiet (s.words wi) (s'.words wi)) → Effect s s'
  | claim (t : Carriage cfg) : inTransit s' = inTransit s + {t} →
      t.charIndex < (s.words t.wordIndex).length →
      (s.words t.wordIndex).unclaimedChar t.charIndex = true →
      s'.words = Function.update s.words t.wordIndex
        ((s.words t.wordIndex).claimChar t.charIndex) → Effect s s'
  | deliver (t : Carriage cfg) : inTransit s = inTransit s' + {t} →
      s'.words = Function.update s.words t.wordIndex
        ((s.words t.wordIndex).deliverChar t.charIndex) → Effect s s'

/-! ### The effect of each process -/

theorem effect_wordCarrier {s s' : State cfg} {c : cfg.WordCarrier}
    (h : WordCarrierTransition s c s') : Effect s s' := by
  have hflags : ∀ (w : SharedWord cfg.numFloors) claimed admitted af active,
      Quiet w { w with
        claimed := claimed, admitted := admitted, arrivalFloor := af
        activeReservation := active } := by
    intro w claimed admitted af active
    refine ⟨fun hw => ?_, rfl, rfl, id⟩
    exact hw.congr rfl rfl rfl rfl rfl rfl rfl rfl rfl hw.completed
  cases h
  case claim => exact .quiet rfl (quiet_update (hflags _ _ _ _ _))
  case accept => exact .quiet rfl (quiet_update (hflags _ _ _ _ _))
  case giveBack => exact .quiet rfl (quiet_update (hflags _ _ _ _ _))
  all_goals exact .quiet rfl (fun _ => .refl _)

theorem charInTransit_sortPass (w : SharedWord cfg.numFloors) :
    w.sortPass.1.charInTransit = w.charInTransit := by
  have hslot : ∀ (p : SharedWord cfg.numFloors × Bool) (i : ℕ),
      (sortSlot p i).1.charInTransit = p.1.charInTransit := by
    intro p i
    simp only [sortSlot]
    split_ifs <;> rfl
  have hfold : ∀ (slots : List ℕ) (p : SharedWord cfg.numFloors × Bool),
      (slots.foldl sortSlot p).1.charInTransit = p.1.charInTransit := by
    intro slots
    induction slots with
    | nil => exact fun _ => rfl
    | cons i slots ih => exact fun p => (ih _).trans (hslot p i)
  exact hfold (List.range w.length) (w, false)

theorem quiet_sortPass (w : SharedWord cfg.numFloors) : Quiet w w.sortPass.1 where
  invariant := wordInvariant_sortPass
  text := (sameHeader_sortPass w).text
  transit := charInTransit_sortPass w
  completed := fun h => (sameHeader_sortPass w).completed.trans h

theorem quiet_complete {w : SharedWord cfg.numFloors} (hall : w.sortPass.1.allFixed = true) :
    Quiet w { w.sortPass.1 with completed := true } := by
  refine ⟨fun hw => ?_, (sameHeader_sortPass w).text, charInTransit_sortPass w, fun _ => rfl⟩
  refine (wordInvariant_sortPass hw).congr rfl rfl rfl rfl rfl rfl rfl rfl rfl ?_
  intro _ i hi
  exact List.all_eq_true.mp hall i (List.mem_range.mpr hi)

theorem effect_sorter {s s' : State cfg} {x : cfg.Sorter} (h : SorterTransition s x s') :
    Effect s s' := by
  cases h with
  | turn | load | store | unreserved => exact .quiet rfl (fun _ => .refl _)
  | pass => exact .quiet rfl (quiet_update (quiet_sortPass _))
  | complete _ _ _ hall => exact .quiet rfl (quiet_update (quiet_complete hall))
  | release =>
    refine .quiet rfl (quiet_update ⟨fun hw => ?_, rfl, rfl, id⟩)
    exact hw.congr rfl rfl rfl rfl rfl rfl rfl rfl rfl hw.completed

theorem carriedBy_update {carriers : Fin maxCarriers → LetterCarrierPc cfg} {k : Fin maxCarriers}
    {pc : LetterCarrierPc cfg} {u v : Multiset (Carriage cfg)} (hold : (carriers k).carried k = u)
    (hnew : pc.carried k = v) :
    carriedBy (Function.update carriers k pc) + u = carriedBy carriers + v := by
  rw [← hold, ← hnew]
  exact sum_update_add (fun j (p : LetterCarrierPc cfg) => p.carried j) carriers k pc

theorem carriedBy_of_eq {carriers : Fin maxCarriers → LetterCarrierPc cfg} {k : Fin maxCarriers}
    {pc : LetterCarrierPc cfg} (h : pc.carried k = (carriers k).carried k) :
    carriedBy (Function.update carriers k pc) = carriedBy carriers :=
  add_right_cancel (carriedBy_update rfl h)

theorem effect_hands {s s' : State cfg} {k : Fin maxCarriers} {pc : LetterCarrierPc cfg}
    (hpcs : s'.letterCarriers = Function.update s.letterCarriers k pc)
    (hhands : pc.carried k = (s.letterCarriers k).carried k) (hwords : s'.words = s.words)
    (htable : s'.deliveryRequests = s.deliveryRequests)
    (helevator : s'.deliveryElevator = s.deliveryElevator) : Effect s s' := by
  refine .quiet ?_ (fun wi => hwords ▸ .refl _)
  simp only [inTransit, hpcs, htable, helevator, carriedBy_of_eq hhands]

theorem effect_letterCarrier {s s' : State cfg} {k : Fin maxCarriers}
    (h : LetterCarrierTransition s k s') : Effect s s' := by
  cases h with
  | turn hpc hnext =>
    refine effect_hands rfl ?_ rfl rfl rfl
    rw [hnext, hpc]
    split <;> rfl
  | skip hpc | attempt hpc | noTask hpc | noChar hpc | leave hpc | stay hpc | enqueueReposition hpc
  | repositionOverflow hpc | postReposition hpc | postDelivery hpc | wake hpc =>
    exact effect_hands rfl (by rw [hpc]; rfl) rfl rfl rfl
  | @claim floor pass ci wi hpc _ _ hlt hun =>
    have hhands : carriedBy (Function.update s.letterCarriers k (.holding floor wi ci)) + 0 =
        carriedBy s.letterCarriers + {⟨k, wi, ci⟩} := carriedBy_update (by rw [hpc]; rfl) rfl
    refine .claim ⟨k, wi, ci⟩ ?_ hlt hun rfl
    rw [add_zero] at hhands
    simp only [inTransit, hhands, add_right_comm]
  | @direct floor wi ci hpc _ _ =>
    have hhands : carriedBy (Function.update s.letterCarriers k .head) + {⟨k, wi, ci⟩} =
        carriedBy s.letterCarriers + 0 := carriedBy_update (by rw [hpc]; rfl) rfl
    refine .deliver ⟨k, wi, ci⟩ ?_ rfl
    rw [add_zero] at hhands
    simp only [inTransit, ← hhands, add_right_comm]
  | @enqueueDelivery floor wi ci table hpc _ htable =>
    -- the character moves from the carrier's hands into the table
    have hhands : carriedBy (Function.update s.letterCarriers k .deliveryPost) + {⟨k, wi, ci⟩} =
        carriedBy s.letterCarriers + 0 := carriedBy_update (by rw [hpc]; rfl) rfl
    refine .quiet ?_ (fun _ => .refl _)
    rw [add_zero] at hhands
    simp only [inTransit, pending_insert htable, ← hhands, Multiset.map_add,
      Multiset.map_singleton, carriage]
    abel
  | deliveryOverflow hpc => exact effect_hands rfl (by rw [hpc]; rfl) rfl rfl rfl

theorem effect_deliveryElevator {s s' : State cfg} (h : DeliveryTransition s s') :
    Effect s s' := by
  cases h with
  | turn hpc hnext =>
    refine .quiet ?_ (fun _ => .refl _)
    simp only [inTransit, hpc, hnext]
    split <;> rfl
  | wake hpc | nothing hpc | served hpc | signal hpc =>
    refine .quiet ?_ (fun _ => .refl _)
    simp only [inTransit, hpc, ElevatorPc.batch]
  | collect hpc hcollect =>
    refine .quiet ?_ (fun _ => .refl _)
    simp only [inTransit, hpc, ElevatorPc.batch, pending_collectDelivery hcollect,
      Multiset.coe_nil, add_zero]
  | @deliver req rest hpc _ =>
    refine .deliver (carriage req) ?_ rfl
    simp only [inTransit, hpc, ElevatorPc.batch, ← Multiset.cons_coe, ← Multiset.singleton_add,
      Multiset.map_add, Multiset.map_singleton]
    abel
  | @move req rest pc hpc _ =>
    obtain ⟨count, pend, cur, hmove⟩ := moveCarrier_frame s req.carrierSlot req.toFloor pc
    rw [hmove]
    refine .quiet ?_ (fun _ => .refl _)
    simp only [inTransit, hpc, ElevatorPc.batch]

theorem effect_parent {s s' : State cfg} (hstart : StartInvariant s) (h : ParentTransition s s') :
    Effect s s' := by
  cases h with
  | startDelivery hpc =>
    have hfirst : s.deliveryElevator = .notStarted := hstart.waiting _ hpc _ List.mem_cons_self
    refine .quiet ?_ (fun _ => .refl _)
    simp only [inTransit, hfirst, ElevatorPc.batch]
  | spawn slot hslot =>
    have hfree : s.letterCarriers slot = .notStarted := hstart.slots slot (le_of_eq hslot)
    exact effect_hands rfl (by rw [hfree]; rfl) rfl rfl rfl
  | _ => exact .quiet rfl (fun _ => .refl _)

theorem step_effect {s s' : State cfg} {a : Action cfg} (hstart : StartInvariant s)
    (hs : step s a = some s') : Effect s s' := by
  cases step_spec hs with
  | wordCarrier ht => exact effect_wordCarrier ht
  | letterCarrier ht => exact effect_letterCarrier ht
  | sorter ht => exact effect_sorter ht
  | deliveryElevator ht => exact effect_deliveryElevator ht
  | repositionElevator ht =>
    obtain ⟨-, pc, i, t, d, f, c, p, cur, ev, rfl⟩ := ht
    exact .quiet rfl (fun _ => .refl _)
  | parent ht => exact effect_parent hstart ht

/-! ### One carrier for each character in transit -/

def carries (wi : cfg.WordIndex) (ci : ℕ) (t : Carriage cfg) : Prop :=
  t.wordIndex = wi ∧ t.charIndex = ci

instance (wi : cfg.WordIndex) (ci : ℕ) : DecidablePred (carries wi ci) :=
  fun _ => inferInstanceAs (Decidable (_ ∧ _))

theorem countP_carries_singleton (wi : cfg.WordIndex) (ci : ℕ) (t : Carriage cfg) :
    ({t} : Multiset (Carriage cfg)).countP (carries wi ci) = if carries wi ci t then 1 else 0 := by
  rw [← Multiset.cons_zero, Multiset.countP_cons, Multiset.countP_zero, zero_add]

structure TransportInvariant (s : State cfg) : Prop where
  word : ∀ wi, WordInvariant (s.words wi)
  text : ∀ wi, (s.words wi).text = cfg.text wi
  bound : ∀ wi ci, (s.words wi).charInTransit ci = true → ci < (s.words wi).length
  transit : ∀ wi ci, (inTransit s).countP (carries wi ci) =
    if (s.words wi).charInTransit ci then 1 else 0

theorem transportInvariant_init (cfg : Config) : TransportInvariant (init cfg) := by
  refine ⟨fun wi => wordInvariant_load _ _ _, fun _ => rfl, ?_, ?_⟩
  · intro wi ci h
    simp [init, SharedWord.load] at h
  · intro wi ci
    have hnone : inTransit (init cfg) = 0 := by
      simp [inTransit, carriedBy, init, LetterCarrierPc.carried, ElevatorPc.batch,
        pending_emptyTable]
    rw [hnone]
    simp [init, SharedWord.load]

theorem charInTransit_deliverChar (w : SharedWord cfg.numFloors) (ci : ℕ) :
    (w.deliverChar ci).charInTransit = Function.update w.charInTransit ci false := by
  cases h : w.freeSlot with
  | none => rw [deliverChar_none h]
  | some i => rw [deliverChar_some h]

theorem TransportInvariant.of_update {s s' : State cfg} (h : TransportInvariant s)
    {t : Carriage cfg} {w : SharedWord cfg.numFloors} {b : Bool}
    (hwords : s'.words = Function.update s.words t.wordIndex w) (hw : WordInvariant w)
    (htext : w.text = (s.words t.wordIndex).text)
    (htransit : w.charInTransit =
      Function.update (s.words t.wordIndex).charInTransit t.charIndex b)
    (hlt : b = true → t.charIndex < (s.words t.wordIndex).length)
    (hself : (inTransit s').countP (carries t.wordIndex t.charIndex) = if b then 1 else 0)
    (hother : ∀ wi ci, ¬ carries wi ci t →
      (inTransit s').countP (carries wi ci) = (inTransit s).countP (carries wi ci)) :
    TransportInvariant s' := by
  have hlen : w.length = (s.words t.wordIndex).length := by simp only [SharedWord.length, htext]
  have hflag : ∀ wi ci, (s'.words wi).charInTransit ci =
      if carries wi ci t then b else (s.words wi).charInTransit ci := by
    intro wi ci
    rw [hwords]
    by_cases hwi : wi = t.wordIndex
    · subst hwi
      simp only [Function.update_self, htransit, Function.update_apply, carries, true_and]
      simp only [eq_comm]
    · simp [carries, hwi, Ne.symm hwi]
  refine ⟨?_, ?_, ?_, ?_⟩
  · intro wi
    rw [hwords]
    by_cases hwi : wi = t.wordIndex
    · subst hwi
      simpa using hw
    · rw [Function.update_of_ne hwi]
      exact h.word wi
  · intro wi
    rw [hwords, apply_update_of_eq SharedWord.text htext]
    exact h.text wi
  · intro wi ci hci
    rw [hwords, apply_update_of_eq SharedWord.length hlen]
    rw [hflag] at hci
    split at hci
    case isTrue hc =>
      obtain ⟨rfl, rfl⟩ := hc
      exact hlt hci
    case isFalse => exact h.bound wi ci hci
  · intro wi ci
    rw [hflag]
    split
    case isTrue hc =>
      obtain ⟨rfl, rfl⟩ := hc
      exact hself
    case isFalse hc => rw [hother wi ci hc, h.transit]

theorem transportInvariant_effect {s s' : State cfg} (h : TransportInvariant s)
    (he : Effect s s') : TransportInvariant s' := by
  cases he with
  | quiet hsame hquiet =>
    refine ⟨fun wi => (hquiet wi).invariant (h.word wi),
      fun wi => (hquiet wi).text.trans (h.text wi), ?_, ?_⟩
    · intro wi ci hci
      rw [SharedWord.length, (hquiet wi).text]
      exact h.bound wi ci ((hquiet wi).transit ▸ hci)
    · intro wi ci
      rw [hsame, (hquiet wi).transit, h.transit]
  | claim t hadd hlt hun hwords =>
    have hfree : (s.words t.wordIndex).charInTransit t.charIndex = false := by
      simp only [unclaimedChar, Bool.and_eq_true, Bool.not_eq_true'] at hun
      exact hun.2
    refine h.of_update (b := true) hwords (wordInvariant_claimChar (h.word _) hun) rfl rfl
      (fun _ => hlt) ?_ ?_
    · rw [hadd, Multiset.countP_add, h.transit, hfree, countP_carries_singleton]
      simp [carries]
    · intro wi ci hc
      rw [hadd, Multiset.countP_add, countP_carries_singleton, if_neg hc, add_zero]
  | deliver t hsub hwords =>
    have hcount := h.transit t.wordIndex t.charIndex
    rw [hsub, Multiset.countP_add, countP_carries_singleton, if_pos ⟨rfl, rfl⟩] at hcount
    have hflag : (s.words t.wordIndex).charInTransit t.charIndex = true := by
      by_contra hno
      rw [if_neg hno] at hcount
      omega
    have hlt := h.bound _ _ hflag
    refine h.of_update (b := false) hwords (wordInvariant_deliverChar (h.word _) hlt hflag)
      (sameHeader_deliverChar _ _).text (charInTransit_deliverChar _ _) (by simp) ?_ ?_
    · rw [if_pos hflag] at hcount
      simpa using hcount
    · intro wi ci hc
      rw [hsub, Multiset.countP_add, countP_carries_singleton, if_neg hc, add_zero]

theorem transportInvariant_reachable {s : State cfg} (h : (building cfg).Reachable s) :
    TransportInvariant s :=
  h.invariant (transportInvariant_init cfg) (fun _ _ _ hr hprior hs =>
    transportInvariant_effect hprior (step_effect (startInvariant_reachable hr) hs))

/-! ### The end of a run -/

theorem Effect.completed {s s' : State cfg} (h : Effect s s') (wi : cfg.WordIndex)
    (hc : (s.words wi).completed = true) : (s'.words wi).completed = true := by
  cases h with
  | quiet _ hquiet => exact (hquiet wi).completed hc
  | claim t _ _ _ hwords =>
    rw [hwords, apply_update_of_eq SharedWord.completed (sameHeader_claimChar _ _).completed, hc]
  | deliver t _ hwords =>
    rw [hwords, apply_update_of_eq SharedWord.completed (sameHeader_deliverChar _ _).completed, hc]

theorem all_completed_of_count {s : State cfg} (h : (building cfg).Reachable s)
    (hcount : s.completedWords = cfg.totalWords) (wi : cfg.WordIndex) :
    (s.words wi).completed = true := by
  have hle := completedWords_le_completedCount h
  have hmax : completedCount s ≤ Fintype.card cfg.WordIndex := sum_indicator_le_card _
  rw [Fintype.card_fin] at hmax
  have heq : completedCount s = Fintype.card cfg.WordIndex := by
    rw [Fintype.card_fin]
    omega
  exact (sum_indicator_eq_card (fun wi => (s.words wi).completed)).mp heq wi

theorem parent_succeeded_cases {s s' : State cfg} {a : Action cfg} (hs : step s a = some s')
    (hpc : s'.parent = .succeeded) :
    s.parent = .succeeded ∨ s.completedWords = cfg.totalWords := by
  cases step_spec hs with
  | wordCarrier ht =>
    obtain ⟨-, words, cursor, active, pc, reserved, adm, rfl⟩ := ht.frame
    exact .inl hpc
  | letterCarrier ht =>
    obtain ⟨-, words, pc, d, r, di, ri, ev, rfl⟩ := ht.frame
    exact .inl hpc
  | sorter ht =>
    obtain ⟨-, words, mutex, lock, comp, active, res, pc, rfl⟩ := ht.frame
    exact .inl hpc
  | deliveryElevator ht =>
    obtain ⟨-, words, pc, i, t, d, f, c, p, cur, ev, rfl⟩ := ht.frame
    exact .inl hpc
  | repositionElevator ht =>
    obtain ⟨-, pc, i, t, d, f, c, p, cur, ev, rfl⟩ := ht
    exact .inl hpc
  | parent ht =>
    cases ht with
    | turn _ hne => exact absurd hpc hne
    | succeed _ hcount => exact .inr hcount
    | spawn _ _ hnext =>
      simp only at hpc
      rcases hnext with ⟨jobs, -, hn⟩ | ⟨left, -, hn⟩ <;> simp [hn] at hpc
    | _ => cases hpc

theorem all_completed_of_succeeded {s : State cfg} (h : (building cfg).Reachable s) :
    s.parent = .succeeded → ∀ wi, (s.words wi).completed = true := by
  refine h.invariant (P := fun s => s.parent = .succeeded → ∀ wi, (s.words wi).completed = true)
    (fun hpc => by cases hpc) ?_
  intro s a s' hr hprior hs hpc wi
  have heffect := step_effect (startInvariant_reachable hr) hs
  rcases parent_succeeded_cases hs hpc with hdone | hcount
  · exact heffect.completed wi (hprior hdone wi)
  · exact heffect.completed wi (all_completed_of_count hr hcount wi)

def carriersOf (s : State cfg) (wi : cfg.WordIndex) (ci : ℕ) : Multiset (Fin maxCarriers) :=
  ((inTransit s).filter (carries wi ci)).map (·.carrierSlot)

/-- A character is unclaimed, in transit for exactly one carrier, or delivered. -/
inductive CharAccount (s : State cfg) (wi : cfg.WordIndex) (ci : ℕ) : Prop where
  | unclaimed : (s.words wi).charClaimed ci = false → (s.words wi).charInTransit ci = false →
      (s.words wi).charDelivered ci = false → carriersOf s wi ci = 0 → CharAccount s wi ci
  | inTransit (k : Fin maxCarriers) : (s.words wi).charClaimed ci = true →
      (s.words wi).charInTransit ci = true → (s.words wi).charDelivered ci = false →
      carriersOf s wi ci = {k} → CharAccount s wi ci
  | delivered : (s.words wi).charClaimed ci = true → (s.words wi).charInTransit ci = false →
      (s.words wi).charDelivered ci = true → carriersOf s wi ci = 0 → CharAccount s wi ci

def Reconstructed (w : SharedWord cfg.numFloors) : Prop :=
  (List.range w.length).map w.sortingArea = w.text

theorem TransportInvariant.account {s : State cfg} (h : TransportInvariant s)
    (wi : cfg.WordIndex) (ci : ℕ) : CharAccount s wi ci := by
  have hcard : Multiset.card (carriersOf s wi ci) =
      if (s.words wi).charInTransit ci then 1 else 0 := by
    rw [carriersOf, Multiset.card_map, ← Multiset.countP_eq_card_filter, h.transit]
  rcases (h.word wi).status ci with ⟨h1, h2, h3⟩ | ⟨h1, h2, h3⟩ | ⟨h1, h2, h3⟩
  · rw [h2] at hcard
    exact .unclaimed h1 h2 h3 (Multiset.card_eq_zero.mp hcard)
  · rw [h2] at hcard
    obtain ⟨k, hk⟩ := Multiset.card_eq_one.mp hcard
    exact .inTransit k h1 h2 h3 hk
  · rw [h2] at hcard
    exact .delivered h1 h2 h3 (Multiset.card_eq_zero.mp hcard)

theorem TransportInvariant.reconstructed {s : State cfg} (h : TransportInvariant s)
    {wi : cfg.WordIndex} (hc : (s.words wi).completed = true) : Reconstructed (s.words wi) :=
  reconstructed_of_fixed (h.word wi).arranged ((h.word wi).completed hc)

/-- In every reachable state each character is accounted for and placed at most
once, the sorting areas are arrangements of the delivered characters, and
completed words are spelled out; when the parent has counted all words, all are. -/
theorem exactlyOnce_reachable {s : State cfg} (h : (building cfg).Reachable s) :
    (∀ wi, (s.words wi).text = cfg.text wi) ∧
    (∀ wi ci, CharAccount s wi ci ∧ (s.words wi).placements ci ≤ 1) ∧
    (∀ wi, Arranged (s.words wi)) ∧
    (∀ wi, (s.words wi).completed = true → Reconstructed (s.words wi)) ∧
    (s.completedWords = cfg.totalWords ∨ s.parent = .succeeded →
      ∀ wi, (s.words wi).completed = true ∧ Reconstructed (s.words wi)) := by
  have hinv := transportInvariant_reachable h
  refine ⟨hinv.text, ?_, fun wi => (hinv.word wi).arranged, fun wi => hinv.reconstructed, ?_⟩
  · intro wi ci
    refine ⟨hinv.account wi ci, ?_⟩
    rw [(hinv.word wi).placed]
    split <;> omega
  · intro hend wi
    have hc : (s.words wi).completed = true := by
      rcases hend with hcount | hpc
      · exact all_completed_of_count h hcount wi
      · exact all_completed_of_succeeded h hpc wi
    exact ⟨hc, hinv.reconstructed hc⟩

/-! ### A whole run: the letters arrive in the wrong order -/

def wholeRun : List (Action oneWord) :=
  List.replicate 7 .parent ++ List.replicate 4 (.wordCarrier (firstWordCarrier oneWord)) ++
    List.replicate 4 (.letterCarrier firstSlot (fun _ => 1)) ++
    List.replicate 4 (.letterCarrier firstSlot (fun _ => 0)) ++
    List.replicate 7 (.sorter (oneWord.groundFloor, ⟨0, oneWord.sorters_pos⟩) 0) ++
    List.replicate 22 .parent

theorem wholeRun_isSome :
    ((building oneWord).run (building oneWord).init wholeRun).isSome := by decide

theorem exactlyOnce_wholeRun :
    ∃ s, (building oneWord).Reachable s ∧ s.parent = .succeeded ∧
      ∀ wi, (s.words wi).completed = true ∧ Reconstructed (s.words wi) := by
  have hreach := (Machine.execution_of_isSome wholeRun_isSome).reachable
  have hend : (((building oneWord).run (building oneWord).init wholeRun).get
      wholeRun_isSome).parent = .succeeded := by decide
  obtain ⟨-, -, -, -, hall⟩ := exactlyOnce_reachable hreach
  exact ⟨_, hreach, hend, hall (.inr hend)⟩

end SysProg.HW3

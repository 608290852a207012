import Mathlib.Algebra.BigOperators.Ring.Finset
import Mathlib.Data.Fintype.Fin
import SysProg.HW3.Journeys

/-!
# The census of carriers and the floors to respawn

A move leaves one floor, enters another and assigns the carrier in separate
sections, so between them `carrier_count` is off by what the elevators have
half done. A floor that a move has emptied is either marked for the parent or
still to be checked by that elevator, whatever happened to the floor since.
-/

open scoped BigOperators
namespace SysProg.HW3
open SysProg.Lib
variable {cfg : Config}

/-- What a move has added to the count of a floor and not yet to the carrier. -/
def MovePc.shift (toFloor f : cfg.Floor) : MovePc cfg → ℤ
  | .entering old _ => -(if old = f then 1 else 0)
  | .arriving old _ => (if toFloor = f then 1 else 0) - (if old = f then 1 else 0)
  | _ => 0

def MovePc.rechecks (f : cfg.Floor) : MovePc cfg → Prop
  | .entering old nowEmpty => nowEmpty = true ∧ old = f
  | .arriving old nowEmpty => nowEmpty = true ∧ old = f
  | .rechecking old => old = f
  | _ => False

def Cabin.shift (c : Cabin cfg) (f : cfg.Floor) : ℤ :=
  c.moving.elim 0 (fun p => p.2.shift p.1.toFloor f)

def Cabin.Rechecks (c : Cabin cfg) (f : cfg.Floor) : Prop :=
  ∃ req pc, c.moving = some (req, pc) ∧ pc.rechecks f

theorem MovePc.neg_one_le_shift (toFloor f : cfg.Floor) (pc : MovePc cfg) :
    -1 ≤ pc.shift toFloor f := by
  cases pc with
  | entering old nowEmpty =>
    simp only [MovePc.shift]
    split_ifs <;> omega
  | arriving old nowEmpty =>
    simp only [MovePc.shift]
    split_ifs <;> omega
  | start | leaving | rechecking | done => simp [MovePc.shift]

theorem Cabin.neg_one_le_shift (c : Cabin cfg) (f : cfg.Floor) : -1 ≤ c.shift f := by
  cases hmoving : c.moving with
  | none => simp [Cabin.shift, hmoving]
  | some p => simpa [Cabin.shift, hmoving] using MovePc.neg_one_le_shift p.1.toFloor f p.2

namespace Traffic

def place (nextSlot : ℕ) (currentFloor : Fin maxCarriers → cfg.Floor) (k : Fin maxCarriers) :
    Option cfg.Floor :=
  if k.val < nextSlot then some (currentFloor k) else none

def population (place : Fin maxCarriers → Option cfg.Floor) (f : cfg.Floor) : ℤ :=
  ∑ k, if place k = some f then 1 else 0

structure Counted (t : Traffic cfg) : Prop where
  counts : ∀ f, t.census.carrierCount f = population (place t.nextSlot t.census.currentFloor) f +
    ∑ e, (t.cabins e).shift f
  noticed : ∀ f, t.census.carrierCount f = 0 → t.census.respawnPending f = true ∨
    (∃ e, (t.cabins e).Rechecks f) ∨ t.awaited f

theorem population_update (place : Fin maxCarriers → Option cfg.Floor) (k : Fin maxCarriers)
    (x : Option cfg.Floor) (f : cfg.Floor) :
    population (Function.update place k x) f + (if place k = some f then 1 else 0) =
      population place f + if x = some f then 1 else 0 :=
  sum_update_add (fun _ x => if x = some f then (1 : ℤ) else 0) place k x

theorem place_update {nextSlot : ℕ} {slot : Fin maxCarriers} (hslot : slot.val < nextSlot)
    (currentFloor : Fin maxCarriers → cfg.Floor) (f : cfg.Floor) :
    place nextSlot (Function.update currentFloor slot f) =
      Function.update (place nextSlot currentFloor) slot (some f) := by
  funext k
  by_cases hk : k = slot
  · subst hk
    simp [place, hslot]
  · simp [place, Function.update_of_ne hk]

theorem population_eq_card (place : Fin maxCarriers → Option cfg.Floor) (f : cfg.Floor) :
    population place f = (Finset.univ.filter (fun k => place k = some f)).card := by
  rw [population, Finset.natCast_card_filter]

/-- A move that has left a floor is that of a carrier still assigned to it. -/
theorem Sound.place_of_shift {t : Traffic cfg} (h : t.Sound) {e : Shaft} {f : cfg.Floor}
    (hshift : (t.cabins e).shift f < 0) :
    ∃ req pc, (t.cabins e).moving = some (req, pc) ∧
      place t.nextSlot t.census.currentFloor req.carrierSlot = some f := by
  cases hmoving : (t.cabins e).moving with
  | none => simp [Cabin.shift, hmoving] at hshift
  | some p =>
    obtain ⟨req, pc⟩ := p
    have hriding := h.riding e req pc hmoving
    have hpresent := h.present (mem_journeys_of_moving hmoving)
    refine ⟨req, pc, rfl, ?_⟩
    simp only [place, hpresent, ↓reduceIte, Option.some.injEq]
    simp only [Cabin.shift, hmoving, Option.elim_some] at hshift
    cases pc with
    | entering old nowEmpty =>
      simp only [MovePc.shift] at hshift
      split_ifs at hshift with hold
      · exact hriding.2.1.symm.trans hold
      · omega
    | arriving old nowEmpty =>
      simp only [MovePc.shift] at hshift
      by_cases hold : old = f
      · exact hriding.2.1.symm.trans hold
      · rw [if_neg hold] at hshift
        split_ifs at hshift <;> omega
    | start | leaving | rechecking | done => simp [MovePc.shift] at hshift

theorem Counted.nonneg {t : Traffic cfg} (hc : t.Counted) (h : t.Sound) (f : cfg.Floor) :
    0 ≤ t.census.carrierCount f := by
  have hd := Cabin.neg_one_le_shift (t.cabins .delivery) f
  have hr := Cabin.neg_one_le_shift (t.cabins .reposition) f
  rw [hc.counts, Shaft.sum_eq, population_eq_card]
  -- each move that has left the floor has a carrier of its own still assigned to it
  by_cases hdneg : (t.cabins .delivery).shift f < 0 <;>
    by_cases hrneg : (t.cabins .reposition).shift f < 0
  · obtain ⟨req, pc, hmoving, hplace⟩ := h.place_of_shift hdneg
    obtain ⟨req', pc', hmoving', hplace'⟩ := h.place_of_shift hrneg
    have hne := h.moving_ne (by decide) hmoving hmoving'
    have htwo :
        1 < (Finset.univ.filter (fun k => place t.nextSlot t.census.currentFloor k = some f)).card :=
      Finset.one_lt_card.mpr ⟨_, by simpa using hplace', _, by simpa using hplace, hne⟩
    omega
  · obtain ⟨req, pc, hmoving, hplace⟩ := h.place_of_shift hdneg
    have hone :
        0 < (Finset.univ.filter (fun k => place t.nextSlot t.census.currentFloor k = some f)).card :=
      Finset.card_pos.mpr ⟨_, by simpa using hplace⟩
    omega
  · obtain ⟨req, pc, hmoving, hplace⟩ := h.place_of_shift hrneg
    have hone :
        0 < (Finset.univ.filter (fun k => place t.nextSlot t.census.currentFloor k = some f)).card :=
      Finset.card_pos.mpr ⟨_, by simpa using hplace⟩
    omega
  · omega

theorem Counted.congr {t t' : Traffic cfg} (hc : t.Counted) (hcensus : t'.census = t.census)
    (hnext : t'.nextSlot = t.nextSlot)
    (hshift : ∀ e f, (t'.cabins e).shift f = (t.cabins e).shift f)
    (hcheck : ∀ e f, (t.cabins e).Rechecks f → (t'.cabins e).Rechecks f)
    (hawaited : ∀ f, t.awaited f → t'.awaited f) : t'.Counted := by
  refine ⟨?_, ?_⟩
  · intro f
    rw [hcensus, hnext, hc.counts]
    simp only [hshift]
  · intro f hzero
    rw [hcensus] at hzero ⊢
    rcases hc.noticed f hzero with hpend | ⟨e, he⟩ | hf
    · exact .inl hpend
    · exact .inr (.inl ⟨e, hcheck e f he⟩)
    · exact .inr (.inr (hawaited f hf))

theorem Counted.recabin {t : Traffic cfg} (hc : t.Counted) {e : Shaft} {c : Cabin cfg}
    {phase : Fin maxCarriers → Phase cfg} {sem : Fin maxCarriers → ℕ}
    (hshift : ∀ f, c.shift f = (t.cabins e).shift f)
    (hcheck : ∀ f, (t.cabins e).Rechecks f → c.Rechecks f) :
    Counted { t with
      cabins := Function.update t.cabins e c, phase := phase, eventSem := sem } := by
  refine hc.congr rfl rfl ?_ ?_ (fun _ hf => hf)
  · intro e' f
    by_cases he : e' = e
    · subst he
      simpa using hshift f
    · simp [Function.update_of_ne he]
  · intro e' f
    by_cases he : e' = e
    · subst he
      simpa using hcheck f
    · simp [Function.update_of_ne he]

theorem Counted.spawn {t : Traffic cfg} (hc : t.Counted) (h : t.Sound) {slot : Fin maxCarriers}
    {f : cfg.Floor} {awaited : cfg.Floor → Prop} (hslot : t.nextSlot = slot.val)
    (hawaited : ∀ g, g ≠ f → t.awaited g → awaited g) (phase : Fin maxCarriers → Phase cfg) :
    Counted { t with
      nextSlot := slot.val + 1
      phase := phase
      census := { carrierCount :=
                    Function.update t.census.carrierCount f (t.census.carrierCount f + 1)
                  respawnPending := Function.update t.census.respawnPending f false
                  currentFloor := Function.update t.census.currentFloor slot f }
      awaited := awaited } := by
  have hplace : place (slot.val + 1) (Function.update t.census.currentFloor slot f) =
      Function.update (place t.nextSlot t.census.currentFloor) slot (some f) := by
    funext k
    by_cases hk : k = slot
    · subst hk
      simp [place]
    · have hval : k.val ≠ slot.val := fun heq => hk (Fin.ext heq)
      have hlt : k.val < slot.val + 1 ↔ k.val < t.nextSlot := by omega
      simp [place, Function.update_of_ne hk, hlt]
  have hfree : place t.nextSlot t.census.currentFloor slot = none := by simp [place, hslot]
  refine ⟨?_, ?_⟩
  · intro g
    have hmore :=
      population_update (place t.nextSlot t.census.currentFloor) slot (some f) g
    rw [hfree, if_neg (by simp), add_zero] at hmore
    rw [hplace, hmore]
    have hcounts := hc.counts g
    by_cases hg : g = f
    · subst hg
      simp only [Function.update_self, ↓reduceIte]
      omega
    · simp only [Function.update_of_ne hg, Option.some.injEq, Ne.symm hg, ↓reduceIte, add_zero]
      exact hcounts
  · intro g hzero
    have hnonneg := hc.nonneg h g
    by_cases hg : g = f
    · subst hg
      simp only [Function.update_self] at hzero
      omega
    · simp only [Function.update_of_ne hg] at hzero ⊢
      rcases hc.noticed g hzero with hpend | hcheck | hf
      · exact .inl hpend
      · exact .inr (.inl hcheck)
      · exact .inr (.inr (hawaited g hg hf))

/-! ### One section of a move -/

section Move
variable {t : Traffic cfg} {e : Shaft} {req : cfg.Reposition} {queue : Multiset cfg.Reposition}

theorem Counted.advance {census : Census cfg} {pc pc' : MovePc cfg} (hc : t.Counted)
    (hcabin : t.cabins e = { queue := queue, moving := some (req, pc) })
    (hcounts : ∀ f, census.carrierCount f - population (place t.nextSlot census.currentFloor) f -
        pc'.shift req.toFloor f =
      t.census.carrierCount f - population (place t.nextSlot t.census.currentFloor) f -
        pc.shift req.toFloor f)
    (hnoticed : ∀ f, census.carrierCount f = 0 → census.respawnPending f = true ∨
      pc'.rechecks f ∨ (t.census.carrierCount f = 0 ∧ t.census.respawnPending f = false ∧
        ¬ pc.rechecks f)) :
    Counted { t with
      census := census
      cabins := Function.update t.cabins e { queue := queue, moving := some (req, pc') } } := by
  refine ⟨?_, ?_⟩
  · intro f
    have hsum := sum_update_add (fun _ c => Cabin.shift c f) t.cabins e
      { queue := queue, moving := some (req, pc') }
    have hold : (t.cabins e).shift f = pc.shift req.toFloor f := by rw [hcabin]; rfl
    have hnew : Cabin.shift { queue := queue, moving := some (req, pc') } f =
      pc'.shift req.toFloor f := rfl
    have hprior := hc.counts f
    have hsection := hcounts f
    change census.carrierCount f = population (place t.nextSlot census.currentFloor) f +
      ∑ e', (Function.update t.cabins e { queue := queue, moving := some (req, pc') } e').shift f
    rw [hold, hnew] at hsum
    omega
  · intro f hzero
    rcases hnoticed f hzero with hpend | hcheck | ⟨hold, hunmarked, hpc⟩
    · exact .inl hpend
    · exact .inr (.inl ⟨e, req, pc', by simp, hcheck⟩)
    · rcases hc.noticed f hold with hmarked | ⟨e', hcheck⟩ | hf
      · rw [hunmarked] at hmarked
        cases hmarked
      · have he : e' ≠ e := by
          rintro rfl
          obtain ⟨r, m, hmoving, hm⟩ := hcheck
          rw [hcabin] at hmoving
          cases hmoving
          exact hpc hm
        exact .inr (.inl ⟨e', by simpa [Function.update_of_ne he] using hcheck⟩)
      · exact .inr (.inr hf)

theorem noticed_of_same {census : Census cfg} {pc pc' : MovePc cfg} {f : cfg.Floor}
    (hcount : census.carrierCount f = t.census.carrierCount f)
    (hpend : census.respawnPending f = t.census.respawnPending f)
    (hcheck : pc.rechecks f → pc'.rechecks f) (hzero : census.carrierCount f = 0) :
    census.respawnPending f = true ∨ pc'.rechecks f ∨
      (t.census.carrierCount f = 0 ∧ t.census.respawnPending f = false ∧ ¬ pc.rechecks f) := by
  rw [hcount] at hzero
  rw [hpend]
  by_cases hpc : pc.rechecks f
  · exact .inr (.inl (hcheck hpc))
  · cases hmark : t.census.respawnPending f with
    | true => exact .inl rfl
    | false => exact .inr (.inr ⟨hzero, rfl, hpc⟩)

theorem counts_move {pc : MovePc cfg} (h : t.Sound) (hmoving : (t.cabins e).moving = some (req, pc))
    (f : cfg.Floor) :
    (t.census.move req.carrierSlot req.toFloor pc).1.carrierCount f -
        population (place t.nextSlot
          (t.census.move req.carrierSlot req.toFloor pc).1.currentFloor) f -
        (t.census.move req.carrierSlot req.toFloor pc).2.shift req.toFloor f =
      t.census.carrierCount f - population (place t.nextSlot t.census.currentFloor) f -
        pc.shift req.toFloor f := by
  have hriding := h.riding e req pc hmoving
  cases pc with
  | start =>
    simp only [Census.move]
    split_ifs <;> rfl
  | leaving old =>
    simp only [Census.move, MovePc.shift]
    by_cases hf : f = old
    · subst hf
      simp only [Function.update_self, ↓reduceIte]
      omega
    · simp only [Function.update_of_ne hf, Ne.symm hf, ↓reduceIte]
      omega
  | entering old nowEmpty =>
    simp only [Census.move, MovePc.shift]
    by_cases hf : f = req.toFloor
    · subst hf
      simp only [Function.update_self, ↓reduceIte]
      omega
    · simp only [Function.update_of_ne hf, Ne.symm hf, ↓reduceIte]
      omega
  | arriving old nowEmpty =>
    obtain ⟨-, rfl, -⟩ := hriding
    have hpresent := h.present (mem_journeys_of_moving hmoving)
    have hmore := population_update (place t.nextSlot t.census.currentFloor) req.carrierSlot
      (some req.toFloor) f
    rw [← place_update hpresent] at hmore
    have hplace : place t.nextSlot t.census.currentFloor req.carrierSlot =
      some (t.census.currentFloor req.carrierSlot) := if_pos hpresent
    rw [hplace] at hmore
    simp only [Option.some.injEq] at hmore
    have hshift : MovePc.shift req.toFloor f (if nowEmpty = true then
        .rechecking (t.census.currentFloor req.carrierSlot) else .done) = 0 := by
      split_ifs <;> rfl
    simp only [Census.move]
    rw [hshift]
    simp only [MovePc.shift]
    omega
  | rechecking old =>
    simp only [Census.move]
    split_ifs <;> rfl
  | done => rfl

/-- A section that empties a floor marks it or checks it once more. -/
theorem noticed_move {pc : MovePc cfg} (hc : t.Counted) (h : t.Sound) (f : cfg.Floor) :
    (t.census.move req.carrierSlot req.toFloor pc).1.carrierCount f = 0 →
      (t.census.move req.carrierSlot req.toFloor pc).1.respawnPending f = true ∨
        (t.census.move req.carrierSlot req.toFloor pc).2.rechecks f ∨
        (t.census.carrierCount f = 0 ∧ t.census.respawnPending f = false ∧ ¬ pc.rechecks f) := by
  cases pc with
  | start => exact noticed_of_same rfl rfl False.elim
  | leaving old =>
    by_cases hf : f = old
    · subst hf
      intro hzero
      have hlast : t.census.carrierCount f - 1 = 0 := by simpa [Census.move] using hzero
      exact .inr (.inl ⟨by simpa using hlast, rfl⟩)
    · exact noticed_of_same (Function.update_of_ne hf _ _) rfl False.elim
  | entering old nowEmpty =>
    by_cases hf : f = req.toFloor
    · subst hf
      intro hzero
      have hnonneg := hc.nonneg h req.toFloor
      simp only [Census.move, Function.update_self] at hzero
      omega
    · exact noticed_of_same (Function.update_of_ne hf _ _) (Function.update_of_ne hf _ _) id
  | arriving old nowEmpty =>
    refine noticed_of_same rfl rfl ?_
    rintro ⟨rfl, rfl⟩
    rfl
  | rechecking old =>
    by_cases hf : f = old
    · subst hf
      simp only [Census.move]
      split_ifs with hmark
      · exact fun _ => .inl (Function.update_self _ _ _)
      · intro hzero
        have hmarked : t.census.respawnPending f ≠ false := fun hfalse => hmark ⟨hzero, hfalse⟩
        exact .inl (by simpa using hmarked)
    · refine noticed_of_same ?_ ?_ (fun hold => absurd hold (Ne.symm hf))
      · simp only [Census.move]
        split_ifs <;> rfl
      · simp only [Census.move]
        split_ifs
        · exact Function.update_of_ne hf _ _
        · rfl
  | done => exact noticed_of_same rfl rfl id

theorem Counted.move {pc : MovePc cfg} (hc : t.Counted) (h : t.Sound)
    (hcabin : t.cabins e = { queue := queue, moving := some (req, pc) }) :
    Counted { t with
      census := (t.census.move req.carrierSlot req.toFloor pc).1
      cabins := Function.update t.cabins e { queue := queue
                                             moving := some (req,
        (t.census.move req.carrierSlot req.toFloor pc).2) } } := by
  have hmoving : (t.cabins e).moving = some (req, pc) := by rw [hcabin]
  exact hc.advance hcabin (counts_move h hmoving) (noticed_move hc h)

end Move

theorem Counted.step {t t' : Traffic cfg} (hc : t.Counted) (h : t.Sound) (hs : t.Step t') :
    t'.Counted := by
  cases hs with
  | quiet awaited hmore => exact hc.congr rfl rfl (fun _ _ => rfl) (fun _ _ hr => hr) hmore
  | start | leave | rest | overflow | wake | stop | alarm =>
    exact hc.congr rfl rfl (fun _ _ => rfl) (fun _ _ hr => hr) (fun _ hf => hf)
  | request e toFloor => exact hc.recabin (fun _ => rfl) (fun _ hr => hr)
  | board e hcabin =>
    refine hc.recabin (fun f => ?_) ?_
    · rw [hcabin]
      rfl
    · rintro f ⟨r, pc, hmoving, -⟩
      rw [hcabin] at hmoving
      cases hmoving
  | move e hcabin => exact hc.move h hcabin
  | signal e hcabin =>
    refine hc.recabin (fun f => ?_) ?_
    · rw [hcabin]
      rfl
    · rintro f ⟨r, pc, hmoving, hpc⟩
      rw [hcabin] at hmoving
      cases hmoving
      exact absurd hpc id
  | spawn slot f awaited hslot hmore => exact hc.spawn h hslot hmore _

end Traffic

/-! ### The census of the building -/

theorem counted_init (cfg : Config) : (traffic (init cfg)).Counted := by
  refine ⟨?_, ?_⟩
  · intro f
    have hshift : ∑ e, ((traffic (init cfg)).cabins e).shift f = 0 := by
      rw [Shaft.sum_eq]
      rfl
    rw [hshift]
    simp [Traffic.population, Traffic.place, traffic, census, init]
  · intro f _
    refine .inr (.inr (.inl ⟨startJobs cfg, rfl, ?_⟩))
    have hletters := cfg.letterCarriers_pos
    simp [startJobs]
    omega

theorem counted_reachable {s : State cfg} (h : (building cfg).Reachable s) :
    (traffic s).Counted :=
  (traffic_reachable h (counted_init cfg) (fun _ _ hsound hc hs => hc.step hsound hs)).2

/-- The elevator is between the first and the last section of `move_carrier_between_floors`. -/
def ElevatorPc.midMove {ρ : Type} : ElevatorPc cfg ρ → Bool
  | .moving _ _ (.entering _ _) => true
  | .moving _ _ (.arriving _ _) => true
  | .moving _ _ (.rechecking _) => true
  | _ => false

/-- `main` forks the reposition elevator after all other processes. -/
def Spawned (s : State cfg) : Prop := s.repositionElevator ≠ .notStarted

def carriersOn (s : State cfg) (f : cfg.Floor) : Finset (Fin maxCarriers) :=
  Finset.univ.filter (fun k => k.val < s.nextCarrierSlot.val ∧ s.currentFloor k = f)

section Cabins
variable {ρ : Type} {request : ρ → cfg.Reposition} {table : RequestTable ρ}

theorem cabin_shift_of_still {pc : ElevatorPc cfg ρ} (h : pc.midMove = false) (f : cfg.Floor) :
    (cabin request table pc).shift f = 0 := by
  cases pc with
  | moving req rest m => cases m <;> first | rfl | cases h
  | notStarted | head | waiting | woken | serving | exited => rfl

theorem not_rechecks_of_still {pc : ElevatorPc cfg ρ} (h : pc.midMove = false) (f : cfg.Floor) :
    ¬ (cabin request table pc).Rechecks f := by
  rintro ⟨r, m, hmoving, hcheck⟩
  cases pc with
  | moving req rest m' =>
    cases hmoving
    cases m' <;> first | exact hcheck | cases h
  | notStarted | head | waiting | woken | serving | exited => cases hmoving

end Cabins

theorem not_awaited_of_spawned {s : State cfg} (h : (building cfg).Reachable s) (hs : Spawned s)
    (f : cfg.Floor) : ¬ awaited s f := by
  rintro (⟨jobs, hpc, hmem⟩ | ⟨-, hfirst⟩)
  · cases jobs with
    | nil => simp at hmem
    | cons job jobs =>
      exact hs (reposition_notStarted (startInvariant_reachable h)
          (parentInvariant_reachable h) hpc)
  · exact hs hfirst

theorem carrierCount_eq {s : State cfg} (h : (building cfg).Reachable s)
    (hd : s.deliveryElevator.midMove = false) (hr : s.repositionElevator.midMove = false)
    (f : cfg.Floor) : s.carrierCount f = (carriersOn s f).card := by
  have hcounts := (counted_reachable h).counts f
  rw [Shaft.sum_eq, Traffic.population_eq_card] at hcounts
  have hshift : ((traffic s).cabins .delivery).shift f + ((traffic s).cabins .reposition).shift f =
      0 := by
    simp only [traffic, Shaft.both, cabin_shift_of_still hd, cabin_shift_of_still hr, add_zero]
  rw [hshift, add_zero] at hcounts
  have hsame : Finset.univ.filter (fun k => Traffic.place (traffic s).nextSlot
      (traffic s).census.currentFloor k = some f) = carriersOn s f := by
    ext k
    rw [carriersOn, Finset.mem_filter, Finset.mem_filter]
    by_cases hk : k.val < s.nextCarrierSlot.val <;> simp [Traffic.place, traffic, census, hk]
  rw [hsame] at hcounts
  exact hcounts

theorem respawnPending_of_empty {s : State cfg} (h : (building cfg).Reachable s) (hs : Spawned s)
    (hd : s.deliveryElevator.midMove = false) (hr : s.repositionElevator.midMove = false)
    {f : cfg.Floor} (hzero : s.carrierCount f = 0) : s.respawnPending f = true := by
  rcases (counted_reachable h).noticed f hzero with hpend | ⟨e, hcheck⟩ | hf
  · exact hpend
  · cases e with
    | delivery => exact absurd hcheck (not_rechecks_of_still hd f)
    | reposition => exact absurd hcheck (not_rechecks_of_still hr f)
  · exact absurd hf (not_awaited_of_spawned h hs f)

theorem sum_carriersOn (s : State cfg) : ∑ f, (carriersOn s f).card = s.nextCarrierSlot.val := by
  have hlimit := s.nextCarrierSlot.isLt
  have hall : (Finset.univ.filter (fun k : Fin maxCarriers => k.val < s.nextCarrierSlot.val)).card =
      s.nextCarrierSlot.val := by
    rw [Fin.card_filter_val_lt]
    omega
  rw [← hall, Finset.card_eq_sum_card_fiberwise (f := s.currentFloor) (t := Finset.univ)
    (fun _ _ => by simp)]
  exact Finset.sum_congr rfl (fun f _ => by rw [Finset.filter_filter]; rfl)

/-- Between moves the counts are those of the carriers, and an empty floor is marked. -/
theorem carrier_census {s : State cfg} (h : (building cfg).Reachable s) (hs : Spawned s)
    (hd : s.deliveryElevator.midMove = false) (hr : s.repositionElevator.midMove = false) :
    (∀ f, s.carrierCount f = (carriersOn s f).card) ∧
    ∑ f, s.carrierCount f = s.nextCarrierSlot.val ∧
    ∀ f, s.carrierCount f = 0 → s.respawnPending f = true := by
  have hcounts := carrierCount_eq h hd hr
  refine ⟨hcounts, ?_, fun f hzero => respawnPending_of_empty h hs hd hr hzero⟩
  simp only [hcounts]
  rw [← sum_carriersOn s, Nat.cast_sum]

def twoFloors : Config where
  numFloors := 2
  wordCarriersPerFloor := 1
  letterCarriersPerFloor := 1
  sortingProcessesPerFloor := 1
  maxWordsPerFloor := 1
  deliveryCapacity := 1
  repositionCapacity := 1
  words := [(['a'], ⟨0, Nat.two_pos⟩)]
  numFloors_pos := Nat.two_pos
  numFloors_le := by decide
  wordCarriers_pos := Nat.one_pos
  letterCarriers_pos := Nat.one_pos
  sorters_pos := Nat.one_pos
  maxWords_pos := Nat.one_pos
  delivery_pos := Nat.one_pos
  reposition_pos := Nat.one_pos
  words_pos := Nat.one_pos
  words_le := by decide
  words_valid := by decide

end SysProg.HW3

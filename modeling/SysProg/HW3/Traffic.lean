import Mathlib.Algebra.Order.BigOperators.Group.Finset
import SysProg.HW3.System

/-!
# The traffic of carriers between floors

What the building does to its carriers, without the words. A carrier that asks
an elevator for a ride waits until that elevator has moved and signalled it.
The requests of an elevator are those in its table and those of its batch that
it has not begun. Both elevators move a carrier in the same sections, and the
parent adds carriers.

The balance of tickets is the main invariant: until the shutdown a carrier that
waits has one journey or one signal, and any other carrier has neither.
-/

open scoped BigOperators
namespace SysProg.HW3
open SysProg.Lib
variable {cfg : Config}

inductive Shaft where
  | delivery
  | reposition
  deriving DecidableEq

instance : Fintype Shaft where
  elems := {.delivery, .reposition}
  complete := by
    intro e
    cases e <;> simp

theorem Shaft.sum_eq {N : Type*} [AddCommMonoid N] (g : Shaft → N) :
    ∑ e, g e = g .delivery + g .reposition :=
  Finset.sum_pair (by decide)

inductive Phase (cfg : Config) where
  | absent
  | head
  | working (floor : cfg.Floor)
  | awaiting
  | overflowed
  | exited
  deriving DecidableEq

def LetterCarrierPc.phase : LetterCarrierPc cfg → Phase cfg
  | .notStarted => .absent
  | .head => .head
  | .scanning floor _ => .working floor
  | .locking floor _ _ => .working floor
  | .idle floor => .working floor
  | .requesting floor => .working floor
  | .holding floor _ _ => .working floor
  | .repositionPost => .awaiting
  | .deliveryPost => .awaiting
  | .waiting => .awaiting
  | .overflowed _ => .overflowed
  | .exited => .exited

structure Cabin (cfg : Config) where
  queue : Multiset cfg.Reposition
  moving : Option (cfg.Reposition × MovePc cfg)

def Cabin.journeys (c : Cabin cfg) : Multiset cfg.Reposition :=
  c.queue + entry (c.moving.map Prod.fst)

structure Census (cfg : Config) where
  carrierCount : cfg.Floor → ℤ
  respawnPending : cfg.Floor → Bool
  currentFloor : Fin maxCarriers → cfg.Floor

def Census.move (c : Census cfg) (slot : Fin maxCarriers) (toFloor : cfg.Floor) :
    MovePc cfg → Census cfg × MovePc cfg
  | .start => (c, if c.currentFloor slot = toFloor then .done else .leaving (c.currentFloor slot))
  | .leaving old =>
    ({ c with carrierCount := Function.update c.carrierCount old (c.carrierCount old - 1) },
      .entering old (decide (c.carrierCount old - 1 = 0)))
  | .entering old nowEmpty =>
    ({ c with
      carrierCount := Function.update c.carrierCount toFloor (c.carrierCount toFloor + 1)
      respawnPending := Function.update c.respawnPending toFloor false }, .arriving old nowEmpty)
  | .arriving old nowEmpty =>
    ({ c with currentFloor := Function.update c.currentFloor slot toFloor },
      if nowEmpty then .rechecking old else .done)
  | .rechecking old =>
    (if c.carrierCount old = 0 ∧ c.respawnPending old = false then
      { c with respawnPending := Function.update c.respawnPending old true } else c, .done)
  | .done => (c, .done)

theorem Census.move_currentFloor (c : Census cfg) (slot : Fin maxCarriers) (toFloor : cfg.Floor)
    (pc : MovePc cfg) {k : Fin maxCarriers} (hk : k ≠ slot) :
    (c.move slot toFloor pc).1.currentFloor k = c.currentFloor k := by
  cases pc with
  | arriving old nowEmpty => exact Function.update_of_ne hk _ _
  | rechecking old =>
    simp only [Census.move]
    split_ifs <;> rfl
  | start | leaving | entering | done => rfl

/-- `awaited` are the floors whose first carriers are still to be started. -/
structure Traffic (cfg : Config) where
  cabins : Shaft → Cabin cfg
  phase : Fin maxCarriers → Phase cfg
  census : Census cfg
  eventSem : Fin maxCarriers → ℕ
  nextSlot : ℕ
  shutdown : Bool
  awaited : cfg.Floor → Prop

namespace Traffic

def journeys (cabins : Shaft → Cabin cfg) : Multiset cfg.Reposition := ∑ e, (cabins e).journeys

def outstanding (cabins : Shaft → Cabin cfg) (k : Fin maxCarriers) : ℕ :=
  (journeys cabins).countP (fun req => req.carrierSlot = k)

inductive Step (t : Traffic cfg) : Traffic cfg → Prop where
  | quiet (awaited : cfg.Floor → Prop) : (∀ f, t.awaited f → awaited f) →
      Step t { t with awaited := awaited }
  | start {k : Fin maxCarriers} : t.phase k = .head → t.shutdown = false →
      Step t { t with
        phase := Function.update t.phase k (.working (t.census.currentFloor k)) }
  | leave {k : Fin maxCarriers} : t.phase k = .head ∨ (∃ f, t.phase k = .working f) →
      Step t { t with phase := Function.update t.phase k .exited }
  | rest {k : Fin maxCarriers} {f : cfg.Floor} : t.phase k = .working f →
      Step t { t with phase := Function.update t.phase k .head }
  | request {k : Fin maxCarriers} {f : cfg.Floor} (e : Shaft) (toFloor : cfg.Floor) :
      t.phase k = .working f →
      Step t { t with
        cabins := Function.update t.cabins e
          { queue := (t.cabins e).queue +
              {{ carrierSlot := k, fromFloor := f, toFloor := toFloor }}
            moving := (t.cabins e).moving }
        phase := Function.update t.phase k .awaiting }
  | overflow {k : Fin maxCarriers} {f : cfg.Floor} (e : Shaft) : t.phase k = .working f →
      maxRequests ≤ (t.cabins e).queue.card →
      Step t { t with phase := Function.update t.phase k .overflowed }
  | wake {k : Fin maxCarriers} : t.phase k = .awaiting → 0 < t.eventSem k →
      Step t { t with
        eventSem := Function.update t.eventSem k (t.eventSem k - 1)
        phase := Function.update t.phase k .head }
  | board {req : cfg.Reposition} {queue : Multiset cfg.Reposition} (e : Shaft) :
      t.cabins e = { queue := queue + {req}, moving := none } →
      Step t { t with
        cabins := Function.update t.cabins e { queue := queue, moving := some (req, .start) } }
  | move {req : cfg.Reposition} {queue : Multiset cfg.Reposition} {pc : MovePc cfg} (e : Shaft) :
      t.cabins e = { queue := queue, moving := some (req, pc) } → pc ≠ .done →
      Step t { t with
        census := (t.census.move req.carrierSlot req.toFloor pc).1
        cabins := Function.update t.cabins e { queue := queue
                                               moving := some (req,
          (t.census.move req.carrierSlot req.toFloor pc).2) } }
  | signal {req : cfg.Reposition} {queue : Multiset cfg.Reposition} (e : Shaft) :
      t.cabins e = { queue := queue, moving := some (req, .done) } →
      Step t { t with
        eventSem := Function.update t.eventSem req.carrierSlot (t.eventSem req.carrierSlot + 1)
        cabins := Function.update t.cabins e { queue := queue, moving := none } }
  | spawn (slot : Fin maxCarriers) (f : cfg.Floor) (awaited : cfg.Floor → Prop) :
      t.nextSlot = slot.val → (∀ g, g ≠ f → t.awaited g → awaited g) →
      Step t { t with
        nextSlot := slot.val + 1
        phase := Function.update t.phase slot .head
        census := { carrierCount :=
                      Function.update t.census.carrierCount f (t.census.carrierCount f + 1)
                    respawnPending := Function.update t.census.respawnPending f false
                    currentFloor := Function.update t.census.currentFloor slot f }
        awaited := awaited }
  | stop : Step t { t with shutdown := true }
  | alarm (k : Fin maxCarriers) : t.shutdown = true →
      Step t { t with eventSem := Function.update t.eventSem k (t.eventSem k + 1) }

/-! ### Tickets -/

structure Ticket (shutdown : Bool) (phase : Phase cfg) (outstanding sem : ℕ) : Prop where
  balance : shutdown = false → outstanding + sem = if phase = .awaiting then 1 else 0
  once : outstanding ≤ 1
  free : phase = .absent ∨ (∃ f, phase = .working f) → outstanding = 0
  fits : phase ≠ .overflowed

/-- How far the request of a carrier tells where the carrier is. -/
def Riding (req : cfg.Reposition) (current : cfg.Floor) : MovePc cfg → Prop
  | .start => req.fromFloor = current
  | .leaving old => req.fromFloor = current ∧ old = current ∧ current ≠ req.toFloor
  | .entering old _ => req.fromFloor = current ∧ old = current ∧ current ≠ req.toFloor
  | .arriving old _ => req.fromFloor = current ∧ old = current ∧ current ≠ req.toFloor
  | .rechecking _ => current = req.toFloor
  | .done => current = req.toFloor

structure Sound (t : Traffic cfg) : Prop where
  tickets : ∀ k, Ticket t.shutdown (t.phase k) (outstanding t.cabins k) (t.eventSem k)
  slots : ∀ k : Fin maxCarriers, t.nextSlot ≤ k.val → t.phase k = .absent
  standing : ∀ k f, t.phase k = .working f → t.census.currentFloor k = f
  queued : ∀ e, ∀ req ∈ (t.cabins e).queue,
    req.fromFloor = t.census.currentFloor req.carrierSlot
  riding : ∀ e req pc, (t.cabins e).moving = some (req, pc) →
    Riding req (t.census.currentFloor req.carrierSlot) pc

theorem outstanding_eq (cabins : Shaft → Cabin cfg) (k : Fin maxCarriers) :
    outstanding cabins k = (cabins .delivery).journeys.countP (fun req => req.carrierSlot = k) +
      (cabins .reposition).journeys.countP (fun req => req.carrierSlot = k) := by
  rw [outstanding, journeys, Shaft.sum_eq, Multiset.countP_add]

theorem outstanding_update (cabins : Shaft → Cabin cfg) (e : Shaft) (c : Cabin cfg)
    (k : Fin maxCarriers) :
    outstanding (Function.update cabins e c) k +
        (cabins e).journeys.countP (fun req => req.carrierSlot = k) =
      outstanding cabins k + c.journeys.countP (fun req => req.carrierSlot = k) := by
  have hsum := sum_update_add (fun _ => Cabin.journeys) cabins e c
  rw [outstanding, outstanding, journeys, journeys, ← Multiset.countP_add, ← Multiset.countP_add,
    hsum]

theorem outstanding_request (cabins : Shaft → Cabin cfg) (e : Shaft) (req : cfg.Reposition)
    (k : Fin maxCarriers) :
    outstanding (Function.update cabins e
        { queue := (cabins e).queue + {req}, moving := (cabins e).moving }) k =
      outstanding cabins k + if req.carrierSlot = k then 1 else 0 := by
  have hcount := outstanding_update cabins e
    { queue := (cabins e).queue + {req}, moving := (cabins e).moving } k
  have hjourneys : Cabin.journeys
      { queue := (cabins e).queue + {req}, moving := (cabins e).moving } =
      req ::ₘ (cabins e).journeys := by
    simp only [Cabin.journeys, ← Multiset.singleton_add]
    abel
  rw [hjourneys, Multiset.countP_cons] at hcount
  omega

theorem outstanding_signal {cabins : Shaft → Cabin cfg} {e : Shaft} {req : cfg.Reposition}
    {queue : Multiset cfg.Reposition} {pc : MovePc cfg}
    (h : cabins e = { queue := queue, moving := some (req, pc) }) (k : Fin maxCarriers) :
    outstanding (Function.update cabins e { queue := queue, moving := none }) k +
      (if req.carrierSlot = k then 1 else 0) = outstanding cabins k := by
  have hcount := outstanding_update cabins e { queue := queue, moving := none } k
  have hjourneys : (cabins e).journeys =
      req ::ₘ Cabin.journeys { queue := queue, moving := none } := by
    simp [h, Cabin.journeys, entry, ← Multiset.singleton_add, add_comm]
  rw [hjourneys, Multiset.countP_cons] at hcount
  omega

theorem outstanding_same {cabins : Shaft → Cabin cfg} {e : Shaft} {c : Cabin cfg}
    (h : c.journeys = (cabins e).journeys) :
    outstanding (Function.update cabins e c) = outstanding cabins := by
  funext k
  have hcount := outstanding_update cabins e c k
  rw [h] at hcount
  omega

theorem outstanding_pos {t : Traffic cfg} {e : Shaft} {req : cfg.Reposition}
    (h : req ∈ (t.cabins e).journeys) : 0 < outstanding t.cabins req.carrierSlot := by
  have hpos := Multiset.countP_pos_of_mem (p := fun r => r.carrierSlot = req.carrierSlot) h rfl
  rw [outstanding_eq]
  cases e <;> omega

theorem outstanding_shafts {t : Traffic cfg} {e e' : Shaft} {req req' : cfg.Reposition}
    (hne : e' ≠ e) (h : req ∈ (t.cabins e).journeys) (h' : req' ∈ (t.cabins e').journeys)
    (hslot : req'.carrierSlot = req.carrierSlot) : 2 ≤ outstanding t.cabins req.carrierSlot := by
  have hpos := Multiset.countP_pos_of_mem (p := fun r => r.carrierSlot = req.carrierSlot) h rfl
  have hpos' :=
    Multiset.countP_pos_of_mem (p := fun r => r.carrierSlot = req.carrierSlot) h' hslot
  rw [outstanding_eq]
  cases e <;> cases e' <;> first | exact absurd rfl hne | omega

theorem mem_journeys_of_moving {c : Cabin cfg} {req : cfg.Reposition} {pc : MovePc cfg}
    (h : c.moving = some (req, pc)) : req ∈ c.journeys := by
  simp [Cabin.journeys, h, entry]

theorem mem_journeys_of_queued {c : Cabin cfg} {req : cfg.Reposition} (h : req ∈ c.queue) :
    req ∈ c.journeys := Multiset.mem_add.mpr (.inl h)

theorem Sound.queued_ne {t : Traffic cfg} (h : t.Sound) {e e' : Shaft} {req req' : cfg.Reposition}
    {pc : MovePc cfg} (hmoving : (t.cabins e).moving = some (req, pc))
    (hqueued : req' ∈ (t.cabins e').queue) : req'.carrierSlot ≠ req.carrierSlot := by
  intro hslot
  have hride := mem_journeys_of_moving hmoving
  have honce := (h.tickets req.carrierSlot).once
  by_cases hshaft : e' = e
  · subst hshaft
    have hpos := Multiset.countP_pos_of_mem (p := fun r => r.carrierSlot = req.carrierSlot)
      hqueued hslot
    have hload : 2 ≤ (t.cabins e').journeys.countP (fun r => r.carrierSlot = req.carrierSlot) := by
      simp only [Cabin.journeys, hmoving, Option.map_some, entry, Multiset.countP_add,
        ← Multiset.cons_zero, Multiset.countP_cons, ↓reduceIte]
      omega
    rw [outstanding_eq] at honce
    cases e' <;> omega
  · have htwo := outstanding_shafts hshaft hride (mem_journeys_of_queued hqueued) hslot
    omega

theorem Sound.moving_ne {t : Traffic cfg} (h : t.Sound) {e e' : Shaft} {req req' : cfg.Reposition}
    {pc pc' : MovePc cfg} (hne : e' ≠ e) (hmoving : (t.cabins e).moving = some (req, pc))
    (hmoving' : (t.cabins e').moving = some (req', pc')) : req'.carrierSlot ≠ req.carrierSlot := by
  intro hslot
  have htwo := outstanding_shafts hne (mem_journeys_of_moving hmoving)
    (mem_journeys_of_moving hmoving') hslot
  have honce := (h.tickets req.carrierSlot).once
  omega

theorem Sound.not_working {t : Traffic cfg} (h : t.Sound) {e : Shaft} {req : cfg.Reposition}
    (hmem : req ∈ (t.cabins e).journeys) (f : cfg.Floor) :
    t.phase req.carrierSlot ≠ .working f := by
  intro hphase
  have hfree := (h.tickets req.carrierSlot).free (.inr ⟨f, hphase⟩)
  have hpos := outstanding_pos hmem
  omega

theorem Sound.present {t : Traffic cfg} (h : t.Sound) {e : Shaft} {req : cfg.Reposition}
    (hmem : req ∈ (t.cabins e).journeys) : req.carrierSlot.val < t.nextSlot := by
  by_contra hlate
  have hfree := (h.tickets req.carrierSlot).free (.inl (h.slots _ (by omega)))
  have hpos := outstanding_pos hmem
  omega

theorem card_eq_sum_countP (m : Multiset cfg.Reposition) :
    m.card = ∑ k, m.countP (fun req => req.carrierSlot = k) := by
  induction m using Multiset.induction with
  | empty => simp
  | cons req m ih => simp [Multiset.countP_cons, Finset.sum_add_distrib, ih]

theorem Sound.card_journeys {t : Traffic cfg} (h : t.Sound) :
    (journeys t.cabins).card ≤ maxCarriers := by
  rw [card_eq_sum_countP]
  calc ∑ k, (journeys t.cabins).countP (fun req => req.carrierSlot = k)
      ≤ ∑ _k : Fin maxCarriers, 1 := Finset.sum_le_sum (fun k _ => (h.tickets k).once)
    _ = maxCarriers := by simp

theorem Sound.card_queue {t : Traffic cfg} (h : t.Sound) (e : Shaft) :
    (t.cabins e).queue.card ≤ maxCarriers := by
  have htotal := h.card_journeys
  rw [journeys, Shaft.sum_eq, Multiset.card_add] at htotal
  simp only [Cabin.journeys, Multiset.card_add] at htotal
  cases e <;> omega

def Arrived (t : Traffic cfg) (req : cfg.Reposition) : Prop :=
  ∃ e pc, (t.cabins e).moving = some (req, pc) ∧ (pc = .done ∨ ∃ old, pc = .rechecking old)

theorem Sound.toFloor_of_arrived {t : Traffic cfg} (h : t.Sound) {req : cfg.Reposition}
    (harrived : t.Arrived req) : t.census.currentFloor req.carrierSlot = req.toFloor := by
  obtain ⟨e, pc, hmoving, rfl | ⟨old, rfl⟩⟩ := harrived <;> exact h.riding e req _ hmoving

theorem Sound.fromFloor_of_not_arrived {t : Traffic cfg} (h : t.Sound) {req : cfg.Reposition}
    (harrived : ¬ t.Arrived req) (hreq : req ∈ journeys t.cabins) :
    t.census.currentFloor req.carrierSlot = req.fromFloor := by
  rw [journeys, Multiset.mem_sum] at hreq
  obtain ⟨e, -, hreq⟩ := hreq
  rcases Multiset.mem_add.mp hreq with hqueued | hmover
  · exact (h.queued e req hqueued).symm
  · cases hmoving : (t.cabins e).moving with
    | none => simp [hmoving, entry] at hmover
    | some p =>
      obtain ⟨r, pc⟩ := p
      obtain rfl : req = r := by simpa [hmoving, entry] using hmover
      have hriding := h.riding e req pc hmoving
      cases pc with
      | start => exact hriding.symm
      | leaving | entering | arriving => exact hriding.1.symm
      | rechecking old => exact absurd ⟨e, _, hmoving, .inr ⟨old, rfl⟩⟩ harrived
      | done => exact absurd ⟨e, _, hmoving, .inl rfl⟩ harrived

/-! ### Every step keeps the tickets balanced -/

theorem Sound.tickets_at {t t' : Traffic cfg} (h : t.Sound) (k : Fin maxCarriers)
    (hrun : t'.shutdown = t.shutdown)
    (hother : ∀ j, j ≠ k → t'.phase j = t.phase j ∧
      outstanding t'.cabins j = outstanding t.cabins j ∧ t'.eventSem j = t.eventSem j)
    (hk : Ticket t'.shutdown (t'.phase k) (outstanding t'.cabins k) (t'.eventSem k)) :
    ∀ j, Ticket t'.shutdown (t'.phase j) (outstanding t'.cabins j) (t'.eventSem j) := by
  intro j
  by_cases hj : j = k
  · rw [hj]
    exact hk
  · obtain ⟨hphase, hcount, hsem⟩ := hother j hj
    rw [hphase, hcount, hsem, hrun]
    exact h.tickets j

theorem Sound.slots_at {t : Traffic cfg} (h : t.Sound) {k : Fin maxCarriers} {p : Phase cfg}
    (hpresent : t.phase k ≠ .absent) (j : Fin maxCarriers) (hj : t.nextSlot ≤ j.val) :
    Function.update t.phase k p j = .absent := by
  have hjk : j ≠ k := by
    rintro rfl
    exact hpresent (h.slots j hj)
  rw [Function.update_of_ne hjk]
  exact h.slots j hj

theorem Sound.rephase {t : Traffic cfg} (h : t.Sound) {k : Fin maxCarriers} {p : Phase cfg} {v : ℕ}
    (hpresent : t.phase k ≠ .absent) (hticket : Ticket t.shutdown p (outstanding t.cabins k) v)
    (hstand : ∀ f, p = .working f → t.census.currentFloor k = f) :
    Sound { t with
      phase := Function.update t.phase k p, eventSem := Function.update t.eventSem k v } := by
  refine ⟨?_, h.slots_at hpresent, ?_, h.queued, h.riding⟩
  · refine h.tickets_at k rfl ?_ (by simpa using hticket)
    intro j hj
    exact ⟨Function.update_of_ne hj _ _, rfl, Function.update_of_ne hj _ _⟩
  · intro j f hj
    by_cases hjk : j = k
    · subst hjk
      exact hstand f (by simpa using hj)
    · exact h.standing j f (by simpa [Function.update_of_ne hjk] using hj)

theorem Sound.start {t : Traffic cfg} (h : t.Sound) {k : Fin maxCarriers}
    (hphase : t.phase k = .head) (hrun : t.shutdown = false) :
    Sound { t with
      phase := Function.update t.phase k (.working (t.census.currentFloor k)) } := by
  have hbalance := (h.tickets k).balance hrun
  simp only [hphase, reduceCtorEq, ↓reduceIte] at hbalance
  have hticket : Ticket t.shutdown (.working (t.census.currentFloor k)) (outstanding t.cabins k)
      (t.eventSem k) :=
    ⟨fun _ => by simpa using hbalance, by omega, fun _ => by omega, by simp⟩
  simpa using h.rephase (by simp [hphase]) hticket (by simp)

theorem Sound.leave {t : Traffic cfg} (h : t.Sound) {k : Fin maxCarriers}
    (hphase : t.phase k = .head ∨ (∃ f, t.phase k = .working f)) {p : Phase cfg}
    (hp : p = .exited ∨ p = .head) :
    Sound { t with phase := Function.update t.phase k p } := by
  have hpresent : t.phase k ≠ .absent := by
    rcases hphase with hphase | ⟨f, hphase⟩ <;> simp [hphase]
  have hbalance : t.shutdown = false → outstanding t.cabins k + t.eventSem k = 0 := by
    intro hrun
    have hold := (h.tickets k).balance hrun
    rcases hphase with hphase | ⟨f, hphase⟩ <;> simpa [hphase] using hold
  have hticket : Ticket t.shutdown p (outstanding t.cabins k) (t.eventSem k) := by
    rcases hp with rfl | rfl <;>
      exact ⟨fun hrun => by simpa using hbalance hrun, (h.tickets k).once, by simp, by simp⟩
  have hstand : ∀ f, p = .working f → t.census.currentFloor k = f := by
    rcases hp with rfl | rfl <;> simp
  simpa using h.rephase hpresent hticket hstand

theorem Sound.wake {t : Traffic cfg} (h : t.Sound) {k : Fin maxCarriers}
    (hphase : t.phase k = .awaiting) (hsem : 0 < t.eventSem k) :
    Sound { t with
      eventSem := Function.update t.eventSem k (t.eventSem k - 1)
      phase := Function.update t.phase k .head } := by
  refine h.rephase (by simp [hphase]) ⟨?_, (h.tickets k).once, by simp, by simp⟩ (by simp)
  intro hrun
  have hbalance := (h.tickets k).balance hrun
  simp only [hphase, ↓reduceIte] at hbalance
  simp only [reduceCtorEq, ↓reduceIte]
  omega

theorem queued_update {cabins : Shaft → Cabin cfg} {floor : Fin maxCarriers → cfg.Floor} {e : Shaft}
    {c : Cabin cfg} (hc : ∀ req ∈ c.queue, req.fromFloor = floor req.carrierSlot)
    (hold : ∀ e', e' ≠ e → ∀ req ∈ (cabins e').queue, req.fromFloor = floor req.carrierSlot) :
    ∀ e', ∀ req ∈ (Function.update cabins e c e').queue, req.fromFloor = floor req.carrierSlot := by
  rw [Function.forall_update_iff cabins
    (fun _ c => ∀ req ∈ c.queue, req.fromFloor = floor req.carrierSlot)]
  exact ⟨hc, hold⟩

theorem riding_update {cabins : Shaft → Cabin cfg} {floor : Fin maxCarriers → cfg.Floor} {e : Shaft}
    {c : Cabin cfg} (hc : ∀ req pc, c.moving = some (req, pc) →
    Riding req (floor req.carrierSlot) pc)
    (hold : ∀ e', e' ≠ e → ∀ req pc, (cabins e').moving = some (req, pc) →
      Riding req (floor req.carrierSlot) pc) :
    ∀ e' req pc, (Function.update cabins e c e').moving = some (req, pc) →
      Riding req (floor req.carrierSlot) pc := by
  rw [Function.forall_update_iff cabins
    (fun _ c => ∀ req pc, c.moving = some (req, pc) → Riding req (floor req.carrierSlot) pc)]
  exact ⟨hc, hold⟩

theorem Sound.request {t : Traffic cfg} (h : t.Sound) {k : Fin maxCarriers} {f : cfg.Floor}
    (e : Shaft) (toFloor : cfg.Floor) (hphase : t.phase k = .working f) :
    Sound { t with
      cabins := Function.update t.cabins e
        { queue := (t.cabins e).queue +
            {{ carrierSlot := k, fromFloor := f, toFloor := toFloor }}
          moving := (t.cabins e).moving }
      phase := Function.update t.phase k .awaiting } := by
  have hpresent : t.phase k ≠ .absent := by simp [hphase]
  have hfree := (h.tickets k).free (.inr ⟨f, hphase⟩)
  refine ⟨?_, h.slots_at hpresent, ?_, ?_, ?_⟩
  · refine h.tickets_at k rfl ?_ ?_
    · intro j hj
      refine ⟨Function.update_of_ne hj _ _, ?_, rfl⟩
      simp [outstanding_request, Ne.symm hj]
    · simp only [outstanding_request, ↓reduceIte, hfree, Function.update_self]
      refine ⟨fun hrun => ?_, by omega, by simp, by simp⟩
      have hbalance := (h.tickets k).balance hrun
      simp only [hphase, reduceCtorEq, ↓reduceIte] at hbalance
      simp only [↓reduceIte]
      omega
  · intro j g hj
    by_cases hjk : j = k
    · subst hjk
      simp at hj
    · exact h.standing j g (by simpa [Function.update_of_ne hjk] using hj)
  · refine queued_update ?_ (fun e' _ => h.queued e')
    intro req hreq
    rcases Multiset.mem_add.mp hreq with hold | hnew
    · exact h.queued e req hold
    · rw [Multiset.mem_singleton.mp hnew]
      exact (h.standing k f hphase).symm
  · exact riding_update (h.riding e) (fun e' _ => h.riding e')

theorem Sound.board {t : Traffic cfg} (h : t.Sound) {e : Shaft} {req : cfg.Reposition}
    {queue : Multiset cfg.Reposition}
    (hcabin : t.cabins e = { queue := queue + {req}, moving := none }) :
    Sound { t with
      cabins := Function.update t.cabins e { queue := queue, moving := some (req, .start) } } := by
  have hjourneys : Cabin.journeys { queue := queue, moving := some (req, .start) } =
      (t.cabins e).journeys := by
    simp [hcabin, Cabin.journeys, entry]
  have hqueue : ∀ r ∈ queue + {req}, r.fromFloor = t.census.currentFloor r.carrierSlot := by
    simpa [hcabin] using h.queued e
  refine ⟨?_, h.slots, h.standing, ?_, ?_⟩
  · rw [outstanding_same hjourneys]
    exact h.tickets
  · refine queued_update ?_ (fun e' _ => h.queued e')
    exact fun r hr => hqueue r (Multiset.mem_add.mpr (.inl hr))
  · refine riding_update ?_ (fun e' _ => h.riding e')
    rintro r pc heq
    cases heq
    exact hqueue req (by simp)

theorem Sound.signal {t : Traffic cfg} (h : t.Sound) {e : Shaft} {req : cfg.Reposition}
    {queue : Multiset cfg.Reposition}
    (hcabin : t.cabins e = { queue := queue, moving := some (req, .done) }) :
    Sound { t with
      eventSem := Function.update t.eventSem req.carrierSlot (t.eventSem req.carrierSlot + 1)
      cabins := Function.update t.cabins e { queue := queue, moving := none } } := by
  have hcount := outstanding_signal hcabin
  refine ⟨?_, h.slots, h.standing, ?_, ?_⟩
  · refine h.tickets_at req.carrierSlot rfl ?_ ?_
    · intro j hj
      have hj' := hcount j
      simp only [Ne.symm hj, ↓reduceIte, add_zero] at hj'
      exact ⟨rfl, hj', Function.update_of_ne hj _ _⟩
    · have hk := hcount req.carrierSlot
      have hold := h.tickets req.carrierSlot
      simp only [↓reduceIte] at hk
      refine ⟨fun hrun => ?_, ?_, fun hphase => ?_, hold.fits⟩
      · have hbalance := hold.balance hrun
        simp only [Function.update_self]
        omega
      · have honce := hold.once
        simp only
        omega
      · have hfree := hold.free hphase
        simp only
        omega
  · refine queued_update ?_ (fun e' _ => h.queued e')
    simpa [hcabin] using h.queued e
  · exact riding_update (by simp) (fun e' _ => h.riding e')

theorem Riding.move {c : Census cfg} {req : cfg.Reposition} {pc : MovePc cfg}
    (h : Riding req (c.currentFloor req.carrierSlot) pc) :
    Riding req ((c.move req.carrierSlot req.toFloor pc).1.currentFloor req.carrierSlot)
      (c.move req.carrierSlot req.toFloor pc).2 := by
  cases pc with
  | start =>
    simp only [Census.move]
    split_ifs with hthere
    · exact hthere
    · exact ⟨h, rfl, hthere⟩
  | leaving old => exact h
  | entering old nowEmpty => exact h
  | arriving old nowEmpty =>
    have hthere : Function.update c.currentFloor req.carrierSlot req.toFloor req.carrierSlot =
      req.toFloor := Function.update_self _ _ _
    cases nowEmpty <;> exact hthere
  | rechecking old =>
    simp only [Census.move]
    split_ifs <;> exact h
  | done => exact h

theorem Sound.move {t : Traffic cfg} (h : t.Sound) {e : Shaft} {req : cfg.Reposition}
    {queue : Multiset cfg.Reposition} {pc : MovePc cfg}
    (hcabin : t.cabins e = { queue := queue, moving := some (req, pc) }) :
    Sound { t with
      census := (t.census.move req.carrierSlot req.toFloor pc).1
      cabins := Function.update t.cabins e { queue := queue
                                             moving := some (req,
        (t.census.move req.carrierSlot req.toFloor pc).2) } } := by
  have hmoving : (t.cabins e).moving = some (req, pc) := by rw [hcabin]
  have hjourneys : Cabin.journeys { queue := queue
                                    moving := some (req,
      (t.census.move req.carrierSlot req.toFloor pc).2) } = (t.cabins e).journeys := by
    simp [hcabin, Cabin.journeys]
  refine ⟨?_, h.slots, ?_, ?_, ?_⟩
  · rw [outstanding_same hjourneys]
    exact h.tickets
  · intro k f hk
    have hne : k ≠ req.carrierSlot := by
      rintro rfl
      exact h.not_working (mem_journeys_of_moving hmoving) f hk
    rw [Census.move_currentFloor _ _ _ _ hne]
    exact h.standing k f hk
  · -- a request that is still queued belongs to another carrier
    have hqueued : ∀ e', ∀ r ∈ (t.cabins e').queue, r.fromFloor =
        (t.census.move req.carrierSlot req.toFloor pc).1.currentFloor r.carrierSlot := by
      intro e' r hr
      rw [Census.move_currentFloor _ _ _ _ (h.queued_ne hmoving hr)]
      exact h.queued e' r hr
    refine queued_update ?_ (fun e' _ => hqueued e')
    simpa [hcabin] using hqueued e
  · refine riding_update ?_ ?_
    · intro r pc' heq
      cases heq
      exact (h.riding e req pc hmoving).move
    · intro e' he' r pc' hr
      rw [Census.move_currentFloor _ _ _ _ (h.moving_ne he' hmoving hr)]
      exact h.riding e' r pc' hr

theorem Sound.spawn {t : Traffic cfg} (h : t.Sound) {slot : Fin maxCarriers} (f : cfg.Floor)
    (hslot : t.nextSlot = slot.val) (count : cfg.Floor → ℤ) (pend : cfg.Floor → Bool)
    (awaited : cfg.Floor → Prop) :
    Sound { t with
      nextSlot := slot.val + 1
      phase := Function.update t.phase slot .head
      census := { carrierCount := count
                  respawnPending := pend
                  currentFloor := Function.update t.census.currentFloor slot f }
      awaited := awaited } := by
  have habsent := h.slots slot (by omega)
  have hother : ∀ e, ∀ req ∈ (t.cabins e).journeys, req.carrierSlot ≠ slot := by
    rintro e req hreq rfl
    have hpresent := h.present hreq
    omega
  refine ⟨?_, ?_, ?_, ?_, ?_⟩
  · refine h.tickets_at slot rfl (fun j hj => ⟨Function.update_of_ne hj _ _, rfl, rfl⟩) ?_
    have hold := h.tickets slot
    have hfree := hold.free (.inl habsent)
    refine ⟨fun hrun => ?_, hold.once, by simp, by simp⟩
    simpa [habsent] using hold.balance hrun
  · intro j hj
    have hj' : slot.val + 1 ≤ j.val := hj
    have hne : j ≠ slot := by
      rintro rfl
      omega
    exact (Function.update_of_ne hne _ _).trans (h.slots j (by omega))
  · intro k g hk
    have hne : k ≠ slot := by
      rintro rfl
      simp at hk
    simp only [Function.update_of_ne hne] at hk ⊢
    exact h.standing k g hk
  · intro e req hreq
    simp only [Function.update_of_ne (hother e req (mem_journeys_of_queued hreq))]
    exact h.queued e req hreq
  · intro e req pc hreq
    simp only [Function.update_of_ne (hother e req (mem_journeys_of_moving hreq))]
    exact h.riding e req pc hreq

theorem Sound.step {t t' : Traffic cfg} (h : t.Sound) (hs : t.Step t') : t'.Sound := by
  cases hs with
  | quiet => exact ⟨h.tickets, h.slots, h.standing, h.queued, h.riding⟩
  | start hphase hrun => exact h.start hphase hrun
  | leave hphase => exact h.leave hphase (.inl rfl)
  | rest hphase => exact h.leave (.inr ⟨_, hphase⟩) (.inr rfl)
  | request e toFloor hphase => exact h.request e toFloor hphase
  | overflow e hphase hfull =>
    have hcard := h.card_queue e
    have hlimits : maxCarriers < maxRequests := by decide
    omega
  | wake hphase hsem => exact h.wake hphase hsem
  | board e hcabin => exact h.board hcabin
  | move e hcabin => exact h.move hcabin
  | signal e hcabin => exact h.signal hcabin
  | spawn slot f awaited hslot => exact h.spawn f hslot _ _ _
  | stop =>
    refine ⟨?_, h.slots, h.standing, h.queued, h.riding⟩
    intro k
    exact ⟨by simp, (h.tickets k).once, (h.tickets k).free, (h.tickets k).fits⟩
  | alarm k hstop =>
    refine ⟨?_, h.slots, h.standing, h.queued, h.riding⟩
    intro j
    exact ⟨by simp [hstop], (h.tickets j).once, (h.tickets j).free, (h.tickets j).fits⟩

end Traffic
end SysProg.HW3

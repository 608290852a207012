import Mathlib.Algebra.BigOperators.Pi
import SysProg.HW5.ShiftConservation

/-!
# Every sleeping courier will be woken

A courier goes to sleep when the queue is empty, the shift goes on and somebody
else is delivering. Each of the three can only change in a critical section that
broadcasts before it ends, so a courier that still sleeps finds all three
unchanged, and the courier that is delivering will broadcast.
-/

open scoped BigOperators
namespace SysProg.HW5
open SysProg.Lib
variable {n : ℕ}

def CourierPc.busy : CourierPc → Bool
  | .delivering _ | .counting _ | .timing _ | .finishing _ => true
  | _ => false

theorem CourierPc.load_active (pc : CourierPc) : pc.load.2.1 = if pc.busy then 1 else 0 := by
  cases pc <;> rfl

theorem activeDeliveryCount_eq {orders : List Order} {s : State n} (h : Conserved orders s) :
    s.activeDeliveryCount = (Finset.univ.filter (fun c => (s.courier c).busy)).card := by
  have hsum : (totalLoad s.courier).2.1 = ∑ c, (s.courier c).load.2.1 := by
    rw [totalLoad, Prod.snd_sum, Prod.fst_sum]
  rw [h.active, hsum, Finset.card_filter, Nat.cast_sum]
  refine Finset.sum_congr rfl (fun c _ => ?_)
  rw [CourierPc.load_active]
  split_ifs <;> rfl

def Attended (s : State n) : Prop :=
  ∀ c, s.courier c = .waiting →
    s.shiftStopping = false ∧ s.queue.size = 0 ∧ 0 < s.activeDeliveryCount

theorem wakeAll_ne_waiting (courier : Fin n → CourierPc) (c : Fin n) :
    wakeAll courier c ≠ .waiting := by
  unfold wakeAll
  cases courier c <;> simp

theorem waiting_of_update {f : Fin n → CourierPc} {c d : Fin n} {pc : CourierPc}
    (hpc : pc ≠ .waiting) (h : Function.update f c pc d = .waiting) : f d = .waiting := by
  by_cases hd : d = c
  · subst hd
    rw [Function.update_self] at h
    exact absurd h hpc
  · rwa [Function.update_of_ne hd] at h

theorem attended_cancel {s : State n} (h : Attended s) : Attended (cancelPendingOrders s) := by
  unfold cancelPendingOrders
  split
  · exact h
  · exact fun c hc => absurd hc (wakeAll_ne_waiting _ c)

theorem attended_step {orders : List Order} {s s' : State n} (h : Transition s s')
    (hm : MainInOrder s) (hc : Conserved orders s) (ha : Attended s) : Attended s' := by
  cases h with
  | sigint => exact ha
  | courierWait c hpc hsize hrun hactive => exact fun _ _ => ⟨hrun, hsize, hactive⟩
  | courierWake c | courierExit c | deliver c | count c | time c =>
    exact fun d hd => ha d (waiting_of_update (by simp) hd)
  | courierStop c =>
    exact fun d hd => absurd (waiting_of_update (by simp) hd) (wakeAll_ne_waiting _ d)
  | courierStart c hpc hrun hq =>
    -- nobody sleeps while an order is queued
    intro d hd
    have hempty := (ha d (waiting_of_update (by simp) hd)).2.1
    rw [hc.size, hq] at hempty
    cases hempty
  | finish c stop f hpc hf hstop =>
    intro d hd
    rcases hf with ⟨rfl, rfl, hrun, hsize, hone⟩ | rfl
    · have hactive := (ha d (waiting_of_update (by simp) hd)).2.2
      refine ⟨rfl, hsize, ?_⟩
      simp only
      omega
    · exact absurd (waiting_of_update (by simp) hd) (wakeAll_ne_waiting _ d)
  | create hi hpc => exact fun d hd => ha d (waiting_of_update (by simp) hd)
  | cancelFailed | cancel => exact attended_cancel ha
  | clear hpc =>
    intro d hd
    have hrun := (ha d hd).1
    rw [hm.stopped (by simp [hpc, MainPc.pastWait])] at hrun
    cases hrun
  | created | createFails | keepWaiting | shiftOver | join | joined => exact ha

theorem attended_reachable {orders : List Order} {s : State n}
    (h : (machine n orders).Reachable s) : Attended s :=
  h.invariant (fun _ hc => by cases hc) (fun _ _ _ hr ha hs =>
    attended_step (step_transition hs) (mainInOrder_reachable hr) (conserved_reachable hr) ha)

/-- The active deliveries are the couriers that are delivering; whoever sleeps
has one of them to wake it; and nobody sleeps once the main thread goes on. -/
theorem no_stranded_courier {orders : List Order} {s : State n}
    (h : (machine n orders).Reachable s) :
    s.activeDeliveryCount = (Finset.univ.filter (fun c => (s.courier c).busy)).card ∧
    (∀ c, s.courier c = .waiting →
      s.shiftStopping = false ∧ s.queue.orders = [] ∧ 0 < s.activeDeliveryCount) ∧
    (s.main.pastWait = true → s.queue.orders = [] ∧ ∀ c, s.courier c ≠ .waiting) := by
  have hc := conserved_reachable h
  have ha := attended_reachable h
  refine ⟨activeDeliveryCount_eq hc, fun c hpc => ?_, fun hpast => ?_⟩
  · obtain ⟨hrun, hsize, hactive⟩ := ha c hpc
    exact ⟨hrun, List.length_eq_zero_iff.mp (hc.size ▸ hsize), hactive⟩
  · have hstop := (mainInOrder_reachable h).stopped hpast
    refine ⟨hc.stopping hstop, fun c hpc => ?_⟩
    rw [(ha c hpc).1] at hstop
    cases hstop

/-- The second courier sleeps while the first one delivers the only order. -/
def oneDelivery : List (Action 2) := [.main, firstCourier, .main, secondCourier]

def oneOrder : List Order := [⟨1, ['a'], .express, 2⟩]

theorem oneDelivery_isSome :
    ((machine 2 oneOrder).run (machine 2 oneOrder).init oneDelivery).isSome := by decide

theorem no_stranded_oneDelivery : ∃ s : State 2, (machine 2 oneOrder).Reachable s ∧
    s.courier ⟨1, Nat.one_lt_two⟩ = .waiting ∧ 0 < s.activeDeliveryCount := by
  have hreach := (Machine.execution_of_isSome oneDelivery_isSome).reachable
  have hwait : (((machine 2 oneOrder).run (machine 2 oneOrder).init oneDelivery).get
      oneDelivery_isSome).courier ⟨1, Nat.one_lt_two⟩ = .waiting := by decide
  exact ⟨_, hreach, hwait, ((no_stranded_courier hreach).2.1 _ hwait).2.2⟩

end SysProg.HW5

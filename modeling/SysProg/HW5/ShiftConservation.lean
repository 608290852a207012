import SysProg.HW5.Shift
import Mathlib.Algebra.BigOperators.Fin
import Mathlib.Algebra.Order.BigOperators.Group.Finset
import Mathlib.Algebra.Group.Prod

/-!
# Every order is delivered once or cancelled once

Orders leave the queue in one sequence: first those that couriers take, then
those that a cancellation removes, because a shift that is stopping has an empty
queue and takes nothing more. An order that a courier took is in its hands until
it is counted. When the couriers have been joined nothing is in anybody's hands,
and the counters are the sizes of the two collections.
-/

open scoped BigOperators
namespace SysProg.HW5
open SysProg.Lib
variable {n : ℕ}

/-! ### What one action can do -/

inductive Transition (s : State n) : State n → Prop where
  | sigint : Transition s { s with sigintFlag := true }
  | courierWait (c : Fin n) : s.courier c = .ready → s.queue.size = 0 →
      s.shiftStopping = false → 0 < s.activeDeliveryCount →
      Transition s { s with courier := Function.update s.courier c .waiting }
  | courierWake (c : Fin n) : s.courier c = .waiting →
      Transition s { s with courier := Function.update s.courier c .ready }
  | courierExit (c : Fin n) : s.courier c = .ready →
      Transition s { s with courier := Function.update s.courier c .exited }
  | courierStop (c : Fin n) : s.courier c = .ready → s.queue.orders = [] →
      Transition s { s with
        shiftStopping := true
        courier := Function.update (wakeAll s.courier) c .exited }
  | courierStart (c : Fin n) {order : Order} {rest : List Order} : s.courier c = .ready →
      s.shiftStopping = false → s.queue.orders = order :: rest →
      Transition s { s with
        queue := ⟨rest, s.queue.size - 1⟩
        activeDeliveryCount := s.activeDeliveryCount + 1
        courier := Function.update s.courier c (.delivering order)
        hist := { s.hist with started := s.hist.started ++ [order] } }
  | deliver (c : Fin n) {order : Order} : s.courier c = .delivering order →
      Transition s { s with
        courierStats := Function.update s.courierStats c ((s.courierStats c).add order)
        courier := Function.update s.courier c (.counting order)
        hist := { s.hist with
          delivered := Function.update s.hist.delivered c (s.hist.delivered c ++ [order]) } }
  | count (c : Fin n) {order : Order} : s.courier c = .counting order →
      Transition s { s with
        totalCompletedOrders := int32 (s.totalCompletedOrders + 1)
        courier := Function.update s.courier c (.timing order) }
  | time (c : Fin n) {order : Order} : s.courier c = .timing order →
      Transition s { s with
        totalCompletedDeliveryTime :=
          int64 (s.totalCompletedDeliveryTime + order.durationUnits * deliveryUnitMs)
        courier := Function.update s.courier c (.finishing order) }
  | finish (c : Fin n) {order : Order} (stop : Bool) (f : Fin n → CourierPc) :
      s.courier c = .finishing order →
      (f = s.courier ∧ stop = false ∧ s.shiftStopping = false ∧ s.queue.size = 0 ∧
        s.activeDeliveryCount ≠ 1 ∨ f = wakeAll s.courier) →
      (stop = s.shiftStopping ∨ stop = true ∧ (s.queue.size = 0 ∨ s.shiftStopping = true)) →
      Transition s { s with
        activeDeliveryCount := s.activeDeliveryCount - 1
        shiftStopping := stop
        courier := Function.update f c .ready }
  | create {i : ℕ} (h : i < n) : s.main = .creating i →
      Transition s { s with
        courier := Function.update s.courier ⟨i, h⟩ .ready
        main := .creating (i + 1) }
  | created {i : ℕ} : s.main = .creating i → n ≤ i → Transition s { s with main := .waitLoop }
  | createFails {i : ℕ} : s.main = .creating i → i < n →
      Transition s { s with main := .createFailed i }
  | cancelFailed {i : ℕ} : s.main = .createFailed i →
      Transition s { cancelPendingOrders s with numCouriers := i, main := .waitLoop }
  | cancel : s.main = .cancelling →
      Transition s { cancelPendingOrders s with main := .waitLoop }
  | keepWaiting (pc : MainPc) : s.main = .waitLoop ∨ s.main = .sleeping →
      pc = .waitLoop ∨ pc = .sleeping ∨ pc = .cancelling → Transition s { s with main := pc }
  | shiftOver : s.main = .waitLoop → s.shiftStopping = true →
      Transition s { s with main := .joining 0 }
  | join {i : ℕ} (h : i < n) : s.main = .joining i → s.courier ⟨i, h⟩ = .exited →
      Transition s { s with main := .joining (i + 1) }
  | joined {i : ℕ} : s.main = .joining i → ¬ (i < n ∧ i < s.numCouriers) →
      Transition s { s with main := .summary }
  | clear : s.main = .summary →
      Transition s { s with
        main := .finished
        queue := (popAll s.queue.orders s.queue.size).2 }

theorem courierTake_transition {s : State n} {c : Fin n} (hpc : s.courier c = .ready) :
    Transition s (courierTake s c) := by
  unfold courierTake
  split
  · rename_i hwait
    exact .courierWait c hpc hwait.1 hwait.2.1 hwait.2.2
  · split
    · exact .courierExit c hpc
    · rename_i hstop
      cases hq : s.queue.orders with
      | nil =>
        simp only [queuePop, hq]
        split_ifs
        · exact .courierStop c hpc hq
        · exact .courierExit c hpc
      | cons order rest =>
        simp only [queuePop, hq]
        exact .courierStart c hpc (by simpa using hstop) hq

theorem courierLeave_transition {s : State n} {c : Fin n} {order : Order}
    (hpc : s.courier c = .finishing order) : Transition s (courierLeave s c) := by
  simp only [courierLeave]
  split_ifs with hlast hwake
  · exact .finish c true _ hpc (Or.inr rfl) (Or.inr ⟨rfl, hlast.imp_left And.left⟩)
  · exact .finish c s.shiftStopping _ hpc (Or.inr rfl) (Or.inl rfl)
  · push Not at hlast hwake
    have hrun : s.shiftStopping = false := by simpa using hlast.2
    have hactive := hlast.1 (by omega)
    exact .finish c s.shiftStopping _ hpc (Or.inl ⟨rfl, hrun, hrun, by omega, by omega⟩)
        (Or.inl rfl)

theorem courierStep_transition {s s' : State n} {c : Fin n} (h : courierStep s c = some s') :
    Transition s s' := by
  unfold courierStep at h
  cases hpc : s.courier c with
  | notCreated => simp [hpc] at h
  | waiting => simp [hpc] at h
  | exited => simp [hpc] at h
  | ready =>
    simp only [hpc, Option.some.injEq] at h
    exact h ▸ courierTake_transition hpc
  | delivering order =>
    simp only [hpc, Option.some.injEq] at h
    exact h ▸ .deliver c hpc
  | counting order =>
    simp only [hpc, Option.some.injEq] at h
    exact h ▸ .count c hpc
  | timing order =>
    simp only [hpc, Option.some.injEq] at h
    exact h ▸ .time c hpc
  | finishing order =>
    simp only [hpc, Option.some.injEq] at h
    exact h ▸ courierLeave_transition hpc

theorem mainStep_transition {s s' : State n} (h : mainStep s = some s') : Transition s s' := by
  unfold mainStep at h
  cases hpc : s.main with
  | creating i =>
    simp only [hpc] at h
    split_ifs at h with hi
    · exact Option.some.inj h ▸ .create hi hpc
    · exact Option.some.inj h ▸ .created hpc (not_lt.mp hi)
  | createFailed i =>
    simp only [hpc, Option.some.injEq] at h
    exact h ▸ .cancelFailed hpc
  | waitLoop =>
    simp only [hpc] at h
    split_ifs at h with hwait hflag
    · exact Option.some.inj h ▸ .keepWaiting _ (Or.inl hpc) (by simp)
    · exact Option.some.inj h ▸ .keepWaiting _ (Or.inl hpc) (by simp)
    · exact Option.some.inj h ▸ .shiftOver hpc (by simp at hwait; exact hwait.1)
  | sleeping =>
    simp only [hpc, Option.some.injEq] at h
    exact h ▸ .keepWaiting _ (Or.inr hpc) (by simp)
  | cancelling =>
    simp only [hpc, Option.some.injEq] at h
    exact h ▸ .cancel hpc
  | joining i =>
    simp only [hpc] at h
    split_ifs at h with hi hexit
    · exact Option.some.inj h ▸ .join hi.1 hpc hexit
    · exact Option.some.inj h ▸ .joined hpc hi
  | summary =>
    simp only [hpc, Option.some.injEq] at h
    exact h ▸ .clear hpc
  | finished => simp [hpc] at h

theorem step_transition {s s' : State n} {a : Action n} (h : step s a = some s') :
    Transition s s' := by
  cases a with
  | courier c => exact courierStep_transition h
  | wake c =>
    simp only [step] at h
    split_ifs at h with hpc
    exact Option.some.inj h ▸ .courierWake c hpc
  | main => exact mainStep_transition h
  | createFails =>
    simp only [step] at h
    cases hpc : s.main with
    | creating i =>
      simp only [hpc] at h
      split_ifs at h with hi
      exact Option.some.inj h ▸ .createFails hpc hi
    | _ => simp [hpc] at h
  | sigint =>
    simp only [step, Option.some.injEq] at h
    exact h ▸ .sigint

/-! ### The main thread -/

/-- Couriers with this index or a higher one have not been created. -/
def State.createdCouriers (s : State n) : ℕ :=
  match s.main with
  | .creating i => i
  | .createFailed i => i
  | _ => s.numCouriers

def MainPc.pastWait : MainPc → Bool
  | .joining _ | .summary | .finished => true
  | _ => false

/-- Couriers below this index have been joined. -/
def State.joinedCouriers (s : State n) : ℕ :=
  match s.main with
  | .joining i => i
  | .summary | .finished => s.numCouriers
  | _ => 0

structure MainInOrder (s : State n) : Prop where
  uncreated : ∀ c : Fin n, s.createdCouriers ≤ c → s.courier c = .notCreated
  undelivered : ∀ c, s.courier c = .notCreated → s.hist.delivered c = []
  stopped : s.main.pastWait = true → s.shiftStopping = true
  exited : ∀ c : Fin n, c < s.joinedCouriers → s.courier c = .exited
  all : ∀ i, s.main = .creating i → s.numCouriers = n ∧ i ≤ n

theorem mainInOrder_initial (orders : List Order) : MainInOrder (initial n orders) where
  uncreated := fun _ _ => rfl
  undelivered := fun _ _ => rfl
  stopped := by simp [initial, MainPc.pastWait]
  exited := by simp [initial, State.joinedCouriers]
  all := by simp [initial]

theorem wakeAll_of_ne {courier : Fin n → CourierPc} {c : Fin n} (h : courier c ≠ .waiting) :
    wakeAll courier c = courier c := by
  unfold wakeAll
  cases hc : courier c <;> simp_all

theorem wakeAll_eq_notCreated {courier : Fin n → CourierPc} {c : Fin n} :
    wakeAll courier c = .notCreated ↔ courier c = .notCreated := by
  unfold wakeAll
  cases courier c <;> simp

/-- What the main thread relies on in a step of the couriers. -/
structure CouriersMove (s s' : State n) : Prop where
  main : s'.main = s.main
  numCouriers : s'.numCouriers = s.numCouriers
  stopping : s.shiftStopping = true → s'.shiftStopping = true
  exited : ∀ c, s.courier c = .exited → s'.courier c = .exited
  uncreated : ∀ c, s'.courier c = .notCreated ↔ s.courier c = .notCreated
  delivered : ∀ c, s.courier c = .notCreated → s'.hist.delivered c = s.hist.delivered c

theorem mainInOrder_couriersMove {s s' : State n} (h : MainInOrder s) (hm : CouriersMove s s') :
    MainInOrder s' := by
  obtain ⟨hun, hdel, hstop, hex, hall⟩ := h
  have hcre : s'.createdCouriers = s.createdCouriers := by
    simp only [State.createdCouriers, hm.main, hm.numCouriers]
  have hjoin : s'.joinedCouriers = s.joinedCouriers := by
    simp only [State.joinedCouriers, hm.main, hm.numCouriers]
  refine ⟨?_, ?_, ?_, ?_, ?_⟩
  · intro c hc
    exact (hm.uncreated c).mpr (hun c (hcre ▸ hc))
  · intro c hc
    have hold := (hm.uncreated c).mp hc
    rw [hm.delivered c hold]
    exact hdel c hold
  · rw [hm.main]
    exact fun hp => hm.stopping (hstop hp)
  · intro c hc
    exact hm.exited c (hex c (hjoin ▸ hc))
  · rw [hm.main, hm.numCouriers]
    exact hall

theorem couriersMove_update {s s' : State n} {f : Fin n → CourierPc} {c : Fin n} {pc : CourierPc}
    (hf : f = s.courier ∨ f = wakeAll s.courier) (hc : s'.courier = Function.update f c pc)
    (hold : s.courier c ≠ .notCreated ∧ s.courier c ≠ .exited) (hpc : pc ≠ .notCreated)
    (hmain : s'.main = s.main) (hnum : s'.numCouriers = s.numCouriers)
    (hstop : s.shiftStopping = true → s'.shiftStopping = true)
    (hdel : ∀ d, d ≠ c → s'.hist.delivered d = s.hist.delivered d) : CouriersMove s s' := by
  have hother : ∀ d, d ≠ c → s'.courier d = f d := by
    intro d hd
    rw [hc, Function.update_of_ne hd]
  have hun : ∀ d, f d = .notCreated ↔ s.courier d = .notCreated := by
    intro d
    rcases hf with rfl | rfl
    · exact Iff.rfl
    · exact wakeAll_eq_notCreated
  have hex : ∀ d, s.courier d = .exited → f d = .exited := by
    intro d hd
    rcases hf with rfl | rfl
    · exact hd
    · rw [wakeAll_of_ne (by simp [hd]), hd]
  refine ⟨hmain, hnum, hstop, ?_, ?_, ?_⟩
  · intro d hd
    have hdc : d ≠ c := fun heq => hold.2 (heq ▸ hd)
    rw [hother d hdc]
    exact hex d hd
  · intro d
    by_cases hdc : d = c
    · subst hdc
      simp [hc, hpc, hold.1]
    · rw [hother d hdc]
      exact hun d
  · intro d hd
    exact hdel d (fun heq => hold.1 (heq ▸ hd))

theorem couriersMove_cancel (s : State n) : CouriersMove s (cancelPendingOrders s) := by
  unfold cancelPendingOrders
  split
  · exact ⟨rfl, rfl, id, fun _ => id, fun _ => Iff.rfl, fun _ _ => rfl⟩
  · refine ⟨rfl, rfl, fun _ => rfl, ?_, fun _ => wakeAll_eq_notCreated, fun _ _ => rfl⟩
    intro c hc
    simp only
    rw [wakeAll_of_ne (by simp [hc]), hc]

theorem mainInOrder_waiting {s : State n} (h : MainInOrder s) {pc : MainPc} {k : ℕ}
    (hk : k = s.createdCouriers) (hpc : pc = .waitLoop ∨ pc = .sleeping ∨ pc = .cancelling) :
    MainInOrder { s with main := pc, numCouriers := k } := by
  obtain ⟨hun, hdel, hstop, hex, hall⟩ := h
  rcases hpc with rfl | rfl | rfl <;>
    exact ⟨hk ▸ hun, hdel, by simp [MainPc.pastWait], by simp [State.joinedCouriers], by simp⟩

theorem mainInOrder_create {s : State n} (h : MainInOrder s) {i : ℕ} (hi : i < n)
    (hpc : s.main = .creating i) :
    MainInOrder { s with
      courier := Function.update s.courier ⟨i, hi⟩ .ready
      main := .creating (i + 1) } := by
  obtain ⟨hun, hdel, hstop, hex, hall⟩ := h
  simp only [State.createdCouriers, hpc] at hun
  refine ⟨?_, ?_, by simp [MainPc.pastWait], by simp [State.joinedCouriers], ?_⟩
  · intro c hc
    have hne : c ≠ ⟨i, hi⟩ := by
      rintro rfl
      simp [State.createdCouriers] at hc
    simp only [State.createdCouriers] at hc
    simp only [Function.update_of_ne hne]
    exact hun c (by omega)
  · intro c hc
    by_cases hne : c = ⟨i, hi⟩
    · subst hne
      simp at hc
    · exact hdel c (by simpa only [Function.update_of_ne hne] using hc)
  · rintro j ⟨rfl⟩
    exact ⟨(hall i hpc).1, hi⟩

theorem mainInOrder_pastWait {s : State n} (h : MainInOrder s) {pc : MainPc}
    (hold : s.createdCouriers = s.numCouriers) (hpc : pc.pastWait = true)
    (hstop : s.shiftStopping = true)
    (hexit : ∀ c : Fin n, c < State.joinedCouriers { s with main := pc } → s.courier c = .exited) :
    MainInOrder { s with main := pc } := by
  have hun := h.uncreated
  rw [hold] at hun
  cases pc with
  | joining i => exact ⟨hun, h.undelivered, fun _ => hstop, hexit, by simp⟩
  | summary => exact ⟨hun, h.undelivered, fun _ => hstop, hexit, by simp⟩
  | finished => exact ⟨hun, h.undelivered, fun _ => hstop, hexit, by simp⟩
  | _ => simp [MainPc.pastWait] at hpc

theorem mainInOrder_step {s s' : State n} (h : Transition s s') (hm : MainInOrder s) :
    MainInOrder s' := by
  cases h with
  | sigint =>
    exact mainInOrder_couriersMove hm
      ⟨rfl, rfl, id, fun _ => id, fun _ => Iff.rfl, fun _ _ => rfl⟩
  | courierWait c hpc _ _ _ | courierWake c hpc | courierExit c hpc | count c hpc | time c hpc =>
    exact mainInOrder_couriersMove hm (couriersMove_update (Or.inl rfl) rfl (by simp [hpc])
      (by simp) rfl rfl id (fun _ _ => rfl))
  | courierStop c hpc hq =>
    exact mainInOrder_couriersMove hm (couriersMove_update (Or.inr rfl) rfl (by simp [hpc])
      (by simp) rfl rfl (fun _ => rfl) (fun _ _ => rfl))
  | courierStart c hpc hrunning hq =>
    exact mainInOrder_couriersMove hm (couriersMove_update (Or.inl rfl) rfl (by simp [hpc])
      (by simp) rfl rfl id (fun _ _ => rfl))
  | deliver c hpc =>
    exact mainInOrder_couriersMove hm (couriersMove_update (Or.inl rfl) rfl (by simp [hpc])
      (by simp) rfl rfl id (fun d hd => Function.update_of_ne hd _ _))
  | finish c stop f hpc hf hstop =>
    refine mainInOrder_couriersMove hm
        (couriersMove_update (hf.imp_left And.left) rfl (by simp [hpc])
      (by simp) rfl rfl (fun hst => ?_) (fun _ _ => rfl))
    rcases hstop with rfl | ⟨rfl, -⟩
    · exact hst
    · rfl
  | create hi hpc => exact mainInOrder_create hm hi hpc
  | created hpc hi =>
    rename_i i
    refine mainInOrder_waiting hm ?_ (Or.inl rfl)
    have hn := hm.all i hpc
    simp only [State.createdCouriers, hpc]
    omega
  | createFails hpc hi =>
    obtain ⟨hun, hdel, hstop, hex, hall⟩ := hm
    simp only [State.createdCouriers, hpc] at hun
    exact ⟨hun, hdel, by simp [MainPc.pastWait], by simp [State.joinedCouriers], by simp⟩
  | cancelFailed hpc | cancel hpc =>
    have hc := couriersMove_cancel s
    refine mainInOrder_waiting (mainInOrder_couriersMove hm hc) ?_ (Or.inl rfl)
    simp [State.createdCouriers, hc.main, hpc]
  | keepWaiting pc hold hpc =>
    refine mainInOrder_waiting hm ?_ hpc
    rcases hold with hold | hold <;> simp [State.createdCouriers, hold]
  | shiftOver hpc hst =>
    refine mainInOrder_pastWait hm (by simp [State.createdCouriers, hpc]) rfl hst ?_
    simp [State.joinedCouriers]
  | join hi hpc hexit =>
    rename_i i
    refine mainInOrder_pastWait hm (by simp [State.createdCouriers, hpc]) rfl
      (hm.stopped (by simp [hpc, MainPc.pastWait])) (fun c hc => ?_)
    simp only [State.joinedCouriers] at hc
    by_cases hci : c = ⟨i, hi⟩
    · exact hci ▸ hexit
    · have hne : (c : ℕ) ≠ i := fun heq => hci (Fin.ext heq)
      exact hm.exited c (by simp only [State.joinedCouriers, hpc]; omega)
  | joined hpc hi =>
    refine mainInOrder_pastWait hm (by simp [State.createdCouriers, hpc]) rfl
      (hm.stopped (by simp [hpc, MainPc.pastWait])) (fun c hc => ?_)
    have hlt := c.isLt
    simp only [State.joinedCouriers] at hc
    exact hm.exited c (by simp only [State.joinedCouriers, hpc]; omega)
  | clear hpc =>
    have hold : MainInOrder { s with main := .finished } :=
      mainInOrder_pastWait hm (by simp [State.createdCouriers, hpc]) rfl
        (hm.stopped (by simp [hpc, MainPc.pastWait]))
        (fun c hc => hm.exited c (by simpa [State.joinedCouriers, hpc] using hc))
    exact ⟨hold.uncreated, hold.undelivered, hold.stopped, hold.exited, hold.all⟩

/-! ### What a courier has in its hands -/

def deliveryTime (order : Order) : ℤ := order.durationUnits * deliveryUnitMs

def CourierPc.load : CourierPc → Multiset Order × ℤ × ℤ × ℤ
  | .delivering order => ({order}, 1, 0, 0)
  | .counting order => (0, 1, 1, deliveryTime order)
  | .timing order => (0, 1, 0, deliveryTime order)
  | .finishing _ => (0, 1, 0, 0)
  | _ => 0

def totalLoad (courier : Fin n → CourierPc) : Multiset Order × ℤ × ℤ × ℤ :=
  ∑ c, (courier c).load

theorem totalLoad_wakeAll (courier : Fin n → CourierPc) :
    totalLoad (wakeAll courier) = totalLoad courier := by
  refine Finset.sum_congr rfl (fun c _ => ?_)
  unfold wakeAll
  cases courier c <;> rfl

theorem totalLoad_update (courier : Fin n → CourierPc) (c : Fin n) (pc : CourierPc) :
    totalLoad (Function.update courier c pc) + (courier c).load = totalLoad courier + pc.load :=
  sum_update_add (fun _ => CourierPc.load) courier c pc

theorem totalLoad_update_same {courier : Fin n → CourierPc} {c : Fin n} {pc : CourierPc}
    (h : pc.load = (courier c).load) :
    totalLoad (Function.update courier c pc) = totalLoad courier := by
  have hu := totalLoad_update courier c pc
  rw [h] at hu
  exact add_right_cancel hu

def deliveredOrders (delivered : Fin n → List Order) : Multiset Order :=
  ∑ c, (delivered c : Multiset Order)

theorem deliveredOrders_update (delivered : Fin n → List Order) (c : Fin n) (order : Order) :
    deliveredOrders (Function.update delivered c (delivered c ++ [order])) =
      deliveredOrders delivered + {order} := by
  have hu := sum_update_exchange (fun _ (xs : List Order) => (xs : Multiset Order))
    delivered c (delivered c ++ [order]) (add_zero _).symm (Multiset.coe_add _ _).symm
  simpa [deliveredOrders] using hu

structure Conserved (orders : List Order) (s : State n) : Prop where
  size : s.queue.size = s.queue.orders.length
  sequence : s.hist.started ++ s.hist.cancelled ++ s.queue.orders = (loadOrders orders).orders
  stopping : s.shiftStopping = true → s.queue.orders = []
  running : s.shiftStopping = false → s.hist.cancelled = []
  valid : s.validOrderCount = int32 orders.length
  cancelled : s.totalCancelledOrders = int32 s.hist.cancelled.length
  taken : (s.hist.started : Multiset Order) = (totalLoad s.courier).1 +
    deliveredOrders s.hist.delivered
  active : s.activeDeliveryCount = (totalLoad s.courier).2.1
  completed : s.totalCompletedOrders =
    int32 ((deliveredOrders s.hist.delivered).card - (totalLoad s.courier).2.2.1)
  time : s.totalCompletedDeliveryTime =
    int64 (((deliveredOrders s.hist.delivered).map deliveryTime).sum - (totalLoad s.courier).2.2.2)
  stats : ∀ c, s.courierStats c = ⟨int32 (s.hist.delivered c).length,
    int64 ((s.hist.delivered c).map deliveryTime).sum⟩

theorem conserved_initial (orders : List Order) : Conserved orders (initial n orders) := by
  have hload : totalLoad (initial n orders).courier = 0 := by
    simp [totalLoad, initial, CourierPc.load]
  have hdel : deliveredOrders (initial n orders).hist.delivered = 0 := by
    simp [deliveredOrders, initial]
  have h32 : int32 0 = 0 := int32_eq_self_iff.mpr (by decide)
  have h64 : int64 0 = 0 := int64_eq_self_iff.mpr (by decide)
  refine ⟨loadOrders_size orders, rfl, ?_, fun _ => rfl, ?_, ?_, ?_, ?_, ?_, ?_, ?_⟩
  · simp [initial]
  · simp only [initial]
  · simp only [initial, List.length_nil, Nat.cast_zero, h32]
  · rw [hload, hdel]
    rfl
  · rw [hload]
    rfl
  · rw [hload, hdel, Multiset.card_zero]
    exact h32.symm
  · rw [hload, hdel, Multiset.map_zero, Multiset.sum_zero]
    exact h64.symm
  · simp [initial, h32, h64]

theorem conserved_courier {orders : List Order} {s : State n} (h : Conserved orders s)
    {courier : Fin n → CourierPc} (hload : totalLoad courier = totalLoad s.courier) :
    Conserved orders { s with courier := courier } := by
  obtain ⟨hsize, hseq, hstop, hrun, hvalid, hcan, htaken, hact, hcomp, htime, hstats⟩ := h
  exact ⟨hsize, hseq, hstop, hrun, hvalid, hcan, hload.symm ▸ htaken, hload.symm ▸ hact,
    hload.symm ▸ hcomp, hload.symm ▸ htime, hstats⟩

theorem conserved_stopping {orders : List Order} {s : State n} (h : Conserved orders s)
    (hq : s.queue.orders = []) : Conserved orders { s with shiftStopping := true } := by
  obtain ⟨hsize, hseq, hstop, hrun, hvalid, hcan, htaken, hact, hcomp, htime, hstats⟩ := h
  exact ⟨hsize, hseq, fun _ => hq, by simp, hvalid, hcan, htaken, hact, hcomp, htime, hstats⟩

theorem conserved_cancel {orders : List Order} {s : State n} (h : Conserved orders s) :
    Conserved orders (cancelPendingOrders s) := by
  unfold cancelPendingOrders
  split
  · exact h
  · obtain ⟨hsize, hseq, hstop, hrun, hvalid, hcan, htaken, hact, hcomp, htime, hstats⟩ := h
    have hload := totalLoad_wakeAll s.courier
    refine ⟨?_, ?_, ?_, by simp, hvalid, ?_, hload.symm ▸ htaken, hload.symm ▸ hact,
      hload.symm ▸ hcomp, hload.symm ▸ htime, hstats⟩
    · simp [popAll_eq, hsize]
    · simpa [popAll_eq] using hseq
    · simp [popAll_eq]
    · simp only [popAll_eq, hcan, int32_add, List.length_append, Nat.cast_add]

theorem conserved_start {orders : List Order} {s : State n} (h : Conserved orders s) (c : Fin n)
    {order : Order} {rest : List Order} (hpc : s.courier c = .ready)
    (hrunning : s.shiftStopping = false) (hq : s.queue.orders = order :: rest) :
    Conserved orders { s with
      queue := ⟨rest, s.queue.size - 1⟩
      activeDeliveryCount := s.activeDeliveryCount + 1
      courier := Function.update s.courier c (.delivering order)
      hist := { s.hist with started := s.hist.started ++ [order] } } := by
  obtain ⟨hsize, hseq, hstop, hrun, hvalid, hcan, htaken, hact, hcomp, htime, hstats⟩ := h
  have hload : totalLoad (Function.update s.courier c (.delivering order)) =
      totalLoad s.courier + ({order}, 1, 0, 0) := by
    have hu := totalLoad_update s.courier c (.delivering order)
    simpa [hpc, CourierPc.load] using hu
  refine ⟨?_, ?_, ?_, hrun, hvalid, hcan, ?_, ?_, ?_, ?_, hstats⟩
  · simp only [hq, List.length_cons] at hsize
    simp only
    omega
  · rw [hq, hrun hrunning] at hseq
    simpa [hrun hrunning] using hseq
  · simp [hrunning]
  · rw [hload, ← Multiset.coe_add, htaken, Prod.fst_add, add_right_comm]
    rfl
  · rw [hload, hact]
    rfl
  · rw [hload, Prod.snd_add, Prod.snd_add, Prod.fst_add, add_zero]
    exact hcomp
  · rw [hload, Prod.snd_add, Prod.snd_add, Prod.snd_add, add_zero]
    exact htime

theorem conserved_deliver {orders : List Order} {s : State n} (h : Conserved orders s) (c : Fin n)
    {order : Order} (hpc : s.courier c = .delivering order) :
    Conserved orders { s with
      courierStats := Function.update s.courierStats c ((s.courierStats c).add order)
      courier := Function.update s.courier c (.counting order)
      hist := { s.hist with
        delivered := Function.update s.hist.delivered c (s.hist.delivered c ++ [order]) } } := by
  obtain ⟨hsize, hseq, hstop, hrun, hvalid, hcan, htaken, hact, hcomp, htime, hstats⟩ := h
  have hload := totalLoad_update s.courier c (.counting order)
  simp only [hpc, CourierPc.load, Prod.ext_iff, Prod.fst_add, Prod.snd_add, add_zero] at hload
  obtain ⟨hload1, hload2, hload3, hload4⟩ := hload
  have hdel := deliveredOrders_update s.hist.delivered c order
  refine ⟨hsize, hseq, hstop, hrun, hvalid, hcan, ?_, ?_, ?_, ?_, ?_⟩
  · rw [hdel, htaken, ← hload1, add_right_comm, add_assoc]
  · simp only
    omega
  · simp only [hcomp, hdel, Multiset.card_add, Multiset.card_singleton]
    congr 1
    omega
  · rw [hdel, Multiset.map_add, Multiset.sum_add, Multiset.map_singleton, Multiset.sum_singleton]
    simp only [htime]
    congr 1
    omega
  · intro d
    by_cases hd : d = c
    · subst hd
      simp only [Function.update_self, hstats, CourierStats.add, int32_add, int64_add,
        List.length_append, List.length_singleton, List.map_append, List.sum_append,
        List.map_singleton, List.sum_singleton, Nat.cast_add, Nat.cast_one, deliveryTime]
    · simpa only [Function.update_of_ne hd] using hstats d

/-- A courier that moves with the same order in its hands: what it stops carrying
for the three counters is added to them. -/
theorem conserved_counters {orders : List Order} {s : State n} (h : Conserved orders s)
    {f : Fin n → CourierPc} (hf : totalLoad f = totalLoad s.courier) (c : Fin n) (pc : CourierPc)
    {active completed time : ℤ} (horder : pc.load.1 = (f c).load.1)
    (hactive : active + (f c).load.2.1 = s.activeDeliveryCount + pc.load.2.1)
    (hcompleted : ∀ x, s.totalCompletedOrders = int32 x →
      completed = int32 (x + ((f c).load.2.2.1 - pc.load.2.2.1)))
    (htime : ∀ x, s.totalCompletedDeliveryTime = int64 x →
      time = int64 (x + ((f c).load.2.2.2 - pc.load.2.2.2))) :
    Conserved orders { s with
      activeDeliveryCount := active
      totalCompletedOrders := completed
      totalCompletedDeliveryTime := time
      courier := Function.update f c pc } := by
  have hload := totalLoad_update f c pc
  simp only [hf, horder, Prod.ext_iff, Prod.fst_add, Prod.snd_add] at hload
  obtain ⟨hload1, hload2, hload3, hload4⟩ := hload
  have hsame : (totalLoad (Function.update f c pc)).1 = (totalLoad s.courier).1 :=
    add_right_cancel hload1
  refine ⟨h.size, h.sequence, h.stopping, h.running, h.valid, h.cancelled, ?_, ?_, ?_, ?_, h.stats⟩
  · rw [hsame]
    exact h.taken
  · have hold := h.active
    simp only
    omega
  · simp only [hcompleted _ h.completed]
    congr 1
    omega
  · simp only [htime _ h.time]
    congr 1
    omega

theorem conserved_main {orders : List Order} {s : State n} (h : Conserved orders s)
    (pc : MainPc) (numCouriers : ℕ) :
    Conserved orders { s with main := pc, numCouriers := numCouriers } := by
  obtain ⟨hsize, hseq, hstop, hrun, hvalid, hcan, htaken, hact, hcomp, htime, hstats⟩ := h
  exact ⟨hsize, hseq, hstop, hrun, hvalid, hcan, htaken, hact, hcomp, htime, hstats⟩

theorem conserved_step {orders : List Order} {s s' : State n} (h : Transition s s')
    (hm : MainInOrder s) (hc : Conserved orders s) : Conserved orders s' := by
  cases h with
  | sigint =>
    obtain ⟨hsize, hseq, hstop, hrun, hvalid, hcan, htaken, hact, hcomp, htime, hstats⟩ := hc
    exact ⟨hsize, hseq, hstop, hrun, hvalid, hcan, htaken, hact, hcomp, htime, hstats⟩
  | courierWait c hpc _ _ _ => exact conserved_courier hc (totalLoad_update_same (by rw [hpc]; rfl))
  | courierWake c hpc => exact conserved_courier hc (totalLoad_update_same (by rw [hpc]; rfl))
  | courierExit c hpc => exact conserved_courier hc (totalLoad_update_same (by rw [hpc]; rfl))
  | courierStop c hpc hq =>
    have hwake : wakeAll s.courier c = .ready := by rw [wakeAll_of_ne (by simp [hpc]), hpc]
    refine conserved_courier (conserved_stopping hc hq) ?_
    rw [totalLoad_update_same (by rw [hwake]; rfl), totalLoad_wakeAll]
  | courierStart c hpc hrunning hq => exact conserved_start hc c hpc hrunning hq
  | deliver c hpc => exact conserved_deliver hc c hpc
  | count c hpc =>
    apply conserved_counters hc rfl c <;> simp +contextual [hpc, CourierPc.load, int32_add]
  | time c hpc =>
    apply conserved_counters hc rfl c <;>
      simp +contextual [hpc, CourierPc.load, deliveryTime, int64_add]
  | finish c stop f hpc hf hstop' =>
    have hstate : Conserved orders { s with shiftStopping := stop } := by
      rcases hstop' with rfl | ⟨rfl, hz | hst⟩
      · exact hc
      · exact conserved_stopping hc (List.length_eq_zero_iff.mp (hc.size ▸ hz))
      · exact conserved_stopping hc (hc.stopping hst)
    obtain ⟨hself, hload⟩ : f c = s.courier c ∧ totalLoad f = totalLoad s.courier := by
      rcases hf with ⟨rfl, -⟩ | rfl
      · exact ⟨rfl, rfl⟩
      · exact ⟨wakeAll_of_ne (by simp [hpc]), totalLoad_wakeAll _⟩
    apply conserved_counters hstate hload c <;> simp [hself, hpc, CourierPc.load]
  | create hi hpc =>
    rename_i i
    have hnot := hm.uncreated ⟨i, hi⟩ (by simp [State.createdCouriers, hpc])
    exact conserved_main (conserved_courier hc (totalLoad_update_same (by rw [hnot]; rfl))) _ _
  | cancelFailed hpc => exact conserved_main (conserved_cancel hc) _ _
  | cancel hpc => exact conserved_main (conserved_cancel hc) _ _
  | clear hpc =>
    obtain ⟨hsize, hseq, hstop, hrun, hvalid, hcan, htaken, hact, hcomp, htime, hstats⟩ := hc
    have hq := hstop (hm.stopped (by simp [hpc, MainPc.pastWait]))
    refine ⟨?_, ?_, ?_, hrun, hvalid, hcan, htaken, hact, hcomp, htime, hstats⟩
    · simp [popAll_eq, hsize]
    · simpa [popAll_eq, hq] using hseq
    · simp [popAll_eq]
  | _ => exact conserved_main hc _ _

theorem mainInOrder_reachable {orders : List Order} {s : State n}
    (h : (machine n orders).Reachable s) : MainInOrder s :=
  h.invariant (mainInOrder_initial orders)
    (fun _ _ _ _ hm hs => mainInOrder_step (step_transition hs) hm)

theorem conserved_reachable {orders : List Order} {s : State n}
    (h : (machine n orders).Reachable s) : Conserved orders s :=
  h.invariant (conserved_initial orders)
    (fun _ _ _ hr hc hs => conserved_step (step_transition hs) (mainInOrder_reachable hr) hc)

/-! ### The summary -/

theorem sum_printed {N : Type*} [AddCommMonoid N] (f : Fin n → N) {k : ℕ}
    (h : ∀ c : Fin n, k ≤ c → f c = 0) :
    (((List.finRange n).take k).map f).sum = ∑ c, f c := by
  have hsplit : ((List.finRange n).map f).sum = ∑ c, f c := (Fin.sum_univ_def f).symm
  have hdrop : (((List.finRange n).drop k).map f).sum = 0 := by
    apply List.sum_eq_zero
    intro x hx
    obtain ⟨c, hc, rfl⟩ := List.mem_map.mp hx
    obtain ⟨j, hj, hget⟩ := List.mem_drop_iff_getElem.mp hc
    apply h
    rw [← hget]
    simp
  rw [← hsplit, ← List.take_append_drop k (List.finRange n), List.map_append, List.sum_append,
    hdrop, add_zero]
  simp

theorem courier_of_joined {s : State n} (h : MainInOrder s)
    (hpc : s.main = .summary ∨ s.main = .finished) (c : Fin n) :
    s.courier c = if c < s.numCouriers then .exited else .notCreated := by
  have hjoined : s.joinedCouriers = s.numCouriers := by
    rcases hpc with hpc | hpc <;> simp only [State.joinedCouriers, hpc]
  have hcreated : s.createdCouriers = s.numCouriers := by
    rcases hpc with hpc | hpc <;> simp only [State.createdCouriers, hpc]
  split_ifs with hc
  · exact h.exited c (hjoined ▸ hc)
  · exact h.uncreated c (hcreated ▸ not_lt.mp hc)

theorem totalLoad_joined {s : State n} (h : MainInOrder s)
    (hpc : s.main = .summary ∨ s.main = .finished) : totalLoad s.courier = 0 := by
  apply Finset.sum_eq_zero
  intro c _
  rw [courier_of_joined h hpc]
  split_ifs <;> rfl

theorem sum_deliveryTime (ds : Multiset Order) :
    (ds.map deliveryTime).sum = 500 * (ds.map Order.durationUnits).sum := by
  induction ds using Multiset.induction_on with
  | empty => rfl
  | cons order ds ih =>
    simp only [Multiset.map_cons, Multiset.sum_cons, ih, deliveryTime, deliveryUnitMs]
    omega

/-- What has become of the orders when all couriers have been joined, and what the numbers
of the summary are. -/
structure Settled (orders : List Order) (s : State n) : Prop where
  split : deliveredOrders s.hist.delivered + (s.hist.cancelled : Multiset Order) =
    (orders : Multiset Order)
  idle : s.activeDeliveryCount = 0
  total : s.validOrderCount = int32 orders.length
  completed : s.totalCompletedOrders = int32 (deliveredOrders s.hist.delivered).card
  cancelled : s.totalCancelledOrders = int32 s.hist.cancelled.length
  time : s.totalCompletedDeliveryTime =
    int64 (500 * ((deliveredOrders s.hist.delivered).map Order.durationUnits).sum)
  counts : ((writeSummaryFile s).couriers.map CourierStats.deliveredOrderCount).sum =
    ∑ c, int32 (s.hist.delivered c).length
  times : ((writeSummaryFile s).couriers.map CourierStats.deliveredTimeMs).sum =
    ∑ c, int64 (500 * ((s.hist.delivered c).map Order.durationUnits).sum)

theorem settled_of_joined {orders : List Order} {s : State n} (h : (machine n orders).Reachable s)
    (hpc : s.main = .summary ∨ s.main = .finished) : Settled orders s := by
  have hm := mainInOrder_reachable h
  have hc := conserved_reachable h
  have hload := totalLoad_joined hm hpc
  have hstats : ∀ c, s.courierStats c = ⟨int32 (s.hist.delivered c).length,
      int64 (500 * ((s.hist.delivered c).map Order.durationUnits).sum)⟩ := by
    intro c
    have htime := sum_deliveryTime (s.hist.delivered c)
    simp only [Multiset.map_coe, Multiset.sum_coe] at htime
    rw [hc.stats, htime]
  have hidle : ∀ c : Fin n, s.numCouriers ≤ c → s.hist.delivered c = [] := by
    intro c hcn
    apply hm.undelivered c
    rw [courier_of_joined hm hpc, if_neg (not_lt.mpr hcn)]
  refine ⟨?_, ?_, hc.valid, ?_, hc.cancelled, ?_, ?_, ?_⟩
  · have hpast : s.main.pastWait = true := by
      rcases hpc with hpc | hpc <;> rw [hpc] <;> rfl
    have hqueue := hc.stopping (hm.stopped hpast)
    have hseq := hc.sequence
    have htaken := hc.taken
    rw [hqueue, List.append_nil] at hseq
    rw [hload, Prod.fst_zero, zero_add] at htaken
    rw [← htaken, Multiset.coe_add, hseq]
    exact Multiset.coe_eq_coe.mpr (loadOrders_perm orders)
  · rw [hc.active, hload]
    rfl
  · simpa [hload] using hc.completed
  · simpa [hload, sum_deliveryTime] using hc.time
  · simp only [writeSummaryFile, List.map_map, Function.comp_def, hstats]
    apply sum_printed
    intro c hcn
    rw [hidle c hcn]
    exact int32_eq_self_iff.mpr (by decide)
  · simp only [writeSummaryFile, List.map_map, Function.comp_def, hstats]
    apply sum_printed
    intro c hcn
    rw [hidle c hcn]
    exact int64_eq_self_iff.mpr (by decide)

/-! ### A shift that is interrupted during its first delivery -/

def fourOrders : List Order :=
  [⟨3, ['d'], .economy, 4⟩, ⟨2, ['b'], .standard, 3⟩, ⟨1, ['a'], .express, 2⟩,
    ⟨3, ['c'], .economy, 1⟩]

def firstCourier : Action 2 := .courier ⟨0, Nat.two_pos⟩
def secondCourier : Action 2 := .courier ⟨1, Nat.one_lt_two⟩

def interruptedShift : List (Action 2) :=
  [.main, firstCourier, .main, .main, .sigint, .main, .main] ++
    List.replicate 5 firstCourier ++ [secondCourier] ++ List.replicate 4 .main

theorem interruptedShift_isSome :
    ((machine 2 fourOrders).run (machine 2 fourOrders).init interruptedShift).isSome := by decide

end SysProg.HW5

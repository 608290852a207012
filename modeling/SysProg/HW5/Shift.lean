import SysProg.HW5.OrderQueue
import SysProg.Lib.Execution
import SysProg.Lib.MachineInt

/-!
# One delivery shift as a transition system

Courier threads take orders under `queue_lock`, deliver them outside of it and
take the lock again to leave the delivery. The main thread creates the
couriers, waits for the end of the shift, joins them and writes the summary; it
cancels what is queued after `SIGINT` or when a thread cannot be created.

An action runs one critical section, or one access to an atomic counter, of one
thread. A courier asleep on `courier_wakeup_cond` is `waiting` until a broadcast
or a spurious wake-up makes it compete for the lock again. The main thread's
timed wait may end at any moment. Orders are counted in `int` and times summed in
`long`, so the totals wrap; `active_delivery_count` is at most the number of
couriers and stays exact.
-/

namespace SysProg.HW5
open SysProg.Lib

def deliveryUnitMs : ℤ := 500

inductive CourierPc where
  | notCreated
  | ready
  | waiting
  | delivering (order : Order)
  | counting (order : Order)
  | timing (order : Order)
  | finishing (order : Order)
  | exited
  deriving DecidableEq, Repr

inductive MainPc where
  | creating (courierIndex : ℕ)
  | createFailed (courierIndex : ℕ)
  | waitLoop
  | sleeping
  | cancelling
  | joining (courierIndex : ℕ)
  | summary
  | finished
  deriving DecidableEq, Repr

structure CourierStats where
  deliveredOrderCount : ℤ
  deliveredTimeMs : ℤ
  deriving DecidableEq, Repr

/-- Orders in the sequence in which they leave the queue, and the orders that
each courier has delivered. -/
structure History (n : ℕ) where
  started : List Order
  cancelled : List Order
  delivered : Fin n → List Order

structure State (n : ℕ) where
  queue : OrderQueue
  validOrderCount : ℤ
  shiftStopping : Bool
  sigintFlag : Bool
  activeDeliveryCount : ℤ
  totalCompletedOrders : ℤ
  totalCancelledOrders : ℤ
  totalCompletedDeliveryTime : ℤ
  courierStats : Fin n → CourierStats
  courier : Fin n → CourierPc
  main : MainPc
  numCouriers : ℕ
  hist : History n

variable {n : ℕ}

/-- `pthread_cond_broadcast(&courier_wakeup_cond)`. -/
def wakeAll (courier : Fin n → CourierPc) : Fin n → CourierPc := fun c =>
  match courier c with
  | .waiting => .ready
  | pc => pc

def CourierStats.add (st : CourierStats) (order : Order) : CourierStats where
  deliveredOrderCount := int32 (st.deliveredOrderCount + 1)
  deliveredTimeMs := int64 (st.deliveredTimeMs + order.durationUnits * deliveryUnitMs)

/-- The critical section at the head of the courier's loop. -/
def courierTake (s : State n) (c : Fin n) : State n :=
  if s.queue.size = 0 ∧ s.shiftStopping = false ∧ 0 < s.activeDeliveryCount then
    { s with courier := Function.update s.courier c .waiting }
  else if s.shiftStopping then { s with courier := Function.update s.courier c .exited }
  else
    match queuePop s.queue with
    | none =>
      if s.activeDeliveryCount = 0 then
        { s with
          shiftStopping := true
          courier := Function.update (wakeAll s.courier) c .exited }
      else { s with courier := Function.update s.courier c .exited }
    | some (order, queue) =>
      { s with
        queue := queue
        activeDeliveryCount := s.activeDeliveryCount + 1
        courier := Function.update s.courier c (.delivering order)
        hist := { s.hist with started := s.hist.started ++ [order] } }

/-- The critical section after a delivery. -/
def courierLeave (s : State n) (c : Fin n) : State n :=
  let active := s.activeDeliveryCount - 1
  if (s.queue.size = 0 ∧ active = 0) ∨ s.shiftStopping = true then
    { s with
      activeDeliveryCount := active
      shiftStopping := true
      courier := Function.update (wakeAll s.courier) c .ready }
  else if 0 < s.queue.size then
    { s with
      activeDeliveryCount := active
      courier := Function.update (wakeAll s.courier) c .ready }
  else
    { s with
      activeDeliveryCount := active
      courier := Function.update s.courier c .ready }

def courierStep (s : State n) (c : Fin n) : Option (State n) :=
  match s.courier c with
  | .notCreated | .waiting | .exited => none
  | .ready => some (courierTake s c)
  | .delivering order => some { s with
      courierStats := Function.update s.courierStats c ((s.courierStats c).add order)
      courier := Function.update s.courier c (.counting order)
      hist := { s.hist with
        delivered := Function.update s.hist.delivered c (s.hist.delivered c ++ [order]) } }
  | .counting order => some { s with
      totalCompletedOrders := int32 (s.totalCompletedOrders + 1)
      courier := Function.update s.courier c (.timing order) }
  | .timing order => some { s with
      totalCompletedDeliveryTime :=
        int64 (s.totalCompletedDeliveryTime + order.durationUnits * deliveryUnitMs)
      courier := Function.update s.courier c (.finishing order) }
  | .finishing _ => some (courierLeave s c)

/-- `cancel_pending_orders_after_sigint`, which is one critical section. -/
def cancelPendingOrders (s : State n) : State n :=
  if s.shiftStopping then s
  else
    let (cancelled, queue) := popAll s.queue.orders s.queue.size
    { s with
      shiftStopping := true
      queue := queue
      totalCancelledOrders := int32 (s.totalCancelledOrders + cancelled.length)
      courier := wakeAll s.courier
      hist := { s.hist with cancelled := s.hist.cancelled ++ cancelled } }

def mainStep (s : State n) : Option (State n) :=
  match s.main with
  | .creating i =>
    if h : i < n then some { s with
      courier := Function.update s.courier ⟨i, h⟩ .ready
      main := .creating (i + 1) }
    else some { s with main := .waitLoop }
  | .createFailed i => some { cancelPendingOrders s with numCouriers := i, main := .waitLoop }
  | .waitLoop =>
    if s.shiftStopping = false ∨ 0 < s.activeDeliveryCount then
      if s.sigintFlag then some { s with main := .cancelling }
      else some { s with main := .sleeping }
    else some { s with main := .joining 0 }
  | .sleeping => some { s with main := .waitLoop }
  | .cancelling => some { cancelPendingOrders s with main := .waitLoop }
  | .joining i =>
    if h : i < n ∧ i < s.numCouriers then
      if s.courier ⟨i, h.1⟩ = .exited then some { s with main := .joining (i + 1) } else none
    else some { s with main := .summary }
  | .summary => some { s with
      main := .finished
      queue := (popAll s.queue.orders s.queue.size).2 }
  | .finished => none

inductive Action (n : ℕ) where
  | courier (c : Fin n)
  | wake (c : Fin n)
  | main
  | createFails
  | sigint

def step (s : State n) : Action n → Option (State n)
  | .courier c => courierStep s c
  | .wake c =>
    if s.courier c = .waiting then some { s with courier := Function.update s.courier c .ready }
    else none
  | .main => mainStep s
  | .createFails =>
    match s.main with
    | .creating i => if i < n then some { s with main := .createFailed i } else none
    | _ => none
  | .sigint => some { s with sigintFlag := true }

def initial (n : ℕ) (orders : List Order) : State n where
  queue := loadOrders orders
  validOrderCount := int32 orders.length
  shiftStopping := false
  sigintFlag := false
  activeDeliveryCount := 0
  totalCompletedOrders := 0
  totalCancelledOrders := 0
  totalCompletedDeliveryTime := 0
  courierStats := fun _ => ⟨0, 0⟩
  courier := fun _ => .notCreated
  main := .creating 0
  numCouriers := n
  hist := ⟨[], [], fun _ => []⟩

def machine (n : ℕ) (orders : List Order) : Machine (State n) (Action n) :=
  ⟨initial n orders, step⟩

/-- The values that `write_summary_file` prints. -/
structure Summary where
  totalOrders : ℤ
  completed : ℤ
  cancelled : ℤ
  totalTime : ℤ
  avgPerOrder : ℤ
  couriers : List CourierStats
  deriving DecidableEq, Repr

def writeSummaryFile (s : State n) : Summary where
  totalOrders := s.validOrderCount
  completed := s.totalCompletedOrders
  cancelled := s.totalCancelledOrders
  totalTime := s.totalCompletedDeliveryTime
  avgPerOrder :=
    if s.totalCompletedOrders = 0 then 0
    else s.totalCompletedDeliveryTime.tdiv s.totalCompletedOrders
  couriers := ((List.finRange n).take s.numCouriers).map s.courierStats

end SysProg.HW5

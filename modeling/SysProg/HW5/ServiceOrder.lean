import SysProg.HW5.ShiftConservation

/-!
# Orders leave the queue in service order

The scan of `queue_push` puts an order behind all queued orders whose priority
and id are not larger. The queue is therefore sorted after every mix of pushes
and pops, orders with equal keys leave it first in, first out, and a loaded
queue is the stable sort of the file. A shift takes its orders from the front of
that list, whether to deliver or to cancel them.
-/

namespace SysProg.HW5
open SysProg.Lib

/-- The loaded orders by priority and then by id, equal ones as in the file. -/
def serviceOrder (orders : List Order) : List Order := stableSort Order.key orders

/-! ### Every mix of pushes and pops -/

inductive QueueOp where
  | push (order : Order)
  | pop

def queueStep (p : OrderQueue × List Order) : QueueOp → OrderQueue × List Order
  | .push order => (queuePush p.1 order, p.2)
  | .pop =>
    match queuePop p.1 with
    | some (order, queue) => (queue, p.2 ++ [order])
    | none => p

def queueRun (ops : List QueueOp) : OrderQueue × List Order := ops.foldl queueStep (queueInit, [])

def QueueOp.pushed : QueueOp → List Order
  | .push order => [order]
  | .pop => []

structure InServiceOrder (pushed popped : List Order) (queue : OrderQueue) : Prop where
  sorted : SortedBy Order.key queue.orders
  size : queue.size = queue.orders.length
  perm : (popped ++ queue.orders).Perm pushed
  fifo : ∀ k, atKey Order.key k popped ++ atKey Order.key k queue.orders =
    atKey Order.key k pushed

theorem inServiceOrder_init : InServiceOrder [] [] queueInit where
  sorted := List.Pairwise.nil
  size := rfl
  perm := List.Perm.refl _
  fifo := fun _ => rfl

theorem inServiceOrder_push {pushed popped : List Order} {queue : OrderQueue}
    (h : InServiceOrder pushed popped queue) (order : Order) :
    InServiceOrder (pushed ++ [order]) popped (queuePush queue order) := by
  obtain ⟨hsorted, hsize, hperm, hfifo⟩ := h
  refine ⟨?_, ?_, ?_, ?_⟩
  · simp only [queuePush, insertOrder_eq]
    exact sortedBy_insertBehind hsorted order
  · simp only [queuePush, (insertOrder_perm order queue.orders).length_eq, List.length_cons, hsize]
  · have hbehind : (popped ++ insertOrder order queue.orders).Perm
      (order :: (popped ++ queue.orders)) :=
      ((insertOrder_perm order queue.orders).append_left popped).trans List.perm_middle
    exact (hbehind.trans (hperm.cons order)).trans (List.perm_append_singleton order pushed).symm
  · intro k
    simp only [queuePush, insertOrder_eq]
    rw [atKey_insertBehind hsorted, atKey_append, ← List.append_assoc, hfifo, ← atKey_append]

theorem inServiceOrder_pop {pushed popped : List Order} {queue queue' : OrderQueue} {order : Order}
    (h : InServiceOrder pushed popped queue) (hpop : queuePop queue = some (order, queue')) :
    InServiceOrder pushed (popped ++ [order]) queue' := by
  obtain ⟨hsorted, hsize, hperm, hfifo⟩ := h
  cases hq : queue.orders with
  | nil => simp [queuePop, hq] at hpop
  | cons first next =>
    simp only [queuePop, hq, Option.some.injEq, Prod.mk.injEq] at hpop
    obtain ⟨rfl, rfl⟩ := hpop
    rw [hq] at hsorted hsize hperm
    refine ⟨(List.pairwise_cons.mp hsorted).2, ?_, ?_, ?_⟩
    · simp only [hsize, List.length_cons, Nat.add_sub_cancel]
    · simpa using hperm
    · intro k
      rw [← hfifo k, hq, atKey_append, List.append_assoc, ← atKey_append, List.singleton_append]

theorem inServiceOrder_step {pushed : List Order} {p : OrderQueue × List Order}
    (h : InServiceOrder pushed p.2 p.1) (op : QueueOp) :
    InServiceOrder (pushed ++ op.pushed) (queueStep p op).2 (queueStep p op).1 := by
  cases op with
  | push order => exact inServiceOrder_push h order
  | pop =>
    simp only [QueueOp.pushed, List.append_nil, queueStep]
    split
    · exact inServiceOrder_pop h (by assumption)
    · exact h

theorem inServiceOrder_queueRun (ops : List QueueOp) :
    InServiceOrder (ops.flatMap QueueOp.pushed) (queueRun ops).2 (queueRun ops).1 := by
  induction ops using List.reverseRecOn with
  | nil => exact inServiceOrder_init
  | append_singleton ops op ih =>
    have hstep := inServiceOrder_step ih op
    simpa [queueRun, List.flatMap_append] using hstep

/-! ### The loaded queue and the shift -/

theorem queueRun_push (orders : List Order) :
    queueRun (orders.map QueueOp.push) = (loadOrders orders, []) := by
  have hfold : ∀ (os : List Order) (p : OrderQueue × List Order),
      (os.map QueueOp.push).foldl queueStep p = (os.foldl queuePush p.1, p.2) := by
    intro os
    induction os with
    | nil => exact fun _ => rfl
    | cons order os ih =>
      intro p
      rw [List.map_cons, List.foldl_cons, ih]
      rfl
  exact hfold orders (queueInit, [])

theorem loadOrders_eq (orders : List Order) :
    (loadOrders orders).orders = serviceOrder orders := by
  have hload := inServiceOrder_queueRun (orders.map QueueOp.push)
  rw [queueRun_push] at hload
  have hpushed : (orders.map QueueOp.push).flatMap QueueOp.pushed = orders := by
    rw [List.flatMap_map]
    simp [QueueOp.pushed]
  refine hload.sorted.eq_of_atKey (sortedBy_stableSort orders) (fun k => ?_)
  have hfifo := hload.fifo k
  rw [hpushed] at hfifo
  rw [serviceOrder, atKey_stableSort]
  simpa using hfifo

/-- Orders are taken from the queue in service order: at any moment a prefix of
it has been taken, at the summary all of it. The queue itself keeps that order
through every mix of pushes and pops. -/
theorem orders_taken_in_serviceOrder :
    (∀ (n : ℕ) (orders : List Order) (s : State n), (machine n orders).Reachable s →
      s.hist.started ++ s.hist.cancelled ++ s.queue.orders = serviceOrder orders ∧
      (s.main = .summary → s.hist.started ++ s.hist.cancelled = serviceOrder orders)) ∧
    ∀ ops : List QueueOp,
      InServiceOrder (ops.flatMap QueueOp.pushed) (queueRun ops).2 (queueRun ops).1 := by
  refine ⟨fun n orders s h => ?_, inServiceOrder_queueRun⟩
  have hc := conserved_reachable h
  have hseq := hc.sequence
  rw [loadOrders_eq] at hseq
  refine ⟨hseq, fun hpc => ?_⟩
  have hqueue := hc.stopping ((mainInOrder_reachable h).stopped (by simp [hpc, MainPc.pastWait]))
  rw [hqueue, List.append_nil] at hseq
  exact hseq

/-- The interrupted shift delivers the express order and cancels the others; the two that
have priority and id in common leave in the order in which they came. -/
theorem orders_taken_interruptedShift : ∃ s, (machine 2 fourOrders).Reachable s ∧
    s.main = .summary ∧ s.hist.started.map Order.recipient = [['a']] ∧
    s.hist.cancelled.map Order.recipient = [['b'], ['d'], ['c']] ∧
    s.hist.started ++ s.hist.cancelled = serviceOrder fourOrders := by
  have hreach := (Machine.execution_of_isSome interruptedShift_isSome).reachable
  have hpc : (((machine 2 fourOrders).run (machine 2 fourOrders).init interruptedShift).get
      interruptedShift_isSome).main = .summary := by decide
  exact ⟨_, hreach, hpc, by decide, by decide,
    (orders_taken_in_serviceOrder.1 2 fourOrders _ hreach).2 hpc⟩

end SysProg.HW5

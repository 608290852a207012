import Mathlib.Data.Prod.Lex
import SysProg.Lib.StableSort

/-!
# The queue of pending orders

A singly linked list that every push keeps in service order, with a separate
size field. A failing `malloc` ends the program before the shift starts, so
pushes always succeed here.
-/

namespace SysProg.HW5
open SysProg.Lib

inductive Priority where
  | express | standard | economy
  deriving DecidableEq, Repr

def Priority.code : Priority → ℕ
  | .express => 1
  | .standard => 2
  | .economy => 3

structure Order where
  id : ℤ
  recipient : List Char
  priority : Priority
  durationUnits : ℤ
  deriving DecidableEq, Repr

/-- The nodes from `head` on, and the field `size`. -/
structure OrderQueue where
  orders : List Order
  size : ℕ
  deriving DecidableEq, Repr

def queueInit : OrderQueue := ⟨[], 0⟩

def orderHasHigherPriority (newOrder queuedOrder : Order) : Bool :=
  if newOrder.priority ≠ queuedOrder.priority then
    decide (newOrder.priority.code < queuedOrder.priority.code)
  else decide (newOrder.id < queuedOrder.id)

/-- The scan for the first node that the new order precedes; the test of the
head and the tests of the following nodes are the same test. -/
def insertOrder (order : Order) : List Order → List Order
  | [] => [order]
  | node :: next =>
    if orderHasHigherPriority order node then order :: node :: next
    else node :: insertOrder order next

def queuePush (q : OrderQueue) (order : Order) : OrderQueue :=
  ⟨insertOrder order q.orders, q.size + 1⟩

def queuePop (q : OrderQueue) : Option (Order × OrderQueue) :=
  match q.orders with
  | [] => none
  | first :: next => some (first, ⟨next, q.size - 1⟩)

/-- `while (queue_pop(&queue, &order))`: the orders in the sequence in which the
loop removes them. -/
def popAll : List Order → ℕ → List Order × OrderQueue
  | [], size => ([], ⟨[], size⟩)
  | first :: next, size =>
    let rest := popAll next (size - 1)
    (first :: rest.1, rest.2)

/-- The queue after `load_orders_from_file` has accepted these orders. -/
def loadOrders (orders : List Order) : OrderQueue := orders.foldl queuePush queueInit

/-! ### A push inserts behind the orders with no larger key -/

def Order.key (order : Order) : ℕ ×ₗ ℤ := toLex (order.priority.code, order.id)

theorem code_injective {p q : Priority} (h : p.code = q.code) : p = q := by
  cases p <;> cases q <;> first | rfl | cases h

theorem orderHasHigherPriority_eq (a b : Order) :
    orderHasHigherPriority a b = decide (a.key < b.key) := by
  unfold orderHasHigherPriority
  split_ifs with hp
  · have hcode : a.priority.code ≠ b.priority.code := fun h => hp (code_injective h)
    simp [Order.key, Prod.Lex.toLex_lt_toLex, hcode]
  · have hcode : a.priority.code = b.priority.code := congrArg Priority.code (not_ne_iff.mp hp)
    simp [Order.key, Prod.Lex.toLex_lt_toLex, hcode]

theorem insertOrder_eq (order : Order) (xs : List Order) :
    insertOrder order xs = insertBehind Order.key order xs := by
  induction xs with
  | nil => rfl
  | cons x xs ih =>
    unfold insertOrder insertBehind
    simp only [orderHasHigherPriority_eq, decide_eq_true_eq, ih]

theorem insertOrder_perm (order : Order) (xs : List Order) :
    (insertOrder order xs).Perm (order :: xs) := by
  rw [insertOrder_eq]
  exact insertBehind_perm order xs

theorem foldl_queuePush_perm (orders : List Order) (q : OrderQueue) :
    (orders.foldl queuePush q).orders.Perm (q.orders ++ orders) := by
  induction orders generalizing q with
  | nil => simp
  | cons o os ih =>
    have hpush : (queuePush q o).orders.Perm (o :: q.orders) := insertOrder_perm o q.orders
    have hstep := (ih (queuePush q o)).trans (hpush.append_right os)
    exact hstep.trans List.perm_middle.symm

theorem loadOrders_perm (orders : List Order) : (loadOrders orders).orders.Perm orders :=
  foldl_queuePush_perm orders queueInit

theorem foldl_queuePush_size {q : OrderQueue} (orders : List Order)
    (h : q.size = q.orders.length) :
    (orders.foldl queuePush q).size = (orders.foldl queuePush q).orders.length := by
  induction orders generalizing q with
  | nil => exact h
  | cons o os ih =>
    apply ih
    simp only [queuePush, (insertOrder_perm o q.orders).length_eq, List.length_cons, h]

theorem loadOrders_size (orders : List Order) :
    (loadOrders orders).size = (loadOrders orders).orders.length :=
  foldl_queuePush_size orders rfl

theorem popAll_eq (xs : List Order) (size : ℕ) :
    popAll xs size = (xs, ⟨[], size - xs.length⟩) := by
  induction xs generalizing size with
  | nil => rfl
  | cons x xs ih =>
    simp only [popAll, ih, List.length_cons, Nat.sub_sub, Nat.add_comm]

end SysProg.HW5

import Mathlib.Data.List.Basic
import Mathlib.Data.Nat.ModEq
import Mathlib.Logic.Function.Basic

/-!
# Bounded circular buffers

The representation keeps a read index, a write index and a separate element
count over a fixed number of cells. `push` and `pop` are the unguarded bodies;
a caller tests the count first. The contents of a well-formed buffer are the
`count` cells from `head` on, and on them `push` appends and `pop` removes the
first element.
-/

namespace SysProg.Lib

structure RingBuffer (α : Type*) where
  head : ℕ
  tail : ℕ
  count : ℕ
  capacity : ℕ
  entries : ℕ → α

namespace RingBuffer
variable {α : Type*} {b : RingBuffer α}

def empty (capacity : ℕ) (blank : α) : RingBuffer α := ⟨0, 0, 0, capacity, fun _ => blank⟩

def push (b : RingBuffer α) (x : α) : RingBuffer α :=
  { b with
    entries := Function.update b.entries b.tail x
    tail := (b.tail + 1) % b.capacity
    count := b.count + 1 }

def front (b : RingBuffer α) : α := b.entries b.head

def pop (b : RingBuffer α) : RingBuffer α :=
  { b with
    head := (b.head + 1) % b.capacity
    count := b.count - 1 }

def toList (b : RingBuffer α) : List α :=
  (List.range b.count).map (fun i => b.entries ((b.head + i) % b.capacity))

structure WellFormed (b : RingBuffer α) : Prop where
  head_lt : b.head < b.capacity
  tail_lt : b.tail < b.capacity
  count_le : b.count ≤ b.capacity
  tail_eq : b.tail = (b.head + b.count) % b.capacity

theorem wellFormed_empty {capacity : ℕ} (h : 0 < capacity) (blank : α) :
    (empty capacity blank).WellFormed :=
  ⟨h, h, Nat.zero_le _, (Nat.zero_mod _).symm⟩

@[simp] theorem toList_empty (capacity : ℕ) (blank : α) : (empty capacity blank).toList = [] := rfl

@[simp] theorem length_toList (b : RingBuffer α) : b.toList.length = b.count := by
  simp [toList]

theorem toList_eq_nil_iff (b : RingBuffer α) : b.toList = [] ↔ b.count = 0 := by
  rw [← List.length_eq_zero_iff, length_toList]

theorem wellFormed_push (hb : b.WellFormed) (hfull : b.count ≠ b.capacity) (x : α) :
    (b.push x).WellFormed := by
  have hpos : 0 < b.capacity := Nat.zero_lt_of_lt hb.head_lt
  refine ⟨hb.head_lt, Nat.mod_lt _ hpos, ?_, ?_⟩
  · exact Nat.succ_le_of_lt (lt_of_le_of_ne hb.count_le hfull)
  · simp only [push, hb.tail_eq, Nat.mod_add_mod, Nat.add_assoc]

theorem cell_injective {head i j capacity : ℕ} (hi : i < capacity) (hj : j < capacity)
    (h : (head + i) % capacity = (head + j) % capacity) : i = j := by
  have hmod : i ≡ j [MOD capacity] := Nat.ModEq.add_left_cancel' head h
  rwa [Nat.ModEq, Nat.mod_eq_of_lt hi, Nat.mod_eq_of_lt hj] at hmod

theorem toList_push (hb : b.WellFormed) (hfull : b.count ≠ b.capacity) (x : α) :
    (b.push x).toList = b.toList ++ [x] := by
  have hlt : b.count < b.capacity := lt_of_le_of_ne hb.count_le hfull
  have hold : ∀ i ∈ List.range b.count,
      Function.update b.entries b.tail x ((b.head + i) % b.capacity) =
        b.entries ((b.head + i) % b.capacity) := by
    intro i hi
    have hi' : i < b.count := List.mem_range.mp hi
    apply Function.update_of_ne
    intro heq
    rw [hb.tail_eq] at heq
    have hij := cell_injective (hi'.trans hlt) hlt heq
    omega
  have hnew : Function.update b.entries b.tail x ((b.head + b.count) % b.capacity) = x := by
    rw [← hb.tail_eq, Function.update_self]
  simp only [toList, push, List.range_succ, List.map_append, List.map_cons, List.map_nil, hnew]
  rw [List.map_congr_left hold]

theorem wellFormed_pop (hb : b.WellFormed) (hne : b.count ≠ 0) : b.pop.WellFormed := by
  have hpos : 0 < b.capacity := Nat.zero_lt_of_lt hb.head_lt
  refine ⟨Nat.mod_lt _ hpos, hb.tail_lt, (Nat.sub_le _ _).trans hb.count_le, ?_⟩
  have hsum : b.head + 1 + (b.count - 1) = b.head + b.count := by omega
  simp only [pop, Nat.mod_add_mod, hsum, hb.tail_eq]

theorem toList_pop (hb : b.WellFormed) (hne : b.count ≠ 0) :
    b.toList = b.front :: b.pop.toList := by
  obtain ⟨n, hn⟩ := Nat.exists_eq_succ_of_ne_zero hne
  have hhead : (b.head + 0) % b.capacity = b.head := Nat.mod_eq_of_lt hb.head_lt
  simp only [toList, front, pop, hn, List.range_succ_eq_map, List.map_cons, List.map_map, hhead,
    Nat.succ_sub_one]
  congr 1
  apply List.map_congr_left
  intro i _
  simp only [Function.comp, Nat.mod_add_mod]
  congr 2
  omega

end RingBuffer
end SysProg.Lib

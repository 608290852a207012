import SysProg.Lib.BoundedMonitor
import SysProg.Lib.RingBuffer
import Mathlib.Data.List.Basic

/-!
# Rings as bounded first-in first-out queues

The purpose of a bounded buffer is a list of at most `capacity` items with an
end flag: `push` appends while there is room, `pop` removes the first item or
reports the end of a closed empty queue. A buffer that keeps its items in a ring
refines it: in a well-formed ring every section either has to wait exactly when
the list would, or completes with the same result, and this carries over to
sequences of completed sections of any length.
-/

namespace SysProg.Lib
variable {β ε : Type}

/-! ### The abstract queue -/

structure Queue (ε : Type) where
  items : List ε
  ended : Bool

inductive Section (ε : Type) where
  | push (e : ε)
  | pop
  | close

namespace Queue

def empty : Queue ε := ⟨[], false⟩

/-- `none` while the caller has to wait; otherwise the item taken, if any, and the queue left. -/
def step (capacity : ℕ) (q : Queue ε) : Section ε → Option (Option ε × Queue ε)
  | .push e =>
    if q.items.length < capacity then some (none, { q with items := q.items ++ [e] }) else none
  | .pop =>
    match q.items with
    | [] => if q.ended then some (none, q) else none
    | e :: rest => some (some e, { q with items := rest })
  | .close => some (none, { q with ended := true })

end Queue

def runSections {σ : Type} (step : σ → Section ε → Option (Option ε × σ)) :
    σ → List (Section ε) → Option (List (Option ε) × σ)
  | s, [] => some ([], s)
  | s, op :: ops =>
    (step s op).bind (fun p => (runSections step p.2 ops).map (fun r => (p.1 :: r.1, r.2)))

def pushedItems (ops : List (Section ε)) : List ε :=
  ops.filterMap (fun op => match op with
    | .push e => some e
    | _ => none)

theorem Queue.step_fifo {capacity : ℕ} {q q' : Queue ε} {op : Section ε} {x : Option ε}
    (h : q.step capacity op = some (x, q')) :
    q.items ++ pushedItems [op] = x.toList ++ q'.items := by
  cases op with
  | push e =>
    simp only [step] at h
    split_ifs at h
    cases h
    rfl
  | pop =>
    simp only [step] at h
    cases hitems : q.items with
    | nil =>
      simp only [hitems] at h
      split_ifs at h
      cases h
      rw [hitems]
      rfl
    | cons e rest =>
      simp only [hitems] at h
      cases h
      exact List.append_nil _
  | close =>
    cases h
    exact List.append_nil _

theorem runSections_cons {σ : Type} {step : σ → Section ε → Option (Option ε × σ)} {s s' : σ}
    {op : Section ε} {ops : List (Section ε)} {outs : List (Option ε)} :
    runSections step s (op :: ops) = some (outs, s') ↔
      ∃ x t rest, step s op = some (x, t) ∧ runSections step t ops = some (rest, s') ∧
        outs = x :: rest := by
  simp only [runSections, Option.bind_eq_some_iff, Option.map_eq_some_iff, Prod.exists,
    Prod.mk.injEq]
  constructor
  · rintro ⟨x, t, hstep, rest, u, hrun, rfl, rfl⟩
    exact ⟨x, t, rest, hstep, hrun, rfl⟩
  · rintro ⟨x, t, rest, hstep, hrun, rfl⟩
    exact ⟨x, t, hstep, rest, s', hrun, rfl, rfl⟩

/-- Items leave in the order in which they were pushed, each as it was pushed. -/
theorem Queue.run_fifo {capacity : ℕ} {q q' : Queue ε} {ops : List (Section ε)}
    {outs : List (Option ε)} (h : runSections (step capacity) q ops = some (outs, q')) :
    q.items ++ pushedItems ops = outs.reduceOption ++ q'.items := by
  induction ops generalizing q outs with
  | nil =>
    cases h
    exact List.append_nil _
  | cons op ops ih =>
    obtain ⟨x, t, rest, hstep, hrun, rfl⟩ := runSections_cons.mp h
    have hcons : pushedItems (op :: ops) = pushedItems [op] ++ pushedItems ops := by
      cases op <;> rfl
    have houts : (x :: rest).reduceOption = x.toList ++ rest.reduceOption := by
      cases x <;> rfl
    rw [hcons, houts, ← List.append_assoc, step_fifo hstep, List.append_assoc, ih hrun,
      List.append_assoc]

/-! ### Buffers with a ring inside -/

/-- The sections of a buffer; raising the end flag is one as well. -/
def BoundedBuffer.runSection (B : BoundedBuffer β ε) (b : β) : Section ε → Option (Option ε × β)
  | .push e => (B.push b e).map (fun b' => (none, b'))
  | .pop => B.pop b
  | .close => (B.close b).map (fun b' => (none, b'))

/-- The buffer works on its ring with the plain ring operations, guarded by the count. -/
structure BoundedBuffer.OnRing (B : BoundedBuffer β ε) (ring : β → RingBuffer ε) : Prop where
  push_waits : ∀ {b e}, B.push b e = none → (ring b).count = (ring b).capacity
  push : ∀ {b e b'}, B.push b e = some b' → (ring b).count ≠ (ring b).capacity ∧
    ring b' = (ring b).push e ∧ B.ended b' = B.ended b
  pop_waits : ∀ {b}, B.pop b = none → (ring b).count = 0 ∧ B.ended b = false
  pop : ∀ {b x b'}, B.pop b = some (x, b') →
    ((ring b).count = 0 ∧ B.ended b = true ∧ x = none ∧ b' = b) ∨
      ((ring b).count ≠ 0 ∧ x = some (ring b).front ∧ ring b' = (ring b).pop ∧
        B.ended b' = B.ended b)
  close : ∀ {b b'}, B.close b = some b' → ring b' = ring b ∧ B.ended b' = true

def BoundedBuffer.queue (B : BoundedBuffer β ε) (ring : β → RingBuffer ε) (b : β) : Queue ε :=
  ⟨(ring b).toList, B.ended b⟩

theorem BoundedBuffer.OnRing.lawful {B : BoundedBuffer β ε} {ring : β → RingBuffer ε}
    (hB : B.OnRing ring) (hcount : ∀ b, B.count b = (ring b).count)
    (hcap : ∀ b, B.capacity b = (ring b).capacity) : B.Lawful where
  push_waits := by
    intro b e h
    rw [hcount, hcap]
    exact hB.push_waits h
  push_adds := by
    intro b b' e h
    obtain ⟨-, hring, hended⟩ := hB.push h
    rw [hcount, hcount, hcap, hcap, hring]
    exact ⟨rfl, rfl, hended⟩
  pop_waits := by
    intro b h
    rw [hcount]
    exact hB.pop_waits h
  pop_takes := by
    intro b b' e h
    rcases hB.pop h with ⟨-, -, hitem, -⟩ | ⟨hpos, -, hring, hended⟩
    · cases hitem
    · rw [hcount, hcount, hcap, hcap, hring]
      exact ⟨(Nat.succ_pred_eq_of_ne_zero hpos).symm, rfl, hended⟩
  pop_ends := by
    intro b b' h
    rcases hB.pop h with ⟨hzero, -, -, rfl⟩ | ⟨-, hitem, -, -⟩
    · rw [hcount]
      exact ⟨hzero, rfl⟩
    · cases hitem
  close_flags := by
    intro b b' h
    rw [hcount, hcount, hcap, hcap, (hB.close h).1]
    exact ⟨rfl, rfl⟩

namespace BoundedBuffer.OnRing
variable {B : BoundedBuffer β ε} {ring : β → RingBuffer ε} {b b' : β} {x : Option ε}

theorem section_step (hB : B.OnRing ring) {op : Section ε} (hb : (ring b).WellFormed)
    (h : B.runSection b op = some (x, b')) :
    (ring b').WellFormed ∧ (ring b').capacity = (ring b).capacity ∧
      (B.queue ring b).step (ring b).capacity op = some (x, B.queue ring b') := by
  cases op with
  | push e =>
    obtain ⟨b₁, hpush, heq⟩ := Option.map_eq_some_iff.mp h
    obtain ⟨rfl, rfl⟩ := Prod.mk.inj heq
    obtain ⟨hfull, hring, hended⟩ := hB.push hpush
    have hroom : (ring b).toList.length < (ring b).capacity := by
      rw [RingBuffer.length_toList]
      exact lt_of_le_of_ne hb.count_le hfull
    refine ⟨?_, ?_, ?_⟩
    · rw [hring]
      exact RingBuffer.wellFormed_push hb hfull e
    · rw [hring]
      rfl
    · simp only [Queue.step, BoundedBuffer.queue, hring, hended, RingBuffer.toList_push hb hfull]
      exact if_pos hroom
  | pop =>
    rcases hB.pop h with ⟨hzero, hended, rfl, rfl⟩ | ⟨hpos, rfl, hring, hended⟩
    · refine ⟨hb, rfl, ?_⟩
      have hnil := (RingBuffer.toList_eq_nil_iff (ring b')).mpr hzero
      simp only [Queue.step, BoundedBuffer.queue, hnil, hended, if_true]
    · refine ⟨?_, ?_, ?_⟩
      · rw [hring]
        exact RingBuffer.wellFormed_pop hb hpos
      · rw [hring]
        rfl
      · simp only [Queue.step, BoundedBuffer.queue, RingBuffer.toList_pop hb hpos, hring, hended]
  | close =>
    obtain ⟨b₁, hclose, heq⟩ := Option.map_eq_some_iff.mp h
    obtain ⟨rfl, rfl⟩ := Prod.mk.inj heq
    obtain ⟨hring, hended⟩ := hB.close hclose
    refine ⟨hring ▸ hb, by rw [hring], ?_⟩
    simp only [Queue.step, BoundedBuffer.queue, hring, hended]

theorem section_waits (hB : B.OnRing ring) {op : Section ε} (hop : op ≠ .close)
    (h : B.runSection b op = none) : (B.queue ring b).step (ring b).capacity op = none := by
  cases op with
  | push e =>
    have hfull := hB.push_waits (Option.map_eq_none_iff.mp h)
    have hroom : ¬ (ring b).toList.length < (ring b).capacity := by
      rw [RingBuffer.length_toList, hfull]
      exact lt_irrefl _
    exact if_neg hroom
  | pop =>
    obtain ⟨hzero, hended⟩ := hB.pop_waits h
    have hnil := (RingBuffer.toList_eq_nil_iff (ring b)).mpr hzero
    simp only [Queue.step, BoundedBuffer.queue, hnil, hended, Bool.false_eq_true, if_false]
  | close => exact absurd rfl hop

theorem run_simulates (hB : B.OnRing ring) {ops : List (Section ε)} {outs : List (Option ε)}
    (hb : (ring b).WellFormed) (h : runSections B.runSection b ops = some (outs, b')) :
    (ring b').WellFormed ∧ (ring b').capacity = (ring b).capacity ∧
      runSections (Queue.step (ring b).capacity) (B.queue ring b) ops =
        some (outs, B.queue ring b') := by
  induction ops generalizing b outs with
  | nil =>
    cases h
    exact ⟨hb, rfl, rfl⟩
  | cons op ops ih =>
    obtain ⟨y, t, rest, hsection, hrun, rfl⟩ := runSections_cons.mp h
    obtain ⟨ht, hcap, hstep⟩ := hB.section_step hb hsection
    obtain ⟨hb', hcap', hqueue⟩ := ih ht hrun
    refine ⟨hb', hcap'.trans hcap, runSections_cons.mpr ⟨y, _, rest, hstep, ?_, rfl⟩⟩
    rwa [hcap] at hqueue

end BoundedBuffer.OnRing

/-- After any sequence of completed sections from `start` the ring is within its bounds, and
the buffer has given the results and holds the items of the queue of that capacity. -/
def SimulatesQueue (B : BoundedBuffer β ε) (ring : β → RingBuffer ε) (capacity : ℕ) (start : β) :
    Prop :=
  ∀ ops outs b, runSections B.runSection start ops = some (outs, b) →
    ((ring b).count ≤ capacity ∧ (ring b).head < capacity ∧ (ring b).tail < capacity ∧
      (ring b).tail = ((ring b).head + (ring b).count) % capacity) ∧
    runSections (Queue.step capacity) Queue.empty ops = some (outs, B.queue ring b) ∧
    (B.queue ring b).items.length ≤ capacity ∧
    pushedItems ops = outs.reduceOption ++ (B.queue ring b).items ∧
    ∀ op, op ≠ .close → (B.runSection b op = none ↔ (B.queue ring b).step capacity op = none)

theorem BoundedBuffer.OnRing.simulatesQueue {B : BoundedBuffer β ε} {ring : β → RingBuffer ε}
    (hB : B.OnRing ring) {start : β} (hstart : (ring start).WellFormed)
    (hempty : B.queue ring start = Queue.empty) :
    SimulatesQueue B ring (ring start).capacity start := by
  intro ops outs b hrun
  obtain ⟨hb, hcap, hqueue⟩ := hB.run_simulates hstart hrun
  rw [hempty] at hqueue
  refine ⟨?_, hqueue, ?_, ?_, ?_⟩
  · rw [← hcap]
    exact ⟨hb.count_le, hb.head_lt, hb.tail_lt, hb.tail_eq⟩
  · rw [← hcap]
    exact (RingBuffer.length_toList (ring b)).trans_le hb.count_le
  · exact Queue.run_fifo hqueue
  · intro op hop
    constructor
    · intro hwait
      rw [← hcap]
      exact hB.section_waits hop hwait
    · intro hwait
      cases hsection : B.runSection b op with
      | none => rfl
      | some p =>
        obtain ⟨-, -, hstep⟩ := hB.section_step hb hsection
        rw [hcap, hwait] at hstep
        cases hstep

end SysProg.Lib

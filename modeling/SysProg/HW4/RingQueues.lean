import SysProg.HW4.PipelineSteps
import SysProg.Lib.QueueRefinement

/-!
# The four rings are bounded queues

The reader's private buffer, Region A, the Region B queue of a level and Region D
keep their entries in rings with a count beside head and tail, and their critical
sections are the operations of a bounded buffer. Each refines the abstract queue
of its capacity, through any number of wrap-arounds.
-/

namespace SysProg.HW4
open SysProg.Lib

def privateBuffer : BoundedBuffer PrivateBuffer LogEntry where
  count b := b.ring.count
  capacity b := b.ring.capacity
  ended b := b.producersDone
  push := privateBufferPush
  pop := privateBufferPop
  close b := some { b with producersDone := true }
  timeout := .untimed

def regionABuffer : BoundedBuffer RegionA LogEntry where
  count a := a.ring.count
  capacity a := a.ring.capacity
  ended _ := false
  push := pushRegionA
  pop a := (popRegionA a).map (fun p => (some p.1, p.2))
  close _ := none
  timeout := .leaves

def regionBBuffer : BoundedBuffer RegionB LogEntry where
  count b := b.ring.count
  capacity b := b.ring.capacity
  ended b := b.eofPosted
  push := pushRegionB
  pop := popLevelEntry
  close b := some { b with eofPosted := true }
  timeout := .untimed

def regionDBuffer : BoundedBuffer RegionD LogEntry where
  count d := d.ring.count
  capacity d := d.ring.capacity
  ended d := d.dispatcherDone
  push := pushRegionD
  pop := popRegionD
  close d := some { d with dispatcherDone := true }
  timeout := .tests

/-! ### One law for the shared bodies -/

theorem boundedPush_eq_none {ring : RingBuffer LogEntry} {e : LogEntry} :
    boundedPush ring e = none ↔ ring.count = ring.capacity := by
  unfold boundedPush
  split_ifs with h <;> simp [h]

theorem boundedPop_eq_none {ring : RingBuffer LogEntry} {ended : Bool} :
    boundedPop ring ended = none ↔ ring.count = 0 ∧ ended = false := by
  unfold boundedPop
  by_cases hz : ring.count = 0
  · cases ended <;> simp [hz]
  · simp [hz]

/-- A buffer whose operations are the shared bodies on its ring, with a flag beside it. -/
theorem onRing_of_bodies {β : Type} {B : BoundedBuffer β LogEntry} (ring : β → RingBuffer LogEntry)
    (setRing : β → RingBuffer LogEntry → β) (hring : ∀ b r, ring (setRing b r) = r)
    (hself : ∀ b, setRing b (ring b) = b) (hended : ∀ b r, B.ended (setRing b r) = B.ended b)
    (hpush : ∀ b e, B.push b e = (boundedPush (ring b) e).map (setRing b))
    (hpop : ∀ b, B.pop b =
      (boundedPop (ring b) (B.ended b)).map (fun p => (p.1, setRing b p.2)))
    (hclose : ∀ b b', B.close b = some b' → ring b' = ring b ∧ B.ended b' = true) :
    B.OnRing ring where
  push_waits := by
    intro b e h
    rw [hpush, Option.map_eq_none_iff] at h
    exact boundedPush_eq_none.mp h
  push := by
    intro b e b' h
    rw [hpush] at h
    obtain ⟨r, hr, rfl⟩ := Option.map_eq_some_iff.mp h
    obtain ⟨hfull, rfl⟩ := boundedPush_eq_some.mp hr
    exact ⟨hfull, hring _ _, hended _ _⟩
  pop_waits := by
    intro b h
    rw [hpop, Option.map_eq_none_iff] at h
    exact boundedPop_eq_none.mp h
  pop := by
    intro b x b' h
    rw [hpop] at h
    obtain ⟨p, hp, heq⟩ := Option.map_eq_some_iff.mp h
    obtain ⟨rfl, rfl⟩ := Prod.mk.inj heq
    rcases boundedPop_eq_some.mp hp with ⟨hzero, hend, rfl⟩ | ⟨hpos, rfl⟩
    · exact .inl ⟨hzero, hend, rfl, hself b⟩
    · exact .inr ⟨hpos, rfl, hring _ _, hended _ _⟩
  close := by
    intro b b' h
    exact hclose b b' h

theorem privateBuffer_onRing : privateBuffer.OnRing PrivateBuffer.ring := by
  apply onRing_of_bodies PrivateBuffer.ring (fun b r => { b with ring := r }) (fun _ _ => rfl)
    (fun _ => rfl) (fun _ _ => rfl) (fun _ _ => rfl) (fun _ => rfl)
  intro b b' h
  cases h
  exact ⟨rfl, rfl⟩

theorem regionBBuffer_onRing : regionBBuffer.OnRing RegionB.ring := by
  apply onRing_of_bodies RegionB.ring (fun b r => { b with ring := r }) (fun _ _ => rfl)
    (fun _ => rfl) (fun _ _ => rfl) (fun _ _ => rfl) (fun _ => rfl)
  intro b b' h
  cases h
  exact ⟨rfl, rfl⟩

theorem regionDBuffer_onRing : regionDBuffer.OnRing RegionD.ring := by
  apply onRing_of_bodies RegionD.ring (fun d r => { d with ring := r }) (fun _ _ => rfl)
    (fun _ => rfl) (fun _ _ => rfl) (fun _ _ => rfl) (fun _ => rfl)
  intro d d' h
  cases h
  exact ⟨rfl, rfl⟩

theorem popRegionA_eq_some {a a' : RegionA} {e : LogEntry} :
    popRegionA a = some (e, a') ↔
      a.ring.count ≠ 0 ∧ e = a.ring.front ∧ a' = { a with ring := a.ring.pop } := by
  unfold popRegionA
  split_ifs with h <;> simp [h, eq_comm]

theorem regionABuffer_onRing : regionABuffer.OnRing RegionA.ring where
  push_waits := by
    intro a e h
    exact boundedPush_eq_none.mp (Option.map_eq_none_iff.mp h)
  push := by
    intro a e a' h
    obtain ⟨hfull, rfl⟩ := pushRegionA_eq_some.mp h
    exact ⟨hfull, rfl, rfl⟩
  pop_waits := by
    intro a h
    have hnone : popRegionA a = none := Option.map_eq_none_iff.mp h
    unfold popRegionA at hnone
    split_ifs at hnone with hzero
    exact ⟨hzero, rfl⟩
  pop := by
    intro a x a' h
    obtain ⟨p, hp, heq⟩ := Option.map_eq_some_iff.mp h
    obtain ⟨rfl, rfl⟩ := Prod.mk.inj heq
    obtain ⟨hpos, hfront, ha⟩ := popRegionA_eq_some.mp hp
    rw [hfront, ha]
    exact .inr ⟨hpos, rfl, rfl, rfl⟩
  close := by
    intro a a' h
    cases h

/-! ### Contents over any sequence of sections -/

/-- Every sequence of completed sections of the four buffers, from their initial states. -/
theorem rings_simulate_queues (capacity totalReaders : ℕ) (hcapacity : 0 < capacity)
    (blank : LogEntry) :
    SimulatesQueue privateBuffer PrivateBuffer.ring capacity ⟨.empty capacity blank, false⟩ ∧
    SimulatesQueue regionABuffer RegionA.ring capacity
      ⟨.empty capacity blank, totalReaders, fun _ => 0⟩ ∧
    SimulatesQueue regionBBuffer RegionB.ring capacity ⟨.empty capacity blank, false⟩ ∧
    SimulatesQueue regionDBuffer RegionD.ring capacity ⟨.empty capacity blank, false⟩ := by
  have hempty := RingBuffer.wellFormed_empty hcapacity blank
  refine ⟨?_, ?_, ?_, ?_⟩
  · exact privateBuffer_onRing.simulatesQueue hempty rfl
  · exact regionABuffer_onRing.simulatesQueue hempty rfl
  · exact regionBBuffer_onRing.simulatesQueue hempty rfl
  · exact regionDBuffer_onRing.simulatesQueue hempty rfl

def fourEntries : List (Section LogEntry) :=
  [.push (eofEntry 0 .error), .push (eofEntry 1 .error), .push (eofEntry 2 .error), .pop,
    .push (eofEntry 3 .error), .pop]

theorem fourEntries_isSome : (runSections regionBBuffer.runSection
    ⟨.empty 3 (eofEntry 0 .error), false⟩ fourEntries).isSome := by decide

theorem rings_simulate_queues_fourEntries :
    ∃ outs b, runSections regionBBuffer.runSection
        ⟨.empty 3 (eofEntry 0 .error), false⟩ fourEntries = some (outs, b) ∧
      outs.reduceOption = [eofEntry 0 .error, eofEntry 1 .error] ∧
      (regionBBuffer.queue RegionB.ring b).items = [eofEntry 2 .error, eofEntry 3 .error] ∧
      b.ring.tail = 1 ∧ b.ring.tail = (b.ring.head + b.ring.count) % 3 := by
  obtain ⟨-, -, hlevel, -⟩ := rings_simulate_queues 3 1 (by decide) (eofEntry 0 .error)
  have hrun := (Option.some_get fourEntries_isSome).symm
  obtain ⟨⟨-, -, -, htail⟩, hqueue, -, -, -⟩ := hlevel _ _ _ hrun
  have hitems : runSections (Queue.step 3) Queue.empty fourEntries =
      some ([none, none, none, some (eofEntry 0 .error), none, some (eofEntry 1 .error)],
        ⟨[eofEntry 2 .error, eofEntry 3 .error], false⟩) := rfl
  rw [hitems] at hqueue
  obtain ⟨houts, hleft⟩ := Prod.mk.inj (Option.some.inj hqueue)
  refine ⟨_, _, hrun, ?_, ?_, by decide, htail⟩
  · rw [← houts]
    rfl
  · rw [← hleft]

end SysProg.HW4

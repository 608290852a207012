import SysProg.HW4.RingQueues

/-!
# No wake-up of the four buffers is lost

The critical sections of the pipeline as the operations of a monitor. Region A
has no end flag and its consumer leaves on a timeout without another test;
Region D tests once more after a timeout.
-/

namespace SysProg.HW4
open SysProg.Lib

theorem privateBuffer_lawful : privateBuffer.Lawful :=
  privateBuffer_onRing.lawful (fun _ => rfl) (fun _ => rfl)

theorem regionABuffer_lawful : regionABuffer.Lawful :=
  regionABuffer_onRing.lawful (fun _ => rfl) (fun _ => rfl)

theorem regionBBuffer_lawful : regionBBuffer.Lawful :=
  regionBBuffer_onRing.lawful (fun _ => rfl) (fun _ => rfl)

theorem regionDBuffer_lawful : regionDBuffer.Lawful :=
  regionDBuffer_onRing.lawful (fun _ => rfl) (fun _ => rfl)

/-! ### Every run of the four monitors -/

/-- Whoever sleeps at one of the buffers is outnumbered by woken threads that have yet to
look, and a raised end flag is still to be broadcast; for any producers and consumers. -/
theorem no_lost_wakeup (C P : Type) [Fintype C] [DecidableEq C] [Fintype P] [DecidableEq P]
    (capacity totalReaders : ℕ) (blank : LogEntry) :
    (∀ s, (monitor privateBuffer C P ⟨.empty capacity blank, false⟩).Reachable s →
      Attended privateBuffer s) ∧
    (∀ s, (monitor regionABuffer C P
        ⟨.empty capacity blank, totalReaders, fun _ => 0⟩).Reachable s →
      Attended regionABuffer s) ∧
    (∀ s, (monitor regionBBuffer C P ⟨.empty capacity blank, false⟩).Reachable s →
      Attended regionBBuffer s) ∧
    (∀ s, (monitor regionDBuffer C P ⟨.empty capacity blank, false⟩).Reachable s →
      Attended regionDBuffer s) := by
  refine ⟨?_, ?_, ?_, ?_⟩
  · exact fun s h => attended_of_reachable privateBuffer_lawful h
  · exact fun s h => attended_of_reachable regionABuffer_lawful h
  · exact fun s h => attended_of_reachable regionBBuffer_lawful h
  · exact fun s h => attended_of_reachable regionDBuffer_lawful h

/-- Two workers sleep, one entry is pushed, and its signal wakes the first. -/
def oneEntry : List (MonitorAction LogEntry Bool Unit) :=
  [.consume false none, .consume true none, .produce () (eofEntry 0 .error) (some false)]

def workersAtB : Machine (MonitorState RegionB LogEntry Bool Unit)
    (MonitorAction LogEntry Bool Unit) :=
  monitor regionBBuffer Bool Unit ⟨.empty 4 (eofEntry 0 .error), false⟩

theorem oneEntry_isSome : (workersAtB.run workersAtB.init oneEntry).isSome := by decide

theorem no_lost_wakeup_oneEntry : ∃ s, workersAtB.Reachable s ∧
    s.consumers true = .waiting () ∧ s.buffer.ring.count = 1 ∧ 1 ≤ wokenCount s.consumers := by
  have hreach := (Machine.execution_of_isSome oneEntry_isSome).reachable
  have hwait : ((workersAtB.run workersAtB.init oneEntry).get oneEntry_isSome).consumers true =
      .waiting () := by decide
  have hcount : ((workersAtB.run workersAtB.init oneEntry).get oneEntry_isSome).buffer.ring.count =
      1 := by decide
  obtain ⟨-, -, hlevel, -⟩ := no_lost_wakeup Bool Unit 4 0 (eofEntry 0 .error)
  have hserved := (hlevel _ hreach).consumers ⟨true, by rw [hwait]; rfl⟩
  exact ⟨_, hreach, hwait, hcount, hcount.ge.trans hserved⟩

end SysProg.HW4

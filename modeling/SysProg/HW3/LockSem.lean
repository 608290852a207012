import SysProg.Lib.Execution

/-!
# Mutual exclusion when signals interrupt a contended wait

`lock_sem` returns without a unit when its wait is interrupted in a process
whose stop flag is set. Its caller cannot tell, enters the section and posts a
unit it never took.
-/

open scoped BigOperators
namespace SysProg.HW3
open SysProg.Lib
variable {P : Type} [DecidableEq P]

/-- A process outside its section, blocked in `sem_wait` (with whether a handler has run
since it blocked), or past `lock_sem`. -/
inductive SectionPhase where
  | outside
  | blocked (handled : Bool)
  | inside
  deriving DecidableEq

structure SectionState (P : Type) where
  value : ℕ
  phase : P → SectionPhase
  gStop : P → Bool

inductive SectionAction (P : Type) where
  | lockSem (p : P)
  | wake (p : P)
  | signalHandler (p : P)
  | eintr (p : P)
  | unlockSem (p : P)

def SectionState.setPhase (s : SectionState P) (p : P) (phase : SectionPhase) : SectionState P :=
  { s with phase := Function.update s.phase p phase }

def semWait (s : SectionState P) (p : P) : SectionState P :=
  if 0 < s.value then { s.setPhase p .inside with value := s.value - 1 }
  else s.setPhase p (.blocked false)

/-- A handler that runs while the process is blocked lets its wait return `EINTR`. -/
def SectionPhase.handle : SectionPhase → SectionPhase
  | .blocked _ => .blocked true
  | phase => phase

def sectionStep (s : SectionState P) : SectionAction P → Option (SectionState P)
  | .lockSem p => if s.phase p = .outside then some (semWait s p) else none
  | .wake p =>
    match s.phase p with
    | .blocked _ => if 0 < s.value then some (semWait s p) else none
    | _ => none
  | .signalHandler p =>
    some { s.setPhase p (s.phase p).handle with gStop := Function.update s.gStop p true }
  | .eintr p =>
    -- `if (g_stop) return; continue;`
    if s.phase p = .blocked true then
      some (if s.gStop p then s.setPhase p .inside else semWait s p)
    else none
  | .unlockSem p =>
    if s.phase p = .inside then some { s.setPhase p .outside with value := s.value + 1 } else none

def criticalSection (P : Type) [DecidableEq P] : Machine (SectionState P) (SectionAction P) where
  init := { value := 1, phase := fun _ => .outside, gStop := fun _ => false }
  step := sectionStep

def returnsWithoutUnit (s : SectionState P) : SectionAction P → Bool
  | .eintr p => s.gStop p
  | _ => false

section Counting
variable [Fintype P]

def SectionState.inside (s : SectionState P) : ℕ :=
  (Finset.univ.filter (fun p => s.phase p = .inside)).card

theorem inside_setPhase (s : SectionState P) (p : P) (phase : SectionPhase) :
    (s.setPhase p phase).inside + (if s.phase p = .inside then 1 else 0) =
      s.inside + if phase = .inside then 1 else 0 := by
  unfold SectionState.inside SectionState.setPhase
  rw [Finset.card_filter, Finset.card_filter]
  exact sum_update_add (fun _ x => if x = .inside then 1 else 0) s.phase p phase

theorem balance_semWait {s : SectionState P} {p : P} (h : s.phase p ≠ .inside) :
    (semWait s p).value + (semWait s p).inside = s.value + s.inside := by
  have hphase := inside_setPhase s p
  simp only [if_neg h, Nat.add_zero] at hphase
  unfold semWait
  split
  case isTrue hpos =>
    have hin := hphase .inside
    simp only [↓reduceIte] at hin
    change s.value - 1 + (s.setPhase p .inside).inside = _
    omega
  case isFalse =>
    have hin := hphase (.blocked false)
    simp only [reduceCtorEq, ↓reduceIte, Nat.add_zero] at hin
    change s.value + (s.setPhase p (.blocked false)).inside = _
    omega

/-- One step changes the balance exactly when a wait is given up. -/
theorem balance_step {s s' : SectionState P} {a : SectionAction P}
    (h : sectionStep s a = some s') :
    s'.value + s'.inside = s.value + s.inside + (returnsWithoutUnit s a).toNat := by
  cases a with
  | lockSem p =>
    simp only [sectionStep, Option.ite_none_right_eq_some, Option.some.injEq] at h
    obtain ⟨hpc, rfl⟩ := h
    exact balance_semWait (by simp [hpc])
  | wake p =>
    simp only [sectionStep] at h
    split at h
    case h_1 handled hpc =>
      simp only [Option.ite_none_right_eq_some, Option.some.injEq] at h
      obtain ⟨-, rfl⟩ := h
      exact balance_semWait (by simp [hpc])
    case h_2 => cases h
  | signalHandler p =>
    simp only [sectionStep, Option.some.injEq] at h
    subst h
    have hin := inside_setPhase s p (s.phase p).handle
    have hsame : (s.phase p).handle = .inside ↔ s.phase p = .inside := by
      cases s.phase p <;> simp [SectionPhase.handle]
    simp only [hsame] at hin
    change s.value + (s.setPhase p (s.phase p).handle).inside = _
    simp only [returnsWithoutUnit, Bool.toNat_false]
    omega
  | eintr p =>
    simp only [sectionStep, Option.ite_none_right_eq_some, Option.some.injEq] at h
    obtain ⟨hpc, rfl⟩ := h
    have hout : s.phase p ≠ .inside := by simp [hpc]
    by_cases hstop : s.gStop p = true
    · have hin := inside_setPhase s p .inside
      rw [if_neg hout, if_pos rfl] at hin
      simp only [returnsWithoutUnit, hstop, ↓reduceIte, Bool.toNat_true]
      change s.value + (s.setPhase p .inside).inside = _
      omega
    · simp only [returnsWithoutUnit, hstop, Bool.toNat_false, Nat.add_zero]
      exact balance_semWait hout
  | unlockSem p =>
    simp only [sectionStep, Option.ite_none_right_eq_some, Option.some.injEq] at h
    obtain ⟨hpc, rfl⟩ := h
    have hin := inside_setPhase s p .outside
    rw [if_pos hpc, if_neg (by simp)] at hin
    change s.value + 1 + (s.setPhase p .outside).inside = _
    simp only [returnsWithoutUnit, Bool.toNat_false]
    omega

def abandonedWaits (tr : List (SectionState P × SectionAction P)) : ℕ :=
  tr.countP (fun x => returnsWithoutUnit x.1 x.2)

/-- Every abandoned wait adds one unit or one process for good. -/
theorem balance_execution {tr : List (SectionState P × SectionAction P)} {s : SectionState P}
    (h : (criticalSection P).Execution tr s) : s.value + s.inside = 1 + abandonedWaits tr := by
  induction h with
  | start => simp [criticalSection, SectionState.inside, abandonedWaits]
  | @next tr s s' a prior hs ih =>
    have hbalance := balance_step hs
    have hcount : abandonedWaits (tr ++ [(s, a)]) =
        abandonedWaits tr + (returnsWithoutUnit s a).toNat := by
      cases hret : returnsWithoutUnit s a <;> simp [abandonedWaits, hret]
    omega

/-- The section excludes exactly along the runs in which no process gives up a wait. -/
theorem exclusion_iff_no_abandoned_wait {tr : List (SectionState P × SectionAction P)}
    {s : SectionState P} (h : (criticalSection P).Execution tr s) :
    (s.value + s.inside = 1 ∧ s.inside ≤ 1 ∧ s.value ≤ 1) ↔
      ∀ x ∈ tr, returnsWithoutUnit x.1 x.2 = false := by
  have hbalance := balance_execution h
  constructor
  · intro hexcl x hx
    have hnone : abandonedWaits tr = 0 := by omega
    simpa using List.countP_eq_zero.mp hnone x hx
  · intro hnone
    have hzero : abandonedWaits tr = 0 := List.countP_eq_zero.mpr (fun x hx => by simp [hnone x hx])
    omega

end Counting

/-- The second process blocks, is signalled while the first is inside, and still takes its turn. -/
def politeStop : List (SectionAction (Fin 2)) :=
  [.lockSem 0, .lockSem 1, .signalHandler 1, .unlockSem 0, .wake 1]

theorem politeStop_isSome : ((criticalSection (Fin 2)).run (criticalSection (Fin 2)).init
    politeStop).isSome := by decide

theorem exclusion_politeStop :
    ∃ tr s, (criticalSection (Fin 2)).Execution tr s ∧ s.gStop 1 = true ∧ s.inside = 1 ∧
      s.value = 0 := by
  have hrun := Machine.execution_of_isSome politeStop_isSome
  have hone : 1 ≤ (((criticalSection (Fin 2)).run (criticalSection (Fin 2)).init politeStop).get
      politeStop_isSome).inside := by decide
  have hexcl := (exclusion_iff_no_abandoned_wait hrun).mpr (by decide)
  exact ⟨_, _, hrun, by decide, by omega, by omega⟩

/-- The second process is signalled in its wait and enters beside the first. -/
def interruptedWait : List (SectionAction (Fin 2)) :=
  [.lockSem 0, .lockSem 1, .signalHandler 1, .eintr 1]

theorem interruptedWait_isSome : ((criticalSection (Fin 2)).run (criticalSection (Fin 2)).init
    interruptedWait).isSome := by decide

theorem two_inside_after_interrupt :
    ∃ s, (criticalSection (Fin 2)).Reachable s ∧ s.inside = 2 ∧ s.value + s.inside ≠ 1 := by
  have hreach := (Machine.execution_of_isSome interruptedWait_isSome).reachable
  exact ⟨_, hreach, by decide, by decide⟩

end SysProg.HW3

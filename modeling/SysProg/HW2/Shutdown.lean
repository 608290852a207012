import SysProg.HW2.Reaping

/-!
# Whom the shutdown signals

`terminate_all_workers` signals the pids of all workers it ever forked. Some of
them may have been reaped: by the `SIGCHLD` handler before `SIGINT` was noticed,
or by its own polling before the deadline.
-/

namespace SysProg.HW2
open SysProg.Lib
variable {numWorkers : ℕ}

def signalTarget (s : ParentState) : ParentAction → Option ℕ
  | .step =>
    match s.pc with
    | .sigterm i | .sigkill i => s.childPids[i]?
    | _ => none
  | _ => none

def NoneReaped (s : ParentState) : Prop := ∀ pid st, s.proc pid ≠ .reaped st

/-- `SIGINT` is noticed before the handler has reaped anybody, and the deadline passes
only if the polling has reaped nobody. -/
def ShutdownFirst (s : ParentState) (a : ParentAction) : Prop :=
  (s.pc = .checkInt → a = .step → s.sigintReceived = true → s.reaped = []) ∧
    (a = .deadlinePasses → NoneReaped s)

namespace ParentPc

def signalling : ParentPc → Bool
  | .sigterm _ | .sigkill _ => true
  | _ => false

end ParentPc

def Spared (s : ParentState) : Prop := s.pc.signalling = true → NoneReaped s

theorem spared_parentStep {s s' : ParentState} (hledger : Ledger numWorkers s) (h : Spared s)
    (hfirst : ShutdownFirst s .step) (hs : parentStep numWorkers s = some s') : Spared s' := by
  intro hpc'
  cases hpc : s.pc with
  | checkInt =>
    simp only [parentStep, hpc, Option.some.injEq] at hs
    subst hs
    split_ifs at hpc' with hint
    · intro pid st hst
      have hrecord := hledger.record (by rw [hpc]; rfl)
      have hmem := (hrecord.mem pid st).mpr hst
      rw [hfirst.1 hpc rfl hint] at hmem
      cases hmem
    · cases hpc'
  | sigterm i | sigkill i =>
    simp only [parentStep, hpc, Option.some.injEq] at hs
    subst hs
    exact h (by rw [hpc]; rfl)
  | forking | suspended | unmasked =>
    simp only [parentStep, hpc, Option.ite_none_right_eq_some, Option.ite_none_left_eq_some,
      Option.some.injEq] at hs
    obtain ⟨-, rfl⟩ := hs
    cases hpc'
  | deadline | recount =>
    simp only [parentStep, hpc, Option.some.injEq] at hs
    subst hs
    cases hpc'
  | test =>
    simp only [parentStep, hpc, Option.some.injEq] at hs
    subst hs
    split_ifs at hpc' <;> cases hpc'
  | checkChld =>
    simp only [parentStep, hpc] at hs
    split_ifs at hs <;> cases hs <;> cases hpc'
  | polling i allGone =>
    simp only [parentStep, hpc] at hs
    split at hs
    · cases hs
      cases hpc'
    · cases hs
      split_ifs at hpc' <;> cases hpc'
  | draining =>
    simp only [parentStep, hpc] at hs
    split at hs
    · cases hs
      rw [(waitpidNohang_frame s _).2.2.1, hpc] at hpc'
      cases hpc'
    · cases hs
      cases hpc'
  | finalWait i =>
    obtain rfl | rfl | ⟨pid, st, -, rfl⟩ := finalWait_inv hpc hs <;> cases hpc'
  | forkFailed | interrupted | finished => simp [parentStep, hpc] at hs

theorem spared_step {s s' : ParentState} {a : ParentAction} (hledger : Ledger numWorkers s)
    (h : Spared s) (hfirst : ShutdownFirst s a) (hs : parentTransition numWorkers s a = some s') :
    Spared s' := by
  cases a with
  | step => exact spared_parentStep hledger h hfirst hs
  | deadlinePasses =>
    simp only [parentTransition, Option.ite_none_right_eq_some, Option.some.injEq] at hs
    obtain ⟨-, rfl⟩ := hs
    exact fun _ => hfirst.2 rfl
  | exit pid status =>
    simp only [parentTransition, Option.ite_none_right_eq_some, Option.some.injEq] at hs
    obtain ⟨-, rfl⟩ := hs
    intro hpc q st hst
    by_cases hq : q = pid
    · subst hq
      simp [ParentState.setProc] at hst
    · exact h hpc q st (by simpa [ParentState.setProc, Function.update_of_ne hq] using hst)
  | fork pid =>
    obtain ⟨w, -, -, -, rfl⟩ := fork_inv hs
    intro hpc
    cases hpc
  | forkFails =>
    obtain ⟨w, -, rfl⟩ := forkFails_inv hs
    intro hpc
    cases hpc
  | usr1 | sigint =>
    simp only [parentTransition, Option.some.injEq] at hs
    subst hs
    exact h
  | deliverChld | deliverUsr1 | deliverInt =>
    simp only [parentTransition, Option.ite_none_right_eq_some, Option.some.injEq] at hs
    obtain ⟨⟨hun, -⟩, rfl⟩ := hs
    intro hpc
    cases hold : s.pc <;> simp [hold, ParentPc.unblocked] at hun <;>
      simp [hold, ParentPc.afterDelivery, ParentPc.signalling] at hpc
  | reap pid =>
    obtain ⟨hin, st, -, rfl⟩ := reap_inv hs
    have hun := hledger.handler hin
    intro hpc
    cases hold : s.pc <;> simp [hold, ParentPc.unblocked, ParentState.setProc,
      ParentPc.signalling] at hun hpc
  | handlerReturns =>
    simp only [parentTransition, Option.ite_none_right_eq_some, Option.some.injEq] at hs
    obtain ⟨-, rfl⟩ := hs
    exact h

theorem spared_execution (hn : numWorkers ≤ maxWorkers) {tr : List (ParentState × ParentAction)}
    {s : ParentState} (h : (parent numWorkers).Execution tr s)
    (hfirst : ∀ x ∈ tr, ShutdownFirst x.1 x.2) : Spared s := by
  refine h.invariant hfirst (by intro hpc; cases hpc) ?_
  intro s a s' hreach hok hprior hs
  exact spared_step (ledger_reachable hn hreach) hprior hok hs

theorem signalTarget_signalling {s : ParentState} {a : ParentAction} {pid : ℕ}
    (h : signalTarget s a = some pid) : s.pc.signalling = true := by
  cases a <;> simp only [signalTarget, reduceCtorEq] at h
  split at h <;> first | cases h | simp [*, ParentPc.signalling]

/-- Along a run whose shutdown comes first, every `SIGTERM` and `SIGKILL` goes to a worker
that has not been reaped. -/
theorem signals_only_live_workers (hn : numWorkers ≤ maxWorkers)
    {tr : List (ParentState × ParentAction)} {s : ParentState}
    (h : (parent numWorkers).Execution tr s) (hfirst : ∀ x ∈ tr, ShutdownFirst x.1 x.2) :
    ∀ x ∈ tr, ∀ pid, signalTarget x.1 x.2 = some pid → ∀ st, x.1.proc pid ≠ .reaped st := by
  induction h with
  | start => simp
  | @next tr s s' a prior hs ih =>
    have hprior : ∀ x ∈ tr, ShutdownFirst x.1 x.2 :=
      fun x hx => hfirst x (List.mem_append_left _ hx)
    intro x hx pid htarget
    rcases List.mem_append.mp hx with hold | hlast
    · exact ih hprior x hold pid htarget
    · obtain rfl := List.mem_singleton.mp hlast
      exact spared_execution hn prior hprior (signalTarget_signalling htarget) pid

/-- `SIGINT` comes before any worker exits; both workers get `SIGTERM`. -/
def promptInterrupt : List ParentAction :=
  [.fork 100, .fork 101, .sigint] ++ List.replicate 4 .step ++ [.deliverInt] ++
    List.replicate 5 .step

theorem promptInterrupt_isSome :
    ((parent 2).run (parent 2).init promptInterrupt).isSome := by decide

theorem signals_only_live_promptInterrupt : ∃ tr s, (parent 2).Execution tr s ∧
    s.pc = .sigterm 2 ∧
    ∀ x ∈ tr, ∀ pid, signalTarget x.1 x.2 = some pid → ∀ st, x.1.proc pid ≠ .reaped st := by
  have hrun := Machine.execution_of_isSome promptInterrupt_isSome
  have hnone : ((parent 2).trace (parent 2).init promptInterrupt).all
      (fun x => x.1.reaped.isEmpty) = true := by decide
  refine ⟨_, _, hrun, by decide, signals_only_live_workers (by decide) hrun ?_⟩
  intro x hx
  constructor
  · intro _ _ _
    simpa using List.all_eq_true.mp hnone x hx
  · intro heq
    have hmem := Machine.action_of_mem_trace hx
    simp [heq, promptInterrupt] at hmem

/-- The first worker exits and is reaped by the handler; then `SIGINT` comes. -/
def lateInterrupt : List ParentAction :=
  [.fork 100, .fork 101] ++ List.replicate 4 .step ++
    [.exit 100 (.exited ⟨0, byte_pos⟩), .deliverChld, .reap 100, .handlerReturns, .sigint,
    .deliverInt] ++
    List.replicate 3 .step

theorem lateInterrupt_isSome :
    ((parent 2).run (parent 2).init lateInterrupt).isSome := by decide

theorem sigterm_to_reaped_pid : ∃ tr s, (parent 2).Execution tr s ∧
    ∃ x ∈ tr, signalTarget x.1 x.2 = some 100 ∧ x.1.proc 100 = .reaped (.exited 0) := by
  have hrun := Machine.execution_of_isSome lateInterrupt_isSome
  have hpc : ((((parent 2).run (parent 2).init lateInterrupt).get lateInterrupt_isSome)).pc =
      .sigterm 0 := by decide
  have hstep : ((parent 2).step (((parent 2).run (parent 2).init lateInterrupt).get
      lateInterrupt_isSome) .step).isSome := by decide
  refine ⟨_, _, hrun.next (Option.some_get hstep).symm, _,
    List.mem_append_right _ (List.mem_singleton_self _), ?_, by decide⟩
  simp only [signalTarget, hpc]
  decide

end SysProg.HW2

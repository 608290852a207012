import SysProg.Lib.Execution

/-!
# The parent of the search workers

The parent forks its workers with `SIGUSR1`, `SIGCHLD` and `SIGINT` blocked and
then alternates a loop test with `sigsuspend`, the only place where handlers
run before the loop ends. A signal that is blocked when it arrives stays
pending once, however often it arrives. Processes are indexed by pid; a pid is
free for `fork` unless a running or an unreaped process has it. Diagnostics and
the temporary files are left out.
-/

namespace SysProg.HW2
open SysProg.Lib

def maxWorkers : ℕ := 8

/-- What `waitpid` stores; an exit code is one byte. -/
inductive WaitStatus where
  | exited (code : Fin 256)
  | signaled
  deriving DecidableEq

theorem byte_pos : 0 < 256 := by decide

/-- `WIFEXITED(status) ? WEXITSTATUS(status) : 0` -/
def WaitStatus.exitCode : WaitStatus → ℕ
  | .exited code => code.val
  | .signaled => 0

/-- A reaped process keeps its status as a record of what the parent was told. -/
inductive Proc where
  | free
  | running
  | zombie (status : WaitStatus)
  | reaped (status : WaitStatus)
  deriving DecidableEq

namespace Proc

def isZombie : Proc → Bool
  | .zombie _ => true
  | _ => false

def inUse : Proc → Bool
  | .running | .zombie _ => true
  | _ => false

end Proc

inductive ParentPc where
  | forking (w : ℕ)
  | forkFailed
  | test
  | checkInt
  | checkChld
  | suspended (delivered : Bool)
  -- `terminate_all_workers`
  | sigterm (i : ℕ)
  | deadline
  | polling (i : ℕ) (allGone : Bool)
  | sigkill (i : ℕ)
  | draining
  | interrupted
  -- after the loop
  | unmasked
  | recount
  | finalWait (i : ℕ)
  | finished
  deriving DecidableEq

structure WorkerResult where
  workerPid : ℕ
  matchCount : ℕ
  deriving DecidableEq

structure ParentState where
  proc : ℕ → Proc
  childPids : List ℕ
  pc : ParentPc
  /-- `handler_sigchld` is running on top of `pc`. -/
  inHandler : Bool
  chldPending : Bool
  usr1Pending : Bool
  intPending : Bool
  sigusr1Count : ℕ
  sigintReceived : Bool
  sigchldReceived : Bool
  reaped : List (ℕ × WaitStatus)
  sigchldProcessed : ℕ
  workerResults : List WorkerResult

inductive ParentAction where
  | fork (pid : ℕ)
  | forkFails
  | step
  | deadlinePasses
  -- the workers and the user
  | exit (pid : ℕ) (status : WaitStatus)
  | usr1
  | sigint
  -- signal delivery and the `SIGCHLD` handler
  | deliverChld
  | deliverUsr1
  | deliverInt
  | reap (pid : ℕ)
  | handlerReturns

/-- The body of both result loops: known pids only, and only while there is room. -/
def addResult (childPids : List ℕ) (results : List WorkerResult) (x : ℕ × WaitStatus) :
    List WorkerResult :=
  if x.1 ∈ childPids ∧ results.length < maxWorkers then results ++ [⟨x.1, x.2.exitCode⟩]
  else results

def processSigchld (s : ParentState) : ParentState :=
  { s with
    workerResults :=
      (s.reaped.drop s.sigchldProcessed).foldl (addResult s.childPids) s.workerResults
    sigchldProcessed := s.reaped.length }

def ParentState.setProc (s : ParentState) (pid : ℕ) (p : Proc) : ParentState :=
  { s with proc := Function.update s.proc pid p }

/-- `waitpid(pid, NULL, WNOHANG)`; `true` when it returns 0, the child is still running. -/
def waitpidNohang (s : ParentState) (pid : ℕ) : ParentState × Bool :=
  match s.proc pid with
  | .running => (s, true)
  | .zombie st => (s.setProc pid (.reaped st), false)
  | _ => (s, false)

def parentStep (numWorkers : ℕ) (s : ParentState) : Option ParentState :=
  match s.pc with
  | .forking w => if w = numWorkers then some { s with pc := .test } else none
  | .test =>
    some { s with pc := if s.reaped.length < numWorkers then .checkInt else .unmasked }
  | .checkInt => some { s with pc := if s.sigintReceived then .sigterm 0 else .checkChld }
  | .checkChld =>
    if s.sigchldReceived then
      some { processSigchld s with sigchldReceived := false, pc := .suspended false }
    else some { s with pc := .suspended false }
  | .suspended delivered => if delivered ∧ ¬ s.inHandler then some { s with pc := .test } else none
  | .sigterm i =>
    some { s with pc := if i < s.childPids.length then .sigterm (i + 1) else .deadline }
  | .deadline => some { s with pc := .polling 0 true }
  | .polling i allGone =>
    match s.childPids[i]? with
    | some pid =>
      let r := waitpidNohang s pid
      some { r.1 with pc := .polling (i + 1) (allGone && !r.2) }
    | none => some { s with pc := if allGone then .interrupted else .deadline }
  | .sigkill i =>
    some { s with pc := if i < s.childPids.length then .sigkill (i + 1) else .draining }
  | .draining =>
    match s.childPids.find? (fun pid => (s.proc pid).isZombie) with
    | some pid => some (waitpidNohang s pid).1
    | none => some { s with pc := .interrupted }
  | .unmasked => if s.inHandler then none else some { s with pc := .recount }
  | .recount =>
    some { s with
      workerResults := s.reaped.foldl (addResult s.childPids) []
      pc := .finalWait 0 }
  | .finalWait i =>
    match s.childPids[i]? with
    | none => some { s with pc := .finished }
    | some pid =>
      if s.workerResults.any (fun r => r.workerPid = pid) then
        some { s with pc := .finalWait (i + 1) }
      else
        match s.proc pid with
        | .running => none
        | .zombie st => some { s.setProc pid (.reaped st) with
            workerResults :=
              if s.workerResults.length < maxWorkers then
                s.workerResults ++ [⟨pid, st.exitCode⟩]
              else s.workerResults
            pc := .finalWait (i + 1) }
        | _ => some { s with pc := .finalWait (i + 1) }
  | .forkFailed | .interrupted | .finished => none

/-- Handlers run only in `sigsuspend` and once the old mask is back. -/
def ParentPc.unblocked : ParentPc → Bool
  | .suspended _ | .unmasked => true
  | _ => false

def ParentPc.afterDelivery : ParentPc → ParentPc
  | .suspended _ => .suspended true
  | pc => pc

def parentTransition (numWorkers : ℕ) (s : ParentState) : ParentAction → Option ParentState
  | .fork pid =>
    match s.pc with
    | .forking w =>
      if w < numWorkers ∧ (s.proc pid).inUse = false then
        some { s.setProc pid .running with
          childPids := s.childPids ++ [pid]
          pc := .forking (w + 1) }
      else none
    | _ => none
  | .forkFails =>
    match s.pc with
    | .forking w => if w < numWorkers then some { s with pc := .forkFailed } else none
    | _ => none
  | .step => parentStep numWorkers s
  | .deadlinePasses => if s.pc = .deadline then some { s with pc := .sigkill 0 } else none
  | .exit pid status =>
    if s.proc pid = .running then
      some { s.setProc pid (.zombie status) with chldPending := true }
    else none
  | .usr1 => some { s with usr1Pending := true }
  | .sigint => some { s with intPending := true }
  | .deliverChld =>
    if s.pc.unblocked ∧ s.chldPending ∧ ¬ s.inHandler then
      some { s with chldPending := false, inHandler := true, pc := s.pc.afterDelivery }
    else none
  | .deliverUsr1 =>
    if s.pc.unblocked ∧ s.usr1Pending then
      some { s with
        usr1Pending := false, sigusr1Count := s.sigusr1Count + 1, pc := s.pc.afterDelivery }
    else none
  | .deliverInt =>
    if s.pc.unblocked ∧ s.intPending then
      some { s with intPending := false, sigintReceived := true, pc := s.pc.afterDelivery }
    else none
  | .reap pid =>
    if s.inHandler then
      match s.proc pid with
      | .zombie st => some { s.setProc pid (.reaped st) with
          reaped := if s.reaped.length < maxWorkers then s.reaped ++ [(pid, st)] else s.reaped }
      | _ => none
    else none
  | .handlerReturns =>
    -- `waitpid(-1, &status, WNOHANG)` found nobody
    if s.inHandler ∧ s.childPids.all (fun pid => !(s.proc pid).isZombie) then
      some { s with inHandler := false, sigchldReceived := true }
    else none

def parentInit : ParentState where
  proc _ := .free
  childPids := []
  pc := .forking 0
  inHandler := false
  chldPending := false
  usr1Pending := false
  intPending := false
  sigusr1Count := 0
  sigintReceived := false
  sigchldReceived := false
  reaped := []
  sigchldProcessed := 0
  workerResults := []

def parent (numWorkers : ℕ) : Machine ParentState ParentAction :=
  ⟨parentInit, parentTransition numWorkers⟩

/-! ### What a step can have been -/

section Inversion
variable {numWorkers : ℕ} {s s' : ParentState} {pid i : ℕ}

theorem fork_inv (hs : parentTransition numWorkers s (.fork pid) = some s') :
    ∃ w, s.pc = .forking w ∧ w < numWorkers ∧ (s.proc pid).inUse = false ∧
      s' = { s.setProc pid .running with
        childPids := s.childPids ++ [pid], pc := .forking (w + 1) } := by
  simp only [parentTransition] at hs
  split at hs
  · rename_i w hpc
    simp only [Option.ite_none_right_eq_some, Option.some.injEq] at hs
    obtain ⟨⟨hw, hunused⟩, rfl⟩ := hs
    exact ⟨w, hpc, hw, hunused, rfl⟩
  · cases hs

theorem forkFails_inv (hs : parentTransition numWorkers s .forkFails = some s') :
    ∃ w, s.pc = .forking w ∧ s' = { s with pc := .forkFailed } := by
  simp only [parentTransition] at hs
  split at hs
  · rename_i w hpc
    simp only [Option.ite_none_right_eq_some, Option.some.injEq] at hs
    obtain ⟨-, rfl⟩ := hs
    exact ⟨w, hpc, rfl⟩
  · cases hs

theorem reap_inv (hs : parentTransition numWorkers s (.reap pid) = some s') :
    s.inHandler = true ∧ ∃ st, s.proc pid = .zombie st ∧
      s' = { s.setProc pid (.reaped st) with
        reaped := if s.reaped.length < maxWorkers then s.reaped ++ [(pid, st)] else s.reaped } := by
  simp only [parentTransition, Option.ite_none_right_eq_some] at hs
  obtain ⟨hin, hs⟩ := hs
  split at hs
  · rename_i st hzombie
    exact ⟨hin, st, hzombie, (Option.some.inj hs).symm⟩
  · cases hs

/-- A round of the last loop passes over a child or reaps it. -/
theorem finalWait_inv (hpc : s.pc = .finalWait i) (hs : parentStep numWorkers s = some s') :
    s' = { s with pc := .finished } ∨ s' = { s with pc := .finalWait (i + 1) } ∨
      ∃ pid st, s.proc pid = .zombie st ∧ s' = { s.setProc pid (.reaped st) with
        workerResults :=
          if s.workerResults.length < maxWorkers then s.workerResults ++ [⟨pid, st.exitCode⟩]
          else s.workerResults
        pc := .finalWait (i + 1) } := by
  simp only [parentStep, hpc] at hs
  split at hs
  · exact .inl (Option.some.inj hs).symm
  · rename_i child hchild
    split at hs
    · exact .inr (.inl (Option.some.inj hs).symm)
    · split at hs
      · cases hs
      · rename_i st hzombie
        exact .inr (.inr ⟨child, st, hzombie, (Option.some.inj hs).symm⟩)
      · exact .inr (.inl (Option.some.inj hs).symm)

end Inversion

end SysProg.HW2

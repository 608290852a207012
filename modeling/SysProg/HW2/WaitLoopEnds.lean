import SysProg.HW2.Reaping
import SysProg.Lib.FairRuns
import Mathlib.Algebra.BigOperators.Group.Finset.Basic
import Mathlib.Algebra.Order.BigOperators.Group.List
import Mathlib.Algebra.Order.Group.Nat

/-!
# The parent comes to an end

The parent suspends itself again and again until every worker is reaped. Once no
signals from outside arrive any more, forking, exits, deliveries, reaping and the
steps of the parent are work that gets done; only the polling of a shutdown goes
round without doing any. A suspended parent that waits for a worker either has a
running worker or a `SIGCHLD` pending, so some party always has work to do.
-/

open scoped BigOperators
namespace SysProg.HW2
open SysProg.Lib
variable {numWorkers : ℕ}

/-! ### The work that is left -/

def Proc.work : Proc → ℕ
  | .running => 8
  | .zombie _ => 1
  | .free | .reaped _ => 0

def ParentPc.work (n : ℕ) : ParentPc → ℕ
  | .forking _ => 2 * n + 13
  | .suspended true => 2 * n + 12
  | .test => 2 * n + 11
  | .checkInt => 2 * n + 10
  | .checkChld => 2 * n + 9
  | .suspended false => 2 * n + 8
  | .sigterm i => n - i + n + 5
  | .deadline | .polling _ _ => n + 4
  | .sigkill i => n - i + 2
  | .draining => 1
  | .unmasked => n + 4
  | .recount => n + 3
  | .finalWait i => n - i + 1
  | .forkFailed | .interrupted | .finished => 0

def childWork (s : ParentState) : ℕ := ∑ pid ∈ s.childPids.toFinset, (s.proc pid).work

/-- A signal is worth the handler that it starts and a turn of the loop. -/
def signalWork (s : ParentState) : ℕ :=
  6 * (s.chldPending.toNat + s.usr1Pending.toNat + s.intPending.toNat) + s.inHandler.toNat

def workLeft (n : ℕ) (s : ParentState) : ℕ :=
  9 * (n - s.childPids.length) + childWork s + signalWork s + s.pc.work n

theorem childWork_setProc {s : ParentState} {pid : ℕ} (h : pid ∈ s.childPids) (p : Proc) :
    childWork (s.setProc pid p) + (s.proc pid).work = childWork s + p.work := by
  have hmem := List.mem_toFinset.mpr h
  have hrest : ∑ q ∈ s.childPids.toFinset.erase pid, (Function.update s.proc pid p q).work =
      ∑ q ∈ s.childPids.toFinset.erase pid, (s.proc q).work := by
    apply Finset.sum_congr rfl
    intro q hq
    rw [Function.update_of_ne (Finset.ne_of_mem_erase hq)]
  have hnew := Finset.add_sum_erase _ (fun q => (Function.update s.proc pid p q).work) hmem
  have hold := Finset.add_sum_erase _ (fun q => (s.proc q).work) hmem
  simp only [Function.update_self, hrest] at hnew
  simp only [childWork, ParentState.setProc]
  omega

theorem Ledger.mem_children {s : ParentState} (h : Ledger numWorkers s) {pid : ℕ}
    (hused : s.proc pid ≠ .free) : pid ∈ s.childPids := (h.known pid).mpr hused

theorem work_afterDelivery (n : ℕ) {pc : ParentPc} (h : pc.unblocked = true) :
    pc.afterDelivery.work n ≤ pc.work n + 4 := by
  cases pc <;> simp [ParentPc.unblocked] at h
  case suspended delivered => cases delivered <;> simp [ParentPc.afterDelivery, ParentPc.work]
  case unmasked => exact Nat.le_add_right _ _

theorem childWork_reap {s : ParentState} (h : Ledger numWorkers s) {pid : ℕ} {st : WaitStatus}
    (hzombie : s.proc pid = .zombie st) : childWork (s.setProc pid (.reaped st)) < childWork s := by
  have hchild := h.mem_children (by rw [hzombie]; simp : s.proc pid ≠ .free)
  have hwork := childWork_setProc hchild (.reaped st)
  simp only [hzombie, Proc.work] at hwork
  omega

/-! ### Steps that do no work -/

inductive Polled (s : ParentState) : ParentState → Prop where
  | again : s.pc = .deadline → Polled s { s with pc := .polling 0 true }
  | pass {i : ℕ} {allGone : Bool} {pid : ℕ} : s.pc = .polling i allGone →
      s.childPids[i]? = some pid →
      Polled s { s with pc := .polling (i + 1) (allGone && decide (s.proc pid ≠ .running)) }
  | pollDone {i : ℕ} : s.pc = .polling i false → s.childPids[i]? = none →
      Polled s { s with pc := .deadline }

theorem workLeft_pc {n : ℕ} {s s' : ParentState} (hpc : s'.pc.work n < s.pc.work n)
    (hproc : s'.proc = s.proc) (hchildren : s'.childPids = s.childPids)
    (hsignals : signalWork s' = signalWork s) : workLeft n s' < workLeft n s := by
  simp only [workLeft, childWork, hproc, hchildren, hsignals]
  omega

theorem workLeft_reap {s s' : ParentState} (h : Ledger numWorkers s) {pid : ℕ} {st : WaitStatus}
    (hzombie : s.proc pid = .zombie st) (hproc : s'.proc = Function.update s.proc pid (.reaped st))
    (hchildren : s'.childPids = s.childPids) (hsignals : signalWork s' = signalWork s)
    (hpc : s'.pc.work numWorkers ≤ s.pc.work numWorkers) :
    workLeft numWorkers s' < workLeft numWorkers s := by
  have hwork : childWork s' < childWork s := by
    have hreap := childWork_reap h hzombie
    simp only [childWork, ParentState.setProc] at hreap
    simpa only [childWork, hproc, hchildren] using hreap
  simp only [workLeft, hchildren, hsignals]
  omega

theorem polling_work {s s' : ParentState} {i : ℕ} {allGone : Bool} (h : Ledger numWorkers s)
    (hpc : s.pc = .polling i allGone) (hs : parentStep numWorkers s = some s') :
    workLeft numWorkers s' < workLeft numWorkers s ∨ Polled s s' := by
  simp only [parentStep, hpc] at hs
  split at hs
  · rename_i pid hpid
    obtain rfl := Option.some.inj hs
    have hpass := Polled.pass hpc hpid
    cases hproc : s.proc pid with
    | zombie st =>
      simp only [waitpidNohang, hproc]
      exact Or.inl (workLeft_reap h hproc rfl rfl rfl (by rw [hpc]; exact le_rfl))
    | free | running | reaped st =>
      simp only [waitpidNohang, hproc]
      simp only [hproc] at hpass
      exact Or.inr hpass
  · rename_i hover
    obtain rfl := Option.some.inj hs
    cases allGone with
    | true =>
      apply Or.inl
      refine workLeft_pc ?_ rfl rfl rfl
      simp only [hpc, if_true, ParentPc.work]
      omega
    | false => exact Or.inr (.pollDone hpc hover)

theorem finalWait_work {s s' : ParentState} {i : ℕ} (h : Ledger numWorkers s)
    (hpc : s.pc = .finalWait i) (hs : parentStep numWorkers s = some s') :
    workLeft numWorkers s' < workLeft numWorkers s := by
  have hlen := h.started (by rw [hpc]; rfl)
  have hnext : ∀ results : List WorkerResult, i < numWorkers →
      workLeft numWorkers { s with workerResults := results, pc := .finalWait (i + 1) } <
        workLeft numWorkers s := by
    intro results hi
    refine workLeft_pc ?_ rfl rfl rfl
    simp only [hpc, ParentPc.work]
    omega
  simp only [parentStep, hpc] at hs
  split at hs
  · obtain rfl := Option.some.inj hs
    refine workLeft_pc ?_ rfl rfl rfl
    simp only [hpc, ParentPc.work]
    omega
  · rename_i pid hpid
    have hi : i < numWorkers := hlen ▸ (List.getElem?_eq_some_iff.mp hpid).1
    obtain ⟨st, hst⟩ := h.settled (by rw [hpc]; rfl) pid (List.mem_of_getElem? hpid)
    simp only [hst] at hs
    split_ifs at hs
    · exact Option.some.inj hs ▸ hnext _ hi
    · exact Option.some.inj hs ▸ hnext _ hi

theorem parentStep_work {s s' : ParentState} (h : Ledger numWorkers s)
    (hs : parentStep numWorkers s = some s') :
    workLeft numWorkers s' < workLeft numWorkers s ∨ Polled s s' := by
  have hmove : ∀ pc : ParentPc, pc.work numWorkers < s.pc.work numWorkers →
      workLeft numWorkers { s with pc := pc } < workLeft numWorkers s :=
    fun pc hlt => workLeft_pc hlt rfl rfl rfl
  cases hpc : s.pc with
  | forking w =>
    simp only [parentStep, hpc, Option.ite_none_right_eq_some, Option.some.injEq] at hs
    obtain ⟨-, rfl⟩ := hs
    exact Or.inl (hmove _ (by simp [hpc, ParentPc.work]))
  | test =>
    simp only [parentStep, hpc, Option.some.injEq] at hs
    subst hs
    apply Or.inl
    apply hmove
    split_ifs <;> simp only [hpc, ParentPc.work] <;> omega
  | checkInt =>
    simp only [parentStep, hpc, Option.some.injEq] at hs
    subst hs
    apply Or.inl
    apply hmove
    split_ifs <;> simp only [hpc, ParentPc.work] <;> omega
  | checkChld =>
    simp only [parentStep, hpc] at hs
    apply Or.inl
    split_ifs at hs <;> obtain rfl := Option.some.inj hs
    · exact workLeft_pc (by simp [hpc, ParentPc.work]) rfl rfl rfl
    · exact hmove _ (by simp [hpc, ParentPc.work])
  | suspended delivered =>
    simp only [parentStep, hpc, Option.ite_none_right_eq_some, Option.some.injEq] at hs
    obtain ⟨⟨rfl, -⟩, rfl⟩ := hs
    exact Or.inl (hmove _ (by simp [hpc, ParentPc.work]))
  | sigterm i =>
    have hlen := h.started (by rw [hpc]; rfl)
    simp only [parentStep, hpc, Option.some.injEq] at hs
    subst hs
    apply Or.inl
    apply hmove
    split_ifs <;> simp only [hpc, ParentPc.work] <;> omega
  | deadline =>
    simp only [parentStep, hpc, Option.some.injEq] at hs
    exact hs ▸ Or.inr (.again hpc)
  | polling i allGone => exact polling_work h hpc hs
  | sigkill i =>
    have hlen := h.started (by rw [hpc]; rfl)
    simp only [parentStep, hpc, Option.some.injEq] at hs
    subst hs
    apply Or.inl
    apply hmove
    split_ifs <;> simp only [hpc, ParentPc.work] <;> omega
  | draining =>
    simp only [parentStep, hpc] at hs
    apply Or.inl
    split at hs
    · rename_i pid hfound
      have hzombie := List.find?_some hfound
      obtain rfl := Option.some.inj hs
      cases hproc : s.proc pid with
      | zombie st =>
        simp only [waitpidNohang, hproc]
        exact workLeft_reap h hproc rfl rfl rfl le_rfl
      | free | running | reaped st => simp [hproc, Proc.isZombie] at hzombie
    · obtain rfl := Option.some.inj hs
      exact hmove _ (by simp [hpc, ParentPc.work])
  | unmasked =>
    simp only [parentStep, hpc, Option.ite_none_left_eq_some, Option.some.injEq] at hs
    obtain ⟨-, rfl⟩ := hs
    exact Or.inl (hmove _ (by simp [hpc, ParentPc.work]))
  | recount =>
    simp only [parentStep, hpc, Option.some.injEq] at hs
    subst hs
    apply Or.inl
    refine workLeft_pc ?_ rfl rfl rfl
    simp only [hpc, ParentPc.work]
    omega
  | finalWait i => exact Or.inl (finalWait_work h hpc hs)
  | forkFailed | interrupted | finished => simp [parentStep, hpc] at hs

theorem fork_work {s s' : ParentState} {pid : ℕ} (h : Ledger numWorkers s)
    (hs : parentTransition numWorkers s (.fork pid) = some s') :
    workLeft numWorkers s' < workLeft numWorkers s := by
  have hafter := (ledger_fork h hs).nodup
  obtain ⟨w, hpc, hw, -, rfl⟩ := fork_inv hs
  have hlen := (h.forking w hpc).1
  have hnew : pid ∉ s.childPids.toFinset := by
    rw [List.mem_toFinset]
    exact List.disjoint_singleton.mp (List.disjoint_of_nodup_append hafter)
  have hchildren : (s.childPids ++ [pid]).toFinset = insert pid s.childPids.toFinset := by
    ext q
    simp
  have hrest : ∑ q ∈ s.childPids.toFinset, (Function.update s.proc pid .running q).work =
      childWork s := by
    apply Finset.sum_congr rfl
    intro q hq
    have hne : q ≠ pid := fun heq => hnew (heq ▸ hq)
    rw [Function.update_of_ne hne]
  have hsum : ∑ q ∈ (s.childPids ++ [pid]).toFinset, (Function.update s.proc pid .running q).work =
      8 + childWork s := by
    rw [hchildren, Finset.sum_insert hnew, hrest, Function.update_self]
    rfl
  rw [workLeft, childWork, ParentState.setProc, hsum, workLeft]
  simp only [signalWork, List.length_append, List.length_singleton, hlen, hpc, ParentPc.work]
  omega

theorem exit_work {s s' : ParentState} {pid : ℕ} {status : WaitStatus} (h : Ledger numWorkers s)
    (hs : parentTransition numWorkers s (.exit pid status) = some s') :
    workLeft numWorkers s' < workLeft numWorkers s := by
  simp only [parentTransition, Option.ite_none_right_eq_some, Option.some.injEq] at hs
  obtain ⟨hrun, rfl⟩ := hs
  have hchild := h.mem_children (by rw [hrun]; simp : s.proc pid ≠ .free)
  have hwork : childWork (s.setProc pid (.zombie status)) + 8 = childWork s + 1 := by
    have hset := childWork_setProc hchild (.zombie status)
    rwa [hrun] at hset
  simp only [childWork, ParentState.setProc] at hwork
  simp only [workLeft, childWork, ParentState.setProc, signalWork, Bool.toNat_true]
  omega

/-- A handler starts: its signal was worth more than the turn of the loop. -/
theorem delivery_work {n : ℕ} {s s' : ParentState} (hun : s.pc.unblocked = true)
    (hpc : s'.pc = s.pc.afterDelivery) (hproc : s'.proc = s.proc)
    (hchildren : s'.childPids = s.childPids)
    (hsignals : signalWork s' + 5 ≤ signalWork s) : workLeft n s' < workLeft n s := by
  have hturn := work_afterDelivery n hun
  simp only [workLeft, childWork, hproc, hchildren, hpc]
  omega

theorem transition_work {s s' : ParentState} {a : ParentAction} (h : Ledger numWorkers s)
    (hs : parentTransition numWorkers s a = some s') (husr : a ≠ .usr1) (hint : a ≠ .sigint) :
    workLeft numWorkers s' < workLeft numWorkers s ∨ a = .step ∧ Polled s s' := by
  cases a with
  | usr1 => exact absurd rfl husr
  | sigint => exact absurd rfl hint
  | step => exact (parentStep_work h hs).imp_right (fun hpolled => ⟨rfl, hpolled⟩)
  | fork pid => exact Or.inl (fork_work h hs)
  | exit pid status => exact Or.inl (exit_work h hs)
  | forkFails =>
    obtain ⟨w, hpc, rfl⟩ := forkFails_inv hs
    exact Or.inl (workLeft_pc (by simp [hpc, ParentPc.work]) rfl rfl rfl)
  | deadlinePasses =>
    simp only [parentTransition, Option.ite_none_right_eq_some, Option.some.injEq] at hs
    obtain ⟨hpc, rfl⟩ := hs
    exact Or.inl (workLeft_pc (by simp [hpc, ParentPc.work]) rfl rfl rfl)
  | deliverChld =>
    simp only [parentTransition, Option.ite_none_right_eq_some, Option.some.injEq] at hs
    obtain ⟨⟨hun, hpending, hidle⟩, rfl⟩ := hs
    refine Or.inl (delivery_work hun rfl rfl rfl ?_)
    simp [signalWork, hpending, hidle]
    omega
  | deliverUsr1 | deliverInt =>
    simp only [parentTransition, Option.ite_none_right_eq_some, Option.some.injEq] at hs
    obtain ⟨⟨hun, hpending⟩, rfl⟩ := hs
    refine Or.inl (delivery_work hun rfl rfl rfl ?_)
    simp [signalWork, hpending]
    omega
  | reap pid =>
    obtain ⟨-, st, hzombie, rfl⟩ := reap_inv hs
    exact Or.inl (workLeft_reap h hzombie rfl rfl rfl le_rfl)
  | handlerReturns =>
    simp only [parentTransition, Option.ite_none_right_eq_some, Option.some.injEq] at hs
    obtain ⟨⟨hin, -⟩, rfl⟩ := hs
    apply Or.inl
    simp only [workLeft, childWork, signalWork, hin, Bool.toNat_true, Bool.toNat_false]
    omega

/-! ### What a suspended parent waits for -/

def ParentPc.awaiting : ParentPc → Bool
  | .checkInt | .checkChld | .suspended false => true
  | _ => false

/-- The parent suspends itself only while a worker is missing, and no handler runs
until a signal has been delivered. -/
structure Awaiting (n : ℕ) (s : ParentState) : Prop where
  missing : s.pc.awaiting = true → s.reaped.length < n
  idle : s.inHandler = true → s.pc.awaiting = false

theorem afterDelivery_not_awaiting {pc : ParentPc} (h : pc.unblocked = true) :
    pc.afterDelivery.awaiting = false := by
  cases pc <;> simp [ParentPc.unblocked] at h <;> rfl

theorem awaiting_moved {s' : ParentState} (h : s'.pc.awaiting = false) : Awaiting numWorkers s' :=
  ⟨fun hpc => absurd (h ▸ hpc) (by simp), fun _ => h⟩

theorem Awaiting.of_same {s s' : ParentState} (h : Awaiting numWorkers s) (hpc : s'.pc = s.pc)
    (hreaped : s'.reaped = s.reaped) (hhandler : s'.inHandler = true → s.inHandler = true) :
    Awaiting numWorkers s' := by
  constructor
  · rw [hpc, hreaped]
    exact h.missing
  · intro hin
    rw [hpc]
    exact h.idle (hhandler hin)

theorem parentStep_pc {s s' : ParentState} (hs : parentStep numWorkers s = some s') :
    s'.pc ≠ .forkFailed ∧ (s'.pc.awaiting = true → s.pc.unblocked = false ∧
      s'.inHandler = s.inHandler ∧ s'.reaped = s.reaped ∧
        (s.pc.awaiting = true ∨ s.reaped.length < numWorkers)) := by
  cases hpc : s.pc with
  | test =>
    simp only [parentStep, hpc, Option.some.injEq] at hs
    subst hs
    split_ifs with hless
    · exact ⟨by simp, fun _ => ⟨rfl, rfl, rfl, Or.inr hless⟩⟩
    · exact ⟨by simp, fun hawait => absurd hawait Bool.false_ne_true⟩
  | checkInt =>
    simp only [parentStep, hpc, Option.some.injEq] at hs
    subst hs
    split_ifs
    · exact ⟨by simp, fun hawait => absurd hawait Bool.false_ne_true⟩
    · exact ⟨by simp, fun _ => ⟨rfl, rfl, rfl, Or.inl rfl⟩⟩
  | checkChld =>
    simp only [parentStep, hpc] at hs
    split_ifs at hs <;> obtain rfl := Option.some.inj hs
    · exact ⟨by simp, fun _ => ⟨rfl, rfl, rfl, Or.inl rfl⟩⟩
    · exact ⟨by simp, fun _ => ⟨rfl, rfl, rfl, Or.inl rfl⟩⟩
  | forking | suspended | unmasked =>
    simp only [parentStep, hpc, Option.ite_none_right_eq_some, Option.ite_none_left_eq_some,
      Option.some.injEq] at hs
    obtain ⟨-, rfl⟩ := hs
    exact ⟨by simp, fun hawait => absurd hawait Bool.false_ne_true⟩
  | deadline | recount =>
    simp only [parentStep, hpc, Option.some.injEq] at hs
    subst hs
    exact ⟨by simp, fun hawait => absurd hawait Bool.false_ne_true⟩
  | sigterm | sigkill =>
    simp only [parentStep, hpc, Option.some.injEq] at hs
    subst hs
    split_ifs <;> exact ⟨by simp, fun hawait => absurd hawait Bool.false_ne_true⟩
  | polling i allGone =>
    simp only [parentStep, hpc] at hs
    split at hs <;> obtain rfl := Option.some.inj hs
    · exact ⟨by simp, fun hawait => absurd hawait Bool.false_ne_true⟩
    · cases allGone <;> exact ⟨by simp, fun hawait => absurd hawait Bool.false_ne_true⟩
  | draining =>
    simp only [parentStep, hpc] at hs
    split at hs <;> obtain rfl := Option.some.inj hs
    · rename_i pid _
      rw [(waitpidNohang_frame s pid).2.2.1, hpc]
      exact ⟨by simp, fun hawait => absurd hawait Bool.false_ne_true⟩
    · exact ⟨by simp, fun hawait => absurd hawait Bool.false_ne_true⟩
  | finalWait i =>
    obtain rfl | rfl | ⟨pid, st, -, rfl⟩ := finalWait_inv hpc hs
    all_goals exact ⟨by simp, fun hawait => absurd hawait Bool.false_ne_true⟩
  | forkFailed | interrupted | finished => simp [parentStep, hpc] at hs

theorem awaiting_parentStep {s s' : ParentState} (hledger : Ledger numWorkers s)
    (h : Awaiting numWorkers s) (hs : parentStep numWorkers s = some s') :
    Awaiting numWorkers s' := by
  cases hawait : s'.pc.awaiting with
  | false => exact awaiting_moved hawait
  | true =>
    obtain ⟨hblocked, hhandler, hreaped, hless⟩ := (parentStep_pc hs).2 hawait
    constructor
    · intro _
      rw [hreaped]
      exact hless.elim h.missing id
    · intro hin
      rw [hhandler, hledger.idle hblocked] at hin
      cases hin

theorem awaiting_step {s s' : ParentState} {a : ParentAction} (hledger : Ledger numWorkers s)
    (h : Awaiting numWorkers s) (hs : parentTransition numWorkers s a = some s') :
    Awaiting numWorkers s' := by
  cases a with
  | step => exact awaiting_parentStep hledger h hs
  | fork pid =>
    obtain ⟨w, -, -, -, rfl⟩ := fork_inv hs
    exact awaiting_moved rfl
  | forkFails =>
    obtain ⟨w, -, rfl⟩ := forkFails_inv hs
    exact awaiting_moved rfl
  | deadlinePasses =>
    simp only [parentTransition, Option.ite_none_right_eq_some, Option.some.injEq] at hs
    obtain ⟨-, rfl⟩ := hs
    exact awaiting_moved rfl
  | usr1 | sigint =>
    simp only [parentTransition, Option.some.injEq] at hs
    subst hs
    exact h.of_same rfl rfl id
  | exit | handlerReturns =>
    simp only [parentTransition, Option.ite_none_right_eq_some, Option.some.injEq] at hs
    obtain ⟨-, rfl⟩ := hs
    exact h.of_same rfl rfl (by simp [ParentState.setProc])
  | deliverChld | deliverUsr1 | deliverInt =>
    simp only [parentTransition, Option.ite_none_right_eq_some, Option.some.injEq] at hs
    obtain ⟨⟨hun, -⟩, rfl⟩ := hs
    exact awaiting_moved (afterDelivery_not_awaiting hun)
  | reap pid =>
    obtain ⟨hin, st, -, rfl⟩ := reap_inv hs
    exact awaiting_moved (h.idle hin)

theorem awaiting_reachable (hn : numWorkers ≤ maxWorkers) {s : ParentState}
    (h : (parent numWorkers).Reachable s) : Awaiting numWorkers s :=
  h.invariant (awaiting_moved rfl)
    (fun _ _ _ hprior hs hstep => awaiting_step (ledger_reachable hn hprior) hs hstep)

theorem running_or_pending {s : ParentState} (hledger : Ledger numWorkers s)
    (h : Awaiting numWorkers s) (hpc : s.pc = .suspended false) :
    s.chldPending = true ∨ ∃ pid, s.proc pid = .running := by
  have hless := h.missing (by rw [hpc]; rfl)
  have hterm : s.pc.terminating = false := by rw [hpc]; rfl
  by_contra hnone
  push Not at hnone
  obtain ⟨hpending, hrun⟩ := hnone
  have hidle : s.inHandler = false := by
    cases hin : s.inHandler with
    | false => rfl
    | true => exact absurd (h.idle hin) (by rw [hpc]; decide)
  have hreaped : ∀ pid ∈ s.childPids, pid ∈ s.reaped.map Prod.fst := by
    intro pid hpid
    have hused := (hledger.known pid).mp hpid
    cases hproc : s.proc pid with
    | free => exact absurd hproc hused
    | running => exact absurd hproc (hrun pid)
    | zombie st =>
      have halarm := hledger.alarm hterm ⟨pid, by rw [hproc]; rfl⟩
      simp [hpending, hidle] at halarm
    | reaped st => exact List.mem_map_of_mem (((hledger.record hterm).mem pid st).mpr hproc)
  have hlen := (hledger.nodup.subperm hreaped).length_le
  rw [hledger.started (by rw [hpc]; rfl), List.length_map] at hlen
  omega

/-! ### Who has work to do -/

inductive Party where
  | parent
  | handler
  | kernel
  | worker (pid : ℕ)

def freshPid (s : ParentState) : ℕ := s.childPids.sum + 1

theorem freshPid_free {s : ParentState} (h : Ledger numWorkers s) :
    s.proc (freshPid s) = .free := by
  by_contra hused
  have hmem := (h.known (freshPid s)).mpr hused
  have hle := List.le_sum_of_mem hmem
  simp only [freshPid] at hle
  omega

def nextAction (n : ℕ) (s : ParentState) : Party → ParentAction
  | .parent =>
    match s.pc with
    | .forking w => if w < n then .fork (freshPid s) else .step
    | _ => .step
  | .handler => (s.childPids.find? (fun pid => (s.proc pid).isZombie)).elim .handlerReturns .reap
  | .kernel => .deliverChld
  | .worker pid => .exit pid (.exited ⟨0, byte_pos⟩)

/-- What happens in its time if nothing prevents it: not the signals from outside,
failing forks, other deliveries and the deadline of a shutdown. -/
def duties : Set ParentAction := {a |
  match a with
  | .fork _ | .step | .exit _ _ | .deliverChld | .reap _ | .handlerReturns => True
  | _ => False}

def Ended (s : ParentState) : Prop :=
  s.pc = .finished ∨ s.pc = .interrupted ∨ s.pc = .forkFailed

def HasWork (s : ParentState) : Party → Prop
  | .parent => s.inHandler = false ∧
    match s.pc with
    | .suspended delivered => delivered = true
    | .deadline | .polling _ _ => ∀ pid, s.proc pid ≠ .running
    | .forkFailed | .interrupted | .finished => False
    | _ => True
  | .handler => s.inHandler = true
  | .kernel => s.pc = .suspended false ∧ s.inHandler = false ∧ s.chldPending = true
  | .worker pid => s.proc pid = .running

/-- The steps of the parent to the end of a round of polling that finds nobody. -/
def pollsLeft (n : ℕ) (s : ParentState) : Party → ℕ
  | .parent =>
    match s.pc with
    | .polling i false => n - i + n + 3
    | .deadline => n + 2
    | .polling i true => n - i + 1
    | _ => 0
  | _ => 0

theorem some_hasWork {s : ParentState} (hledger : Ledger numWorkers s)
    (h : Awaiting numWorkers s) (hend : ¬ Ended s) : ∃ p, HasWork s p := by
  cases hin : s.inHandler with
  | true => exact ⟨.handler, hin⟩
  | false =>
    by_cases hrun : ∃ pid, s.proc pid = .running
    · obtain ⟨pid, hrun⟩ := hrun
      exact ⟨.worker pid, hrun⟩
    · push Not at hrun
      cases hpc : s.pc with
      | suspended delivered =>
        cases delivered with
        | true => exact ⟨.parent, hin, by simp [hpc]⟩
        | false =>
          rcases running_or_pending hledger h hpc with hpending | ⟨pid, hpid⟩
          · exact ⟨.kernel, hpc, hin, hpending⟩
          · exact absurd hpid (hrun pid)
      | deadline | polling => exact ⟨.parent, hin, by simpa [hpc] using hrun⟩
      | forkFailed | interrupted | finished => simp [Ended, hpc] at hend
      | _ => exact ⟨.parent, hin, by simp [hpc]⟩

theorem parentStep_enabled {s : ParentState} (hledger : Ledger numWorkers s)
    (hwork : HasWork s .parent) (hfork : ∀ w, s.pc = .forking w → w = numWorkers) :
    parentStep numWorkers s ≠ none := by
  obtain ⟨hidle, hwork⟩ := hwork
  cases hpc : s.pc with
  | forking w => simp [parentStep, hpc, hfork w hpc]
  | suspended delivered =>
    simp only [hpc] at hwork
    simp [parentStep, hpc, hwork, hidle]
  | checkChld =>
    simp only [parentStep, hpc]
    split_ifs <;> simp
  | polling i allGone | draining =>
    simp only [parentStep, hpc]
    split <;> simp
  | unmasked => simp [parentStep, hpc, hidle]
  | finalWait i =>
    have hsettled := hledger.settled (by rw [hpc]; rfl)
    simp only [parentStep, hpc]
    split
    · simp
    · rename_i pid hpid
      obtain ⟨st, hst⟩ := hsettled pid (List.mem_of_getElem? hpid)
      simp only [hst]
      split_ifs <;> simp
  | forkFailed | interrupted | finished => simp [hpc] at hwork
  | _ => simp [parentStep, hpc]

theorem nextAction_enabled {s : ParentState} (hledger : Ledger numWorkers s) {p : Party}
    (hwork : HasWork s p) : nextAction numWorkers s p ∈ duties ∧
      parentTransition numWorkers s (nextAction numWorkers s p) ≠ none := by
  cases p with
  | parent =>
    by_cases hfork : ∃ w, s.pc = .forking w ∧ w < numWorkers
    · obtain ⟨w, hpc, hw⟩ := hfork
      have hfree := freshPid_free hledger
      simp [nextAction, hpc, hw, duties, parentTransition, hfree, Proc.inUse]
    · have hstep : nextAction numWorkers s .parent = .step := by
        cases hpc : s.pc with
        | forking w =>
          have hw : ¬ w < numWorkers := fun hlt => hfork ⟨w, hpc, hlt⟩
          simp [nextAction, hpc, hw]
        | _ => simp [nextAction, hpc]
      rw [hstep]
      refine ⟨trivial, parentStep_enabled hledger hwork ?_⟩
      intro w hpc
      have hle := (hledger.forking w hpc).2.1
      by_contra hne
      exact hfork ⟨w, hpc, by omega⟩
  | handler =>
    have hin : s.inHandler = true := hwork
    cases hfound : s.childPids.find? (fun pid => (s.proc pid).isZombie) with
    | some pid =>
      have hnext : nextAction numWorkers s .handler = .reap pid := by simp [nextAction, hfound]
      rw [hnext]
      refine ⟨trivial, ?_⟩
      have hzombie := List.find?_some hfound
      cases hproc : s.proc pid with
      | zombie st => simp [parentTransition, hin, hproc]
      | free | running | reaped st => simp [hproc, Proc.isZombie] at hzombie
    | none =>
      have hnext : nextAction numWorkers s .handler = .handlerReturns := by
        simp [nextAction, hfound]
      rw [hnext]
      refine ⟨trivial, ?_⟩
      have hnone := List.find?_eq_none.mp hfound
      simp only [parentTransition, hin, true_and]
      rw [if_pos]
      · simp
      · rw [List.all_eq_true]
        intro pid hpid
        simpa using hnone pid hpid
  | kernel =>
    obtain ⟨hpc, hidle, hpending⟩ := hwork
    refine ⟨trivial, ?_⟩
    simp [nextAction, parentTransition, hpc, ParentPc.unblocked, hpending, hidle]
  | worker pid =>
    refine ⟨trivial, ?_⟩
    have hrun : s.proc pid = .running := hwork
    simp [nextAction, parentTransition, hrun]

/-- The polling leaves everyone the work they have, and its round comes to an end
when nobody runs. -/
theorem Polled.keeps {s s' : ParentState} (h : Polled s s') (hledger : Ledger numWorkers s)
    {p : Party} (hwork : HasWork s p) :
    workLeft numWorkers s' = workLeft numWorkers s ∧ HasWork s' p ∧
      (pollsLeft numWorkers s' p < pollsLeft numWorkers s p ∨
        pollsLeft numWorkers s' p = pollsLeft numWorkers s p ∧
          nextAction numWorkers s' p = nextAction numWorkers s p ∧
            .step ≠ nextAction numWorkers s p) := by
  have hidle : s.inHandler = false := by
    apply hledger.idle
    cases h with
    | again hpc => rw [hpc]; rfl
    | pass hpc => rw [hpc]; rfl
    | pollDone hpc => rw [hpc]; rfl
  cases p with
  | handler => simp [HasWork, hidle] at hwork
  | kernel =>
    obtain ⟨hsuspended, -, -⟩ := hwork
    cases h <;> simp_all
  | worker pid =>
    have hkeep : ∀ pc : ParentPc, HasWork { s with pc := pc } (.worker pid) := fun _ => hwork
    cases h with
    | again hpc =>
      exact ⟨by simp [workLeft, childWork, signalWork, hpc, ParentPc.work], hkeep _,
        Or.inr ⟨rfl, rfl, by simp [nextAction]⟩⟩
    | pass hpc _ =>
      exact ⟨by simp [workLeft, childWork, signalWork, hpc, ParentPc.work], hkeep _,
        Or.inr ⟨rfl, rfl, by simp [nextAction]⟩⟩
    | pollDone hpc _ =>
      exact ⟨by simp [workLeft, childWork, signalWork, hpc, ParentPc.work], hkeep _,
        Or.inr ⟨rfl, rfl, by simp [nextAction]⟩⟩
  | parent =>
    obtain ⟨-, hnobody⟩ := hwork
    cases h with
    | again hpc =>
      simp only [hpc] at hnobody
      refine ⟨by simp [workLeft, childWork, signalWork, hpc, ParentPc.work],
        ⟨hidle, hnobody⟩, Or.inl ?_⟩
      simp [pollsLeft, hpc]
    | @pass i allGone pid hpc hpid =>
      simp only [hpc] at hnobody
      refine ⟨by simp [workLeft, childWork, signalWork, hpc, ParentPc.work],
        ⟨hidle, hnobody⟩, Or.inl ?_⟩
      have hlen := hledger.started (by rw [hpc]; rfl)
      have hi : i < numWorkers := hlen ▸ (List.getElem?_eq_some_iff.mp hpid).1
      cases allGone with
      | true =>
        simp only [pollsLeft, hpc, hnobody pid, ne_eq, not_false_eq_true, decide_true,
            Bool.and_true]
        omega
      | false =>
        simp only [pollsLeft, hpc, Bool.false_and]
        omega
    | @pollDone i hpc hover =>
      simp only [hpc] at hnobody
      refine ⟨by simp [workLeft, childWork, signalWork, hpc, ParentPc.work],
        ⟨hidle, hnobody⟩, Or.inl ?_⟩
      simp only [pollsLeft, hpc]
      omega

/-! ### Every fair run ends -/

/-- Once no signals from outside arrive, the parent gets to an end. -/
theorem quietRun_ends (hn : numWorkers ≤ maxWorkers) (r : (parent numWorkers).FairRun duties)
    {k : ℕ} (husr : ∀ m ≥ k, r.action m ≠ some .usr1) (hint : ∀ m ≥ k, r.action m ≠ some .sigint) :
    ∃ m, Ended (r.state m) := by
  have hledger : ∀ m, Ledger numWorkers (r.state m) := fun m => ledger_reachable hn (r.reachable m)
  have hawaiting : ∀ m, Awaiting numWorkers (r.state m) :=
    fun m => awaiting_reachable hn (r.reachable m)
  have hprogress : (r.drop k).Progress Ended (workLeft numWorkers) HasWork
      (nextAction numWorkers) (pollsLeft numWorkers) := by
    constructor
    · intro m hend
      exact some_hasWork (hledger (k + m)) (hawaiting (k + m)) hend
    · intro m p hwork
      exact nextAction_enabled (hledger (k + m)) hwork
    · intro m a p ha hwork
      have hstep := r.moves (k + m) a ha
      have hquiet : a ≠ .usr1 ∧ a ≠ .sigint := by
        constructor
        · rintro rfl
          exact husr (k + m) (Nat.le_add_right k m) ha
        · rintro rfl
          exact hint (k + m) (Nat.le_add_right k m) ha
      rcases transition_work (hledger (k + m)) hstep hquiet.1 hquiet.2 with hlt | ⟨rfl, hpolled⟩
      · exact Or.inl hlt
      · exact Or.inr (hpolled.keeps (hledger (k + m)) hwork)
  obtain ⟨m, hend⟩ := hprogress.reaches
  exact ⟨k + m, hend⟩

/-! ### How it ends -/

theorem no_forkFailed_step {s s' : ParentState} {a : ParentAction} (hpc : s.pc ≠ .forkFailed)
    (ha : a ≠ .forkFails) (hs : parentTransition numWorkers s a = some s') :
    s'.pc ≠ .forkFailed := by
  cases a with
  | forkFails => exact absurd rfl ha
  | step => exact (parentStep_pc hs).1
  | fork pid =>
    obtain ⟨w, -, -, -, rfl⟩ := fork_inv hs
    simp
  | reap pid =>
    obtain ⟨-, st, -, rfl⟩ := reap_inv hs
    exact hpc
  | usr1 | sigint =>
    simp only [parentTransition, Option.some.injEq] at hs
    exact hs ▸ hpc
  | deadlinePasses =>
    simp only [parentTransition, Option.ite_none_right_eq_some, Option.some.injEq] at hs
    obtain ⟨-, rfl⟩ := hs
    simp
  | exit | handlerReturns =>
    simp only [parentTransition, Option.ite_none_right_eq_some, Option.some.injEq] at hs
    obtain ⟨-, rfl⟩ := hs
    exact hpc
  | deliverChld | deliverUsr1 | deliverInt =>
    simp only [parentTransition, Option.ite_none_right_eq_some, Option.some.injEq] at hs
    obtain ⟨⟨hun, -⟩, rfl⟩ := hs
    have hstarted := (unblocked_spec (afterDelivery_spec hun).1).2.1
    intro hfailed
    have hturn : s.pc.afterDelivery = .forkFailed := hfailed
    rw [hturn] at hstarted
    cases hstarted

theorem no_forkFailed {tr : List (ParentState × ParentAction)} {s : ParentState}
    (h : (parent numWorkers).Execution tr s) (hforks : ∀ p ∈ tr, p.2 ≠ .forkFails) :
    s.pc ≠ .forkFailed := by
  induction h with
  | start => simp [parent, parentInit]
  | @next tr s s' a prior hs ih =>
    have ha : a ≠ .forkFails := hforks (s, a) (by simp)
    exact no_forkFailed_step (ih fun p hp => hforks p (by simp [hp])) ha hs

/-- One result for each worker, with the status it exited with. -/
structure Complete (n : ℕ) (s : ParentState) : Prop where
  forked : s.childPids.length = n
  onceEach : (s.workerResults.map (·.workerPid)).Perm s.childPids
  status : ∀ r ∈ s.workerResults, ∃ st, s.proc r.workerPid = .reaped st ∧
    r.matchCount = st.exitCode

theorem complete_of_finished {s : ParentState} (h : Ledger numWorkers s) (hpc : s.pc = .finished) :
    Complete numWorkers s where
  forked := h.started (by rw [hpc]; rfl)
  onceEach := h.results_perm hpc
  status := h.results_status hpc

/-- Under weak fairness of the workers, the kernel and the parent itself, the program
ends once no signals from outside arrive: with the results of all workers, or by a
shutdown that a `SIGINT` has asked for, or because a fork has failed. -/
theorem fairRun_parentEnds (hn : numWorkers ≤ maxWorkers)
    (r : (parent numWorkers).FairRun duties) {k : ℕ}
    (husr : ∀ m ≥ k, r.action m ≠ some .usr1) (hint : ∀ m ≥ k, r.action m ≠ some .sigint) :
    ∃ m, ((r.state m).pc = .finished ∧ Complete numWorkers (r.state m)) ∨
      ((r.state m).pc = .interrupted ∧ ∃ j < m, r.action j = some .sigint) ∨
      ((r.state m).pc = .forkFailed ∧ ∃ j < m, r.action j = some .forkFails) := by
  obtain ⟨m, hend⟩ := quietRun_ends hn r husr hint
  obtain ⟨tr, htr, hsteps⟩ := r.execution m
  apply Exists.intro m
  rcases hend with hpc | hpc | hpc
  · exact Or.inl ⟨hpc, complete_of_finished (ledger_reachable hn (r.reachable m)) hpc⟩
  · refine Or.inr (Or.inl ⟨hpc, ?_⟩)
    by_contra hnone
    push Not at hnone
    have hquiet : ∀ p ∈ tr, p.2 ≠ .sigint := by
      intro p hp heq
      obtain ⟨j, hj, -, hact⟩ := (hsteps p).mp hp
      exact hnone j hj (heq ▸ hact)
    have hterm := (undisturbed_execution htr hquiet).pc
    rw [hpc] at hterm
    cases hterm
  · refine Or.inr (Or.inr ⟨hpc, ?_⟩)
    by_contra hnone
    push Not at hnone
    refine no_forkFailed htr ?_ hpc
    intro p hp heq
    obtain ⟨j, hj, -, hact⟩ := (hsteps p).mp hp
    exact hnone j hj (heq ▸ hact)

/-! ### A run to the end -/

theorem rest_of_finished {s : ParentState} (h : Ledger numWorkers s) (hpc : s.pc = .finished) :
    ∀ a ∈ duties, parentTransition numWorkers s a = none := by
  have hidle := h.idle (by rw [hpc]; rfl)
  intro a ha
  cases a with
  | fork | step | deliverChld | reap | handlerReturns =>
    simp [parentTransition, parentStep, hpc, hidle, ParentPc.unblocked]
  | exit pid status =>
    have hrun : s.proc pid ≠ .running := by
      intro hrun
      have hchild := h.mem_children (by rw [hrun]; simp : s.proc pid ≠ .free)
      obtain ⟨st, hst⟩ := h.settled (by rw [hpc]; rfl) pid hchild
      rw [hst] at hrun
      cases hrun
    simp [parentTransition, hrun]
  | forkFails | deadlinePasses | usr1 | sigint | deliverUsr1 | deliverInt => exact ha.elim

theorem fairRun_coalescedExits : ∃ r : (parent 2).FairRun duties, ∃ m,
    (r.state m).pc = .finished ∧ Complete 2 (r.state m) := by
  have hrun := (Option.some_get coalescedExits_isSome).symm
  have hreach := (Machine.execution_of_isSome coalescedExits_isSome).reachable
  have hrest := rest_of_finished (ledger_reachable (by decide) hreach) (by decide)
  have hlater : ∀ m ≥ coalescedExits.length, ∀ a,
      (Machine.FairRun.ofScript coalescedExits _ hrun hrest).action m ≠ some a := by
    intro m hm a hact
    have hnone : coalescedExits[m]? = none := List.getElem?_eq_none_iff.mpr hm
    cases hnone.symm.trans hact
  have hscript : ∀ a ∈ coalescedExits, a ≠ .sigint ∧ a ≠ .forkFails := by
    simp [coalescedExits]
  obtain ⟨m, hfinished | ⟨-, j, -, hact⟩ | ⟨-, j, -, hact⟩⟩ := fairRun_parentEnds (by decide)
    (Machine.FairRun.ofScript coalescedExits _ hrun hrest) (fun m hm => hlater m hm .usr1)
    (fun m hm => hlater m hm .sigint)
  · exact ⟨_, m, hfinished⟩
  · exact absurd rfl (hscript _ (List.mem_of_getElem? hact)).1
  · exact absurd rfl (hscript _ (List.mem_of_getElem? hact)).2

end SysProg.HW2

import SysProg.HW2.Parent

/-!
# Every worker is reaped and counted once

A worker that has exited and is not reaped has left a pending `SIGCHLD`, or the
handler is still running; so `sigsuspend` never waits for a signal that has
come and gone. The loop ends when as many workers are recorded as were forked.
-/

namespace SysProg.HW2
open SysProg.Lib
variable {numWorkers : ℕ}

namespace ParentPc

def started : ParentPc → Bool
  | .forking _ | .forkFailed => false
  | _ => true

def terminating : ParentPc → Bool
  | .sigterm _ | .deadline | .polling _ _ | .sigkill _ | .draining | .interrupted => true
  | _ => false

def pastLoop : ParentPc → Bool
  | .unmasked | .recount | .finalWait _ | .finished => true
  | _ => false

def counted : ParentPc → Bool
  | .finalWait _ | .finished => true
  | _ => false

end ParentPc

structure Recorded (s : ParentState) : Prop where
  nodup : (s.reaped.map Prod.fst).Nodup
  mem : ∀ pid st, (pid, st) ∈ s.reaped ↔ s.proc pid = .reaped st

def resultOf (x : ℕ × WaitStatus) : WorkerResult := ⟨x.1, x.2.exitCode⟩

structure Ledger (numWorkers : ℕ) (s : ParentState) : Prop where
  nodup : s.childPids.Nodup
  known : ∀ pid, pid ∈ s.childPids ↔ s.proc pid ≠ .free
  forking : ∀ w, s.pc = .forking w → s.childPids.length = w ∧ w ≤ numWorkers ∧ s.reaped = []
  started : s.pc.started = true → s.childPids.length = numWorkers
  handler : s.inHandler = true → s.pc.unblocked = true
  record : s.pc.terminating = false → Recorded s
  alarm : s.pc.terminating = false → (∃ pid, (s.proc pid).isZombie = true) →
    s.chldPending = true ∨ s.inHandler = true
  settled : s.pc.pastLoop = true → ∀ pid ∈ s.childPids, ∃ st, s.proc pid = .reaped st
  counted : s.pc.counted = true → s.workerResults = s.reaped.map resultOf

theorem ledger_init : Ledger numWorkers parentInit where
  nodup := List.nodup_nil
  known := by simp [parentInit]
  forking := by simp [parentInit]
  started := by simp [parentInit, ParentPc.started]
  handler := by simp [parentInit]
  record _ := ⟨by simp [parentInit], by simp [parentInit]⟩
  alarm := by simp [parentInit, Proc.isZombie]
  settled := by simp [parentInit, ParentPc.pastLoop]
  counted := by simp [parentInit, ParentPc.counted]

theorem Ledger.of_pc {s s' : ParentState} (h : Ledger numWorkers s) (hproc : s'.proc = s.proc)
    (hchildren : s'.childPids = s.childPids) (hreaped : s'.reaped = s.reaped)
    (hhandler : s'.inHandler = s.inHandler) (hpending : s'.chldPending = s.chldPending)
    (hforking : ∀ w, s'.pc = .forking w → s.pc = .forking w)
    (hstarted : s'.pc.started = true → s.childPids.length = numWorkers)
    (hunblocked : s.inHandler = true → s'.pc.unblocked = true)
    (hterminating : s'.pc.terminating = false → s.pc.terminating = false)
    (hpast : s'.pc.pastLoop = true → ∀ pid ∈ s.childPids, ∃ st, s.proc pid = .reaped st)
    (hcounted : s'.pc.counted = true → s'.workerResults = s.reaped.map resultOf) :
    Ledger numWorkers s' where
  nodup := by rw [hchildren]; exact h.nodup
  known := by rw [hchildren, hproc]; exact h.known
  forking := by
    intro w hw
    rw [hchildren, hreaped]
    exact h.forking w (hforking w hw)
  started := by rw [hchildren]; exact hstarted
  handler := by rw [hhandler]; exact hunblocked
  record := by
    intro ht
    obtain ⟨hnodup, hmem⟩ := h.record (hterminating ht)
    exact ⟨by rw [hreaped]; exact hnodup, by rw [hreaped, hproc]; exact hmem⟩
  alarm := by
    intro ht
    rw [hproc, hpending, hhandler]
    exact h.alarm (hterminating ht)
  settled := by rw [hchildren, hproc]; exact hpast
  counted := by rw [hreaped]; exact hcounted

theorem Recorded.reaped_subset {s : ParentState} (h : Recorded s)
    (hknown : ∀ pid, pid ∈ s.childPids ↔ s.proc pid ≠ .free) :
    ∀ pid ∈ s.reaped.map Prod.fst, pid ∈ s.childPids := by
  intro pid hpid
  obtain ⟨⟨q, st⟩, hmem, rfl⟩ := List.mem_map.mp hpid
  rw [hknown, (h.mem q st).mp hmem]
  simp

/-- As many records as children: every child is recorded. -/
theorem Ledger.all_reaped {s : ParentState} (h : Ledger numWorkers s)
    (hterm : s.pc.terminating = false) (hstarted : s.pc.started = true)
    (hlen : numWorkers ≤ s.reaped.length) :
    (s.reaped.map Prod.fst).Perm s.childPids := by
  have hrecord := h.record hterm
  have hsub : (s.reaped.map Prod.fst).Subperm s.childPids :=
    hrecord.nodup.subperm (hrecord.reaped_subset h.known)
  refine hsub.perm_of_length_le ?_
  rw [h.started hstarted, List.length_map]
  exact hlen

theorem Ledger.settled_of_perm {s : ParentState} (h : Ledger numWorkers s)
    (hterm : s.pc.terminating = false) (hperm : (s.reaped.map Prod.fst).Perm s.childPids) :
    ∀ pid ∈ s.childPids, ∃ st, s.proc pid = .reaped st := by
  intro pid hpid
  obtain ⟨⟨q, st⟩, hmem, rfl⟩ := List.mem_map.mp (hperm.mem_iff.mpr hpid)
  exact ⟨st, ((h.record hterm).mem q st).mp hmem⟩

theorem foldl_addResult {childPids : List ℕ} {xs : List (ℕ × WaitStatus)}
    {results : List WorkerResult} (hknown : ∀ x ∈ xs, x.1 ∈ childPids)
    (hroom : results.length + xs.length ≤ maxWorkers) :
    xs.foldl (addResult childPids) results = results ++ xs.map resultOf := by
  induction xs generalizing results with
  | nil => simp
  | cons x xs ih =>
    simp only [List.length_cons] at hroom
    have hadd : addResult childPids results x = results ++ [resultOf x] :=
      if_pos ⟨hknown x List.mem_cons_self, by omega⟩
    rw [List.foldl_cons, hadd, ih (fun y hy => hknown y (List.mem_cons_of_mem _ hy))]
    · simp
    · simp only [List.length_append, List.length_singleton]
      omega

/-! ### What one step preserves -/

theorem Ledger.of_terminating {s s' : ParentState} (h : Ledger numWorkers s)
    (hterm : s.pc.terminating = true) (hchildren : s'.childPids = s.childPids)
    (hhandler : s'.inHandler = s.inHandler)
    (hproc : ∀ pid, s'.proc pid = .free ↔ s.proc pid = .free)
    (hterm' : s'.pc.terminating = true) : Ledger numWorkers s' := by
  have hidle : s.inHandler ≠ true := by
    intro hin
    have hun := h.handler hin
    cases hpc : s.pc <;> simp [hpc, ParentPc.unblocked, ParentPc.terminating] at hun hterm
  have hlen : s.childPids.length = numWorkers := by
    refine h.started ?_
    cases hpc : s.pc <;> simp [hpc, ParentPc.started, ParentPc.terminating] at hterm ⊢
  refine ⟨hchildren ▸ h.nodup, ?_, ?_, fun _ => hchildren ▸ hlen, ?_, ?_, ?_, ?_, ?_⟩
  · intro pid
    rw [hchildren, h.known, ne_eq, ne_eq, hproc]
  · intro w hw
    simp [hw, ParentPc.terminating] at hterm'
  · intro hin
    exact absurd (hhandler ▸ hin) hidle
  · intro hfalse
    simp [hfalse] at hterm'
  · intro hfalse
    simp [hfalse] at hterm'
  · intro hpast
    cases hpc : s'.pc <;> simp [hpc, ParentPc.pastLoop, ParentPc.terminating] at hpast hterm'
  · intro hcount
    cases hpc : s'.pc <;> simp [hpc, ParentPc.counted, ParentPc.terminating] at hcount hterm'

theorem waitpidNohang_frame (s : ParentState) (pid : ℕ) :
    (waitpidNohang s pid).1.childPids = s.childPids ∧
      (waitpidNohang s pid).1.inHandler = s.inHandler ∧ (waitpidNohang s pid).1.pc = s.pc ∧
      ∀ q, (waitpidNohang s pid).1.proc q = .free ↔ s.proc q = .free := by
  unfold waitpidNohang
  split
  · exact ⟨rfl, rfl, rfl, fun _ => Iff.rfl⟩
  · rename_i st hzombie
    refine ⟨rfl, rfl, rfl, ?_⟩
    intro q
    by_cases hq : q = pid
    · subst hq
      simp [ParentState.setProc, hzombie]
    · simp [ParentState.setProc, Function.update_of_ne hq]
  · exact ⟨rfl, rfl, rfl, fun _ => Iff.rfl⟩

theorem ledger_fork {s s' : ParentState} {pid : ℕ} (h : Ledger numWorkers s)
    (hs : parentTransition numWorkers s (.fork pid) = some s') : Ledger numWorkers s' := by
  obtain ⟨w, hpc, hw, hunused, rfl⟩ := fork_inv hs
  obtain ⟨hlen, -, hreaped⟩ := h.forking w hpc
  have hrecord := h.record (by rw [hpc]; rfl)
  have hnone : ∀ q st, s.proc q ≠ .reaped st := by
    intro q st hq
    simpa [hreaped] using (hrecord.mem q st).mpr hq
  -- nothing is reaped while the workers are forked, so an unused pid is a new one
  have hfree : s.proc pid = .free := by
    cases hproc : s.proc pid with
    | free => rfl
    | running | zombie => simp [hproc, Proc.inUse] at hunused
    | reaped st => exact absurd hproc (hnone pid st)
  have hnew : pid ∉ s.childPids := by simp [h.known, hfree]
  refine ⟨?_, ?_, ?_, ?_, ?_, ?_, ?_, ?_, ?_⟩
  · exact List.nodup_append_comm.mp (List.nodup_cons.mpr ⟨hnew, h.nodup⟩)
  · intro q
    by_cases hq : q = pid
    · subst hq
      simp [ParentState.setProc]
    · simp [ParentState.setProc, hq, h.known]
  · intro w' hw'
    cases hw'
    refine ⟨by simp [hlen], hw, hreaped⟩
  · intro hstart
    cases hstart
  · intro hin
    have hun := h.handler hin
    rw [hpc] at hun
    cases hun
  · intro _
    refine ⟨hrecord.nodup, ?_⟩
    intro q st
    by_cases hq : q = pid
    · subst hq
      simp [ParentState.setProc, hreaped]
    · simpa [ParentState.setProc, Function.update_of_ne hq] using hrecord.mem q st
  · rintro - ⟨q, hzombie⟩
    refine h.alarm (by rw [hpc]; rfl) ⟨q, ?_⟩
    by_cases hq : q = pid
    · subst hq
      simp [ParentState.setProc, Proc.isZombie] at hzombie
    · simpa [ParentState.setProc, Function.update_of_ne hq] using hzombie
  · intro hpast
    cases hpast
  · intro hcount
    cases hcount

theorem ledger_exit {s s' : ParentState} {pid : ℕ} {status : WaitStatus} (h : Ledger numWorkers s)
    (hs : parentTransition numWorkers s (.exit pid status) = some s') : Ledger numWorkers s' := by
  simp only [parentTransition, Option.ite_none_right_eq_some, Option.some.injEq] at hs
  obtain ⟨hrun, rfl⟩ := hs
  have hother : ∀ {q : ℕ} {st : WaitStatus},
      Function.update s.proc pid (.zombie status) q = .reaped st ↔ s.proc q = .reaped st := by
    intro q st
    by_cases hq : q = pid
    · subst hq
      simp [hrun]
    · rw [Function.update_of_ne hq]
  refine ⟨h.nodup, ?_, h.forking, h.started, h.handler, ?_, fun _ _ => .inl rfl, ?_, h.counted⟩
  · intro q
    by_cases hq : q = pid
    · subst hq
      simp [ParentState.setProc, h.known, hrun]
    · simpa [ParentState.setProc, Function.update_of_ne hq] using h.known q
  · intro hterm
    obtain ⟨hnodup, hmem⟩ := h.record hterm
    exact ⟨hnodup, fun q st => (hmem q st).trans hother.symm⟩
  · intro hpast q hq
    obtain ⟨st, hst⟩ := h.settled hpast q hq
    exact ⟨st, hother.mpr hst⟩

theorem unblocked_spec {pc : ParentPc} (h : pc.unblocked = true) :
    pc.terminating = false ∧ pc.started = true ∧ pc.counted = false ∧ (∀ w, pc ≠ .forking w) := by
  cases pc <;> simp [ParentPc.unblocked] at h <;>
    simp [ParentPc.terminating, ParentPc.started, ParentPc.counted]

theorem ledger_reap (hn : numWorkers ≤ maxWorkers) {s s' : ParentState} {pid : ℕ}
    (h : Ledger numWorkers s) (hs : parentTransition numWorkers s (.reap pid) = some s') :
    Ledger numWorkers s' := by
  obtain ⟨hin, st, hzombie, rfl⟩ := reap_inv hs
  obtain ⟨hterm, hstarted, hcounted, hforking⟩ := unblocked_spec (h.handler hin)
  have hrecord := h.record hterm
  have hnew : pid ∉ s.reaped.map Prod.fst := by
    intro hmem
    obtain ⟨⟨q, st'⟩, hq, rfl⟩ := List.mem_map.mp hmem
    rw [(hrecord.mem q st').mp hq] at hzombie
    cases hzombie
  have hchild : pid ∈ s.childPids := by simp [h.known, hzombie]
  have hnodup : ((s.reaped ++ [(pid, st)]).map Prod.fst).Nodup := by
    rw [List.map_append]
    exact List.nodup_append_comm.mp (List.nodup_cons.mpr ⟨hnew, hrecord.nodup⟩)
  have hroom : s.reaped.length < maxWorkers := by
    have hsub : ((s.reaped ++ [(pid, st)]).map Prod.fst).Subperm s.childPids := by
      refine hnodup.subperm ?_
      intro q hq
      rw [List.map_append, List.mem_append] at hq
      rcases hq with hq | hq
      · exact hrecord.reaped_subset h.known q hq
      · obtain rfl := List.mem_singleton.mp hq
        exact hchild
    have hle := hsub.length_le
    simp only [List.length_map, List.length_append, List.length_singleton,
      h.started hstarted] at hle
    omega
  rw [if_pos hroom]
  refine ⟨h.nodup, ?_, fun w hw => absurd hw (hforking w), h.started, h.handler, ?_,
    fun _ _ => .inr hin, ?_, ?_⟩
  · intro q
    by_cases hq : q = pid
    · subst hq
      simp [ParentState.setProc, hchild]
    · simpa [ParentState.setProc, Function.update_of_ne hq] using h.known q
  · intro _
    refine ⟨hnodup, ?_⟩
    intro q st'
    by_cases hq : q = pid
    · subst hq
      have hold : (q, st') ∉ s.reaped := fun hmem => hnew (List.mem_map_of_mem hmem)
      simp [ParentState.setProc, hold, eq_comm]
    · simpa [ParentState.setProc, Function.update_of_ne hq, hq] using hrecord.mem q st'
  · intro hpast q hq
    obtain ⟨st', hst'⟩ := h.settled hpast q hq
    by_cases hqp : q = pid
    · subst hqp
      exact ⟨st, by simp [ParentState.setProc]⟩
    · exact ⟨st', by simpa [ParentState.setProc, Function.update_of_ne hqp] using hst'⟩
  · intro hcount
    simp [ParentState.setProc, hcounted] at hcount

/-- The handler leaves only when `waitpid` finds nobody, so what exits later is pending. -/
theorem ledger_handlerReturns {s s' : ParentState} (h : Ledger numWorkers s)
    (hs : parentTransition numWorkers s .handlerReturns = some s') : Ledger numWorkers s' := by
  simp only [parentTransition, Option.ite_none_right_eq_some, Option.some.injEq] at hs
  obtain ⟨⟨hin, hnobody⟩, rfl⟩ := hs
  refine ⟨h.nodup, h.known, h.forking, h.started, ?_, ?_, ?_, h.settled, h.counted⟩
  · intro hfalse
    cases hfalse
  · intro hterm
    exact ⟨(h.record hterm).nodup, (h.record hterm).mem⟩
  · rintro - ⟨pid, hzombie⟩
    have hchild : pid ∈ s.childPids := by
      rw [h.known]
      intro hfree
      rw [hfree] at hzombie
      cases hzombie
    have hno := List.all_eq_true.mp hnobody pid hchild
    rw [hzombie] at hno
    cases hno

theorem afterDelivery_spec {pc : ParentPc} (h : pc.unblocked = true) :
    pc.afterDelivery.unblocked = true ∧ pc.afterDelivery.pastLoop = pc.pastLoop := by
  cases pc <;> simp [ParentPc.unblocked] at h <;>
    simp [ParentPc.afterDelivery, ParentPc.unblocked, ParentPc.pastLoop]

theorem Ledger.of_delivery {s s' : ParentState} (h : Ledger numWorkers s)
    (hun : s.pc.unblocked = true) (hpc : s'.pc = s.pc.afterDelivery) (hproc : s'.proc = s.proc)
    (hchildren : s'.childPids = s.childPids) (hreaped : s'.reaped = s.reaped)
    (hhandler : s.inHandler = true → s'.inHandler = true)
    (hpending : s'.chldPending = s.chldPending ∨ s'.inHandler = true) : Ledger numWorkers s' := by
  obtain ⟨hterm, hstarted, -, -⟩ := unblocked_spec hun
  obtain ⟨hun', hpast⟩ := afterDelivery_spec hun
  obtain ⟨-, -, hcounted', hforking'⟩ := unblocked_spec hun'
  refine ⟨hchildren ▸ h.nodup, ?_, ?_, fun _ => hchildren ▸ h.started hstarted, ?_, ?_, ?_, ?_, ?_⟩
  · rw [hchildren, hproc]
    exact h.known
  · intro w hw
    exact absurd (hpc ▸ hw) (hforking' w)
  · intro _
    rw [hpc]
    exact hun'
  · intro _
    obtain ⟨hnodup, hmem⟩ := h.record hterm
    exact ⟨hreaped ▸ hnodup, by rw [hreaped, hproc]; exact hmem⟩
  · intro _ hzombie
    rw [hproc] at hzombie
    rcases hpending with hpending | hin
    · rw [hpending]
      exact (h.alarm hterm hzombie).imp id hhandler
    · exact .inr hin
  · rw [hpc, hpast, hchildren, hproc]
    exact h.settled
  · intro hcount
    rw [hpc, hcounted'] at hcount
    cases hcount

theorem Ledger.advance {s s' : ParentState} (h : Ledger numWorkers s) (hproc : s'.proc = s.proc)
    (hchildren : s'.childPids = s.childPids) (hreaped : s'.reaped = s.reaped)
    (hhandler : s'.inHandler = s.inHandler) (hpending : s'.chldPending = s.chldPending)
    (hidle : s.inHandler = false) (hstarted : s.pc.started = true)
    (hstarted' : s'.pc.started = true)
    (hterm : s.pc.terminating = false)
    (hpast : s'.pc.pastLoop = true → ∀ pid ∈ s.childPids, ∃ st, s.proc pid = .reaped st)
    (hcounted : s'.pc.counted = true → s'.workerResults = s.reaped.map resultOf) :
    Ledger numWorkers s' := by
  refine h.of_pc hproc hchildren hreaped hhandler hpending ?_ (fun _ => h.started hstarted) ?_
    (fun _ => hterm) hpast hcounted
  · intro w hw
    rw [hw] at hstarted'
    cases hstarted'
  · intro hin
    rw [hidle] at hin
    cases hin

theorem Ledger.idle {s : ParentState} (h : Ledger numWorkers s) (hun : s.pc.unblocked = false) :
    s.inHandler = false := by
  cases hin : s.inHandler with
  | false => rfl
  | true =>
    rw [h.handler hin] at hun
    cases hun

theorem ledger_forked {s s' : ParentState} {w : ℕ} (h : Ledger numWorkers s)
    (hpc : s.pc = .forking w) (hs : parentStep numWorkers s = some s') : Ledger numWorkers s' := by
  simp only [parentStep, hpc, Option.ite_none_right_eq_some, Option.some.injEq] at hs
  obtain ⟨rfl, rfl⟩ := hs
  have hidle := h.idle (by rw [hpc]; rfl)
  refine h.of_pc rfl rfl rfl rfl rfl (by simp) (fun _ => (h.forking w hpc).1) ?_ ?_
    (by simp [ParentPc.pastLoop]) (by simp [ParentPc.counted])
  · intro hin
    rw [hidle] at hin
    cases hin
  · intro _
    rw [hpc]
    rfl

theorem ledger_test {s s' : ParentState} (h : Ledger numWorkers s) (hpc : s.pc = .test)
    (hs : parentStep numWorkers s = some s') : Ledger numWorkers s' := by
  simp only [parentStep, hpc, Option.some.injEq] at hs
  subst hs
  have hterm : s.pc.terminating = false := by rw [hpc]; rfl
  have hstarted : s.pc.started = true := by rw [hpc]; rfl
  refine h.advance rfl rfl rfl rfl rfl (h.idle (by rw [hpc]; rfl)) hstarted ?_ hterm ?_ ?_
  · split_ifs <;> rfl
  · intro hpast
    split_ifs at hpast with hless
    · cases hpast
    · exact h.settled_of_perm hterm (h.all_reaped hterm hstarted (not_lt.mp hless))
  · intro hcount
    split_ifs at hcount <;> cases hcount

theorem ledger_recount (hn : numWorkers ≤ maxWorkers) {s s' : ParentState}
    (h : Ledger numWorkers s) (hpc : s.pc = .recount) (hs : parentStep numWorkers s = some s') :
    Ledger numWorkers s' := by
  simp only [parentStep, hpc, Option.some.injEq] at hs
  subst hs
  have hrecord := h.record (by rw [hpc]; rfl)
  have hstarted : s.pc.started = true := by rw [hpc]; rfl
  refine h.advance rfl rfl rfl rfl rfl (h.idle (by rw [hpc]; rfl)) hstarted rfl (by rw [hpc]; rfl)
    (fun _ => h.settled (by rw [hpc]; rfl)) ?_
  intro _
  have hsub := hrecord.nodup.subperm (hrecord.reaped_subset h.known)
  have hlen := hsub.length_le
  rw [List.length_map, h.started hstarted] at hlen
  refine foldl_addResult ?_ ?_
  · intro x hx
    exact hrecord.reaped_subset h.known _ (List.mem_map_of_mem hx)
  · simp only [List.length_nil]
    omega

theorem ledger_finalWait {s s' : ParentState} {i : ℕ} (h : Ledger numWorkers s)
    (hpc : s.pc = .finalWait i) (hs : parentStep numWorkers s = some s') :
    Ledger numWorkers s' := by
  have hsettled := h.settled (by rw [hpc]; rfl)
  have hcounted := h.counted (by rw [hpc]; rfl)
  have hmove : ∀ pc : ParentPc, pc.started = true → Ledger numWorkers { s with pc := pc } := by
    intro pc hstarted
    exact h.advance rfl rfl rfl rfl rfl (h.idle (by rw [hpc]; rfl)) (by rw [hpc]; rfl) hstarted
      (by rw [hpc]; rfl) (fun _ => hsettled) (fun _ => hcounted)
  simp only [parentStep, hpc] at hs
  split at hs
  · cases hs
    exact hmove _ rfl
  · rename_i pid hpid
    obtain ⟨st, hst⟩ := hsettled pid (List.mem_of_getElem? hpid)
    simp only [hst] at hs
    split_ifs at hs
    · cases hs
      exact hmove _ rfl
    · cases hs
      exact hmove _ rfl

theorem ledger_terminating {s s' : ParentState} (h : Ledger numWorkers s)
    (hterm : s.pc.terminating = true) (hs : parentStep numWorkers s = some s') :
    Ledger numWorkers s' := by
  have hmove : ∀ pc : ParentPc, pc.terminating = true → Ledger numWorkers { s with pc := pc } :=
    fun pc hpc => h.of_terminating hterm rfl rfl (fun _ => Iff.rfl) hpc
  have hwait : ∀ (pid : ℕ) (pc : ParentPc), pc.terminating = true →
      Ledger numWorkers { (waitpidNohang s pid).1 with pc := pc } := by
    intro pid pc hpc
    obtain ⟨hchildren, hhandler, -, hproc⟩ := waitpidNohang_frame s pid
    exact h.of_terminating hterm hchildren hhandler hproc hpc
  cases hpc : s.pc with
  | sigterm i | sigkill i =>
    simp only [parentStep, hpc, Option.some.injEq] at hs
    subst hs
    refine hmove _ ?_
    split_ifs <;> rfl
  | deadline =>
    simp only [parentStep, hpc, Option.some.injEq] at hs
    subst hs
    exact hmove _ rfl
  | polling i allGone =>
    simp only [parentStep, hpc] at hs
    split at hs
    · cases hs
      exact hwait _ _ rfl
    · cases hs
      refine hmove _ ?_
      split_ifs <;> rfl
  | draining =>
    simp only [parentStep, hpc] at hs
    split at hs
    · rename_i pid hpid
      cases hs
      have hkeep := hwait pid s.pc hterm
      rwa [← (waitpidNohang_frame s pid).2.2.1] at hkeep
    · cases hs
      exact hmove _ rfl
  | interrupted => simp [parentStep, hpc] at hs
  | forking | forkFailed | test | checkInt | checkChld | suspended | unmasked | recount | finalWait
  | finished => simp [hpc, ParentPc.terminating] at hterm

theorem ledger_parentStep (hn : numWorkers ≤ maxWorkers) {s s' : ParentState}
    (h : Ledger numWorkers s) (hs : parentStep numWorkers s = some s') : Ledger numWorkers s' := by
  cases hpc : s.pc with
  | forking w => exact ledger_forked h hpc hs
  | test => exact ledger_test h hpc hs
  | recount => exact ledger_recount hn h hpc hs
  | finalWait i => exact ledger_finalWait h hpc hs
  | checkInt =>
    simp only [parentStep, hpc, Option.some.injEq] at hs
    subst hs
    refine h.advance rfl rfl rfl rfl rfl (h.idle (by rw [hpc]; rfl)) (by rw [hpc]; rfl) ?_
      (by rw [hpc]; rfl) ?_ ?_
    all_goals split_ifs <;> simp [ParentPc.started, ParentPc.pastLoop, ParentPc.counted]
  | checkChld =>
    have hidle := h.idle (by rw [hpc]; rfl)
    simp only [parentStep, hpc] at hs
    split_ifs at hs
    · cases hs
      exact h.advance rfl rfl rfl rfl rfl hidle (by rw [hpc]; rfl) rfl (by rw [hpc]; rfl)
        (by simp [ParentPc.pastLoop]) (by simp [ParentPc.counted])
    · cases hs
      exact h.advance rfl rfl rfl rfl rfl hidle (by rw [hpc]; rfl) rfl (by rw [hpc]; rfl)
        (by simp [ParentPc.pastLoop]) (by simp [ParentPc.counted])
  | suspended delivered =>
    simp only [parentStep, hpc, Option.ite_none_right_eq_some, Option.some.injEq] at hs
    obtain ⟨⟨-, hidle⟩, rfl⟩ := hs
    exact h.advance rfl rfl rfl rfl rfl (by simpa using hidle) (by rw [hpc]; rfl) rfl
      (by rw [hpc]; rfl) (by simp [ParentPc.pastLoop]) (by simp [ParentPc.counted])
  | unmasked =>
    simp only [parentStep, hpc, Option.ite_none_left_eq_some, Option.some.injEq] at hs
    obtain ⟨hidle, rfl⟩ := hs
    exact h.advance rfl rfl rfl rfl rfl (by simpa using hidle) (by rw [hpc]; rfl) rfl
      (by rw [hpc]; rfl) (fun _ => h.settled (by rw [hpc]; rfl)) (by simp [ParentPc.counted])
  | sigterm | deadline | polling | sigkill | draining | interrupted =>
    exact ledger_terminating h (by rw [hpc]; rfl) hs
  | forkFailed | finished => simp [parentStep, hpc] at hs

theorem ledger_step (hn : numWorkers ≤ maxWorkers) {s s' : ParentState} {a : ParentAction}
    (h : Ledger numWorkers s) (hs : parentTransition numWorkers s a = some s') :
    Ledger numWorkers s' := by
  cases a with
  | fork pid => exact ledger_fork h hs
  | step => exact ledger_parentStep hn h hs
  | exit pid status => exact ledger_exit h hs
  | reap pid => exact ledger_reap hn h hs
  | handlerReturns => exact ledger_handlerReturns h hs
  | forkFails =>
    obtain ⟨w, hpc, rfl⟩ := forkFails_inv hs
    have hidle := h.idle (by rw [hpc]; rfl)
    refine h.of_pc rfl rfl rfl rfl rfl (by simp) (by simp [ParentPc.started]) ?_ ?_
      (by simp [ParentPc.pastLoop]) (by simp [ParentPc.counted])
    · intro hin
      rw [hidle] at hin
      cases hin
    · intro _
      rw [hpc]
      rfl
  | deadlinePasses =>
    simp only [parentTransition, Option.ite_none_right_eq_some, Option.some.injEq] at hs
    obtain ⟨hpc, rfl⟩ := hs
    exact h.of_terminating (by rw [hpc]; rfl) rfl rfl (fun _ => Iff.rfl) rfl
  | usr1 | sigint =>
    simp only [parentTransition, Option.some.injEq] at hs
    subst hs
    exact ⟨h.nodup, h.known, h.forking, h.started, h.handler,
      fun ht => ⟨(h.record ht).nodup, (h.record ht).mem⟩, h.alarm, h.settled, h.counted⟩
  | deliverChld =>
    simp only [parentTransition, Option.ite_none_right_eq_some, Option.some.injEq] at hs
    obtain ⟨⟨hun, -, -⟩, rfl⟩ := hs
    exact h.of_delivery hun rfl rfl rfl rfl (fun _ => rfl) (.inr rfl)
  | deliverUsr1 | deliverInt =>
    simp only [parentTransition, Option.ite_none_right_eq_some, Option.some.injEq] at hs
    obtain ⟨⟨hun, -⟩, rfl⟩ := hs
    exact h.of_delivery hun rfl rfl rfl rfl id (.inl rfl)

theorem ledger_reachable (hn : numWorkers ≤ maxWorkers) {s : ParentState}
    (h : (parent numWorkers).Reachable s) : Ledger numWorkers s :=
  h.invariant ledger_init (fun _ _ _ _ hprior hs => ledger_step hn hprior hs)

/-! ### Runs without `SIGINT` -/

structure Undisturbed (s : ParentState) : Prop where
  pending : s.intPending = false
  received : s.sigintReceived = false
  pc : s.pc.terminating = false

theorem undisturbed_parentStep {s s' : ParentState} (h : Undisturbed s)
    (hs : parentStep numWorkers s = some s') : Undisturbed s' := by
  obtain ⟨hpending, hreceived, hterm⟩ := h
  cases hpc : s.pc with
  | forking w | suspended d | unmasked =>
    simp only [parentStep, hpc, Option.ite_none_right_eq_some, Option.ite_none_left_eq_some,
      Option.some.injEq] at hs
    obtain ⟨-, rfl⟩ := hs
    exact ⟨hpending, hreceived, rfl⟩
  | test =>
    simp only [parentStep, hpc, Option.some.injEq] at hs
    subst hs
    refine ⟨hpending, hreceived, ?_⟩
    split_ifs <;> rfl
  | checkInt =>
    simp only [parentStep, hpc, hreceived, Option.some.injEq] at hs
    subst hs
    exact ⟨hpending, rfl, rfl⟩
  | checkChld =>
    simp only [parentStep, hpc] at hs
    split_ifs at hs <;> cases hs <;> exact ⟨hpending, hreceived, rfl⟩
  | recount =>
    simp only [parentStep, hpc, Option.some.injEq] at hs
    subst hs
    exact ⟨hpending, hreceived, rfl⟩
  | finalWait i =>
    obtain rfl | rfl | ⟨pid, st, -, rfl⟩ := finalWait_inv hpc hs
    all_goals exact ⟨hpending, hreceived, rfl⟩
  | sigterm | deadline | polling | sigkill | draining | interrupted =>
    simp [hpc, ParentPc.terminating] at hterm
  | forkFailed | finished => simp [parentStep, hpc] at hs

theorem undisturbed_step {s s' : ParentState} {a : ParentAction} (h : Undisturbed s)
    (ha : a ≠ .sigint) (hs : parentTransition numWorkers s a = some s') : Undisturbed s' := by
  obtain ⟨hpending, hreceived, hterm⟩ := h
  cases a with
  | sigint => exact absurd rfl ha
  | step => exact undisturbed_parentStep ⟨hpending, hreceived, hterm⟩ hs
  | fork pid =>
    obtain ⟨w, -, -, -, rfl⟩ := fork_inv hs
    exact ⟨hpending, hreceived, rfl⟩
  | forkFails =>
    obtain ⟨w, -, rfl⟩ := forkFails_inv hs
    exact ⟨hpending, hreceived, rfl⟩
  | deadlinePasses =>
    simp only [parentTransition, Option.ite_none_right_eq_some, Option.some.injEq] at hs
    obtain ⟨hpc, rfl⟩ := hs
    rw [hpc] at hterm
    cases hterm
  | usr1 =>
    simp only [parentTransition, Option.some.injEq] at hs
    subst hs
    exact ⟨hpending, hreceived, hterm⟩
  | exit | handlerReturns =>
    simp only [parentTransition, Option.ite_none_right_eq_some, Option.some.injEq] at hs
    obtain ⟨-, rfl⟩ := hs
    exact ⟨hpending, hreceived, hterm⟩
  | deliverChld | deliverUsr1 =>
    simp only [parentTransition, Option.ite_none_right_eq_some, Option.some.injEq] at hs
    obtain ⟨⟨hun, -⟩, rfl⟩ := hs
    exact ⟨hpending, hreceived, (unblocked_spec (afterDelivery_spec hun).1).1⟩
  | deliverInt =>
    simp only [parentTransition, hpending] at hs
    simp at hs
  | reap pid =>
    obtain ⟨-, st, -, rfl⟩ := reap_inv hs
    exact ⟨hpending, hreceived, hterm⟩

theorem undisturbed_execution {tr : List (ParentState × ParentAction)} {s : ParentState}
    (h : (parent numWorkers).Execution tr s) (hint : ∀ x ∈ tr, x.2 ≠ .sigint) : Undisturbed s := by
  induction h with
  | start => exact ⟨rfl, rfl, rfl⟩
  | @next tr s s' a prior hs ih =>
    have hstep : a ≠ .sigint := hint (s, a) (by simp)
    exact undisturbed_step (ih fun x hx => hint x (by simp [hx])) hstep hs

def ParentPc.inLoop : ParentPc → Bool
  | .test | .checkInt | .checkChld | .suspended _ => true
  | _ => false

theorem Ledger.results_perm {s : ParentState} (h : Ledger numWorkers s) (hpc : s.pc = .finished) :
    (s.workerResults.map (·.workerPid)).Perm s.childPids := by
  have hrecord := h.record (by rw [hpc]; rfl)
  rw [h.counted (by rw [hpc]; rfl), List.map_map]
  refine (List.perm_ext_iff_of_nodup hrecord.nodup h.nodup).mpr ?_
  intro pid
  constructor
  · exact hrecord.reaped_subset h.known pid
  · intro hpid
    obtain ⟨st, hst⟩ := h.settled (by rw [hpc]; rfl) pid hpid
    exact List.mem_map_of_mem ((hrecord.mem pid st).mpr hst)

theorem Ledger.results_status {s : ParentState} (h : Ledger numWorkers s) (hpc : s.pc = .finished)
    (r : WorkerResult) (hr : r ∈ s.workerResults) :
    ∃ st, s.proc r.workerPid = .reaped st ∧ r.matchCount = st.exitCode := by
  have hrecord := h.record (by rw [hpc]; rfl)
  rw [h.counted (by rw [hpc]; rfl)] at hr
  obtain ⟨⟨pid, st⟩, hmem, rfl⟩ := List.mem_map.mp hr
  exact ⟨st, (hrecord.mem pid st).mp hmem, rfl⟩

/-- Without `SIGINT`: the parent never sleeps past an exit, leaves its loop only when all
workers are reaped, and ends with one result for each worker. -/
theorem workers_reaped_once (hn : numWorkers ≤ maxWorkers)
    {tr : List (ParentState × ParentAction)} {s : ParentState}
    (h : (parent numWorkers).Execution tr s) (hint : ∀ x ∈ tr, x.2 ≠ .sigint) :
    (∀ delivered, s.pc = .suspended delivered → s.inHandler = false →
      (∃ pid st, s.proc pid = .zombie st) → s.chldPending = true) ∧
    (s.pc.started = true → s.pc.inLoop = false →
      s.childPids.length = numWorkers ∧ ∀ pid ∈ s.childPids, ∃ st, s.proc pid = .reaped st) ∧
    (s.pc = .finished → s.childPids.length = numWorkers ∧ s.childPids.Nodup ∧
      (s.workerResults.map (·.workerPid)).Perm s.childPids ∧
      ∀ r ∈ s.workerResults, ∃ st, s.proc r.workerPid = .reaped st ∧
      r.matchCount = st.exitCode) := by
  have hledger := ledger_reachable hn h.reachable
  have hterm := (undisturbed_execution h hint).pc
  refine ⟨?_, ?_, ?_⟩
  · rintro delivered - hidle ⟨pid, st, hzombie⟩
    have halarm := hledger.alarm hterm ⟨pid, by rw [hzombie]; rfl⟩
    simpa [hidle] using halarm
  · intro hstarted hloop
    refine ⟨hledger.started hstarted, hledger.settled ?_⟩
    cases hpc : s.pc <;>
      simp [hpc, ParentPc.started, ParentPc.inLoop, ParentPc.terminating]
        at hstarted hloop hterm <;>
      rfl
  · intro hpc
    exact ⟨hledger.started (by rw [hpc]; rfl), hledger.nodup, hledger.results_perm hpc,
      hledger.results_status hpc⟩

/-- Two workers exit before the parent first suspends; one `SIGCHLD` stands for both. -/
def coalescedExits : List ParentAction :=
  [.fork 100, .fork 101, .exit 101 (.exited 3), .step, .usr1, .exit 100 (.exited 1), .step, .step,
    .step, .deliverChld, .reap 100, .reap 101, .handlerReturns, .step, .step, .step, .step, .step,
    .step, .step]

theorem coalescedExits_isSome :
    ((parent 2).run (parent 2).init coalescedExits).isSome := by decide

theorem workers_reaped_coalesced : ∃ tr s, (parent 2).Execution tr s ∧ s.pc = .finished ∧
    (s.workerResults.map (·.workerPid)).Perm [100, 101] := by
  have hrun := Machine.execution_of_isSome coalescedExits_isSome
  have hpc : (((parent 2).run (parent 2).init coalescedExits).get coalescedExits_isSome).pc =
      .finished := by decide
  have hchildren : (((parent 2).run (parent 2).init coalescedExits).get
      coalescedExits_isSome).childPids = [100, 101] := by decide
  have hint : ∀ x ∈ (parent 2).trace (parent 2).init coalescedExits, x.2 ≠ .sigint := by
    intro x hx heq
    have hmem := Machine.action_of_mem_trace hx
    simp [heq, coalescedExits] at hmem
  obtain ⟨-, -, hfinal⟩ := workers_reaped_once (by decide) hrun hint
  obtain ⟨-, -, hperm, -⟩ := hfinal hpc
  exact ⟨_, _, hrun, hpc, hchildren ▸ hperm⟩

end SysProg.HW2

import SysProg.HW2.Coverage
import SysProg.HW2.Reaping
import Mathlib.Algebra.BigOperators.Group.Finset.Basic

/-!
# Match counts through exit codes

A worker hands its `match_count` to the parent as its exit code, which is one byte.
The parent's results and the total of the summary are right as long as no worker
finds more matches than a byte can tell.
-/

namespace SysProg.HW2
open SysProg.Lib

/-- The byte that reaches the parent when a worker with these directories is done. -/
def exitByte (fs : FileSystem) (q : Query) (dirs : List (List Char)) : Fin 256 :=
  ⟨exitCode fs q dirs, Nat.mod_lt _ byte_pos⟩

section
variable (fs : FileSystem) (q : Query) (numWorkers : ℕ) (root : List Char)

def matchesFound (w : ℕ) : ℕ := (matchedBy fs q numWorkers root w).length

/-- The worker at place `w` exits, when it does, as `run_worker` on its directories. -/
def NormalExit (s : ParentState) (a : ParentAction) : Prop :=
  ∀ pid status, a = .exit pid status → ∃ w, s.childPids[w]? = some pid ∧
    status = .exited (exitByte fs q (workerDirs fs numWorkers root w))

/-- The `total_matches` of the summary. -/
def totalMatches (s : ParentState) : ℕ := (s.workerResults.map (·.matchCount)).sum

/-- One result for each worker, with its number of matches, and their sum. -/
def CountsExact (s : ParentState) : Prop :=
  s.workerResults.Perm
      (s.childPids.mapIdx fun w pid => ⟨pid, matchesFound fs q numWorkers root w⟩) ∧
    totalMatches s =
      ∑ w ∈ Finset.range (workersUsed fs numWorkers root), matchesFound fs q numWorkers root w

end

variable {fs : FileSystem} {q : Query} {numWorkers : ℕ} {root : List Char}

theorem exitByte_val (w : ℕ) : (exitByte fs q (workerDirs fs numWorkers root w)).val =
    matchesFound fs q numWorkers root w % 256 := by
  simp only [exitByte, exitCode, matchesFound, matchedBy, runWorker_eq]

/-! ### What the processes leave behind -/

def Proc.status : Proc → Option WaitStatus
  | .zombie st | .reaped st => some st
  | .free | .running => none

theorem status_setProc {s : ParentState} {pid : ℕ} {st : WaitStatus} (h : s.proc pid = .zombie st)
    (p : ℕ) : ((s.setProc pid (.reaped st)).proc p).status = (s.proc p).status := by
  refine apply_update_of_eq Proc.status ?_ p
  rw [h]
  rfl

theorem status_waitpidNohang (s : ParentState) (pid p : ℕ) :
    ((waitpidNohang s pid).1.proc p).status = (s.proc p).status := by
  unfold waitpidNohang
  split
  · rfl
  · rename_i st hzombie
    exact status_setProc hzombie p
  · rfl

theorem status_parentStep {n : ℕ} {s s' : ParentState} (hs : parentStep n s = some s') :
    s'.childPids = s.childPids ∧ ∀ p, (s'.proc p).status = (s.proc p).status := by
  cases hpc : s.pc with
  | forking | suspended | unmasked =>
    simp only [parentStep, hpc, Option.ite_none_right_eq_some, Option.ite_none_left_eq_some,
      Option.some.injEq] at hs
    obtain ⟨-, rfl⟩ := hs
    exact ⟨rfl, fun _ => rfl⟩
  | test | checkInt | sigterm | deadline | sigkill | recount =>
    simp only [parentStep, hpc, Option.some.injEq] at hs
    subst hs
    exact ⟨rfl, fun _ => rfl⟩
  | checkChld =>
    simp only [parentStep, hpc] at hs
    split_ifs at hs <;> cases hs <;> exact ⟨rfl, fun _ => rfl⟩
  | polling i allGone =>
    simp only [parentStep, hpc] at hs
    split at hs <;> cases hs
    · exact ⟨(waitpidNohang_frame s _).1, status_waitpidNohang s _⟩
    · exact ⟨rfl, fun _ => rfl⟩
  | draining =>
    simp only [parentStep, hpc] at hs
    split at hs <;> cases hs
    · exact ⟨(waitpidNohang_frame s _).1, status_waitpidNohang s _⟩
    · exact ⟨rfl, fun _ => rfl⟩
  | finalWait i =>
    obtain rfl | rfl | ⟨pid, st, hzombie, rfl⟩ := finalWait_inv hpc hs
    · exact ⟨rfl, fun _ => rfl⟩
    · exact ⟨rfl, fun _ => rfl⟩
    · exact ⟨rfl, status_setProc hzombie⟩
  | forkFailed | interrupted | finished => simp [parentStep, hpc] at hs

theorem proc_step {n : ℕ} {s s' : ParentState} {a : ParentAction}
    (hs : parentTransition n s a = some s') :
    (∃ pid, a = .fork pid ∧ s'.childPids = s.childPids ++ [pid] ∧
        s'.proc = Function.update s.proc pid .running) ∨
      (∃ pid st, a = .exit pid st ∧ s'.childPids = s.childPids ∧
        s'.proc = Function.update s.proc pid (.zombie st)) ∨
      (s'.childPids = s.childPids ∧ ∀ p, (s'.proc p).status = (s.proc p).status) := by
  cases a with
  | fork pid =>
    obtain ⟨w, -, -, -, rfl⟩ := fork_inv hs
    exact .inl ⟨pid, rfl, rfl, rfl⟩
  | exit pid st =>
    simp only [parentTransition, Option.ite_none_right_eq_some, Option.some.injEq] at hs
    obtain ⟨-, rfl⟩ := hs
    exact .inr (.inl ⟨pid, st, rfl, rfl, rfl⟩)
  | step => exact .inr (.inr (status_parentStep hs))
  | forkFails =>
    obtain ⟨w, -, rfl⟩ := forkFails_inv hs
    exact .inr (.inr ⟨rfl, fun _ => rfl⟩)
  | usr1 | sigint =>
    simp only [parentTransition, Option.some.injEq] at hs
    subst hs
    exact .inr (.inr ⟨rfl, fun _ => rfl⟩)
  | deadlinePasses | deliverChld | deliverUsr1 | deliverInt | handlerReturns =>
    simp only [parentTransition, Option.ite_none_right_eq_some, Option.some.injEq] at hs
    obtain ⟨-, rfl⟩ := hs
    exact .inr (.inr ⟨rfl, fun _ => rfl⟩)
  | reap pid =>
    obtain ⟨-, st, hzombie, rfl⟩ := reap_inv hs
    exact .inr (.inr ⟨rfl, status_setProc hzombie⟩)

/-- Every worker that has exited left the byte of its own search. -/
def OwnStatus (fs : FileSystem) (q : Query) (numWorkers : ℕ) (root : List Char)
    (s : ParentState) : Prop :=
  ∀ w pid st, s.childPids[w]? = some pid → (s.proc pid).status = some st →
    st = .exited (exitByte fs q (workerDirs fs numWorkers root w))

theorem ownStatus_step {n : ℕ} {s s' : ParentState} {a : ParentAction} (hledger : Ledger n s')
    (hexit : NormalExit fs q numWorkers root s a) (h : OwnStatus fs q numWorkers root s)
    (hs : parentTransition n s a = some s') : OwnStatus fs q numWorkers root s' := by
  intro w pid st hw hst
  rcases proc_step hs with ⟨forked, -, hpids, hproc⟩ | ⟨gone, st', rfl, hpids, hproc⟩ |
    ⟨hpids, hproc⟩
  · by_cases hpid : pid = forked
    · rw [hproc, hpid, Function.update_self] at hst
      cases hst
    · rw [hproc, Function.update_of_ne hpid] at hst
      rw [hpids] at hw
      refine h w pid st ?_ hst
      by_cases hlt : w < s.childPids.length
      · rw [List.getElem?_append_left hlt] at hw
        exact hw
      · rw [List.getElem?_append_right (not_lt.mp hlt)] at hw
        exact absurd (List.mem_singleton.mp (List.mem_of_getElem? hw)) hpid
  · obtain ⟨w', hw', rfl⟩ := hexit gone st' rfl
    by_cases hpid : pid = gone
    · subst hpid
      rw [hproc, Function.update_self] at hst
      cases hst
      rw [hpids] at hw
      have hlt : w < s.childPids.length := (List.getElem?_eq_some_iff.mp hw).1
      have hsame := (List.getElem?_inj hlt (hpids ▸ hledger.nodup)).mp (hw.trans hw'.symm)
      rw [hsame]
    · rw [hproc, Function.update_of_ne hpid] at hst
      rw [hpids] at hw
      exact h w pid st hw hst
  · rw [hpids] at hw
    rw [hproc] at hst
    exact h w pid st hw hst

theorem workersUsed_le (fs : FileSystem) (numWorkers : ℕ) (root : List Char) :
    workersUsed fs numWorkers root ≤ numWorkers := by
  unfold workersUsed
  split_ifs with h
  · exact h.le
  · exact le_rfl

theorem ownStatus_execution {n : ℕ} (hn : n ≤ maxWorkers) {tr : List (ParentState × ParentAction)}
    {s : ParentState} (h : (parent n).Execution tr s)
    (hexit : ∀ x ∈ tr, NormalExit fs q numWorkers root x.1 x.2) :
    OwnStatus fs q numWorkers root s := by
  refine h.invariant hexit ?_ ?_
  · intro w pid st hw
    cases hw
  · intro s a s' hreach hok hprior hs
    exact ownStatus_step (ledger_reachable hn (hreach.next hs)) hok hprior hs

/-! ### The summary -/

/-- At the end there is one result for each worker, with the byte it left. -/
theorem results_perm {n : ℕ} {s : ParentState} (hledger : Ledger n s)
    (hown : OwnStatus fs q numWorkers root s) (hpc : s.pc = .finished) :
    s.workerResults.Perm
      (s.childPids.mapIdx fun w pid => ⟨pid, matchesFound fs q numWorkers root w % 256⟩) := by
  have hrecord := hledger.record (by rw [hpc]; rfl)
  have hcode : ∀ {w pid st}, s.childPids[w]? = some pid → s.proc pid = .reaped st →
      st.exitCode = matchesFound fs q numWorkers root w % 256 := by
    intro w pid st hw hst
    rw [hown w pid st hw (by rw [hst]; rfl), WaitStatus.exitCode, exitByte_val]
  rw [hledger.counted (by rw [hpc]; rfl)]
  refine (List.perm_ext_iff_of_nodup ?_ ?_).mpr ?_
  · refine List.Nodup.of_map WorkerResult.workerPid ?_
    rw [List.map_map]
    exact hrecord.nodup
  · refine List.Nodup.of_map WorkerResult.workerPid ?_
    have hpids : (s.childPids.mapIdx fun w pid => (⟨pid,
        matchesFound fs q numWorkers root w % 256⟩ : WorkerResult)).map WorkerResult.workerPid =
        s.childPids := List.ext_getElem (by simp) (by simp)
    rw [hpids]
    exact hledger.nodup
  · intro r
    rw [List.mem_map, List.mem_mapIdx]
    constructor
    · rintro ⟨⟨pid, st⟩, hmem, rfl⟩
      have hst := (hrecord.mem pid st).mp hmem
      obtain ⟨w, hw, hget⟩ := List.getElem_of_mem ((hledger.known pid).mpr (by rw [hst]; simp))
      refine ⟨w, hw, ?_⟩
      rw [resultOf, hcode (List.getElem?_eq_some_iff.mpr ⟨hw, hget⟩) hst, hget]
    · rintro ⟨w, hw, rfl⟩
      obtain ⟨st, hst⟩ := hledger.settled (by rw [hpc]; rfl) _ (List.getElem_mem hw)
      refine ⟨(s.childPids[w], st), (hrecord.mem _ st).mpr hst, ?_⟩
      rw [resultOf, hcode (List.getElem?_eq_getElem hw) hst]

theorem total_of_perm {s : ParentState} {count : ℕ → ℕ}
    (h : s.workerResults.Perm (s.childPids.mapIdx fun w pid => ⟨pid, count w⟩)) :
    totalMatches s = ∑ w ∈ Finset.range s.childPids.length, count w := by
  have hcounts : (s.childPids.mapIdx fun w pid => (⟨pid, count w⟩ : WorkerResult)).map
      WorkerResult.matchCount = (List.range s.childPids.length).map count :=
    List.ext_getElem (by simp) (by simp)
  rw [totalMatches, (h.map _).sum_eq, hcounts]
  rfl

/-- When the workers have all exited normally, their match counts and the total are right
exactly if none of them has found more than 255 matches. -/
theorem match_counts_exact (fs : FileSystem) (q : Query) (numWorkers : ℕ) (root : List Char)
    (hn : numWorkers ≤ maxWorkers) {tr : List (ParentState × ParentAction)} {s : ParentState}
    (h : (parent (workersUsed fs numWorkers root)).Execution tr s)
    (hexit : ∀ x ∈ tr, NormalExit fs q numWorkers root x.1 x.2) (hpc : s.pc = .finished) :
    CountsExact fs q numWorkers root s ↔
      ∀ w < workersUsed fs numWorkers root, matchesFound fs q numWorkers root w < 256 := by
  have hused := (workersUsed_le fs numWorkers root).trans hn
  have hledger := ledger_reachable hused h.reachable
  have hlen : s.childPids.length = workersUsed fs numWorkers root :=
    hledger.started (by rw [hpc]; rfl)
  have hbytes := results_perm hledger (ownStatus_execution hused h hexit) hpc
  constructor
  · rintro ⟨hexact, -⟩ w hw
    rw [← hlen] at hw
    have hmem : (⟨s.childPids[w], matchesFound fs q numWorkers root w⟩ : WorkerResult) ∈
        s.workerResults := hexact.mem_iff.mpr (List.mem_mapIdx.mpr ⟨w, hw, rfl⟩)
    obtain ⟨w', hw', hresult⟩ := List.mem_mapIdx.mp (hbytes.mem_iff.mp hmem)
    rw [← (WorkerResult.mk.inj hresult).2]
    exact Nat.mod_lt _ (by decide)
  · intro hsmall
    have hexact : s.workerResults.Perm
        (s.childPids.mapIdx fun w pid => ⟨pid, matchesFound fs q numWorkers root w⟩) := by
      have hsame : (s.childPids.mapIdx fun w pid => (⟨pid,
          matchesFound fs q numWorkers root w % 256⟩ : WorkerResult)) =
          s.childPids.mapIdx fun w pid => ⟨pid, matchesFound fs q numWorkers root w⟩ := by
        refine List.ext_getElem (by simp) ?_
        intro w hw _
        rw [List.length_mapIdx, hlen] at hw
        simp [Nat.mod_eq_of_lt (hsmall w hw)]
      rw [← hsame]
      exact hbytes
    refine ⟨hexact, ?_⟩
    rw [total_of_perm hexact, hlen]

/-! ### A directory of many files -/

def fileName (i : ℕ) : List Char := 'a' :: '.' :: Nat.toDigits 10 i

theorem fileName_injective : Function.Injective fileName := by
  intro i j h
  have hdigits : Nat.toDigits 10 i = Nat.toDigits 10 j := (List.cons.inj (List.cons.inj h).2).2
  rw [← Nat.ofDigitChars_ten_toDigits (n := i), hdigits, Nat.ofDigitChars_ten_toDigits]

theorem noSlash_fileName (i : ℕ) : '/' ∉ fileName i := by
  simp only [fileName, List.mem_cons, not_or]
  refine ⟨by decide, by decide, ?_⟩
  intro hmem
  exact absurd (Nat.isDigit_of_mem_toDigits (by decide) (by decide) hmem) (by decide)

def fileTree (k : ℕ) : FileSystem where
  opendir path :=
    if path = "/r".toList then some ["d".toList]
    else if path = "/r/d".toList then some ((List.range k).map fileName)
    else none
  lstat path :=
    if path = "/r/d".toList then some .directory
    else if ((List.range k).map fun i => fullPath "/r/d".toList (fileName i)).contains path then
      some (.regular 1)
    else none
  nodup path names h := by
    split_ifs at h <;> obtain rfl := Option.some.inj h
    · exact List.nodup_singleton _
    · exact List.nodup_range.map fileName_injective
  noSlash path names h := by
    split_ifs at h <;> obtain rfl := Option.some.inj h
    · decide
    · intro name hname
      obtain ⟨i, -, rfl⟩ := List.mem_map.mp hname
      exact noSlash_fileName i
  pathMax path h := by
    have hr : path ≠ "/r".toList := by
      rintro rfl
      exact absurd h (by decide)
    have hd : path ≠ "/r/d".toList := by
      rintro rfl
      exact absurd h (by decide)
    rw [if_neg hr, if_neg hd]

def anySize : Query := ⟨"a".toList, -1⟩

theorem selects_fileName (i : ℕ) : anySize.selects (fileName i) 1 = true := by
  have hstem : matchRec ['a'] ['a'] = true := by decide
  simp [Query.selects, Query.tooSmall, anySize, matchPattern, fileName, hstem]

theorem fileTree_subdirs (k : ℕ) : subdirs (fileTree k) "/r".toList = ["/r/d".toList] := by
  rfl

theorem fileTree_used (k : ℕ) : workersUsed (fileTree k) 2 "/r".toList = 1 := by
  rw [workersUsed, fileTree_subdirs]
  rfl

theorem fileTree_found {k : ℕ} (hk : k ≤ 1000) :
    matchesFound (fileTree k) anySize 2 "/r".toList 0 = k := by
  have hentry : ∀ name ∈ (List.range k).map fileName,
      (reportedAt (fileTree k) anySize "/r/d".toList name).length = 1 := by
    intro name hname
    obtain ⟨i, hi, rfl⟩ := List.mem_map.mp hname
    have hdigits : (Nat.toDigits 10 i).length ≤ 3 :=
      (Nat.length_toDigits_le_iff (by decide) (by decide)).mpr (by
        rw [List.mem_range] at hi
        omega)
    have hfits : (fullPath "/r/d".toList (fileName i)).length < 4096 := by
      rw [length_fullPath]
      simp only [fileName, List.length_cons]
      have hlen : "/r/d".toList.length = 4 := rfl
      omega
    have hstat : (fileTree k).lstat (fullPath "/r/d".toList (fileName i)) = some (.regular 1) := by
      have hother : fullPath "/r/d".toList (fileName i) ≠ "/r/d".toList := by
        intro h
        have hlen := congrArg List.length h
        rw [length_fullPath] at hlen
        omega
      have hmem : ((List.range k).map fun i => fullPath "/r/d".toList (fileName i)).contains
          (fullPath "/r/d".toList (fileName i)) = true :=
        List.contains_iff_mem.mpr (List.mem_map_of_mem hi)
      simp only [fileTree, if_neg hother, if_pos hmem]
    rw [reportedAt_regular ?_ hfits hstat, selects_fileName, if_pos rfl, List.length_singleton]
    simp [isDot, fileName]
  have hlisting : (fileTree k).listing "/r/d".toList = (List.range k).map fileName := rfl
  have hdirs : workerDirs (fileTree k) 2 "/r".toList 0 = ["/r/d".toList] := by
    rw [workerDirs, fileTree_used, fileTree_subdirs]
    rfl
  rw [matchesFound, matchedBy, runWorker_eq, hdirs]
  simp only [List.flatMap_cons, List.flatMap_nil, List.append_nil]
  rw [reported_eq, hlisting, List.length_flatMap, List.map_congr_left hentry]
  simp [Function.comp_def]

def oneWorker (b : Fin 256) : List ParentAction :=
  [.fork 100, .step, .exit 100 (.exited b), .step, .step, .step, .deliverChld, .reap 100,
    .handlerReturns] ++ List.replicate 6 .step

theorem oneWorker_isSome (b : Fin 256) :
    ((parent 1).run (parent 1).init (oneWorker b)).isSome := rfl

theorem oneWorker_execution (b : Fin 256) :
    (parent 1).Execution ((parent 1).trace (parent 1).init (oneWorker b))
      (((parent 1).run (parent 1).init (oneWorker b)).get (oneWorker_isSome b)) :=
  Machine.execution_of_isSome (oneWorker_isSome b)

theorem oneWorker_normal {fs : FileSystem} {q : Query} {n : ℕ} {root : List Char} {b : Fin 256}
    (hb : b.val = matchesFound fs q n root 0 % 256) :
    ∀ x ∈ (parent 1).trace (parent 1).init (oneWorker b), NormalExit fs q n root x.1 x.2 := by
  have hbyte : b = exitByte fs q (workerDirs fs n root 0) := Fin.ext (by rw [exitByte_val, hb])
  have hfirst : ((parent 1).trace (parent 1).init (oneWorker b)).all (fun x =>
      match x.2 with
      | .exit pid _ => x.1.childPids[0]? == some pid
      | _ => true) = true := rfl
  intro x hx pid status ha
  have hmem := Machine.action_of_mem_trace hx
  have hpid := List.all_eq_true.mp hfirst x hx
  rw [ha] at hmem hpid
  have hexit : pid = 100 ∧ status = .exited b := by simpa [oneWorker] using hmem
  refine ⟨0, by simpa using hpid, ?_⟩
  rw [hexit.2, ← hbyte]

theorem oneWorker_run {k : ℕ} (hk : k ≤ 1000) {b : Fin 256} (hb : b.val = k % 256) : ∃ tr s,
    (parent (workersUsed (fileTree k) 2 "/r".toList)).Execution tr s ∧
      (∀ x ∈ tr, NormalExit (fileTree k) anySize 2 "/r".toList x.1 x.2) ∧ s.pc = .finished ∧
      s.workerResults = [⟨100, b.val⟩] := by
  rw [fileTree_used]
  rw [← fileTree_found hk] at hb
  exact ⟨_, _, oneWorker_execution b, oneWorker_normal hb, rfl, rfl⟩

/-- Three matches reach the summary. -/
theorem match_counts_exact_three : ∃ tr s,
    (parent (workersUsed (fileTree 3) 2 "/r".toList)).Execution tr s ∧ s.pc = .finished ∧
      CountsExact (fileTree 3) anySize 2 "/r".toList s := by
  obtain ⟨tr, s, hrun, hexit, hpc, -⟩ := oneWorker_run (k := 3) (b := 3) (by decide) rfl
  refine ⟨tr, s, hrun, hpc, ?_⟩
  refine (match_counts_exact (fileTree 3) anySize 2 "/r".toList (by decide) hrun hexit hpc).mpr ?_
  intro w hw
  rw [fileTree_used] at hw
  obtain rfl : w = 0 := by omega
  rw [fileTree_found (by decide)]
  decide

/-- A worker with 256 matches exits with code 0, and the summary prints no match. -/
theorem full_byte_lost : ∃ tr s,
    (parent (workersUsed (fileTree 256) 2 "/r".toList)).Execution tr s ∧
      (∀ x ∈ tr, NormalExit (fileTree 256) anySize 2 "/r".toList x.1 x.2) ∧ s.pc = .finished ∧
      matchesFound (fileTree 256) anySize 2 "/r".toList 0 = 256 ∧ totalMatches s = 0 ∧
      ¬CountsExact (fileTree 256) anySize 2 "/r".toList s := by
  obtain ⟨tr, s, hrun, hexit, hpc, hresults⟩ := oneWorker_run (k := 256) (b := 0) (by decide) rfl
  have hfound := fileTree_found (k := 256) (by decide)
  have htotal : totalMatches s = 0 := by
    rw [totalMatches, hresults]
    rfl
  refine ⟨tr, s, hrun, hexit, hpc, hfound, htotal, ?_⟩
  rintro ⟨-, hsum⟩
  rw [htotal, fileTree_used, Finset.sum_range_one, hfound] at hsum
  cases hsum

end SysProg.HW2

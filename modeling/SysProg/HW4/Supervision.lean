import Mathlib.Data.List.Perm.Basic
import Mathlib.Data.List.Nodup
import SysProg.Lib.Execution
import SysProg.HW4.Heartbeat

/-!
# The parent and its processes

The parent forks its processes, waits for them one by one and strikes each out of
its table when it has been reaped. A `SIGINT` that interrupts the wait starts the
shutdown: `SIGTERM` to what is left in the table, reaping until the deadline,
and `SIGKILL` to what is left then. A pid that has been reaped may belong to any
other process at once; the table keeps the parent from signalling it.
-/

namespace SysProg.HW4
open SysProg.Lib

/-- What has a pid: nothing, a child, a child that has ended, or another process. -/
inductive Process where
  | free | running | zombie | foreign
  deriving DecidableEq

def Process.isChild : Process → Bool
  | .running | .zombie => true
  | _ => false

inductive SupervisorPc where
  | forking (left : ℕ)
  | waiting (remaining : ℕ)
  | marking (pid remaining : ℕ)
  | finished
  -- `terminate_children`
  | sigterm (i : ℕ)
  | polling
  | markingPolled (pid : ℕ)
  | sigkill (i : ℕ)
  | draining
  | interrupted
  -- `die_errno`
  | failed
  deriving DecidableEq

/-- The table of `child_list_t`, and what has been forked, reaped, struck out and
sent a signal so far. -/
structure Supervisor where
  proc : ℕ → Process
  pids : List ℕ
  pc : SupervisorPc
  sigintReceived : Bool
  forked : List ℕ
  reaped : List ℕ
  marked : List ℕ
  termed : List ℕ
  killed : List ℕ

inductive SupervisorAction where
  | step
  | fork (pid : ℕ)
  | forkFails
  | reap (pid : ℕ)
  | deadlinePasses
  -- a signal in `waitpid` or elsewhere
  | interrupt
  | sigint
  -- the other processes
  | exit (pid : ℕ)
  | foreignStarts (pid : ℕ)
  | foreignEnds (pid : ℕ)

def markChildReaped : List ℕ → ℕ → List ℕ
  | [], _ => []
  | p :: rest, pid => if p = pid then 0 :: rest else p :: markChildReaped rest pid

namespace Supervisor

def hasChild (s : Supervisor) : Bool := s.forked.any (fun p => (s.proc p).isChild)

def hasZombie (s : Supervisor) : Bool := s.forked.any (fun p => s.proc p = .zombie)

/-- `if (children->pids[i] > 0) kill(children->pids[i], ..)` -/
def killTarget (s : Supervisor) (i : ℕ) : List ℕ :=
  if 0 < s.pids.getD i 0 then [s.pids.getD i 0] else []

def mark (s : Supervisor) (pid : ℕ) : Supervisor :=
  { s with pids := markChildReaped s.pids pid, marked := s.marked ++ [pid] }

def setProc (s : Supervisor) (pid : ℕ) (p : Process) : Supervisor :=
  { s with proc := Function.update s.proc pid p }

/-- `waitpid` hands out a child that has ended. -/
def reapChild (s : Supervisor) (pid : ℕ) : Supervisor :=
  { s.setProc pid .free with reaped := s.reaped ++ [pid] }

end Supervisor

/-- A step of the parent that needs nobody else. -/
def parentStep (s : Supervisor) : Option Supervisor :=
  match s.pc with
  | .forking 0 => some { s with pc := .waiting s.pids.length }
  | .forking (_ + 1) => none
  | .waiting 0 => some { s with pc := .finished }
  -- `ECHILD` ends the loop; `waitpid` blocks otherwise
  | .waiting (_ + 1) => if s.hasChild then none else some { s with pc := .finished }
  | .marking pid remaining => some { s.mark pid with pc := .waiting remaining }
  | .sigterm i =>
    if i < s.pids.length then
      some { s with termed := s.termed ++ s.killTarget i, pc := .sigterm (i + 1) }
    else some { s with pc := .polling }
  | .polling => if s.hasChild then none else some { s with pc := .sigkill 0 }
  | .markingPolled pid => some { s.mark pid with pc := .polling }
  | .sigkill i =>
    if i < s.pids.length then
      some { s with killed := s.killed ++ s.killTarget i, pc := .sigkill (i + 1) }
    else some { s with pc := .draining }
  | .draining => if s.hasZombie then none else some { s with pc := .interrupted }
  | .finished | .interrupted | .failed => none

def afterReap (pid : ℕ) : SupervisorPc → Option SupervisorPc
  | .waiting (remaining + 1) => some (.marking pid remaining)
  | .polling => some (.markingPolled pid)
  | .draining => some .draining
  | _ => none

def superviseStep (s : Supervisor) : SupervisorAction → Option Supervisor
  | .step => parentStep s
  | .fork pid =>
    match s.pc with
    | .forking (left + 1) =>
      if 0 < pid ∧ s.proc pid = .free then
        some { s.setProc pid .running with
          pids := s.pids ++ [pid], forked := s.forked ++ [pid], pc := .forking left }
      else none
    | _ => none
  | .forkFails =>
    match s.pc with
    | .forking (_ + 1) => some { s with pc := .failed }
    | _ => none
  | .reap pid =>
    if s.proc pid = .zombie then (afterReap pid s.pc).map
        (fun pc => { s.reapChild pid with pc := pc })
    else none
  | .deadlinePasses => if s.pc = .polling then some { s with pc := .sigkill 0 } else none
  | .interrupt =>
    match s.pc with
    | .waiting (_ + 1) => some { s with sigintReceived := true, pc := .sigterm 0 }
    | _ => none
  | .sigint => some { s with sigintReceived := true }
  | .exit pid => if s.proc pid = .running then some (s.setProc pid .zombie) else none
  | .foreignStarts pid => if s.proc pid = .free then some (s.setProc pid .foreign) else none
  | .foreignEnds pid => if s.proc pid = .foreign then some (s.setProc pid .free) else none

/-- One reader for each file, the dispatcher, four analyzers and the aggregator. -/
def numChildren (numFiles : ℕ) : ℕ := numFiles + 6

def supervisor (numFiles : ℕ) : Machine Supervisor SupervisorAction where
  init := ⟨fun _ => .free, [], .forking (numChildren numFiles), false, [], [], [], [], []⟩
  step := superviseStep

/-- `count_alive_children`: signal 0 finds any process. -/
def countAliveChildren (s : Supervisor) : ℕ :=
  s.pids.countP (fun p => decide (0 < p) && decide (s.proc p ≠ .free))

/-- The next call to `kill` is for this pid. -/
def nextKill (s : Supervisor) : List ℕ :=
  match s.pc with
  | .sigterm i | .sigkill i => s.killTarget i
  | _ => []

/-! ### The table -/

def tableEntry (marked : List ℕ) (p : ℕ) : ℕ := if p ∈ marked then 0 else p

def live (pids : List ℕ) : List ℕ := pids.filter (fun p => decide (0 < p))

theorem markChildReaped_table {forked marked : List ℕ} {pid : ℕ} (hpid : 0 < pid)
    (hfresh : pid ∉ marked) (hnodup : forked.Nodup) :
    markChildReaped (forked.map (tableEntry marked)) pid =
      forked.map (tableEntry (marked ++ [pid])) := by
  induction forked with
  | nil => rfl
  | cons p rest ih =>
    obtain ⟨hp, hrest⟩ := List.nodup_cons.mp hnodup
    rw [List.map_cons, List.map_cons, markChildReaped]
    by_cases heq : p = pid
    · subst heq
      have hentry : tableEntry marked p = p := if_neg hfresh
      have hstruck : tableEntry (marked ++ [p]) p = 0 := if_pos (by simp)
      have hsame : rest.map (tableEntry (marked ++ [p])) = rest.map (tableEntry marked) := by
        apply List.map_congr_left
        intro q hq
        have hne : q ≠ p := fun h => hp (h ▸ hq)
        simp [tableEntry, hne]
      rw [hentry, if_pos rfl, hstruck, hsame]
    · have hentry : tableEntry marked p ≠ pid := by
        unfold tableEntry
        split_ifs
        · exact hpid.ne
        · exact heq
      have hkeep : tableEntry (marked ++ [pid]) p = tableEntry marked p := by
        simp [tableEntry, heq]
      rw [if_neg hentry, hkeep, ih hrest]

theorem live_table {forked marked : List ℕ} (hpos : ∀ p ∈ forked, 0 < p) :
    live (forked.map (tableEntry marked)) = forked.filter (fun p => p ∉ marked) := by
  induction forked with
  | nil => rfl
  | cons p rest ih =>
    have hp := hpos p List.mem_cons_self
    have hrest := ih fun q hq => hpos q (List.mem_cons_of_mem _ hq)
    unfold live at hrest ⊢
    by_cases hmem : p ∈ marked
    · simp [tableEntry, hmem, hrest]
    · simp [tableEntry, hmem, hp, hrest]

theorem live_append (xs ys : List ℕ) : live (xs ++ ys) = live xs ++ live ys :=
  List.filter_append _ _

theorem live_take_succ (s : Supervisor) {i : ℕ} (hi : i < s.pids.length) :
    live (s.pids.take (i + 1)) = live (s.pids.take i) ++ s.killTarget i := by
  have hget : s.pids.getD i 0 = s.pids[i] := by
    rw [List.getD_eq_getElem?_getD, List.getElem?_eq_getElem hi, Option.getD_some]
  rw [List.take_add_one, live_append, List.getElem?_eq_getElem hi, Supervisor.killTarget, hget]
  simp only [live, Option.toList_some, List.filter_cons, List.filter_nil, decide_eq_true_eq]

/-! ### The invariant -/

structure Family (s : Supervisor) : Prop where
  nodup : s.forked.Nodup
  pos : ∀ p ∈ s.forked, 0 < p
  child_iff : ∀ p, (s.proc p).isChild = true ↔ p ∈ s.forked ∧ p ∉ s.reaped
  reaped_nodup : s.reaped.Nodup
  reaped_forked : s.reaped ⊆ s.forked
  marked_reaped : s.marked <+: s.reaped
  table : s.pids = s.forked.map (tableEntry s.marked)

def Unsignalled (s : Supervisor) : Prop := s.termed = [] ∧ s.killed = []

def Termed (s : Supervisor) : Prop := (live s.pids).Sublist s.termed ∧ s.termed.Sublist s.forked

def Struck (n : ℕ) (s : Supervisor) (pending : List ℕ) : Prop :=
  s.forked.length = n ∧ s.reaped = s.marked ++ pending

def Phase (n : ℕ) (s : Supervisor) : Prop :=
  match s.pc with
  | .forking left => s.forked.length + left = n ∧ s.reaped = [] ∧ s.marked = [] ∧ Unsignalled s
  | .waiting r => Struck n s [] ∧ r + s.reaped.length = n ∧ Unsignalled s
  | .marking pid r => Struck n s [pid] ∧ r + s.reaped.length = n ∧ Unsignalled s
  | .finished => Struck n s [] ∧ s.reaped.length = n ∧ Unsignalled s
  | .sigterm i => Struck n s [] ∧ s.termed = live (s.pids.take i) ∧ s.killed = []
  | .polling => Struck n s [] ∧ Termed s ∧ s.killed = []
  | .markingPolled pid => Struck n s [pid] ∧ Termed s ∧ s.killed = []
  | .sigkill i => Struck n s [] ∧ Termed s ∧ s.killed = live (s.pids.take i)
  | .draining | .interrupted => s.forked.length = n ∧ Termed s ∧ s.killed = live s.pids
  | .failed => s.forked.length ≤ n ∧ Unsignalled s

structure Supervised (n : ℕ) (s : Supervisor) : Prop where
  family : Family s
  phase : Phase n s

variable {n : ℕ} {s s' : Supervisor}

theorem Family.live_pids (h : Family s) :
    live s.pids = s.forked.filter (fun p => p ∉ s.marked) := by
  rw [h.table, live_table h.pos]

theorem Family.length_pids (h : Family s) : s.pids.length = s.forked.length := by
  rw [h.table, List.length_map]

theorem Family.child_of_live (h : Family s) (hmarked : s.reaped = s.marked) {p : ℕ}
    (hp : p ∈ live s.pids) : (s.proc p).isChild = true := by
  rw [h.live_pids, List.mem_filter] at hp
  exact (h.child_iff p).mpr ⟨hp.1, by simpa [hmarked] using hp.2⟩

theorem Family.of_main (h : Family s) (hproc : s'.proc = s.proc) (hpids : s'.pids = s.pids)
    (hforked : s'.forked = s.forked) (hreaped : s'.reaped = s.reaped)
    (hmarked : s'.marked = s.marked) : Family s' := by
  obtain ⟨hnodup, hpos, hchild, hrnodup, hsub, hprefix, htable⟩ := h
  constructor
  · rwa [hforked]
  · rwa [hforked]
  · rwa [hproc, hforked, hreaped]
  · rwa [hreaped]
  · rwa [hreaped, hforked]
  · rwa [hmarked, hreaped]
  · rwa [hpids, hforked, hmarked]

theorem Family.mark (h : Family s) {pid : ℕ} (hpending : s.reaped = s.marked ++ [pid]) :
    Family (s.mark pid) := by
  have hmem : pid ∈ s.forked := h.reaped_forked (by simp [hpending])
  have hfresh : pid ∉ s.marked := by
    have hnodup := h.reaped_nodup
    rw [hpending] at hnodup
    exact fun hold => (List.disjoint_of_nodup_append hnodup) hold (List.mem_singleton_self _)
  have htable : (s.mark pid).pids = s.forked.map (tableEntry (s.marked ++ [pid])) := by
    rw [Supervisor.mark, h.table, markChildReaped_table (h.pos pid hmem) hfresh h.nodup]
  exact ⟨h.nodup, h.pos, h.child_iff, h.reaped_nodup, h.reaped_forked,
    by simp [Supervisor.mark, hpending], htable⟩

theorem Family.setProc (h : Family s) {pid : ℕ} {p : Process}
    (hkind : p.isChild = (s.proc pid).isChild) : Family (s.setProc pid p) := by
  refine ⟨h.nodup, h.pos, ?_, h.reaped_nodup, h.reaped_forked, h.marked_reaped, h.table⟩
  intro q
  have hsame : ((s.setProc pid p).proc q).isChild = (s.proc q).isChild := by
    by_cases hq : q = pid
    · subst hq
      simp [Supervisor.setProc, hkind]
    · simp [Supervisor.setProc, hq]
  rw [hsame]
  exact h.child_iff q

theorem Family.reap (h : Family s) {pid : ℕ} (hzombie : s.proc pid = .zombie) :
    Family (s.reapChild pid) := by
  obtain ⟨hforked, hfresh⟩ := (h.child_iff pid).mp (by rw [hzombie]; rfl)
  refine ⟨h.nodup, h.pos, ?_, ?_, ?_, ?_, h.table⟩
  · intro q
    by_cases hq : q = pid
    · subst hq
      simp [Supervisor.reapChild, Supervisor.setProc, Process.isChild]
    · have hold := h.child_iff q
      simp [Supervisor.reapChild, Supervisor.setProc, hq, hold]
  · exact List.nodup_append.mpr ⟨h.reaped_nodup, List.nodup_singleton _, by
      intro a ha b hb heq
      rw [List.mem_singleton.mp hb] at heq
      exact hfresh (heq ▸ ha)⟩
  · exact List.append_subset.mpr ⟨h.reaped_forked,
      List.cons_subset.mpr ⟨hforked, List.nil_subset _⟩⟩
  · exact h.marked_reaped.trans (List.prefix_append _ _)

theorem Family.fork (h : Family s) {pid : ℕ} (hpos : 0 < pid) (hfree : s.proc pid = .free)
    (hnone : s.reaped = []) (pc : SupervisorPc) :
    Family { s.setProc pid .running with
      pids := s.pids ++ [pid], forked := s.forked ++ [pid], pc := pc } := by
  have hfresh : pid ∉ s.forked := by
    intro hmem
    have hchild := (h.child_iff pid).mpr ⟨hmem, by simp [hnone]⟩
    simp [hfree, Process.isChild] at hchild
  have hmarked : s.marked = [] := List.prefix_nil.mp (hnone ▸ h.marked_reaped)
  refine ⟨?_, ?_, ?_, h.reaped_nodup, ?_, h.marked_reaped, ?_⟩
  · exact List.nodup_append.mpr ⟨h.nodup, List.nodup_singleton _, by
      intro a ha b hb heq
      rw [List.mem_singleton.mp hb] at heq
      exact hfresh (heq ▸ ha)⟩
  · intro p hp
    rcases List.mem_append.mp hp with hp | hp
    · exact h.pos p hp
    · rwa [List.mem_singleton.mp hp]
  · intro q
    by_cases hq : q = pid
    · subst hq
      simp [Supervisor.setProc, hnone, Process.isChild]
    · have hold := h.child_iff q
      simp [Supervisor.setProc, hq, hold, hnone]
  · exact List.Subset.trans h.reaped_forked (List.subset_append_left _ _)
  · simp [h.table, hmarked, tableEntry, Supervisor.setProc]

/-! ### Every step keeps it -/

theorem live_mark (h : Family s) {pid : ℕ} (hpending : s.reaped = s.marked ++ [pid]) :
    (live (s.mark pid).pids).Sublist (live s.pids) := by
  rw [(h.mark hpending).live_pids, h.live_pids]
  have hsplit : (s.mark pid).forked.filter (fun p => p ∉ (s.mark pid).marked) =
      (s.forked.filter (fun p => p ∉ s.marked)).filter (fun p => p ≠ pid) := by
    rw [List.filter_filter]
    apply List.filter_congr
    intro p _
    simp [Supervisor.mark, not_or, and_comm]
  rw [hsplit]
  exact List.filter_sublist

theorem Supervised.moved (h : Family s) {pc : SupervisorPc} {termed killed : List ℕ}
    (hphase : Phase n { s with pc := pc, termed := termed, killed := killed }) :
    Supervised n { s with pc := pc, termed := termed, killed := killed } :=
  ⟨h.of_main rfl rfl rfl rfl rfl, hphase⟩

theorem forked_subset_reaped (h : Family s) (hnone : s.hasChild = false) : s.forked ⊆ s.reaped := by
  intro p hp
  by_contra hnot
  have hchild := (h.child_iff p).mpr ⟨hp, hnot⟩
  have hany : s.hasChild = true := List.any_eq_true.mpr ⟨p, hp, hchild⟩
  rw [hnone] at hany
  cases hany

theorem supervised_main (h : Supervised n s) (hs : parentStep s = some s') : Supervised n s' := by
  obtain ⟨hfamily, hphase⟩ := h
  unfold parentStep at hs
  cases hpc : s.pc with
  | forking left =>
    cases left with
    | zero =>
      simp only [hpc, Option.some.injEq] at hs
      subst hs
      simp only [Phase, hpc] at hphase
      obtain ⟨hn, hreaped, hmarked, hnone⟩ := hphase
      apply Supervised.moved hfamily
      refine ⟨⟨hn, by simp [hreaped, hmarked]⟩, ?_, hnone⟩
      simp only [hreaped, hfamily.length_pids]
      exact hn
    | succ left => simp [hpc] at hs
  | waiting r =>
    simp only [Phase, hpc] at hphase
    obtain ⟨hstruck, hcount, hnone⟩ := hphase
    cases r with
    | zero =>
      simp only [hpc, Option.some.injEq] at hs
      subst hs
      apply Supervised.moved hfamily
      exact ⟨⟨hstruck.1, hstruck.2⟩, by simpa using hcount, hnone⟩
    | succ r =>
      simp only [hpc] at hs
      split_ifs at hs with hchild
      obtain rfl := Option.some.inj hs
      have hall := (hfamily.nodup.subperm
        (forked_subset_reaped hfamily (Bool.not_eq_true _ ▸ hchild))).length_le
      have hforked := hstruck.1
      omega
  | marking pid r =>
    simp only [hpc, Option.some.injEq] at hs
    subst hs
    simp only [Phase, hpc] at hphase
    obtain ⟨hstruck, hcount, hnone⟩ := hphase
    apply Supervised.moved (hfamily.mark hstruck.2)
    exact ⟨⟨hstruck.1, by simp [Supervisor.mark, hstruck.2]⟩, hcount, hnone⟩
  | sigterm i =>
    simp only [Phase, hpc] at hphase
    obtain ⟨hstruck, htermed, hkilled⟩ := hphase
    simp only [hpc] at hs
    split_ifs at hs with hi
    · obtain rfl := Option.some.inj hs
      apply Supervised.moved hfamily
      refine ⟨⟨hstruck.1, hstruck.2⟩, ?_, hkilled⟩
      simp only [htermed]
      exact (live_take_succ s hi).symm
    · obtain rfl := Option.some.inj hs
      apply Supervised.moved hfamily
      rw [List.take_of_length_le (not_lt.mp hi)] at htermed
      refine ⟨⟨hstruck.1, hstruck.2⟩, ⟨?_, ?_⟩, hkilled⟩
      · simp only [htermed, List.Sublist.refl]
      · simp only [htermed, hfamily.live_pids]
        exact List.filter_sublist
  | polling =>
    simp only [Phase, hpc] at hphase
    obtain ⟨hstruck, htermed, hkilled⟩ := hphase
    simp only [hpc] at hs
    split_ifs at hs
    obtain rfl := Option.some.inj hs
    apply Supervised.moved hfamily
    exact ⟨⟨hstruck.1, hstruck.2⟩, htermed, by simp [hkilled, live]⟩
  | markingPolled pid =>
    simp only [hpc, Option.some.injEq] at hs
    subst hs
    simp only [Phase, hpc] at hphase
    obtain ⟨hstruck, htermed, hkilled⟩ := hphase
    apply Supervised.moved (hfamily.mark hstruck.2)
    exact ⟨⟨hstruck.1, by simp [Supervisor.mark, hstruck.2]⟩,
      ⟨(live_mark hfamily hstruck.2).trans htermed.1, htermed.2⟩, hkilled⟩
  | sigkill i =>
    simp only [Phase, hpc] at hphase
    obtain ⟨hstruck, htermed, hkilled⟩ := hphase
    simp only [hpc] at hs
    split_ifs at hs with hi
    · obtain rfl := Option.some.inj hs
      apply Supervised.moved hfamily
      refine ⟨⟨hstruck.1, hstruck.2⟩, htermed, ?_⟩
      simp only [hkilled]
      exact (live_take_succ s hi).symm
    · obtain rfl := Option.some.inj hs
      apply Supervised.moved hfamily
      rw [List.take_of_length_le (not_lt.mp hi)] at hkilled
      exact ⟨hstruck.1, htermed, hkilled⟩
  | draining =>
    simp only [Phase, hpc] at hphase
    simp only [hpc] at hs
    split_ifs at hs
    obtain rfl := Option.some.inj hs
    apply Supervised.moved hfamily
    exact hphase
  | finished => simp [hpc] at hs
  | interrupted => simp [hpc] at hs
  | failed => simp [hpc] at hs

theorem supervised_reap (h : Supervised n s) {pid : ℕ} (hzombie : s.proc pid = .zombie)
    {pc : SupervisorPc} (hpc : afterReap pid s.pc = some pc) :
    Supervised n { s.reapChild pid with pc := pc } := by
  obtain ⟨hfamily, hphase⟩ := h
  apply Supervised.moved (hfamily.reap hzombie)
  have hcount : (s.reapChild pid).reaped.length = s.reaped.length + 1 := List.length_append
  have hpending : ∀ {pending : List ℕ}, pending = [] → Struck n s pending →
      (s.reapChild pid).reaped = s.marked ++ [pid] := by
    rintro pending rfl hstruck
    rw [Supervisor.reapChild, hstruck.2, List.append_nil]
  cases hplace : s.pc with
  | waiting r =>
    simp only [Phase, hplace] at hphase
    obtain ⟨hstruck, hr, hnone⟩ := hphase
    cases r with
    | zero => simp [hplace, afterReap] at hpc
    | succ r =>
      simp only [hplace, afterReap, Option.some.injEq] at hpc
      subst hpc
      exact ⟨⟨hstruck.1, hpending rfl hstruck⟩, by simp only [hcount]; omega, hnone⟩
  | polling =>
    simp only [Phase, hplace] at hphase
    obtain ⟨hstruck, htermed, hkilled⟩ := hphase
    simp only [hplace, afterReap, Option.some.injEq] at hpc
    subst hpc
    exact ⟨⟨hstruck.1, hpending rfl hstruck⟩, htermed, hkilled⟩
  | draining =>
    simp only [Phase, hplace] at hphase
    simp only [hplace, afterReap, Option.some.injEq] at hpc
    subst hpc
    exact hphase
  | _ => simp [hplace, afterReap] at hpc

theorem Supervised.setProc (h : Supervised n s) {pid : ℕ} {p : Process}
    (hkind : p.isChild = (s.proc pid).isChild) : Supervised n (s.setProc pid p) :=
  ⟨h.family.setProc hkind, h.phase⟩

theorem supervised_step {a : SupervisorAction} (h : Supervised n s)
    (hs : superviseStep s a = some s') : Supervised n s' := by
  have hfamily := h.family
  have hphase := h.phase
  cases a with
  | step => exact supervised_main h hs
  | fork pid =>
    simp only [superviseStep] at hs
    cases hpc : s.pc with
    | forking left =>
      cases left with
      | zero => simp [hpc] at hs
      | succ left =>
        simp only [hpc] at hs
        split_ifs at hs with hfree
        obtain rfl := Option.some.inj hs
        simp only [Phase, hpc] at hphase
        obtain ⟨hn, hreaped, hmarked, hnone⟩ := hphase
        refine ⟨hfamily.fork hfree.1 hfree.2 hreaped _, ?_, hreaped, hmarked, hnone⟩
        rw [List.length_append, List.length_singleton]
        omega
    | _ => simp [hpc] at hs
  | forkFails =>
    simp only [superviseStep] at hs
    cases hpc : s.pc with
    | forking left =>
      cases left with
      | zero => simp [hpc] at hs
      | succ left =>
        simp only [hpc, Option.some.injEq] at hs
        subst hs
        simp only [Phase, hpc] at hphase
        obtain ⟨hn, -, -, hnone⟩ := hphase
        apply Supervised.moved hfamily
        exact ⟨by simp only; omega, hnone⟩
    | _ => simp [hpc] at hs
  | reap pid =>
    simp only [superviseStep] at hs
    split_ifs at hs with hzombie
    obtain ⟨pc, hpc, rfl⟩ := Option.map_eq_some_iff.mp hs
    exact supervised_reap h hzombie hpc
  | deadlinePasses =>
    simp only [superviseStep] at hs
    split_ifs at hs with hpc
    obtain rfl := Option.some.inj hs
    simp only [Phase, hpc] at hphase
    obtain ⟨hstruck, htermed, hkilled⟩ := hphase
    apply Supervised.moved hfamily
    exact ⟨hstruck, htermed, by simp [hkilled, live]⟩
  | interrupt =>
    simp only [superviseStep] at hs
    cases hpc : s.pc with
    | waiting r =>
      cases r with
      | zero => simp [hpc] at hs
      | succ r =>
        simp only [hpc, Option.some.injEq] at hs
        subst hs
        simp only [Phase, hpc] at hphase
        obtain ⟨hstruck, -, htermed, hkilled⟩ := hphase
        refine ⟨hfamily.of_main rfl rfl rfl rfl rfl, hstruck, ?_, hkilled⟩
        simp [htermed, live]
    | _ => simp [hpc] at hs
  | sigint =>
    simp only [superviseStep, Option.some.injEq] at hs
    subst hs
    exact ⟨hfamily.of_main rfl rfl rfl rfl rfl, hphase⟩
  | exit pid =>
    simp only [superviseStep] at hs
    split_ifs at hs with hrunning
    obtain rfl := Option.some.inj hs
    exact h.setProc (by rw [hrunning]; rfl)
  | foreignStarts pid =>
    simp only [superviseStep] at hs
    split_ifs at hs with hfree
    obtain rfl := Option.some.inj hs
    exact h.setProc (by rw [hfree]; rfl)
  | foreignEnds pid =>
    simp only [superviseStep] at hs
    split_ifs at hs with hforeign
    obtain rfl := Option.some.inj hs
    exact h.setProc (by rw [hforeign]; rfl)

theorem supervised_reachable {numFiles : ℕ} (h : (supervisor numFiles).Reachable s) :
    Supervised (numChildren numFiles) s := by
  apply h.invariant
  · refine ⟨⟨List.nodup_nil, by simp [supervisor], ?_, List.nodup_nil, List.nil_subset _,
      List.nil_prefix, rfl⟩, Nat.zero_add _, rfl, rfl, rfl, rfl⟩
    intro p
    simp [supervisor, Process.isChild]
  · intro s a s' _ hs hstep
    exact supervised_step hs hstep

/-! ### The whole run -/

theorem nextKill_subset (h : Supervised n s) {p : ℕ} (hp : p ∈ nextKill s) :
    (s.proc p).isChild = true := by
  have htarget : ∀ i, p ∈ s.killTarget i → p ∈ live s.pids := by
    intro i hmem
    unfold Supervisor.killTarget at hmem
    split_ifs at hmem with hpos
    · rw [List.mem_singleton] at hmem
      subst hmem
      have hi : i < s.pids.length := by
        by_contra hout
        rw [List.getD_eq_getElem?_getD, List.getElem?_eq_none (not_lt.mp hout)] at hpos
        exact lt_irrefl 0 hpos
      rw [List.getD_eq_getElem?_getD, List.getElem?_eq_getElem hi, Option.getD_some] at hpos ⊢
      exact List.mem_filter.mpr ⟨List.getElem_mem hi, decide_eq_true hpos⟩
    · cases hmem
  have hphase := h.phase
  unfold nextKill at hp
  cases hpc : s.pc with
  | sigterm i =>
    simp only [Phase, hpc] at hphase hp
    exact h.family.child_of_live (by simpa using hphase.1.2) (htarget i hp)
  | sigkill i =>
    simp only [Phase, hpc] at hphase hp
    exact h.family.child_of_live (by simpa using hphase.1.2) (htarget i hp)
  | _ => simp [hpc] at hp

theorem forked_length_le (h : Phase n s) : s.forked.length ≤ n := by
  unfold Phase at h
  cases hpc : s.pc with
  | forking left =>
    simp only [hpc] at h
    omega
  | failed =>
    simp only [hpc] at h
    exact h.1
  | draining | interrupted =>
    simp only [hpc] at h
    exact h.1.le
  | _ =>
    simp only [hpc] at h
    exact h.1.1.le

/-- While the parent waits, the children in its table are those it waits for. -/
theorem countAliveChildren_waiting (h : Supervised n s) {r : ℕ} (hpc : s.pc = .waiting r) :
    countAliveChildren s = r := by
  have hphase := h.phase
  simp only [Phase, hpc] at hphase
  obtain ⟨⟨hforked, hreaped⟩, hcount, -⟩ := hphase
  rw [List.append_nil] at hreaped
  have hexists : countAliveChildren s = (live s.pids).length := by
    rw [countAliveChildren, live, ← List.countP_eq_length_filter]
    apply List.countP_congr
    intro p hp
    simp only [Bool.and_eq_true, decide_eq_true_eq, and_iff_left_iff_imp]
    intro hpos hfree
    have hchild := h.family.child_of_live hreaped (List.mem_filter.mpr ⟨hp, decide_eq_true hpos⟩)
    rw [hfree] at hchild
    cases hchild
  have hall : (s.forked.filter (fun p => p ∈ s.reaped)).Perm s.reaped := by
    apply (List.perm_ext_iff_of_nodup (h.family.nodup.filter _) h.family.reaped_nodup).mpr
    intro p
    simp only [List.mem_filter, decide_eq_true_eq, and_iff_right_iff_imp]
    exact fun hp => h.family.reaped_forked hp
  have hsplit := List.length_eq_length_filter_add (l := s.forked) (fun p => decide (p ∈ s.reaped))
  rw [hexists, h.family.live_pids, ← hreaped]
  rw [hall.length_eq] at hsplit
  simp only [← decide_not] at hsplit
  omega

/-- In every run the parent signals children of its own that have not been reaped and
no other process; it ends regularly when every child has been reaped once, and
none has then been signalled; and a shutdown has sent both signals, once each,
to every child that it leaves unreaped. While the parent waits, the watchdog
counts the children that it waits for. -/
theorem supervision {numFiles : ℕ} (hfiles : numFiles ≤ maxFiles)
    (h : (supervisor numFiles).Reachable s) :
    (∀ p ∈ nextKill s, (s.proc p).isChild = true) ∧ s.pids.length ≤ maxFiles + 6 ∧
    (∀ r, s.pc = .waiting r → countAliveChildren s = r) ∧
    (s.pc = .finished → s.forked.length = numFiles + 6 ∧ s.reaped.Perm s.forked ∧
      s.termed = [] ∧ s.killed = []) ∧
    (s.pc = .interrupted → s.termed.Nodup ∧ s.killed.Sublist s.termed ∧
      ∀ p ∈ s.forked, p ∉ s.reaped → p ∈ s.killed) := by
  have hs := supervised_reachable h
  have hfamily := hs.family
  have hphase := hs.phase
  refine ⟨fun p hp => nextKill_subset hs hp, ?_, fun r hr =>
      countAliveChildren_waiting hs hr, ?_, ?_⟩
  · have hforked := forked_length_le hphase
    rw [hfamily.length_pids]
    simp only [numChildren] at hforked
    omega
  · intro hpc
    simp only [Phase, hpc] at hphase
    obtain ⟨⟨hforked, -⟩, hcount, htermed, hkilled⟩ := hphase
    refine ⟨hforked, ?_, htermed, hkilled⟩
    exact (hfamily.reaped_nodup.subperm hfamily.reaped_forked).perm_of_length_le (by omega)
  · intro hpc
    simp only [Phase, hpc] at hphase
    obtain ⟨-, ⟨hlive, htermed⟩, hkilled⟩ := hphase
    refine ⟨hfamily.nodup.sublist htermed, hkilled ▸ hlive, ?_⟩
    intro p hp hunreaped
    rw [hkilled, hfamily.live_pids, List.mem_filter]
    exact ⟨hp, by simpa using fun hmarked => hunreaped (hfamily.marked_reaped.subset hmarked)⟩

/-! ### A shutdown in which one child has ended and one has not -/

/-- The seven children of one file start, one of them ends, and its pid is taken by
another process before the signal comes. -/
def lateShutdown : List SupervisorAction :=
  [.fork 11, .fork 12, .fork 13, .fork 14, .fork 15, .fork 16, .fork 17, .step, .exit 11, .reap 11,
    .foreignStarts 11, .step, .interrupt] ++ List.replicate 8 .step ++ [.deadlinePasses] ++
    List.replicate 9 .step

theorem lateShutdown_isSome :
    ((supervisor 1).run (supervisor 1).init lateShutdown).isSome := by decide

theorem supervision_lateShutdown : ∃ s, (supervisor 1).Reachable s ∧ s.pc = .interrupted ∧
    s.killed = [12, 13, 14, 15, 16, 17] ∧ ∀ p ∈ s.forked, p ∉ s.reaped → p ∈ s.killed := by
  have hreach := (Machine.execution_of_isSome lateShutdown_isSome).reachable
  have hpc : (((supervisor 1).run (supervisor 1).init lateShutdown).get lateShutdown_isSome).pc =
      .interrupted := by decide
  exact ⟨_, hreach, hpc, by decide, ((supervision (by decide) hreach).2.2.2.2 hpc).2.2⟩

end SysProg.HW4

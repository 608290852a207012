import SysProg.Lib.LockPrograms
import SysProg.HW3.System

/-!
# The order in which the processes take their mutexes

Each process is reduced to its calls of `lock_sem`, `unlock_sem` and
`sem_trywait` on mutexes. Tests on shared data become open choices, so every
run of the program is a run of the skeletons. A word is locked before floors,
floors in index order, the global mutex before a floor, and the print mutex
last.
-/

namespace SysProg.HW3
open SysProg.Lib SysProg.Lib.LockProg

inductive Mutex (cfg : Config) where
  | global
  | floor (f : cfg.Floor)
  | word (wi : cfg.WordIndex)
  | sorterLock (wi : cfg.WordIndex)
  | delivery
  | reposition
  | print
  deriving DecidableEq

variable {cfg : Config}

abbrev Skeleton (cfg : Config) := LockProg (Mutex cfg)

/-! ### Helpers of the processes -/

/-- `fail` ends the process with its locks still taken. -/
def mayFail : Skeleton cfg := either .exit .skip

def safeLog : Skeleton cfg := block [.lock .print, mayFail, .unlock .print]

/-- The two floors of a word, the lower index first, once when they coincide. -/
def lockFloors (af sf : cfg.Floor) : Skeleton cfg :=
  let lo := if af < sf then af else sf
  let hi := if af < sf then sf else af
  if hi ≠ lo then
    block [.lock (.floor lo), block [.lock (.floor hi), .skip, .unlock (.floor hi)],
      .unlock (.floor lo)]
  else block [.lock (.floor lo), .skip, .unlock (.floor lo)]

def reserveSlot : Skeleton cfg := block [.lock .global, .skip, .unlock .global]
def reserveWcarrierSlot : Skeleton cfg := reserveSlot
def reserveSorterSlot : Skeleton cfg := reserveSlot

def reserveCarrierSlot (floor : cfg.Floor) : Skeleton cfg :=
  block [.lock .global,
    either .skip (block [mayFail, block [.lock (.floor floor), .skip, .unlock (.floor floor)]]),
    .unlock .global]

def moveCarrierBetweenFloorsLocks (old toFloor : cfg.Floor) : Skeleton cfg :=
  if old = toFloor then .skip
  else block [
    block [.lock (.floor old), .skip, .unlock (.floor old)],
    block [.lock (.floor toFloor), .skip, .unlock (.floor toFloor)],
    -- both ways out of the second visit post the mutex
    either .skip (block [.lock (.floor old), .skip, .unlock (.floor old)])]

/-- Called with the word's mutex held; `done` is what the caller does with the result 1. -/
def tryCompleteWord (wi : cfg.WordIndex) (done : Skeleton cfg) : Skeleton cfg :=
  either .skip (block [
    either .skip (.choose (fun af : cfg.Floor => lockFloors af (cfg.sortingFloor wi))),
    done])

def enqueueDelivery : Skeleton cfg :=
    block [block [.lock .delivery, .skip, .unlock .delivery], mayFail]
def enqueueReposition : Skeleton cfg :=
  block [block [.lock .reposition, .skip, .unlock .reposition], mayFail]

/-! ### The processes -/

def wordCarrierLoop (floor : cfg.Floor) : Skeleton cfg :=
  block [safeLog,
    .loop (block [
      block [.lock .global, .skip, .unlock .global],
      either .skip (.choose (fun wi : cfg.WordIndex => block [
        safeLog,
        lockFloors floor (cfg.sortingFloor wi),
        block [.lock (.word wi), either safeLog .skip, .unlock (.word wi)]]))]),
    .exit]

def letterCarrierLoop : Skeleton cfg :=
  block [safeLog,
    .loop (block [
      .loop (.choose (fun wi : cfg.WordIndex =>
        either .skip (block [.lock (.word wi), .skip, .unlock (.word wi)]))),
      either
        -- no character found
        (either .exit (block [safeLog, safeLog, enqueueReposition]))
        (.choose (fun fw : cfg.WordIndex => block [safeLog,
          either
            (block [block [.lock (.word fw), .skip, .unlock (.word fw)], safeLog, safeLog])
            (block [safeLog, enqueueDelivery])]))]),
    .exit]

def sorterLoop : Skeleton cfg :=
  block [safeLog,
    .loop (.loop (.choose (fun wi : cfg.WordIndex =>
      either .skip (block [mayFail,
        .tryLock (.sorterLock wi) (block [
          block [.lock (.word wi), either .skip (tryCompleteWord wi safeLog), .unlock (.word wi)],
          .unlock (.sorterLock wi)])])))),
    .exit]

def deliveryElevatorLoop : Skeleton cfg :=
  block [safeLog,
    .loop (block [
      block [.lock .delivery, .skip, .unlock .delivery],
      either .skip (block [safeLog, safeLog,
        .loop (.choose (fun x : cfg.WordIndex × cfg.Floor × cfg.Floor => block [
          block [.lock (.word x.1), .skip, .unlock (.word x.1)],
          moveCarrierBetweenFloorsLocks x.2.1 x.2.2,
          either safeLog .skip]))])]),
    .exit]

def repositionElevatorLoop : Skeleton cfg :=
  block [safeLog,
    .loop (block [
      block [.lock .reposition, .skip, .unlock .reposition],
      either .skip (block [safeLog,
        .loop (.choose (fun x : cfg.Floor × cfg.Floor => block [
          moveCarrierBetweenFloorsLocks x.1 x.2, safeLog]))])]),
    .exit]

def spawnLetterCarrierLocks (floor : cfg.Floor) : Skeleton cfg :=
  block [reserveCarrierSlot floor, mayFail]

def maybeSpawnMoreCarriers : Skeleton cfg :=
  forEach (List.finRange cfg.numFloors) (fun f => block [
    block [.lock (.floor f), .skip, .unlock (.floor f)],
    either .skip
      (forEach (List.range cfg.letterCarriersPerFloor) (fun _ => spawnLetterCarrierLocks f))])

/-- `print_summary`: seven lines, then one for each process of the three kinds. -/
def printSummary : Skeleton cfg :=
  block [
    forEach (List.range 7) (fun _ => safeLog),
    .loop (either safeLog .skip),
    .loop (either safeLog .skip),
    .loop (either safeLog .skip)]

/-- The children run on while the parent writes the output file and the summary. -/
def parentMain : Skeleton cfg :=
  block [
    forEach (List.finRange cfg.numFloors) (fun f => block [
      forEach (List.range cfg.wordCarriersPerFloor) (fun _ => block [reserveWcarrierSlot, mayFail]),
      forEach (List.range cfg.letterCarriersPerFloor) (fun _ => spawnLetterCarrierLocks f),
      forEach (List.range cfg.sortingProcessesPerFloor)
        (fun _ => block [reserveSorterSlot, mayFail])]),
    mayFail,
    .loop (block [mayFail, maybeSpawnMoreCarriers]),
    mayFail,
    either (block [mayFail, printSummary, mayFail]) .skip,
    mayFail,
    .exit]

inductive Role (cfg : Config) where
  | parent
  | wordCarrier (floor : cfg.Floor)
  | letterCarrier
  | sorter
  | deliveryElevator
  | repositionElevator

def Role.program : Role cfg → Skeleton cfg
  | .parent => parentMain
  | .wordCarrier floor => wordCarrierLoop floor
  | .letterCarrier => letterCarrierLoop
  | .sorter => sorterLoop
  | .deliveryElevator => deliveryElevatorLoop
  | .repositionElevator => repositionElevatorLoop

/-! ### The order -/

def Mutex.rank : Mutex cfg → ℕ
  | .sorterLock _ => 0
  | .global => 1
  | .word _ => 2
  | .floor f => 3 + f.val
  | .delivery => 3 + cfg.numFloors
  | .reposition => 4 + cfg.numFloors
  | .print => 5 + cfg.numFloors

/-- Waiting for a mutex needs every lock already held to stand before it; the lock of
the sorters is never waited for. -/
def InOrder (held : List (Mutex cfg)) (l : Mutex cfg) : Prop :=
  (∀ l' ∈ held, l'.rank < l.rank) ∧ ∀ wi, l ≠ .sorterLock wi

theorem critical_balanced {held : List (Mutex cfg)} {l : Mutex cfg} (h : InOrder held l) :
    (block [.lock l, .skip, .unlock l]).Balanced InOrder held := .section h .skip

theorem mayFail_balanced (held : List (Mutex cfg)) : mayFail.Balanced InOrder held :=
  .either .exit .skip

theorem safeLog_balanced {held : List (Mutex cfg)} (h : ∀ l' ∈ held, l'.rank < 3) :
    safeLog.Balanced InOrder held := by
  refine .section ⟨?_, by simp⟩ (mayFail_balanced _)
  intro l' hl'
  refine (h l' hl').trans_le ?_
  simp only [Mutex.rank]
  omega

theorem lockFloors_balanced {held : List (Mutex cfg)} (h : ∀ l' ∈ held, l'.rank < 3)
    (af sf : cfg.Floor) : (lockFloors af sf).Balanced InOrder held := by
  have hfirst : ∀ f : cfg.Floor, InOrder held (.floor f) := by
    intro f
    refine ⟨?_, by simp⟩
    intro l' hl'
    refine (h l' hl').trans_le ?_
    simp only [Mutex.rank]
    omega
  have hordered : ∀ {lo hi : cfg.Floor}, lo < hi → (block [.lock (.floor lo),
      block [.lock (.floor hi), .skip, .unlock (.floor hi)], .unlock (.floor lo)]).Balanced
        InOrder held := by
    intro lo hi hlt
    refine .section (hfirst lo) (critical_balanced ⟨?_, by simp⟩)
    intro l' hl'
    rcases List.mem_cons.mp hl' with rfl | hheld
    · exact Nat.add_lt_add_left hlt 3
    · exact (hfirst hi).1 l' hheld
  unfold lockFloors
  by_cases hlt : af < sf
  · simp only [if_pos hlt, if_pos hlt.ne']
    exact hordered hlt
  · simp only [if_neg hlt]
    split_ifs with hne
    · exact hordered (lt_of_le_of_ne (not_lt.mp hlt) hne.symm)
    · exact critical_balanced (hfirst _)

theorem critical_balanced_nil {l : Mutex cfg} (h : ∀ wi, l ≠ .sorterLock wi) :
    (block [.lock l, .skip, .unlock l]).Balanced InOrder [] := critical_balanced ⟨by simp, h⟩

theorem safeLog_balanced_nil : (safeLog : Skeleton cfg).Balanced InOrder [] :=
  safeLog_balanced (by simp)

theorem reserveCarrierSlot_balanced (f : cfg.Floor) :
    (reserveCarrierSlot f).Balanced InOrder [] := by
  refine .section ⟨by simp, by simp⟩ (.either .skip (.seq (mayFail_balanced _) ?_))
  refine .seq (critical_balanced ⟨?_, by simp⟩) .skip
  intro l' hl'
  rw [List.mem_singleton.mp hl']
  simp only [Mutex.rank]
  omega

theorem spawnLetterCarrierLocks_balanced (f : cfg.Floor) :
    (spawnLetterCarrierLocks f).Balanced InOrder [] :=
  .seq (reserveCarrierSlot_balanced f) (.seq (mayFail_balanced _) .skip)

theorem moveCarrierBetweenFloorsLocks_balanced (old toFloor : cfg.Floor) :
    (moveCarrierBetweenFloorsLocks old toFloor).Balanced InOrder [] := by
  have hfloor : ∀ f : cfg.Floor, (block [.lock (.floor f), .skip, .unlock (.floor f)] :
      Skeleton cfg).Balanced InOrder [] := fun f => critical_balanced_nil (by simp)
  unfold moveCarrierBetweenFloorsLocks
  split_ifs with heq
  · exact .skip
  · exact .seq (hfloor old) (.seq (hfloor toFloor) (.seq (.either .skip (hfloor old)) .skip))

theorem tryCompleteWord_balanced {held : List (Mutex cfg)} (h : ∀ l' ∈ held, l'.rank < 3)
    (wi : cfg.WordIndex) : (tryCompleteWord wi safeLog).Balanced InOrder held := by
  refine .either .skip (.seq (.either .skip (.choose ?_)) (.seq (safeLog_balanced h) .skip))
  intro af
  exact lockFloors_balanced h af _

theorem wordCarrierLoop_balanced (f : cfg.Floor) : (wordCarrierLoop f).Balanced InOrder [] := by
  have hword : ∀ wi : cfg.WordIndex, (block [.lock (.word wi), either safeLog .skip,
      .unlock (.word wi)] : Skeleton cfg).Balanced InOrder [] := by
    intro wi
    refine .section ⟨by simp, by simp⟩ (.either (safeLog_balanced ?_) .skip)
    simp [Mutex.rank]
  refine .seq safeLog_balanced_nil (.seq (.loop ?_) (.seq .exit .skip))
  refine .seq (critical_balanced_nil (by simp)) (.seq (.either .skip (.choose ?_)) .skip)
  intro wi
  exact .seq safeLog_balanced_nil (.seq (lockFloors_balanced (by simp) _ _) (.seq (hword wi) .skip))

theorem letterCarrierLoop_balanced : (letterCarrierLoop : Skeleton cfg).Balanced InOrder [] := by
  have hlog : (safeLog : Skeleton cfg).Balanced InOrder [] := safeLog_balanced_nil
  have hword : ∀ wi : cfg.WordIndex, (block [.lock (.word wi), .skip, .unlock (.word wi)] :
      Skeleton cfg).Balanced InOrder [] := fun wi => critical_balanced_nil (by simp)
  have hdelivery : (enqueueDelivery : Skeleton cfg).Balanced InOrder [] :=
    .seq (critical_balanced_nil (by simp)) (.seq (mayFail_balanced _) .skip)
  have hreposition : (enqueueReposition : Skeleton cfg).Balanced InOrder [] :=
    .seq (critical_balanced_nil (by simp)) (.seq (mayFail_balanced _) .skip)
  refine .seq hlog (.seq (.loop (.seq (.loop (.choose ?_)) (.seq (.either ?_ (.choose ?_)) .skip)))
    (.seq .exit .skip))
  · intro wi
    exact .either .skip (hword wi)
  · exact .either .exit (.seq hlog (.seq hlog (.seq hreposition .skip)))
  · intro fw
    refine .seq hlog (.seq (.either ?_ ?_) .skip)
    · exact .seq (hword fw) (.seq hlog (.seq hlog .skip))
    · exact .seq hlog (.seq hdelivery .skip)

theorem sorterLoop_balanced : (sorterLoop : Skeleton cfg).Balanced InOrder [] := by
  refine .seq safeLog_balanced_nil (.seq (.loop (.loop (.choose ?_))) (.seq .exit .skip))
  intro wi
  refine .either .skip (.seq (mayFail_balanced _) (.seq ⟨?_, rfl⟩ .skip))
  have hword : (block [.lock (.word wi), either .skip (tryCompleteWord wi safeLog),
      .unlock (.word wi)] : Skeleton cfg).Balanced InOrder [.sorterLock wi] := by
    refine .section ⟨by simp [Mutex.rank], by simp⟩ (.either .skip (tryCompleteWord_balanced ?_ wi))
    simp [Mutex.rank]
  exact hword.wp ⟨[], rfl, rfl⟩

theorem deliveryElevatorLoop_balanced :
    (deliveryElevatorLoop : Skeleton cfg).Balanced InOrder [] := by
  have hlog : (safeLog : Skeleton cfg).Balanced InOrder [] := safeLog_balanced_nil
  refine .seq hlog (.seq (.loop ?_) (.seq .exit .skip))
  refine .seq (critical_balanced_nil (by simp)) (.seq (.either .skip ?_) .skip)
  refine .seq hlog (.seq hlog (.seq (.loop (.choose ?_)) .skip))
  intro x
  exact .seq (critical_balanced_nil (by simp))
    (.seq (moveCarrierBetweenFloorsLocks_balanced _ _) (.seq (.either hlog .skip) .skip))

theorem repositionElevatorLoop_balanced :
    (repositionElevatorLoop : Skeleton cfg).Balanced InOrder [] := by
  have hlog : (safeLog : Skeleton cfg).Balanced InOrder [] := safeLog_balanced_nil
  refine .seq hlog (.seq (.loop ?_) (.seq .exit .skip))
  refine .seq (critical_balanced_nil (by simp)) (.seq (.either .skip ?_) .skip)
  refine .seq hlog (.seq (.loop (.choose ?_)) .skip)
  intro x
  exact .seq (moveCarrierBetweenFloorsLocks_balanced _ _) (.seq hlog .skip)

theorem printSummary_balanced : (printSummary : Skeleton cfg).Balanced InOrder [] := by
  have hline : (either safeLog .skip : Skeleton cfg).Balanced InOrder [] :=
    .either safeLog_balanced_nil .skip
  refine .seq (.forEach ?_) (.seq (.loop hline) (.seq (.loop hline) (.seq (.loop hline) .skip)))
  intro _
  exact safeLog_balanced_nil

theorem parentMain_balanced : (parentMain : Skeleton cfg).Balanced InOrder [] := by
  have hfail : (mayFail : Skeleton cfg).Balanced InOrder [] := mayFail_balanced []
  have hreserve : (block [reserveSlot, mayFail] : Skeleton cfg).Balanced InOrder [] :=
    .seq (critical_balanced_nil (by simp)) (.seq hfail .skip)
  have hspawn : ∀ f : cfg.Floor, (forEach (List.range cfg.letterCarriersPerFloor)
      (fun _ => spawnLetterCarrierLocks f)).Balanced InOrder [] :=
    fun f => .forEach (fun _ => spawnLetterCarrierLocks_balanced f)
  have hend : (either (block [mayFail, printSummary, mayFail]) .skip : Skeleton cfg).Balanced
      InOrder [] :=
    .either (.seq hfail (.seq printSummary_balanced (.seq hfail .skip))) .skip
  refine .seq (.forEach ?_) (.seq hfail (.seq (.loop (.seq hfail (.seq (.forEach ?_) .skip)))
    (.seq hfail (.seq hend (.seq hfail (.seq .exit .skip))))))
  · intro f
    exact .seq (.forEach (fun _ => hreserve))
      (.seq (hspawn f) (.seq (.forEach (fun _ => hreserve)) .skip))
  · intro f
    exact .seq (critical_balanced_nil (by simp)) (.seq (.either .skip (hspawn f)) .skip)

theorem Role.program_balanced (role : Role cfg) : role.program.Balanced InOrder [] := by
  cases role with
  | parent => exact parentMain_balanced
  | wordCarrier floor => exact wordCarrierLoop_balanced floor
  | letterCarrier => exact letterCarrierLoop_balanced
  | sorter => exact sorterLoop_balanced
  | deliveryElevator => exact deliveryElevatorLoop_balanced
  | repositionElevator => exact repositionElevatorLoop_balanced

/-- Whatever processes there are and however they interleave, no process waits in a
circle of mutexes, and none ever waits for the lock of the sorters. -/
theorem no_mutex_cycle {P : Type} [DecidableEq P] (role : P → Role cfg)
    {s : LockState P (Mutex cfg)} (h : LockReachable (fun p => (role p).program) s) :
    (∀ p, ¬ Relation.TransGen s.WaitsFor p p) ∧ ∀ p wi, ¬ s.Blocked p (.sorterLock wi) := by
  have hbalanced : ∀ p, ((role p).program).Balanced InOrder [] :=
    fun p => (role p).program_balanced
  constructor
  · intro p
    exact h.no_cycle Mutex.rank hbalanced (fun held l hl => hl.1) p
  · intro p wi hblocked
    exact (h.admits_of_blocked hbalanced hblocked).2 wi rfl

/-- Two letter carriers print their first line; the second waits for the first. -/
theorem no_mutex_cycle_firstLines : ∃ s : LockState (Fin 2) (Mutex oneWord),
    LockReachable (fun _ => Role.program .letterCarrier) s ∧ s.WaitsFor 1 0 ∧
      ∀ p, ¬ Relation.TransGen s.WaitsFor p p := by
  have hcalls :
      LockReachable (P := Fin 2) (fun _ => Role.program (.letterCarrier : Role oneWord)) _ :=
    (((Relation.ReflTransGen.refl.tail (.seq (p := 0) rfl)).tail (.seq (p := 0) rfl)).tail
      (.seq (p := 1) rfl)).tail (.seq (p := 1) rfl)
  have hlocked := hcalls.tail (.lock (p := 0) rfl Nat.one_pos)
  refine ⟨_, hlocked, ⟨.print, ⟨⟨_, rfl⟩, rfl⟩, ?_⟩, (no_mutex_cycle _ hlocked).1⟩
  exact List.mem_cons_self

end SysProg.HW3

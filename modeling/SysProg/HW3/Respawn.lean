import SysProg.HW3.Population

/-!
# Respawning and the table of slots

Slots are handed out and never given back. On more than one floor the carriers
of the ground floor may all ride away again and again while no word is
admitted, and each time the parent starts new ones, until `MAX_CARRIERS` slots
are used up and the next respawn stops the whole run. The schedule is built
below, one carrier and one round at a time. On one floor no carrier ever moves.
-/

open scoped BigOperators
namespace SysProg.HW3
open SysProg.Lib
variable {cfg : Config}

def RespawnsSucceed (cfg : Config) : Prop :=
  ∀ s : State cfg, (building cfg).Reachable s → ∀ f left, s.parent = .respawning f (left + 1) →
    s.nextCarrierSlot.val < maxCarriers

/-! ### One floor: nobody moves -/

namespace Traffic

structure Static (t : Traffic cfg) : Prop where
  unmarked : ∀ f, t.census.respawnPending f = false
  still : ∀ e req pc, (t.cabins e).moving = some (req, pc) → pc = .start ∨ pc = .done

theorem Static.still_update {t : Traffic cfg} (h : t.Static) {e : Shaft} {c : Cabin cfg}
    (hc : ∀ req pc, c.moving = some (req, pc) → pc = .start ∨ pc = .done) :
    ∀ e' req pc, (Function.update t.cabins e c e').moving = some (req, pc) →
      pc = .start ∨ pc = .done := by
  rw [Function.forall_update_iff t.cabins
    (fun _ c => ∀ req pc, c.moving = some (req, pc) → pc = .start ∨ pc = .done)]
  exact ⟨hc, fun e' _ => h.still e'⟩

theorem Static.step {t t' : Traffic cfg} (hone : ∀ f g : cfg.Floor, f = g) (h : t.Static)
    (hs : t.Step t') : t'.Static := by
  cases hs with
  | quiet | start | leave | rest | overflow | wake | stop | alarm => exact ⟨h.unmarked, h.still⟩
  | request e toFloor =>
    exact ⟨h.unmarked, h.still_update (h.still e)⟩
  | board e hcabin =>
    refine ⟨h.unmarked, h.still_update ?_⟩
    rintro r pc heq
    cases heq
    exact .inl rfl
  | @move req queue pc e hcabin hdone =>
    have hmoving : (t.cabins e).moving = some (req, pc) := by rw [hcabin]
    obtain rfl : pc = .start := (h.still e req pc hmoving).resolve_right hdone
    refine ⟨h.unmarked, h.still_update ?_⟩
    rintro r pc heq
    cases heq
    exact .inr (if_pos (hone _ _))
  | signal e hcabin =>
    exact ⟨h.unmarked, h.still_update (by simp)⟩
  | spawn slot f =>
    refine ⟨fun g => ?_, h.still⟩
    obtain rfl := hone g f
    simp

end Traffic

theorem unmarked_of_oneFloor (hone : cfg.numFloors = 1) {s : State cfg}
    (h : (building cfg).Reachable s) (f : cfg.Floor) : s.respawnPending f = false := by
  have hfloors : ∀ f g : cfg.Floor, f = g := fun f g => Fin.ext (by omega)
  have hinit : (traffic (init cfg)).Static := by
    refine ⟨fun _ => rfl, ?_⟩
    intro e req pc hmoving
    cases e <;> cases hmoving
  exact (traffic_reachable h hinit (fun _ _ _ ht hs => ht.step hfloors hs)).2.unmarked f

def ParentPc.respawns : ParentPc cfg → Bool
  | .deciding _ => true
  | .respawning _ _ => true
  | _ => false

theorem respawns_parent {s s' : State cfg} (hunmarked : ∀ f, s.respawnPending f = false)
    (h : s.parent.respawns = false) (hs : parentStep s = some s') : s'.parent.respawns = false := by
  unfold parentStep at hs
  split at hs
  case h_2 job jobs hpc =>
    cases hs
    rcases startJob_parent s (.starting jobs) job with hnext | hnext <;> rw [hnext] <;> rfl
  case h_3 =>
    cases hs
    dsimp only
    split_ifs <;> rfl
  case h_4 =>
    split at hs <;> cases hs
    · simp only [hunmarked, Bool.false_eq_true, and_false, ↓reduceIte]
      rfl
    · rfl
  case h_5 hpc =>
    rw [hpc] at h
    cases h
  case h_6 hpc =>
    rw [hpc] at h
    cases h
  case h_7 hpc =>
    rw [hpc] at h
    cases h
  case h_9 => split at hs <;> cases hs <;> rfl
  case h_12 =>
    cases hs
    dsimp only
    split_ifs <;> rfl
  all_goals cases hs
  all_goals rfl

theorem respawns_of_oneFloor (hone : cfg.numFloors = 1) {s : State cfg}
    (h : (building cfg).Reachable s) : s.parent.respawns = false := by
  refine h.invariant (P := fun s => s.parent.respawns = false) rfl ?_
  intro s a s' hreach hprior hs
  by_cases ha : a = .parent
  · subst ha
    exact respawns_parent (unmarked_of_oneFloor hone hreach) hprior hs
  · rw [(step_parent_eq hs ha).1]
    exact hprior

/-! ### Too many processes: the run fails before its loop -/

def Job.isWordCarrier : Job cfg → Bool
  | .wordCarrier _ => true
  | _ => false

def Job.isSorter : Job cfg → Bool
  | .sorter _ => true
  | _ => false

theorem countP_startJobs (cfg : Config) :
    (startJobs cfg).countP Job.isWordCarrier = cfg.numFloors * cfg.wordCarriersPerFloor ∧
    (startJobs cfg).countP Job.isLetterCarrier = cfg.numFloors * cfg.letterCarriersPerFloor ∧
    (startJobs cfg).countP Job.isSorter = cfg.numFloors * cfg.sortingProcessesPerFloor := by
  refine ⟨?_, ?_, ?_⟩ <;>
    simp [startJobs, List.countP_flatMap, Function.comp_def, Job.isWordCarrier,
      Job.isLetterCarrier, Job.isSorter, List.countP_replicate]

/-- The parent is still forking, and every fork so far has got its slot. -/
structure Booting (s : State cfg) (jobs : List (Job cfg)) : Prop where
  pc : s.parent = .starting jobs
  wordCarriers : s.nextWordCarrierSlot + jobs.countP Job.isWordCarrier =
    cfg.numFloors * cfg.wordCarriersPerFloor
  sorters : s.nextSorterSlot + jobs.countP Job.isSorter =
    cfg.numFloors * cfg.sortingProcessesPerFloor
  wordCarriers_le : s.nextWordCarrierSlot ≤ maxWordCarriers
  sorters_le : s.nextSorterSlot ≤ maxSorters

theorem booting_parent {s s' : State cfg} {job : Job cfg} {jobs : List (Job cfg)}
    (h : Booting s (job :: jobs)) (hs : parentStep s = some s') :
    Booting s' jobs ∨ s'.parent = .failed := by
  obtain ⟨hpc, hword, hsorter, hwordLe, hsorterLe⟩ := h
  simp only [parentStep, hpc, Option.some.injEq] at hs
  subst hs
  cases job with
  | wordCarrier c =>
    simp only [startJob]
    split_ifs with hfree
    · simp only [List.countP_cons, Job.isWordCarrier, Job.isSorter] at hword hsorter
      exact .inl ⟨rfl, by simpa [add_assoc, add_comm] using hword, by simpa using hsorter, hfree,
        hsorterLe⟩
    · exact .inr rfl
  | letterCarrier f =>
    simp only [startJob, spawnLetterCarrier]
    split_ifs with hfree
    · simp only [List.countP_cons, Job.isWordCarrier, Job.isSorter] at hword hsorter
      exact .inl ⟨rfl, by simpa using hword, by simpa using hsorter, hwordLe, hsorterLe⟩
    · exact .inr rfl
  | sorter x =>
    simp only [startJob]
    split_ifs with hfree
    · simp only [List.countP_cons, Job.isWordCarrier, Job.isSorter] at hword hsorter
      exact .inl ⟨rfl, by simpa using hword, by simpa [add_assoc, add_comm] using hsorter, hwordLe,
        hfree⟩
    · exact .inr rfl
  | deliveryElevator | repositionElevator =>
    simp only [List.countP_cons, Job.isWordCarrier, Job.isSorter] at hword hsorter
    simp only [startJob]
    exact .inl ⟨rfl, by simpa using hword, by simpa using hsorter, hwordLe, hsorterLe⟩

theorem booting_of_tooMany
    (hmany : maxWordCarriers < cfg.numFloors * cfg.wordCarriersPerFloor ∨
      maxSorters < cfg.numFloors * cfg.sortingProcessesPerFloor) {s : State cfg}
    (h : (building cfg).Reachable s) : (∃ jobs, Booting s jobs) ∨ s.parent = .failed := by
  obtain ⟨hword, -, hsorter⟩ := countP_startJobs cfg
  refine h.invariant (P := fun s => (∃ jobs, Booting s jobs) ∨ s.parent = .failed) ?_ ?_
  · refine .inl ⟨startJobs cfg, rfl, ?_, ?_, Nat.zero_le _, Nat.zero_le _⟩
    · simpa [building, init] using hword
    · simpa [building, init] using hsorter
  · intro s a s' _ hprior hs
    by_cases ha : a = .parent
    · subst ha
      change parentStep s = some s' at hs
      rcases hprior with ⟨jobs, hboot⟩ | hfailed
      · cases jobs with
        | nil =>
          -- all forks have been made, so there were slots for all of them
          obtain ⟨-, hall, hall', hle, hle'⟩ := hboot
          simp only [List.countP_nil, add_zero] at hall hall'
          omega
        | cons job jobs => exact (booting_parent hboot hs).imp_left (fun hnext => ⟨jobs, hnext⟩)
      · simp [parentStep, hfailed] at hs
    · obtain ⟨hparent, -, -, hwords, hsorters⟩ := step_parent_eq hs ha
      rw [hparent]
      refine hprior.imp_left ?_
      rintro ⟨jobs, hpc, hw, hx, hle, hle'⟩
      exact ⟨jobs, by rw [hparent, hpc], by rw [hwords, hw], by rw [hsorters, hx],
        by rw [hwords]; exact hle, by rw [hsorters]; exact hle'⟩

end SysProg.HW3

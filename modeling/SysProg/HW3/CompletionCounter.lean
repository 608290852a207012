import SysProg.HW3.SystemSteps
import SysProg.Lib.SharedCounter

/-!
# Counting completed words

`try_complete_word` increments `completed_words` under the mutex of one word,
while the counter belongs to all words: two sorters that complete different
words may both load it before either stores. The view of a state below is a
counter with separate loads and stores.
-/

open scoped BigOperators
namespace SysProg.HW3
open SysProg.Lib SharedWord
variable {cfg : Config}

def completedCount (s : State cfg) : ℕ := ∑ wi, if (s.words wi).completed then 1 else 0

def SorterPc.increment : SorterPc cfg → Increment
  | .counting _ _ _ => .announced
  | .storing _ _ _ loaded => .loaded loaded
  | _ => .idle

def completionCounter (s : State cfg) : Counter cfg.Sorter where
  value := s.completedWords
  announcements := completedCount s
  phase := fun x => (s.sorters x).increment

/-- The action stores a value loaded before the counter last changed. -/
def StaleStore (s : State cfg) : Action cfg → Prop
  | .sorter x _ => ∃ off wi progress loaded,
      s.sorters x = .storing off wi progress loaded ∧ loaded ≠ s.completedWords
  | _ => False

theorem increment_of_completing {pc : SorterPc cfg} (h : pc.completing = none) :
    pc.increment = .idle := by
  cases pc with
  | counting | storing | releasing => cases h
  | _ => rfl

theorem staleStore_sorter {s : State cfg} {x : cfg.Sorter} {draw : ℕ} :
    StaleStore s (.sorter x draw) ↔ (completionCounter s).StaleStore x := by
  constructor
  · rintro ⟨off, wi, progress, loaded, hpc, hne⟩
    exact ⟨loaded, by simp [completionCounter, hpc, SorterPc.increment], hne⟩
  · rintro ⟨loaded, hpc, hne⟩
    simp only [completionCounter] at hpc hne
    cases hx : s.sorters x with
    | storing off wi progress v =>
      obtain rfl : v = loaded := by simpa [hx, SorterPc.increment] using hpc
      exact ⟨off, wi, progress, v, hx, hne⟩
    | _ => simp [hx, SorterPc.increment] at hpc

theorem completedCount_congr {s s' : State cfg}
    (h : ∀ wi, (s'.words wi).completed = (s.words wi).completed) :
    completedCount s' = completedCount s := by
  simp only [completedCount, h]

theorem increment_update {sorters : cfg.Sorter → SorterPc cfg} {x : cfg.Sorter}
    {pc : SorterPc cfg} :
    (fun y => (Function.update sorters x pc y).increment) =
      Function.update (fun y => (sorters y).increment) x pc.increment := by
  funext y
  exact Function.apply_update (fun _ => SorterPc.increment) sorters x pc y

/-- A sorter that is not counting leaves the counter alone. -/
theorem completionCounter_congr {s s' : State cfg} (hcount : s'.completedWords = s.completedWords)
    (hwords : ∀ wi, (s'.words wi).completed = (s.words wi).completed)
    (hsorters : ∀ x, (s'.sorters x).increment = (s.sorters x).increment) :
    completionCounter s' = completionCounter s := by
  simp only [completionCounter, hcount, completedCount_congr hwords, hsorters]

theorem WordCarrierTransition.completed {s s' : State cfg} {c : cfg.WordCarrier}
    (h : WordCarrierTransition s c s') (wi : cfg.WordIndex) :
    (s'.words wi).completed = (s.words wi).completed := by
  cases h
  case claim => exact apply_update_of_eq SharedWord.completed (by rfl) wi
  case accept => exact apply_update_of_eq SharedWord.completed (by rfl) wi
  case giveBack => exact apply_update_of_eq SharedWord.completed (by rfl) wi
  all_goals rfl

theorem completedCount_complete {s : State cfg} {wi : cfg.WordIndex}
    {w : SharedWord cfg.numFloors} (hnew : (s.words wi).completed = false)
    (hw : w.completed = true) :
    (∑ wj, if (Function.update s.words wi w wj).completed then 1 else 0) =
      completedCount s + 1 := by
  have hsum := sum_update_add (fun _ (v : SharedWord cfg.numFloors) =>
    if v.completed then 1 else 0) s.words wi w
  simpa [hnew, hw, completedCount] using hsum

theorem completionCounter_sorter {s s' : State cfg} {x : cfg.Sorter}
    (h : SorterTransition s x s') :
    (¬ (completionCounter s).StaleStore x ∧ completionCounter s' = completionCounter s) ∨
      (completionCounter s).Step x (completionCounter s') := by
  have hfresh : (s.sorters x).increment = .idle → ¬ (completionCounter s).StaleStore x := by
    rintro hidle ⟨v, hv, -⟩
    simp [completionCounter, hidle] at hv
  cases h with
  | turn lock _ hold hnew =>
    have hidle := increment_of_completing hold
    refine .inl ⟨hfresh hidle, completionCounter_congr rfl (fun _ => rfl) ?_⟩
    exact apply_update_of_eq SorterPc.increment ((increment_of_completing hnew).trans hidle.symm)
  | @pass off wi hpc _ _ =>
    have hidle : (s.sorters x).increment = .idle := by rw [hpc]; rfl
    refine .inl ⟨hfresh hidle, completionCounter_congr rfl ?_ ?_⟩
    · exact apply_update_of_eq SharedWord.completed (sameHeader_sortPass _).completed
    · exact apply_update_of_eq SorterPc.increment
        ((increment_of_completing (by simp)).trans hidle.symm)
  | @complete off wi hpc _ hsort _ =>
    right
    have hnew : (s.words wi).completed = false := by
      simp only [sortable, Bool.and_eq_true, Bool.not_eq_true'] at hsort
      exact hsort.1.2
    have hstep : (completionCounter s).Step x _ := .announce (by simp [completionCounter, hpc,
      SorterPc.increment])
    convert hstep using 1
    simp only [completionCounter, Counter.mk.injEq, true_and]
    exact ⟨completedCount_complete hnew rfl, increment_update⟩
  | load hpc =>
    right
    have hstep : (completionCounter s).Step x _ := .load (by simp [completionCounter, hpc,
      SorterPc.increment])
    convert hstep using 1
    simp only [completionCounter, Counter.mk.injEq, true_and]
    exact ⟨rfl, increment_update⟩
  | @store off loaded wi progress hpc =>
    right
    have hstep : (completionCounter s).Step x _ := .store (v := loaded) (by simp [completionCounter,
      hpc, SorterPc.increment])
    convert hstep using 1
    simp only [completionCounter, Counter.mk.injEq, true_and]
    exact ⟨rfl, increment_update⟩
  | @release off wi progress hpc _ =>
    have hidle : (s.sorters x).increment = .idle := by rw [hpc]; rfl
    refine .inl ⟨hfresh hidle, completionCounter_congr rfl ?_ ?_⟩
    · exact apply_update_of_eq SharedWord.completed (by rfl)
    · exact apply_update_of_eq SorterPc.increment
        ((increment_of_completing (by simp)).trans hidle.symm)
  | @unreserved off wi progress hpc _ =>
    have hidle : (s.sorters x).increment = .idle := by rw [hpc]; rfl
    refine .inl ⟨hfresh hidle, completionCounter_congr rfl (fun _ => rfl) ?_⟩
    exact apply_update_of_eq SorterPc.increment
        ((increment_of_completing (by simp)).trans hidle.symm)

theorem completionCounter_parent {s s' : State cfg} (hstart : StartInvariant s)
    (h : ParentTransition s s') : completionCounter s' = completionCounter s := by
  cases h with
  | startSorter hpc =>
    refine completionCounter_congr rfl (fun _ => rfl) (apply_update_of_eq SorterPc.increment ?_)
    have hfirst : s.sorters _ = .notStarted := hstart.waiting _ hpc _ List.mem_cons_self
    rw [hfirst]
    rfl
  | _ => rfl

theorem completionCounter_step {s s' : State cfg} {a : Action cfg} (hstart : StartInvariant s)
    (hs : step s a = some s') :
    (¬ StaleStore s a ∧ completionCounter s' = completionCounter s) ∨
      ∃ x, (completionCounter s).Step x (completionCounter s') ∧
        (StaleStore s a ↔ (completionCounter s).StaleStore x) := by
  cases step_spec hs with
  | wordCarrier ht =>
    have hcompleted := ht.completed
    obtain ⟨-, words, cursor, active, pc, reserved, adm, rfl⟩ := ht.frame
    exact .inl ⟨id, completionCounter_congr rfl hcompleted (fun _ => rfl)⟩
  | letterCarrier ht =>
    have hheader := ht.sameHeader
    obtain ⟨-, words, pc, d, r, di, ri, ev, rfl⟩ := ht.frame
    exact .inl ⟨id, completionCounter_congr rfl (fun wi => (hheader wi).completed) (fun _ => rfl)⟩
  | @sorter x draw _ ht =>
    rcases completionCounter_sorter ht with ⟨hfresh, hview⟩ | hview
    · exact .inl ⟨staleStore_sorter.not.mpr hfresh, hview⟩
    · exact .inr ⟨x, hview, staleStore_sorter⟩
  | deliveryElevator ht =>
    have hheader := ht.sameHeader
    obtain ⟨-, words, pc, i, t, d, f, c, p, cur, ev, rfl⟩ := ht.frame
    exact .inl ⟨id, completionCounter_congr rfl (fun wi => (hheader wi).completed) (fun _ => rfl)⟩
  | repositionElevator ht =>
    obtain ⟨-, pc, i, t, d, f, c, p, cur, ev, rfl⟩ := ht
    exact .inl ⟨id, rfl⟩
  | parent ht => exact .inl ⟨id, completionCounter_parent hstart ht⟩

theorem completionCounter_init (cfg : Config) : (completionCounter (init cfg)).Exact := by
  refine ⟨?_, ?_⟩
  · simp [completionCounter, completedCount, Counter.inFlight, init, SorterPc.increment,
      Increment.inFlight, SharedWord.load]
  · intro x v hx
    simp [completionCounter, init, SorterPc.increment] at hx

theorem completionCounter_execution {tr : List (State cfg × Action cfg)} {s : State cfg}
    (h : (building cfg).Execution tr s) :
    ((∀ p ∈ tr, ¬ StaleStore p.1 p.2) ∧ (completionCounter s).Exact) ∨
      ((∃ p ∈ tr, StaleStore p.1 p.2) ∧ (completionCounter s).Short) :=
  h.exact_or_short (completionCounter_init cfg)
    (fun _ _ _ hr hs => completionCounter_step (startInvariant_reachable hr) hs)

/-- Stale or not, the counter never runs ahead of the completed words. -/
theorem completedWords_le_completedCount {s : State cfg} (h : (building cfg).Reachable s) :
    s.completedWords ≤ completedCount s := by
  obtain ⟨tr, htr⟩ := h
  rcases completionCounter_execution htr with ⟨-, hexact⟩ | ⟨-, hshort⟩
  · exact hexact.value_le
  · exact hshort.value_lt.le

def NoIncrementInFlight (s : State cfg) : Prop := ∀ x, (s.sorters x).increment = .idle

instance (s : State cfg) : Decidable (NoIncrementInFlight s) :=
  inferInstanceAs (Decidable (∀ x, (s.sorters x).increment = .idle))

theorem completedWords_exact_iff_no_staleStore {tr : List (State cfg × Action cfg)} {s : State cfg}
    (h : (building cfg).Execution tr s) (hquiet : NoIncrementInFlight s) :
    s.completedWords = completedCount s ↔ ∀ p ∈ tr, ¬ StaleStore p.1 p.2 := by
  have hflight : (completionCounter s).inFlight = 0 := by
    refine Finset.sum_eq_zero (fun x _ => ?_)
    simp only [completionCounter, hquiet x, Increment.inFlight]
  rcases completionCounter_execution h with ⟨hfresh, hexact⟩ | ⟨⟨p, hp, hstale⟩, hshort⟩
  · have htotal := hexact.total
    rw [hflight] at htotal
    exact iff_of_true htotal hfresh
  · have hlt := hshort.value_lt
    refine iff_of_false ?_ (fun hall => hall p hp hstale)
    exact Nat.ne_of_lt hlt

/-! ### Two words of one letter, each completed by its own sorter -/

def twoWords : Config :=
  oneFloor [(['a'], ⟨0, Nat.one_pos⟩), (['b'], ⟨0, Nat.one_pos⟩)] (by decide) (by decide)
    (by decide)

def firstSorter : twoWords.Sorter := (twoWords.groundFloor, ⟨0, Nat.two_pos⟩)
def secondSorter : twoWords.Sorter := (twoWords.groundFloor, ⟨1, Nat.one_lt_two⟩)

def delivered : List (Action twoWords) :=
  List.replicate 7 .parent ++ List.replicate 8 (.wordCarrier (firstWordCarrier twoWords)) ++
    List.replicate 4 (.letterCarrier firstSlot (fun _ => 0)) ++
    List.replicate 4 (.letterCarrier firstSlot (fun _ => 1))

def overlapping : List (Action twoWords) :=
  delivered ++ List.replicate 5 (.sorter firstSorter 0) ++
    List.replicate 7 (.sorter secondSorter 1) ++ List.replicate 2 (.sorter firstSorter 0)

def oneAfterTheOther : List (Action twoWords) :=
  delivered ++ List.replicate 7 (.sorter firstSorter 0) ++
    List.replicate 7 (.sorter secondSorter 1)

theorem overlapping_isSome :
    ((building twoWords).run (building twoWords).init overlapping).isSome := by decide

theorem oneAfterTheOther_isSome :
    ((building twoWords).run (building twoWords).init oneAfterTheOther).isSome := by decide

/-- Every word is complete, the counter says one, and the parent still waits. -/
theorem overlapping_loses_increment :
    ∃ tr s, (building twoWords).Execution tr s ∧ NoIncrementInFlight s ∧
      (∀ wi, (s.words wi).completed = true) ∧ s.completedWords = 1 ∧ completedCount s = 2 ∧
      s.parent = .loop ∧ unfinished s = true := by
  exact ⟨_, _, Machine.execution_of_isSome overlapping_isSome, by decide, by decide, by decide,
    by decide, by decide, by decide⟩

theorem completedWords_oneAfterTheOther :
    ∃ tr s, (building twoWords).Execution tr s ∧ NoIncrementInFlight s ∧
      s.completedWords = completedCount s ∧ ∀ p ∈ tr, ¬ StaleStore p.1 p.2 := by
  have hexec := Machine.execution_of_isSome oneAfterTheOther_isSome
  have hquiet : NoIncrementInFlight (((building twoWords).run (building twoWords).init
      oneAfterTheOther).get oneAfterTheOther_isSome) := by decide
  have hcount : (((building twoWords).run (building twoWords).init oneAfterTheOther).get
      oneAfterTheOther_isSome).completedWords = completedCount (((building twoWords).run
        (building twoWords).init oneAfterTheOther).get oneAfterTheOther_isSome) := by decide
  exact ⟨_, _, hexec, hquiet, hcount,
    (completedWords_exact_iff_no_staleStore hexec hquiet).mp hcount⟩

end SysProg.HW3

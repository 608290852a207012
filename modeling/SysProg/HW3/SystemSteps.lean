import SysProg.HW3.System

/-!
# What one action of a process can do

One inductive predicate for each process lists the branches of its step with
their guards. Invariants are proved by cases on them and never unfold a step
function.
-/

namespace SysProg.HW3
open SysProg.Lib SharedWord
variable {cfg : Config}

inductive WordCarrierTransition (s : State cfg) (c : cfg.WordCarrier) : State cfg → Prop where
  | turn {pc : WordCarrierPc cfg} : s.wordCarriers c = .head → pc = .exited ∨ pc = .scanning →
      WordCarrierTransition s c { s with wordCarriers := Function.update s.wordCarriers c pc }
  | claim {wi : cfg.WordIndex} : s.wordCarriers c = .scanning →
      unclaimedWord (s.words wi) = true →
      WordCarrierTransition s c { s with
        words := Function.update s.words wi { s.words wi with claimed := true }
        rrCursor := (wi + 1) % cfg.totalWords
        wordCarriers := Function.update s.wordCarriers c (.holding wi) }
  | retry : s.wordCarriers c = .scanning → nextWord s = none →
      WordCarrierTransition s c { s with wordCarriers := Function.update s.wordCarriers c .head }
  | reserve {wi : cfg.WordIndex} : s.wordCarriers c = .holding wi →
      hasCapacity s c.1 (s.words wi).sortingFloor = true →
      WordCarrierTransition s c { s with
        activeWords := addActive s.activeWords c.1 (s.words wi).sortingFloor 1
        wordCarriers := Function.update s.wordCarriers c (.decided wi true)
        reservedAt := Function.update s.reservedAt wi (some c.1) }
  | refuse {wi : cfg.WordIndex} : s.wordCarriers c = .holding wi →
      hasCapacity s c.1 (s.words wi).sortingFloor = false →
      WordCarrierTransition s c { s with
        wordCarriers := Function.update s.wordCarriers c (.decided wi false) }
  | accept {wi : cfg.WordIndex} : s.wordCarriers c = .decided wi true → s.wordMutex wi = false →
      WordCarrierTransition s c { s with
        words := Function.update s.words wi
          { s.words wi with admitted := true, arrivalFloor := c.1, activeReservation := true }
        wordCarriers := Function.update s.wordCarriers c .head
        admissions := Function.update s.admissions wi (s.admissions wi + 1) }
  | giveBack {wi : cfg.WordIndex} : s.wordCarriers c = .decided wi false → s.wordMutex wi = false →
      WordCarrierTransition s c { s with
        words := Function.update s.words wi { s.words wi with claimed := false }
        wordCarriers := Function.update s.wordCarriers c .head }

theorem unclaimed_of_nextWord {s : State cfg} {wi : cfg.WordIndex} (h : nextWord s = some wi) :
    unclaimedWord (s.words wi) = true := by
  unfold nextWord at h
  have hfound := List.find?_some h
  exact hfound

theorem wordCarrierStep_spec {s s' : State cfg} {c : cfg.WordCarrier}
    (h : wordCarrierStep s c = some s') : WordCarrierTransition s c s' := by
  unfold wordCarrierStep at h
  split at h
  case h_1 => cases h
  case h_2 hpc =>
    cases h
    refine .turn hpc ?_
    split
    · exact .inl rfl
    · exact .inr rfl
  case h_3 hpc =>
    split at h
    case h_1 wi hwi =>
      cases h
      exact .claim hpc (unclaimed_of_nextWord hwi)
    case h_2 hnone =>
      cases h
      exact .retry hpc hnone
  case h_4 wi hpc =>
    simp only at h
    split at h
    case isTrue hok =>
      cases h
      exact .reserve hpc hok
    case isFalse hfull =>
      cases h
      exact .refuse hpc (by simpa using hfull)
  case h_5 wi ok hpc =>
    split at h
    case isTrue => cases h
    case isFalse hfree =>
      cases ok with
      | true =>
        cases h
        exact .accept hpc (by simpa using hfree)
      | false =>
        cases h
        exact .giveBack hpc (by simpa using hfree)
  case h_6 => cases h

namespace SorterPc

def completing : SorterPc cfg → Option cfg.WordIndex
  | .counting _ wi _ => some wi
  | .storing _ wi _ _ => some wi
  | .releasing _ wi _ => some wi
  | _ => none

@[simp] theorem completing_afterWord (off : ℕ) (progress : Bool) :
    (afterWord off progress : SorterPc cfg).completing = none := by
  cases progress <;> rfl

end SorterPc

inductive SorterTransition (s : State cfg) (x : cfg.Sorter) : State cfg → Prop where
  | turn {pc : SorterPc cfg} (lock : cfg.WordIndex → Bool) : s.sorters x ≠ .notStarted →
      (s.sorters x).completing = none → pc.completing = none →
      SorterTransition s x { s with
        sorterLock := lock, sorters := Function.update s.sorters x pc }
  | pass {off : ℕ} {wi : cfg.WordIndex} : s.sorters x = .locked off wi → s.wordMutex wi = false →
      sortable (s.words wi) x.1 = true →
      SorterTransition s x { s with
        words := Function.update s.words wi (s.words wi).sortPass.1
        sorterLock := Function.update s.sorterLock wi false
        sorters := Function.update s.sorters x (afterWord off (s.words wi).sortPass.2) }
  | complete {off : ℕ} {wi : cfg.WordIndex} : s.sorters x = .locked off wi →
      s.wordMutex wi = false → sortable (s.words wi) x.1 = true →
      (s.words wi).sortPass.1.allFixed = true →
      SorterTransition s x { s with
        words := Function.update s.words wi { (s.words wi).sortPass.1 with completed := true }
        wordMutex := Function.update s.wordMutex wi true
        sorters := Function.update s.sorters x (.counting off wi (s.words wi).sortPass.2) }
  | load {off : ℕ} {wi : cfg.WordIndex} {progress : Bool} :
      s.sorters x = .counting off wi progress →
      SorterTransition s x { s with
        sorters := Function.update s.sorters x (.storing off wi progress s.completedWords) }
  | store {off loaded : ℕ} {wi : cfg.WordIndex} {progress : Bool} :
      s.sorters x = .storing off wi progress loaded →
      SorterTransition s x { s with
        completedWords := loaded + 1
        sorters := Function.update s.sorters x (.releasing off wi progress) }
  | release {off : ℕ} {wi : cfg.WordIndex} {progress : Bool} :
      s.sorters x = .releasing off wi progress → (s.words wi).activeReservation = true →
      SorterTransition s x { s with
        activeWords :=
          addActive s.activeWords (s.words wi).arrivalFloor (s.words wi).sortingFloor (-1)
        words := Function.update s.words wi { s.words wi with activeReservation := false }
        reservedAt := Function.update s.reservedAt wi none
        wordMutex := Function.update s.wordMutex wi false
        sorterLock := Function.update s.sorterLock wi false
        sorters := Function.update s.sorters x (afterWord off progress) }
  | unreserved {off : ℕ} {wi : cfg.WordIndex} {progress : Bool} :
      s.sorters x = .releasing off wi progress → (s.words wi).activeReservation = false →
      SorterTransition s x { s with
        wordMutex := Function.update s.wordMutex wi false
        sorterLock := Function.update s.sorterLock wi false
        sorters := Function.update s.sorters x (afterWord off progress) }

theorem sorterStep_spec {s s' : State cfg} {x : cfg.Sorter} {draw : ℕ}
    (h : sorterStep s x draw = some s') : SorterTransition s x s' := by
  unfold sorterStep at h
  split at h
  case h_1 => cases h
  case h_2 hpc =>
    cases h
    refine .turn s.sorterLock (by simp [hpc]) (by rw [hpc]; rfl) ?_
    split <;> rfl
  case h_3 off hpc =>
    have hstarted : s.sorters x ≠ .notStarted := by simp [hpc]
    have hquiet : (s.sorters x).completing = none := by rw [hpc]; rfl
    split at h
    · cases h
      refine .turn s.sorterLock hstarted hquiet ?_
      split <;> rfl
    · cases h
      exact .turn s.sorterLock hstarted hquiet rfl
  case h_4 off wi hpc =>
    have hstarted : s.sorters x ≠ .notStarted := by simp [hpc]
    have hquiet : (s.sorters x).completing = none := by rw [hpc]; rfl
    split at h
    · cases h
      exact .turn s.sorterLock hstarted hquiet rfl
    · cases h
      exact .turn _ hstarted hquiet rfl
  case h_5 off wi hpc =>
    have hstarted : s.sorters x ≠ .notStarted := by simp [hpc]
    have hquiet : (s.sorters x).completing = none := by rw [hpc]; rfl
    split at h
    case isTrue => cases h
    case isFalse hfree =>
      have hfree' : s.wordMutex wi = false := by simpa using hfree
      split at h
      case isTrue hsort =>
        simp only at h
        split at h
        case isTrue hall =>
          cases h
          simp only [Bool.and_eq_true] at hall
          exact .complete hpc hfree' hsort hall.1
        case isFalse =>
          cases h
          exact .pass hpc hfree' hsort
      case isFalse =>
        cases h
        exact .turn _ hstarted hquiet rfl
  case h_6 off wi progress hpc =>
    cases h
    exact .load hpc
  case h_7 off wi progress loaded hpc =>
    cases h
    exact .store hpc
  case h_8 off wi progress hpc =>
    cases hres : (s.words wi).activeReservation with
    | true =>
      simp only [hres, ↓reduceIte, Option.some.injEq] at h
      cases h
      exact .release hpc hres
    | false =>
      simp only [hres, Bool.false_eq_true, ↓reduceIte, Option.some.injEq] at h
      cases h
      exact .unreserved hpc hres
  case h_9 => cases h

inductive LetterCarrierTransition (s : State cfg) (k : Fin maxCarriers) : State cfg → Prop where
  | turn {pc : LetterCarrierPc cfg} : s.letterCarriers k = .head →
      pc = (if s.shutdown then .exited else .scanning (s.currentFloor k) 0) →
      LetterCarrierTransition s k { s with
        letterCarriers := Function.update s.letterCarriers k pc }
  | skip {floor : cfg.Floor} {pass : ℕ} : s.letterCarriers k = .scanning floor pass →
      LetterCarrierTransition s k { s with
        letterCarriers := Function.update s.letterCarriers k (.scanning floor (pass + 1)) }
  | attempt {floor : cfg.Floor} {pass : ℕ} {wi : cfg.WordIndex} :
      s.letterCarriers k = .scanning floor pass → availableAt (s.words wi) floor = true →
      LetterCarrierTransition s k { s with
        letterCarriers := Function.update s.letterCarriers k (.locking floor pass wi) }
  | noTask {floor : cfg.Floor} {pass : ℕ} : s.letterCarriers k = .scanning floor pass →
      cfg.totalWords ≤ pass →
      LetterCarrierTransition s k { s with
        letterCarriers := Function.update s.letterCarriers k (.idle floor) }
  | claim {floor : cfg.Floor} {pass ci : ℕ} {wi : cfg.WordIndex} :
      s.letterCarriers k = .locking floor pass wi → s.wordMutex wi = false →
      availableAt (s.words wi) floor = true → ci < (s.words wi).length →
      (s.words wi).unclaimedChar ci = true →
      LetterCarrierTransition s k { s with
        words := Function.update s.words wi ((s.words wi).claimChar ci)
        letterCarriers := Function.update s.letterCarriers k (.holding floor wi ci) }
  | noChar {floor : cfg.Floor} {pass : ℕ} {wi : cfg.WordIndex} :
      s.letterCarriers k = .locking floor pass wi →
      LetterCarrierTransition s k { s with
        letterCarriers := Function.update s.letterCarriers k (.scanning floor (pass + 1)) }
  | leave {floor : cfg.Floor} : s.letterCarriers k = .idle floor →
      cfg.totalWords ≤ s.completedWords ∨ s.shutdown = true →
      LetterCarrierTransition s k { s with
        letterCarriers := Function.update s.letterCarriers k .exited }
  | stay {floor : cfg.Floor} : s.letterCarriers k = .idle floor →
      ¬ (cfg.totalWords ≤ s.completedWords ∨ s.shutdown = true) →
      LetterCarrierTransition s k { s with
        letterCarriers := Function.update s.letterCarriers k (.requesting floor) }
  | enqueueReposition {floor toFloor : cfg.Floor} {table : RequestTable cfg.Reposition} :
      s.letterCarriers k = .requesting floor →
      insertRequest s.repositionRequests
        { carrierSlot := k, fromFloor := floor, toFloor := toFloor } = some table →
      LetterCarrierTransition s k { s with
        repositionRequests := table
        letterCarriers := Function.update s.letterCarriers k .repositionPost }
  | repositionOverflow {floor toFloor : cfg.Floor} : s.letterCarriers k = .requesting floor →
      insertRequest s.repositionRequests
        { carrierSlot := k, fromFloor := floor, toFloor := toFloor } = none →
      LetterCarrierTransition s k { s with
        letterCarriers := Function.update s.letterCarriers k (.overflowed none) }
  | postReposition : s.letterCarriers k = .repositionPost →
      LetterCarrierTransition s k { s with
        repositionItems := s.repositionItems + 1
        letterCarriers := Function.update s.letterCarriers k .waiting }
  | direct {floor : cfg.Floor} {wi : cfg.WordIndex} {ci : ℕ} :
      s.letterCarriers k = .holding floor wi ci → (s.words wi).sortingFloor = floor →
      s.wordMutex wi = false →
      LetterCarrierTransition s k { s with
        words := Function.update s.words wi ((s.words wi).deliverChar ci)
        letterCarriers := Function.update s.letterCarriers k .head }
  | enqueueDelivery {floor : cfg.Floor} {wi : cfg.WordIndex} {ci : ℕ}
      {table : RequestTable cfg.Delivery} :
      s.letterCarriers k = .holding floor wi ci → (s.words wi).sortingFloor ≠ floor →
      insertRequest s.deliveryRequests
        { carrierSlot := k, fromFloor := floor, toFloor := (s.words wi).sortingFloor,
          wordIndex := wi, charIndex := ci, ch := (s.words wi).charAt ci } = some table →
      LetterCarrierTransition s k { s with
        deliveryRequests := table
        letterCarriers := Function.update s.letterCarriers k .deliveryPost }
  | deliveryOverflow {floor : cfg.Floor} {wi : cfg.WordIndex} {ci : ℕ} :
      s.letterCarriers k = .holding floor wi ci → (s.words wi).sortingFloor ≠ floor →
      insertRequest s.deliveryRequests
        { carrierSlot := k, fromFloor := floor, toFloor := (s.words wi).sortingFloor,
          wordIndex := wi, charIndex := ci, ch := (s.words wi).charAt ci } = none →
      LetterCarrierTransition s k { s with
        letterCarriers := Function.update s.letterCarriers k (.overflowed (some (wi, ci))) }
  | postDelivery : s.letterCarriers k = .deliveryPost →
      LetterCarrierTransition s k { s with
        deliveryItems := s.deliveryItems + 1
        letterCarriers := Function.update s.letterCarriers k .waiting }
  | wake : s.letterCarriers k = .waiting → 0 < s.eventSem k →
      LetterCarrierTransition s k { s with
        eventSem := Function.update s.eventSem k (s.eventSem k - 1)
        letterCarriers := Function.update s.letterCarriers k .head }

theorem findChar_spec {w : SharedWord cfg.numFloors} {rand : ℕ → ℕ} {ci : ℕ}
    (h : w.findChar rand = some ci) : ci < w.length ∧ w.unclaimedChar ci = true := by
  obtain ⟨j, hj, rfl⟩ := List.mem_map.mp (List.mem_of_find?_eq_some h)
  have hpos : 0 < w.length := Nat.zero_lt_of_lt (List.mem_range.mp hj)
  exact ⟨Nat.mod_lt _ hpos, List.find?_some h⟩

theorem letterCarrierStep_spec {s s' : State cfg} {k : Fin maxCarriers} {rand : ℕ → ℕ}
    (h : letterCarrierStep s k rand = some s') : LetterCarrierTransition s k s' := by
  unfold letterCarrierStep at h
  split at h
  case h_1 => cases h
  case h_2 hpc =>
    cases h
    exact .turn hpc rfl
  case h_3 floor pass hpc =>
    split at h
    case isTrue =>
      simp only at h
      split at h
      case isTrue havail =>
        cases h
        exact .attempt hpc havail
      case isFalse =>
        cases h
        exact .skip hpc
    case isFalse hend =>
      cases h
      exact .noTask hpc (by omega)
  case h_4 floor pass wi hpc =>
    split at h
    case isTrue => cases h
    case isFalse hfree =>
      split at h
      case h_1 ci hci =>
        cases h
        split at hci
        case isTrue havail =>
          obtain ⟨hlt, hun⟩ := findChar_spec hci
          exact .claim hpc (by simpa using hfree) havail hlt hun
        case isFalse => cases hci
      case h_2 =>
        cases h
        exact .noChar hpc
  case h_5 floor hpc =>
    split at h
    case isTrue hend =>
      cases h
      exact .leave hpc hend
    case isFalse hmore =>
      cases h
      exact .stay hpc hmore
  case h_6 floor hpc =>
    split at h
    case h_1 table htable =>
      cases h
      exact .enqueueReposition hpc htable
    case h_2 hfull =>
      cases h
      exact .repositionOverflow hpc hfull
  case h_7 hpc =>
    cases h
    exact .postReposition hpc
  case h_8 floor wi ci hpc =>
    simp only at h
    split at h
    case isTrue hdest =>
      split at h
      case isTrue => cases h
      case isFalse hfree =>
        cases h
        exact .direct hpc hdest (by simpa using hfree)
    case isFalse hdest =>
      split at h
      case h_1 table htable =>
        cases h
        exact .enqueueDelivery hpc hdest htable
      case h_2 hfull =>
        cases h
        exact .deliveryOverflow hpc hdest hfull
  case h_9 hpc =>
    cases h
    exact .postDelivery hpc
  case h_10 hpc =>
    split at h
    case isTrue hsem =>
      cases h
      exact .wake hpc hsem
    case isFalse => cases h
  case h_11 => cases h
  case h_12 => cases h

theorem moveCarrier_frame (s : State cfg) (slot : Fin maxCarriers) (toFloor : cfg.Floor)
    (pc : MovePc cfg) : ∃ count pend cur, (moveCarrierBetweenFloors s slot toFloor pc).1 =
      { s with carrierCount := count, respawnPending := pend, currentFloor := cur } := by
  cases pc with
  | start => exact ⟨_, _, _, rfl⟩
  | leaving old => exact ⟨_, _, _, rfl⟩
  | entering old nowEmpty => exact ⟨_, _, _, rfl⟩
  | arriving old nowEmpty => exact ⟨_, _, _, rfl⟩
  | rechecking old =>
    simp only [moveCarrierBetweenFloors]
    split
    · exact ⟨_, _, _, rfl⟩
    · exact ⟨_, _, _, rfl⟩
  | done => exact ⟨_, _, _, rfl⟩

inductive DeliveryTransition (s : State cfg) : State cfg → Prop where
  | turn {pc : ElevatorPc cfg cfg.Delivery} : s.deliveryElevator = .head →
      pc = (if s.shutdown then .exited else .waiting) →
      DeliveryTransition s { s with deliveryElevator := pc }
  | wake : s.deliveryElevator = .waiting → 0 < s.deliveryItems →
      DeliveryTransition s { s with
        deliveryItems := s.deliveryItems - 1, deliveryElevator := .woken }
  | nothing : s.deliveryElevator = .woken →
      collectDeliveryBatch s.deliveryRequests s.deliveryFloor s.deliveryDirection
        (min cfg.deliveryCapacity 64) = none →
      DeliveryTransition s { s with deliveryElevator := .head }
  | collect {table : RequestTable cfg.Delivery} {batch : List cfg.Delivery} {dir : ℤ} :
      s.deliveryElevator = .woken →
      collectDeliveryBatch s.deliveryRequests s.deliveryFloor s.deliveryDirection
        (min cfg.deliveryCapacity 64) = some (table, batch, dir) →
      DeliveryTransition s { s with
        deliveryRequests := table
        deliveryDirection := towards s.deliveryFloor
          ((batch.head?.map (·.fromFloor)).getD s.deliveryFloor) dir
        deliveryFloor := (batch.head?.map (·.fromFloor)).getD s.deliveryFloor
        deliveryElevator := .serving batch }
  | served : s.deliveryElevator = .serving [] →
      DeliveryTransition s { s with deliveryElevator := .head }
  | deliver {req : cfg.Delivery} {rest : List cfg.Delivery} :
      s.deliveryElevator = .serving (req :: rest) → s.wordMutex req.wordIndex = false →
      DeliveryTransition s { s with
        deliveryFloor := req.toFloor
        words := Function.update s.words req.wordIndex
          ((s.words req.wordIndex).deliverChar req.charIndex)
        deliveryElevator := .moving req rest .start }
  | signal {req : cfg.Delivery} {rest : List cfg.Delivery} :
      s.deliveryElevator = .moving req rest .done →
      DeliveryTransition s { s with
        eventSem := Function.update s.eventSem req.carrierSlot (s.eventSem req.carrierSlot + 1)
        deliveryElevator := .serving rest }
  | move {req : cfg.Delivery} {rest : List cfg.Delivery} {pc : MovePc cfg} :
      s.deliveryElevator = .moving req rest pc → pc ≠ .done →
      DeliveryTransition s
        { (moveCarrierBetweenFloors s req.carrierSlot req.toFloor pc).1 with
          deliveryElevator :=
            .moving req rest (moveCarrierBetweenFloors s req.carrierSlot req.toFloor pc).2 }

theorem deliveryElevatorStep_spec {s s' : State cfg} (h : deliveryElevatorStep s = some s') :
    DeliveryTransition s s' := by
  unfold deliveryElevatorStep at h
  split at h
  case h_1 => cases h
  case h_2 hpc =>
    cases h
    exact .turn hpc rfl
  case h_3 hpc =>
    split at h
    case isTrue hitems =>
      cases h
      exact .wake hpc hitems
    case isFalse => cases h
  case h_4 hpc =>
    split at h
    case h_1 hnone =>
      cases h
      exact .nothing hpc hnone
    case h_2 table batch dir hsome =>
      cases h
      exact .collect hpc hsome
  case h_5 hpc =>
    cases h
    exact .served hpc
  case h_6 req rest hpc =>
    split at h
    case isTrue => cases h
    case isFalse hfree =>
      cases h
      exact .deliver hpc (by simpa using hfree)
  case h_7 req rest hpc =>
    cases h
    exact .signal hpc
  case h_8 req rest pc hdone hpc =>
    cases h
    exact .move hpc hdone
  case h_9 => cases h

inductive RepositionTransition (s : State cfg) : State cfg → Prop where
  | turn {pc : ElevatorPc cfg cfg.Reposition} : s.repositionElevator = .head →
      pc = (if s.shutdown then .exited else .waiting) →
      RepositionTransition s { s with repositionElevator := pc }
  | wake : s.repositionElevator = .waiting → 0 < s.repositionItems →
      RepositionTransition s { s with
        repositionItems := s.repositionItems - 1, repositionElevator := .woken }
  | nothing : s.repositionElevator = .woken →
      collectRepositionBatch s.repositionRequests s.repositionFloor s.repositionDirection
        (min cfg.repositionCapacity 64) = none →
      RepositionTransition s { s with repositionElevator := .head }
  | collect {table : RequestTable cfg.Reposition} {batch : List cfg.Reposition} {dir : ℤ} :
      s.repositionElevator = .woken →
      collectRepositionBatch s.repositionRequests s.repositionFloor s.repositionDirection
        (min cfg.repositionCapacity 64) = some (table, batch, dir) →
      RepositionTransition s { s with
        repositionRequests := table
        repositionDirection := dir
        repositionElevator := .serving batch }
  | served : s.repositionElevator = .serving [] →
      RepositionTransition s { s with repositionElevator := .head }
  | begin {req : cfg.Reposition} {rest : List cfg.Reposition} :
      s.repositionElevator = .serving (req :: rest) →
      RepositionTransition s { s with
        repositionFloor := req.toFloor
        repositionElevator := .moving req rest .start }
  | signal {req : cfg.Reposition} {rest : List cfg.Reposition} :
      s.repositionElevator = .moving req rest .done →
      RepositionTransition s { s with
        eventSem := Function.update s.eventSem req.carrierSlot (s.eventSem req.carrierSlot + 1)
        repositionElevator := .serving rest }
  | move {req : cfg.Reposition} {rest : List cfg.Reposition} {pc : MovePc cfg} :
      s.repositionElevator = .moving req rest pc → pc ≠ .done →
      RepositionTransition s
        { (moveCarrierBetweenFloors s req.carrierSlot req.toFloor pc).1 with
          repositionElevator :=
            .moving req rest (moveCarrierBetweenFloors s req.carrierSlot req.toFloor pc).2 }

theorem repositionElevatorStep_spec {s s' : State cfg} (h : repositionElevatorStep s = some s') :
    RepositionTransition s s' := by
  unfold repositionElevatorStep at h
  split at h
  case h_1 => cases h
  case h_2 hpc =>
    cases h
    exact .turn hpc rfl
  case h_3 hpc =>
    split at h
    case isTrue hitems =>
      cases h
      exact .wake hpc hitems
    case isFalse => cases h
  case h_4 hpc =>
    split at h
    case h_1 hnone =>
      cases h
      exact .nothing hpc hnone
    case h_2 table batch dir hsome =>
      cases h
      exact .collect hpc hsome
  case h_5 hpc =>
    cases h
    exact .served hpc
  case h_6 req rest hpc =>
    cases h
    exact .begin hpc
  case h_7 req rest hpc =>
    cases h
    exact .signal hpc
  case h_8 req rest pc hdone hpc =>
    cases h
    exact .move hpc hdone
  case h_9 => cases h

/-- The reposition elevator touches its own table and semaphore, the census and the events. -/
def RepositionFrame (s s' : State cfg) : Prop :=
  s.repositionElevator ≠ .notStarted ∧
    ∃ pc items table dir floor count pend cur event, s' = { s with
      repositionElevator := pc, repositionItems := items, repositionRequests := table
      repositionDirection := dir, repositionFloor := floor, carrierCount := count
      respawnPending := pend, currentFloor := cur, eventSem := event }

theorem repositionElevatorStep_frame {s s' : State cfg} (h : repositionElevatorStep s = some s') :
    RepositionFrame s s' := by
  cases repositionElevatorStep_spec h
  case move req rest pc hpc hdone =>
    obtain ⟨count, pend, cur, hmove⟩ := moveCarrier_frame s req.carrierSlot req.toFloor pc
    rw [hmove]
    exact ⟨by simp [*], _, _, _, _, _, _, _, _, _, rfl⟩
  all_goals exact ⟨by simp [*], _, _, _, _, _, _, _, _, _, rfl⟩

/-- In `turn` the parent has made a test or has failed, and no process starts. -/
inductive ParentTransition (s : State cfg) : State cfg → Prop where
  | turn {pc : ParentPc cfg} : (∀ jobs, pc ≠ .starting jobs) → pc ≠ .succeeded →
      ParentTransition s { s with parent := pc }
  | stop : s.parent = .stopping →
      ParentTransition s { s with shutdown := true, parent := .waking 0 }
  | wake {slot : Fin maxCarriers} : s.parent = .waking slot.val →
      ParentTransition s { s with
        eventSem := Function.update s.eventSem slot (s.eventSem slot + 1)
        parent := .waking (slot.val + 1) }
  | post {left : ℕ} : s.parent = .posting (left + 1) →
      ParentTransition s { s with
        deliveryItems := s.deliveryItems + 1
        repositionItems := s.repositionItems + 1
        parent := .posting left }
  | succeed : s.parent = .finalTest → s.completedWords = cfg.totalWords →
      ParentTransition s { s with parent := .succeeded }
  | startWordCarrier {c : cfg.WordCarrier} {jobs : List (Job cfg)} :
      s.parent = .starting (.wordCarrier c :: jobs) →
      ParentTransition s { s with
        nextWordCarrierSlot := s.nextWordCarrierSlot + 1
        wordCarriers := Function.update s.wordCarriers c .head
        parent := .starting jobs }
  | startSorter {x : cfg.Sorter} {jobs : List (Job cfg)} :
      s.parent = .starting (.sorter x :: jobs) →
      ParentTransition s { s with
        nextSorterSlot := s.nextSorterSlot + 1
        sorters := Function.update s.sorters x .head
        parent := .starting jobs }
  | startDelivery {jobs : List (Job cfg)} : s.parent = .starting (.deliveryElevator :: jobs) →
      ParentTransition s { s with deliveryElevator := .head, parent := .starting jobs }
  | startReposition {jobs : List (Job cfg)} : s.parent = .starting (.repositionElevator :: jobs) →
      ParentTransition s { s with repositionElevator := .head, parent := .starting jobs }
  | spawn {f : cfg.Floor} {next : ParentPc cfg} (slot : Fin maxCarriers) :
      s.nextCarrierSlot.val = slot.val →
      (∃ jobs, s.parent = .starting (.letterCarrier f :: jobs) ∧ next = .starting jobs) ∨
        (∃ left, s.parent = .respawning f (left + 1) ∧ next = .respawning f left) →
      ParentTransition s { s with
        nextCarrierSlot := slot.succ
        currentFloor := Function.update s.currentFloor slot f
        carrierCount := Function.update s.carrierCount f (s.carrierCount f + 1)
        respawnPending := Function.update s.respawnPending f false
        letterCarriers := Function.update s.letterCarriers slot .head
        parent := next }

theorem parentTransition_spawn {s : State cfg} {f : cfg.Floor} {next : ParentPc cfg}
    (h : (∃ jobs, s.parent = .starting (.letterCarrier f :: jobs) ∧ next = .starting jobs) ∨
      (∃ left, s.parent = .respawning f (left + 1) ∧ next = .respawning f left)) :
    ParentTransition s (spawnLetterCarrier s f next) := by
  unfold spawnLetterCarrier
  split
  case isTrue hslot => exact .spawn ⟨s.nextCarrierSlot.val, hslot⟩ rfl h
  case isFalse => exact .turn (by simp) (by simp)

theorem parentTransition_startJob {s : State cfg} {job : Job cfg} {jobs : List (Job cfg)}
    (h : s.parent = .starting (job :: jobs)) :
    ParentTransition s (startJob s (.starting jobs) job) := by
  cases job with
  | wordCarrier c =>
    simp only [startJob]
    split
    · exact .startWordCarrier h
    · exact .turn (by simp) (by simp)
  | letterCarrier f => exact parentTransition_spawn (.inl ⟨jobs, h, rfl⟩)
  | sorter x =>
    simp only [startJob]
    split
    · exact .startSorter h
    · exact .turn (by simp) (by simp)
  | deliveryElevator => exact .startDelivery h
  | repositionElevator => exact .startReposition h

theorem parentStep_spec {s s' : State cfg} (h : parentStep s = some s') :
    ParentTransition s s' := by
  unfold parentStep at h
  split at h
  case h_1 =>
    cases h
    exact .turn (by simp) (by simp)
  case h_2 job jobs hpc =>
    cases h
    exact parentTransition_startJob hpc
  case h_3 =>
    cases h
    refine .turn ?_ ?_ <;> split <;> simp
  case h_4 =>
    split at h
    · cases h
      refine .turn ?_ ?_ <;> split <;> simp
    · cases h
      exact .turn (by simp) (by simp)
  case h_5 =>
    cases h
    refine .turn ?_ ?_ <;> split <;> simp
  case h_6 =>
    cases h
    exact .turn (by simp) (by simp)
  case h_7 f left hpc =>
    cases h
    exact parentTransition_spawn (.inr ⟨left, hpc, rfl⟩)
  case h_8 hpc =>
    cases h
    exact .stop hpc
  case h_9 slot hpc =>
    split at h
    case isTrue hslot =>
      cases h
      exact .wake hpc
    case isFalse =>
      cases h
      exact .turn (by simp) (by simp)
  case h_10 =>
    cases h
    exact .turn (by simp) (by simp)
  case h_11 left hpc =>
    cases h
    exact .post hpc
  case h_12 hpc =>
    cases h
    split
    case isTrue hdone => exact .succeed hpc hdone
    case isFalse => exact .turn (by simp) (by simp)
  case h_13 => cases h
  case h_14 => cases h
  case h_15 => cases h

inductive Transition (s : State cfg) : Action cfg → State cfg → Prop where
  | wordCarrier {c : cfg.WordCarrier} {s' : State cfg} : WordCarrierTransition s c s' →
      Transition s (.wordCarrier c) s'
  | letterCarrier {k : Fin maxCarriers} {rand : ℕ → ℕ} {s' : State cfg} :
      LetterCarrierTransition s k s' → Transition s (.letterCarrier k rand) s'
  | sorter {x : cfg.Sorter} {draw : ℕ} {s' : State cfg} : SorterTransition s x s' →
      Transition s (.sorter x draw) s'
  | deliveryElevator {s' : State cfg} : DeliveryTransition s s' → Transition s .deliveryElevator s'
  | repositionElevator {s' : State cfg} : RepositionFrame s s' →
      Transition s .repositionElevator s'
  | parent {s' : State cfg} : ParentTransition s s' → Transition s .parent s'

theorem step_spec {s s' : State cfg} {a : Action cfg} (h : step s a = some s') :
    Transition s a s' := by
  cases a with
  | wordCarrier c =>
    simp only [step] at h
    exact .wordCarrier (wordCarrierStep_spec h)
  | letterCarrier k rand =>
    simp only [step] at h
    exact .letterCarrier (letterCarrierStep_spec h)
  | sorter x draw =>
    simp only [step] at h
    exact .sorter (sorterStep_spec h)
  | deliveryElevator =>
    simp only [step] at h
    exact .deliveryElevator (deliveryElevatorStep_spec h)
  | repositionElevator =>
    simp only [step] at h
    exact .repositionElevator (repositionElevatorStep_frame h)
  | parent =>
    simp only [step] at h
    exact .parent (parentStep_spec h)

/-! ### Processes start once -/

def NotStarted (s : State cfg) : Job cfg → Prop
  | .wordCarrier c => s.wordCarriers c = .notStarted
  | .letterCarrier _ => True
  | .sorter x => s.sorters x = .notStarted
  | .deliveryElevator => s.deliveryElevator = .notStarted
  | .repositionElevator => s.repositionElevator = .notStarted

def Job.isLetterCarrier : Job cfg → Bool
  | .letterCarrier _ => true
  | _ => false

/-- The jobs that remain start processes that have not run; slots are handed out in order. -/
structure StartInvariant (s : State cfg) : Prop where
  distinct : ∀ jobs, s.parent = .starting jobs →
    jobs.Pairwise (fun a b => a ≠ b ∨ a.isLetterCarrier = true)
  waiting : ∀ jobs, s.parent = .starting jobs → ∀ job ∈ jobs, NotStarted s job
  slots : ∀ k : Fin maxCarriers, s.nextCarrierSlot.val ≤ k.val → s.letterCarriers k = .notStarted

theorem startJobs_distinct (cfg : Config) :
    (startJobs cfg).Pairwise (fun a b => a ≠ b ∨ a.isLetterCarrier = true) := by
  have hfloors : (List.finRange cfg.numFloors).Pairwise (· ≠ ·) := List.nodup_finRange _
  have hcarriers : (List.finRange cfg.wordCarriersPerFloor).Pairwise (· ≠ ·) :=
    List.nodup_finRange _
  have hsorters : (List.finRange cfg.sortingProcessesPerFloor).Pairwise (· ≠ ·) :=
    List.nodup_finRange _
  refine List.pairwise_append.mpr ⟨List.pairwise_flatMap.mpr ⟨?_, ?_⟩, by simp, ?_⟩
  · intro f _
    refine List.pairwise_append.mpr ⟨List.pairwise_append.mpr ⟨?_, ?_, ?_⟩, ?_, ?_⟩
    · exact List.pairwise_map.mpr (hcarriers.imp (fun h => .inl (by simpa using h)))
    · exact List.pairwise_replicate.mpr (.inr (.inr rfl))
    · simp
    · exact List.pairwise_map.mpr (hsorters.imp (fun h => .inl (by simpa using h)))
    · intro a ha b hb
      obtain ⟨i, -, rfl⟩ := List.mem_map.mp hb
      simp only [List.mem_append, List.mem_map, List.mem_replicate] at ha
      rcases ha with ⟨j, -, rfl⟩ | ⟨-, rfl⟩
      · exact .inl (by simp)
      · exact .inr rfl
  · refine hfloors.imp ?_
    intro f g hfg a ha b hb
    left
    rintro rfl
    simp only [List.mem_append, List.mem_map, List.mem_replicate] at ha hb
    rcases ha with (⟨i, -, rfl⟩ | ⟨-, rfl⟩) | ⟨i, -, rfl⟩ <;> simp [Ne.symm hfg] at hb
    exact hfg hb.2
  · intro a ha b hb
    left
    rintro rfl
    simp only [List.mem_flatMap, List.mem_append, List.mem_map, List.mem_replicate] at ha
    rcases ha with ⟨f, -, (⟨i, -, rfl⟩ | ⟨-, rfl⟩) | ⟨i, -, rfl⟩⟩ <;> simp at hb

theorem WordCarrierTransition.frame {s s' : State cfg} {c : cfg.WordCarrier}
    (h : WordCarrierTransition s c s') : s.wordCarriers c ≠ .notStarted ∧
    ∃ words cursor active pc reserved admissions, s' = { s with
      words := words, rrCursor := cursor, activeWords := active
      wordCarriers := Function.update s.wordCarriers c pc
      reservedAt := reserved, admissions := admissions } := by
  cases h <;> exact ⟨by simp [*], _, _, _, _, _, _, rfl⟩

theorem SorterTransition.frame {s s' : State cfg} {x : cfg.Sorter} (h : SorterTransition s x s') :
    s.sorters x ≠ .notStarted ∧
    ∃ words mutex lock completed active reserved pc, s' = { s with
      words := words, wordMutex := mutex, sorterLock := lock, completedWords := completed
      activeWords := active, reservedAt := reserved
      sorters := Function.update s.sorters x pc } := by
  cases h <;> exact ⟨by simp [*], _, _, _, _, _, _, _, rfl⟩

theorem LetterCarrierTransition.frame {s s' : State cfg} {k : Fin maxCarriers}
    (h : LetterCarrierTransition s k s') : s.letterCarriers k ≠ .notStarted ∧
    ∃ words pc delivery reposition deliveryItems repositionItems event, s' = { s with
      words := words, letterCarriers := Function.update s.letterCarriers k pc
      deliveryRequests := delivery, repositionRequests := reposition
      deliveryItems := deliveryItems, repositionItems := repositionItems
      eventSem := event } := by
  cases h <;> exact ⟨by simp [*], _, _, _, _, _, _, _, rfl⟩

theorem DeliveryTransition.frame {s s' : State cfg} (h : DeliveryTransition s s') :
    s.deliveryElevator ≠ .notStarted ∧
    ∃ words pc items table dir floor count pend cur event, s' = { s with
      words := words, deliveryElevator := pc, deliveryItems := items, deliveryRequests := table
      deliveryDirection := dir, deliveryFloor := floor, carrierCount := count
      respawnPending := pend, currentFloor := cur, eventSem := event } := by
  cases h
  case move req rest pc hpc hdone =>
    obtain ⟨count, pend, cur, hmove⟩ := moveCarrier_frame s req.carrierSlot req.toFloor pc
    rw [hmove]
    exact ⟨by simp [*], _, _, _, _, _, _, _, _, _, _, rfl⟩
  all_goals exact ⟨by simp [*], _, _, _, _, _, _, _, _, _, _, rfl⟩

theorem step_parent_eq {s s' : State cfg} {a : Action cfg} (hs : step s a = some s')
    (ha : a ≠ .parent) : s'.parent = s.parent ∧ s'.shutdown = s.shutdown ∧
      s'.nextCarrierSlot = s.nextCarrierSlot ∧ s'.nextWordCarrierSlot = s.nextWordCarrierSlot ∧
      s'.nextSorterSlot = s.nextSorterSlot := by
  cases step_spec hs with
  | wordCarrier ht =>
    obtain ⟨-, words, cursor, active, pc, reserved, adm, rfl⟩ := ht.frame
    exact ⟨rfl, rfl, rfl, rfl, rfl⟩
  | letterCarrier ht =>
    obtain ⟨-, words, pc, d, r, di, ri, ev, rfl⟩ := ht.frame
    exact ⟨rfl, rfl, rfl, rfl, rfl⟩
  | sorter ht =>
    obtain ⟨-, words, mutex, lock, comp, active, res, pc, rfl⟩ := ht.frame
    exact ⟨rfl, rfl, rfl, rfl, rfl⟩
  | deliveryElevator ht =>
    obtain ⟨-, words, pc, i, t, d, f, c, p, cur, ev, rfl⟩ := ht.frame
    exact ⟨rfl, rfl, rfl, rfl, rfl⟩
  | repositionElevator ht =>
    obtain ⟨-, pc, i, t, d, f, c, p, cur, ev, rfl⟩ := ht
    exact ⟨rfl, rfl, rfl, rfl, rfl⟩
  | parent => exact absurd rfl ha

theorem sameHeader_update {words : cfg.WordIndex → SharedWord cfg.numFloors} {wi : cfg.WordIndex}
    {w : SharedWord cfg.numFloors} (h : SameHeader (words wi) w) (wj : cfg.WordIndex) :
    SameHeader (words wj) (Function.update words wi w wj) := by
  by_cases hj : wj = wi
  · subst hj
    simpa using h
  · rw [Function.update_of_ne hj]
    exact .refl _

theorem LetterCarrierTransition.sameHeader {s s' : State cfg} {k : Fin maxCarriers}
    (h : LetterCarrierTransition s k s') (wi : cfg.WordIndex) :
    SameHeader (s.words wi) (s'.words wi) := by
  cases h
  case claim => exact sameHeader_update (sameHeader_claimChar _ _) wi
  case direct => exact sameHeader_update (sameHeader_deliverChar _ _) wi
  all_goals exact .refl _

theorem DeliveryTransition.sameHeader {s s' : State cfg} (h : DeliveryTransition s s')
    (wi : cfg.WordIndex) : SameHeader (s.words wi) (s'.words wi) := by
  cases h
  case deliver => exact sameHeader_update (sameHeader_deliverChar _ _) wi
  case move req rest pc _ _ =>
    obtain ⟨count, pend, cur, hmove⟩ := moveCarrier_frame s req.carrierSlot req.toFloor pc
    rw [hmove]
    exact .refl _
  all_goals exact .refl _

theorem startInvariant_init (cfg : Config) : StartInvariant (init cfg) where
  distinct := by
    intro jobs h
    obtain rfl : startJobs cfg = jobs := by simpa [init] using h
    exact startJobs_distinct cfg
  waiting := by
    intro jobs _ job _
    cases job <;> first | rfl | trivial
  slots := fun _ _ => rfl

theorem StartInvariant.of_run {s s' : State cfg} (h : StartInvariant s)
    (hparent : s'.parent = s.parent) (hslot : s'.nextCarrierSlot = s.nextCarrierSlot)
    (hjobs : ∀ job, NotStarted s job → NotStarted s' job)
    (hcarriers : ∀ k, s.letterCarriers k = .notStarted → s'.letterCarriers k = .notStarted) :
    StartInvariant s' := by
  refine ⟨?_, ?_, ?_⟩
  · intro jobs hpc
    exact h.distinct jobs (hparent ▸ hpc)
  · intro jobs hpc job hmem
    exact hjobs job (h.waiting jobs (hparent ▸ hpc) job hmem)
  · intro k hk
    exact hcarriers k (h.slots k (hslot ▸ hk))

theorem update_of_eq {ι β : Type*} [DecidableEq ι] {f : ι → β} {i j : ι} {x b : β}
    (hi : f i ≠ b) (hj : f j = b) : Function.update f i x j = b := by
  have hji : j ≠ i := by
    rintro rfl
    exact hi hj
  rw [Function.update_of_ne hji, hj]

theorem StartInvariant.of_start {s s' : State cfg} {job : Job cfg} {jobs : List (Job cfg)}
    (h : StartInvariant s) (hpc : s.parent = .starting (job :: jobs))
    (hpc' : s'.parent = .starting jobs) (hloose : job.isLetterCarrier = false)
    (hjobs : ∀ other, other ≠ job → NotStarted s other → NotStarted s' other)
    (hslot : s'.nextCarrierSlot = s.nextCarrierSlot)
    (hcarriers : s'.letterCarriers = s.letterCarriers) : StartInvariant s' := by
  have hdistinct := List.pairwise_cons.mp (h.distinct _ hpc)
  refine ⟨?_, ?_, ?_⟩
  · intro rest hrest
    obtain rfl : jobs = rest := by simpa [hpc'] using hrest
    exact hdistinct.2
  · intro rest hrest other hmem
    obtain rfl : jobs = rest := by simpa [hpc'] using hrest
    have hne : other ≠ job := by
      rintro rfl
      simpa [hloose] using hdistinct.1 other hmem
    exact hjobs other hne (h.waiting _ hpc other (List.mem_cons_of_mem _ hmem))
  · intro k hk
    rw [hcarriers]
    exact h.slots k (hslot ▸ hk)

theorem startInvariant_parent {s s' : State cfg} (h : StartInvariant s)
    (ht : ParentTransition s s') : StartInvariant s' := by
  cases ht with
  | turn hstart _ =>
    exact ⟨fun jobs hpc => absurd hpc (hstart jobs), fun jobs hpc => absurd hpc (hstart jobs),
      h.slots⟩
  | stop => exact ⟨by simp, by simp, h.slots⟩
  | wake => exact ⟨by simp, by simp, h.slots⟩
  | post => exact ⟨by simp, by simp, h.slots⟩
  | succeed => exact ⟨by simp, by simp, h.slots⟩
  | @startWordCarrier c jobs hpc =>
    refine h.of_start hpc rfl rfl ?_ rfl rfl
    intro other hne hother
    cases other with
    | wordCarrier d =>
      have hdc : d ≠ c := fun heq => hne (by rw [heq])
      exact (Function.update_of_ne hdc _ _).trans hother
    | letterCarrier | sorter | deliveryElevator | repositionElevator => exact hother
  | @startSorter x jobs hpc =>
    refine h.of_start hpc rfl rfl ?_ rfl rfl
    intro other hne hother
    cases other with
    | sorter y =>
      have hyx : y ≠ x := fun heq => hne (by rw [heq])
      exact (Function.update_of_ne hyx _ _).trans hother
    | letterCarrier | wordCarrier | deliveryElevator | repositionElevator => exact hother
  | startDelivery hpc =>
    refine h.of_start hpc rfl rfl ?_ rfl rfl
    intro other hne hother
    cases other with
    | deliveryElevator => exact absurd rfl hne
    | letterCarrier | wordCarrier | sorter | repositionElevator => exact hother
  | startReposition hpc =>
    refine h.of_start hpc rfl rfl ?_ rfl rfl
    intro other hne hother
    cases other with
    | repositionElevator => exact absurd rfl hne
    | letterCarrier | wordCarrier | sorter | deliveryElevator => exact hother
  | @spawn f next slot hslot hnext =>
    have hrest : ∀ jobs, next = .starting jobs →
        s.parent = .starting (.letterCarrier f :: jobs) := by
      intro jobs heq
      rcases hnext with ⟨jobs', hpc, hn⟩ | ⟨left, -, hn⟩
      · obtain rfl : jobs' = jobs := by simpa [hn] using heq
        exact hpc
      · simp [hn] at heq
    refine ⟨?_, ?_, ?_⟩
    · intro jobs heq
      exact (List.pairwise_cons.mp (h.distinct _ (hrest jobs heq))).2
    · intro jobs heq job hmem
      have hjob := h.waiting _ (hrest jobs heq) job (List.mem_cons_of_mem _ hmem)
      cases job <;> exact hjob
    · intro k hk
      have hlt : slot.val + 1 ≤ k.val := hk
      have hks : k ≠ slot := by
        rintro rfl
        omega
      exact (Function.update_of_ne hks _ _).trans (h.slots k (by omega))

theorem startInvariant_step {s s' : State cfg} {a : Action cfg} (h : StartInvariant s)
    (hs : step s a = some s') : StartInvariant s' := by
  cases step_spec hs with
  | wordCarrier ht =>
    obtain ⟨hpc, words, cursor, active, pc, reserved, adm, rfl⟩ := ht.frame
    refine h.of_run rfl rfl ?_ (fun _ hk => hk)
    intro job hjob
    cases job with
    | wordCarrier d => exact update_of_eq hpc hjob
    | letterCarrier | sorter | deliveryElevator | repositionElevator => exact hjob
  | letterCarrier ht =>
    obtain ⟨hpc, words, pc, d, r, di, ri, ev, rfl⟩ := ht.frame
    refine h.of_run rfl rfl ?_ (fun j hj => update_of_eq hpc hj)
    intro job hjob
    cases job <;> exact hjob
  | sorter ht =>
    obtain ⟨hpc, words, mutex, lock, comp, active, res, pc, rfl⟩ := ht.frame
    refine h.of_run rfl rfl ?_ (fun _ hk => hk)
    intro job hjob
    cases job with
    | sorter y => exact update_of_eq hpc hjob
    | letterCarrier | wordCarrier | deliveryElevator | repositionElevator => exact hjob
  | deliveryElevator ht =>
    obtain ⟨hpc, words, pc, i, t, d, f, c, p, cur, ev, rfl⟩ := ht.frame
    refine h.of_run rfl rfl ?_ (fun _ hk => hk)
    intro job hjob
    cases job with
    | deliveryElevator => exact absurd hjob hpc
    | letterCarrier | wordCarrier | sorter | repositionElevator => exact hjob
  | repositionElevator ht =>
    obtain ⟨hpc, pc, i, t, d, f, c, p, cur, ev, rfl⟩ := ht
    refine h.of_run rfl rfl ?_ (fun _ hk => hk)
    intro job hjob
    cases job with
    | repositionElevator => exact absurd hjob hpc
    | letterCarrier | wordCarrier | sorter | deliveryElevator => exact hjob
  | parent ht => exact startInvariant_parent h ht

theorem startInvariant_reachable {s : State cfg} (h : (building cfg).Reachable s) :
    StartInvariant s :=
  h.invariant (startInvariant_init cfg) (fun _ _ _ _ hprior hs => startInvariant_step hprior hs)

end SysProg.HW3

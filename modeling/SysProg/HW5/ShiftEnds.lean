import SysProg.HW5.CourierWakeup
import SysProg.Lib.FairRuns

/-!
# The shift comes to an end

In a run that is fair to the couriers and to the main thread every shift ends:
signals, spurious wake-ups and timed waits may come at any time and any number
of times, and a thread may fail to be created. An order taken, a step of a
delivery, a courier that leaves and a step of the main thread towards its end
are work done; as long as the main thread has not finished, some thread has
work to do and keeps it until some work is done.
-/

open scoped BigOperators
namespace SysProg.HW5
open SysProg.Lib
variable {n : ℕ}

/-! ### The work that is left -/

def CourierPc.work : CourierPc → ℕ
  | .notCreated | .ready | .waiting => 1
  | .delivering _ => 5
  | .counting _ => 4
  | .timing _ => 3
  | .finishing _ => 2
  | .exited => 0

def MainPc.work (n : ℕ) : MainPc → ℕ
  | .creating i => n - i + n + 4
  | .createFailed _ => n + 4
  | .waitLoop | .sleeping | .cancelling => n + 3
  | .joining i => n - i + 2
  | .summary => 1
  | .finished => 0

def courierWork (courier : Fin n → CourierPc) : ℕ := ∑ c, (courier c).work

def deliveryWork (s : State n) : ℕ :=
  5 * s.queue.orders.length + courierWork s.courier + if s.shiftStopping then 0 else 1

def work (s : State n) : ℕ := deliveryWork s + s.main.work n

theorem courierWork_update (courier : Fin n → CourierPc) (c : Fin n) (pc : CourierPc) :
    courierWork (Function.update courier c pc) + (courier c).work = courierWork courier + pc.work :=
  sum_update_add (fun _ => CourierPc.work) courier c pc

theorem courierWork_wakeAll (courier : Fin n → CourierPc) :
    courierWork (wakeAll courier) = courierWork courier := by
  apply Finset.sum_congr rfl
  intro c _
  unfold wakeAll
  cases courier c <;> rfl

theorem work_update {s s' : State n} {f : Fin n → CourierPc} {c : Fin n} {pc : CourierPc}
    (hf : courierWork f = courierWork s.courier) (hc : s'.courier = Function.update f c pc)
    (hlt : pc.work < (f c).work) (hq : s'.queue = s.queue) (hmain : s'.main = s.main)
    (hstop : s.shiftStopping = true → s'.shiftStopping = true) : work s' < work s := by
  have hu := courierWork_update f c pc
  have hflag : (if s'.shiftStopping then 0 else 1) ≤ if s.shiftStopping then 0 else 1 := by
    cases hs : s.shiftStopping with
    | false =>
      simp only [Bool.false_eq_true, if_false]
      split_ifs
      · exact Nat.zero_le 1
      · exact le_rfl
    | true => rw [hstop hs]
  simp only [work, deliveryWork, hc, hq, hmain]
  omega

def MustWait (s : State n) : Prop :=
  s.queue.size = 0 ∧ s.shiftStopping = false ∧ 0 < s.activeDeliveryCount

theorem courierTake_work {s : State n} {c : Fin n} (hpc : s.courier c = .ready) :
    MustWait s ∧ courierTake s c = { s with courier := Function.update s.courier c .waiting } ∨
      ¬ MustWait s ∧ work (courierTake s c) < work s := by
  have hwake : wakeAll s.courier c = .ready := by rw [wakeAll_of_ne (by simp [hpc]), hpc]
  unfold courierTake
  split
  · rename_i hwait
    exact Or.inl ⟨hwait, rfl⟩
  · rename_i hwait
    apply Or.inr
    refine ⟨hwait, ?_⟩
    split
    · exact work_update rfl rfl (by simp [hpc, CourierPc.work]) rfl rfl id
    · cases hq : s.queue.orders with
      | nil =>
        simp only [queuePop, hq]
        split_ifs
        · exact work_update (courierWork_wakeAll _) rfl (by simp [hwake, CourierPc.work])
            rfl rfl (fun _ => rfl)
        · exact work_update rfl rfl (by simp [hpc, CourierPc.work]) rfl rfl id
      | cons order rest =>
        have hu := courierWork_update s.courier c (.delivering order)
        simp only [hpc, CourierPc.work] at hu
        simp only [queuePop, hq, work, deliveryWork, List.length_cons]
        omega

theorem courierLeave_work {s : State n} {c : Fin n} {order : Order}
    (hpc : s.courier c = .finishing order) : work (courierLeave s c) < work s := by
  have hwake : wakeAll s.courier c = .finishing order := by
    rw [wakeAll_of_ne (by simp [hpc]), hpc]
  simp only [courierLeave]
  split_ifs
  · exact work_update (courierWork_wakeAll _) rfl (by simp [hwake, CourierPc.work]) rfl rfl
      (fun _ => rfl)
  · exact work_update (courierWork_wakeAll _) rfl (by simp [hwake, CourierPc.work]) rfl rfl id
  · exact work_update rfl rfl (by simp [hpc, CourierPc.work]) rfl rfl id

theorem cancelPendingOrders_work (s : State n) :
    s.shiftStopping = true ∧ cancelPendingOrders s = s ∨
      deliveryWork (cancelPendingOrders s) < deliveryWork s := by
  unfold cancelPendingOrders
  split
  · rename_i hstop
    exact Or.inl ⟨hstop, rfl⟩
  · rename_i hrun
    apply Or.inr
    simp only [deliveryWork, popAll_eq, courierWork_wakeAll, List.length_nil, if_true, hrun,
      if_false, Bool.false_eq_true]
    omega

/-! ### Steps that do no work -/

inductive Idle (s : State n) : Action n → State n → Prop where
  | interrupt : Idle s .sigint { s with sigintFlag := true }
  | wait (c : Fin n) : s.courier c = .ready → MustWait s →
      Idle s (.courier c) { s with courier := Function.update s.courier c .waiting }
  | wake (c : Fin n) : s.courier c = .waiting →
      Idle s (.wake c) { s with courier := Function.update s.courier c .ready }
  | keepWaiting (pc : MainPc) : s.main = .waitLoop →
      s.shiftStopping = false ∨ 0 < s.activeDeliveryCount → pc = .sleeping ∨ pc = .cancelling →
      Idle s .main { s with main := pc }
  | goOn : s.main = .sleeping ∨ s.main = .cancelling → Idle s .main { s with main := .waitLoop }

theorem courierStep_work {s s' : State n} {c : Fin n} (h : courierStep s c = some s') :
    work s' < work s ∨ Idle s (.courier c) s' := by
  unfold courierStep at h
  cases hpc : s.courier c with
  | notCreated => simp [hpc] at h
  | waiting => simp [hpc] at h
  | exited => simp [hpc] at h
  | ready =>
    simp only [hpc, Option.some.injEq] at h
    subst h
    rcases courierTake_work hpc with ⟨hwait, htake⟩ | ⟨-, hlt⟩
    · rw [htake]
      exact Or.inr (.wait c hpc hwait)
    · exact Or.inl hlt
  | delivering order =>
    simp only [hpc, Option.some.injEq] at h
    subst h
    exact Or.inl (work_update rfl rfl (by simp [hpc, CourierPc.work]) rfl rfl id)
  | counting order =>
    simp only [hpc, Option.some.injEq] at h
    subst h
    exact Or.inl (work_update rfl rfl (by simp [hpc, CourierPc.work]) rfl rfl id)
  | timing order =>
    simp only [hpc, Option.some.injEq] at h
    subst h
    exact Or.inl (work_update rfl rfl (by simp [hpc, CourierPc.work]) rfl rfl id)
  | finishing order =>
    simp only [hpc, Option.some.injEq] at h
    subst h
    exact Or.inl (courierLeave_work hpc)

theorem work_create {s : State n} {i : ℕ} (hi : i < n) (hpc : s.main = .creating i)
    (hnew : s.courier ⟨i, hi⟩ = .notCreated) :
    work { s with
      courier := Function.update s.courier ⟨i, hi⟩ .ready
      main := .creating (i + 1) } < work s := by
  have hu := courierWork_update s.courier ⟨i, hi⟩ .ready
  simp only [hnew, CourierPc.work] at hu
  simp only [work, deliveryWork, hpc, MainPc.work]
  omega

theorem mainStep_work {s s' : State n} (hm : MainInOrder s) (h : mainStep s = some s') :
    work s' < work s ∨ Idle s .main s' := by
  unfold mainStep at h
  cases hpc : s.main with
  | creating i =>
    simp only [hpc] at h
    split_ifs at h with hi
    · obtain rfl := Option.some.inj h
      have hnew := hm.uncreated ⟨i, hi⟩ (by simp [State.createdCouriers, hpc])
      exact Or.inl (work_create hi hpc hnew)
    · obtain rfl := Option.some.inj h
      apply Or.inl
      simp only [work, hpc, MainPc.work]
      exact Nat.add_lt_add_left (by omega) _
  | createFailed i =>
    simp only [hpc, Option.some.injEq] at h
    subst h
    apply Or.inl
    have hle : deliveryWork (cancelPendingOrders s) ≤ deliveryWork s := by
      rcases cancelPendingOrders_work s with ⟨-, heq⟩ | hlt
      · rw [heq]
      · exact hlt.le
    simp only [work, hpc, MainPc.work]
    exact Nat.add_lt_add_of_le_of_lt hle (by omega)
  | waitLoop =>
    simp only [hpc] at h
    split_ifs at h with hwait hflag
    · obtain rfl := Option.some.inj h
      exact Or.inr (.keepWaiting _ hpc hwait (by simp))
    · obtain rfl := Option.some.inj h
      exact Or.inr (.keepWaiting _ hpc hwait (by simp))
    · obtain rfl := Option.some.inj h
      apply Or.inl
      simp only [work, hpc, MainPc.work]
      exact Nat.add_lt_add_left (by omega) _
  | sleeping =>
    simp only [hpc, Option.some.injEq] at h
    subst h
    exact Or.inr (.goOn (Or.inl hpc))
  | cancelling =>
    simp only [hpc, Option.some.injEq] at h
    subst h
    rcases cancelPendingOrders_work s with ⟨-, heq⟩ | hlt
    · rw [heq]
      exact Or.inr (.goOn (Or.inr hpc))
    · apply Or.inl
      simp only [work, hpc, MainPc.work]
      exact Nat.add_lt_add_right hlt _
  | joining i =>
    simp only [hpc] at h
    split_ifs at h with hi hexit
    · obtain rfl := Option.some.inj h
      apply Or.inl
      simp only [work, hpc, MainPc.work]
      exact Nat.add_lt_add_left (by omega) _
    · obtain rfl := Option.some.inj h
      apply Or.inl
      simp only [work, hpc, MainPc.work]
      exact Nat.add_lt_add_left (by omega) _
  | summary =>
    simp only [hpc, Option.some.injEq] at h
    subst h
    apply Or.inl
    simp only [work, deliveryWork, hpc, MainPc.work, popAll_eq, List.length_nil]
    omega
  | finished => simp [hpc] at h

theorem step_work {s s' : State n} {a : Action n} (hm : MainInOrder s) (h : step s a = some s') :
    work s' < work s ∨ Idle s a s' := by
  cases a with
  | courier c => exact courierStep_work h
  | wake c =>
    simp only [step] at h
    split_ifs at h with hpc
    exact Option.some.inj h ▸ Or.inr (.wake c hpc)
  | main => exact mainStep_work hm h
  | createFails =>
    simp only [step] at h
    cases hpc : s.main with
    | creating i =>
      simp only [hpc] at h
      split_ifs at h with hi
      obtain rfl := Option.some.inj h
      apply Or.inl
      simp only [work, hpc, MainPc.work]
      exact Nat.add_lt_add_left (by omega) _
    | _ => simp [hpc] at h
  | sigint =>
    simp only [step, Option.some.injEq] at h
    exact h ▸ Or.inr .interrupt

/-! ### Threads with work to do -/

inductive ShiftThread (n : ℕ) where
  | main
  | courier (c : Fin n)

def ShiftThread.turn : ShiftThread n → Action n
  | .main => .main
  | .courier c => .courier c

/-- Everything but signals, spurious wake-ups and failing thread creations. -/
def turns (n : ℕ) : Set (Action n) := Set.range ShiftThread.turn

def CanWork (s : State n) : ShiftThread n → Prop
  | .courier c =>
    match s.courier c with
    | .notCreated | .waiting | .exited => False
    | .ready => ¬ MustWait s
    | _ => True
  | .main =>
    match s.main with
    | .waitLoop | .sleeping | .cancelling => s.shiftStopping = true ∧ s.activeDeliveryCount ≤ 0
    | .joining i => ∀ h : i < n, i < s.numCouriers → s.courier ⟨i, h⟩ = .exited
    | .finished => False
    | _ => True

def turnsAway (s : State n) : ShiftThread n → ℕ
  | .courier _ => 0
  | .main =>
    match s.main with
    | .sleeping | .cancelling => 1
    | _ => 0

theorem CanWork.enabled {s : State n} {th : ShiftThread n} (h : CanWork s th) :
    step s th.turn ≠ none := by
  cases th with
  | courier c =>
    cases hpc : s.courier c <;> simp_all [CanWork, ShiftThread.turn, step, courierStep]
  | main =>
    simp only [ShiftThread.turn, step]
    cases hpc : s.main with
    | joining i =>
      simp only [CanWork, hpc] at h
      simp only [mainStep, hpc]
      split_ifs with hi hexit
      · simp
      · exact absurd (h hi.1 hi.2) hexit
      · simp
    | finished => simp [CanWork, hpc] at h
    | creating i =>
      simp only [mainStep, hpc]
      split_ifs <;> simp
    | waitLoop =>
      simp only [mainStep, hpc]
      split_ifs <;> simp
    | _ => simp [mainStep, hpc]

theorem Idle.work_eq {s s' : State n} {a : Action n} (h : Idle s a s') : work s' = work s := by
  cases h with
  | interrupt => rfl
  | wait c hpc hwait =>
    have hu := courierWork_update s.courier c .waiting
    simp only [hpc, CourierPc.work] at hu
    simp only [work, deliveryWork]
    omega
  | wake c hpc =>
    have hu := courierWork_update s.courier c .ready
    simp only [hpc, CourierPc.work] at hu
    simp only [work, deliveryWork]
    omega
  | keepWaiting pc hpc hwait hnext =>
    rcases hnext with rfl | rfl <;> simp only [work, deliveryWork, hpc, MainPc.work]
  | goOn hpc =>
    rcases hpc with hpc | hpc <;> simp only [work, deliveryWork, hpc, MainPc.work]

theorem canWork_update {s : State n} {c : Fin n} {pc : CourierPc} {th : ShiftThread n}
    (hne : th ≠ .courier c) (hpc : s.courier c ≠ .exited) (h : CanWork s th) :
    CanWork { s with courier := Function.update s.courier c pc } th := by
  cases th with
  | courier d =>
    have hd : d ≠ c := fun heq => hne (heq ▸ rfl)
    simp only [CanWork, Function.update_of_ne hd] at h ⊢
    exact h
  | main =>
    cases hmain : s.main with
    | joining i =>
      simp only [CanWork, hmain] at h ⊢
      intro hi hcreated
      have hd : (⟨i, hi⟩ : Fin n) ≠ c := fun heq => hpc (heq ▸ h hi hcreated)
      rw [Function.update_of_ne hd]
      exact h hi hcreated
    | waitLoop | sleeping | cancelling => simpa only [CanWork, hmain] using h
    | finished => simp [CanWork, hmain] at h
    | _ => simp [CanWork]

theorem Idle.canWork {s s' : State n} {a : Action n} (h : Idle s a s') {th : ShiftThread n}
    (hth : CanWork s th) : CanWork s' th := by
  cases h with
  | interrupt => exact hth
  | wait c hpc hwait =>
    apply canWork_update ?_ (by simp [hpc]) hth
    rintro rfl
    simp [CanWork, hpc, hwait] at hth
  | wake c hpc =>
    apply canWork_update ?_ (by simp [hpc]) hth
    rintro rfl
    simp [CanWork, hpc] at hth
  | keepWaiting pc hpc hwait hnext =>
    cases th with
    | courier d => exact hth
    | main =>
      simp only [CanWork, hpc] at hth
      rcases hwait with hrun | hactive
      · rw [hth.1] at hrun
        cases hrun
      · omega
  | goOn hpc =>
    cases th with
    | courier d => exact hth
    | main => rcases hpc with hpc | hpc <;> simpa only [CanWork, hpc] using hth

theorem Idle.nearer {s s' : State n} {a : Action n} (h : Idle s a s') {th : ShiftThread n}
    (hth : CanWork s th) :
    turnsAway s' th < turnsAway s th ∨
      turnsAway s' th = turnsAway s th ∧ a ≠ th.turn := by
  cases th with
  | courier d =>
    refine Or.inr ⟨rfl, ?_⟩
    intro heq
    cases h with
    | wait c hpc hwait =>
      obtain rfl := Action.courier.inj heq
      simp [CanWork, hpc, hwait] at hth
    | _ => cases heq
  | main =>
    cases h with
    | keepWaiting pc hpc hwait hnext =>
      simp only [CanWork, hpc] at hth
      rcases hwait with hrun | hactive
      · rw [hth.1] at hrun
        cases hrun
      · omega
    | goOn hpc =>
      apply Or.inl
      rcases hpc with hpc | hpc <;> simp [turnsAway, hpc]
    | _ => exact Or.inr ⟨rfl, by simp [ShiftThread.turn]⟩

/-! ### Some thread has work to do -/

theorem cancelPendingOrders_stopping (s : State n) :
    (cancelPendingOrders s).shiftStopping = true := by
  unfold cancelPendingOrders
  split
  · assumption
  · rfl

theorem Transition.stopping {s s' : State n} (h : Transition s s')
    (hstop : s.shiftStopping = true) : s'.shiftStopping = true := by
  cases h with
  | courierStop => rfl
  | finish c stop f hpc hf hstop' =>
    rcases hstop' with rfl | ⟨rfl, -⟩
    · exact hstop
    · rfl
  | cancelFailed | cancel => exact cancelPendingOrders_stopping s
  | _ => exact hstop

structure Staffed (s : State n) : Prop where
  created : ∀ c : Fin n, c < s.createdCouriers → s.courier c ≠ .notCreated
  full : s.shiftStopping = false → s.numCouriers = n

theorem Staffed.courier {s s' : State n} {f : Fin n → CourierPc} {c : Fin n} {pc : CourierPc}
    (h : Staffed s) (hf : f = s.courier ∨ f = wakeAll s.courier)
    (hc : s'.courier = Function.update f c pc) (hpc : pc ≠ .notCreated) (hmain : s'.main = s.main)
    (hnum : s'.numCouriers = s.numCouriers)
    (hstop : s.shiftStopping = true → s'.shiftStopping = true) : Staffed s' where
  created := by
    intro d hd
    have hold := h.created d (by simpa only [State.createdCouriers, hmain, hnum] using hd)
    rw [hc]
    by_cases hdc : d = c
    · rw [hdc, Function.update_self]
      exact hpc
    · rw [Function.update_of_ne hdc]
      rcases hf with rfl | rfl
      · exact hold
      · exact fun hnot => hold (wakeAll_eq_notCreated.mp hnot)
  full := by
    intro hrun
    rw [hnum]
    apply h.full
    by_contra hne
    rw [hstop (by simpa using hne)] at hrun
    cases hrun

theorem staffed_step {s s' : State n} (h : Transition s s') (hs : Staffed s) : Staffed s' := by
  have hcancel : ∀ c, (cancelPendingOrders s).courier c = .notCreated ↔
      s.courier c = .notCreated := (couriersMove_cancel s).uncreated
  cases h with
  | sigint => exact ⟨hs.created, hs.full⟩
  | courierWait c | courierWake c | courierExit c | deliver c | count c | time c | courierStart c =>
    exact hs.courier (Or.inl rfl) rfl (by simp) rfl rfl id
  | courierStop c => exact hs.courier (Or.inr rfl) rfl (by simp) rfl rfl (fun _ => rfl)
  | finish c stop f hpc hf hstop =>
    have hkeep := (Transition.finish c stop f hpc hf hstop).stopping
    exact hs.courier (hf.imp_left And.left) rfl (by simp) rfl rfl hkeep
  | create hi hpc =>
    rename_i i
    refine ⟨?_, hs.full⟩
    intro d hd
    by_cases hdi : d = ⟨i, hi⟩
    · simp [hdi]
    · have hne : (d : ℕ) ≠ i := fun heq => hdi (Fin.ext heq)
      simp only [Function.update_of_ne hdi]
      simp only [State.createdCouriers] at hd
      exact hs.created d (by simp only [State.createdCouriers, hpc]; omega)
  | created hpc hi =>
    refine ⟨?_, hs.full⟩
    intro d _
    have hlt := d.isLt
    exact hs.created d (by simp only [State.createdCouriers, hpc]; omega)
  | createFails hpc hi =>
    refine ⟨?_, hs.full⟩
    intro d hd
    exact hs.created d (by simpa only [State.createdCouriers, hpc] using hd)
  | cancelFailed hpc =>
    refine ⟨?_, fun hrun => absurd (cancelPendingOrders_stopping s) (by simpa using hrun)⟩
    intro d hd
    have hold := hs.created d (by simpa only [State.createdCouriers, hpc] using hd)
    exact fun hnot => hold ((hcancel d).mp hnot)
  | cancel hpc =>
    refine ⟨?_, fun hrun => absurd (cancelPendingOrders_stopping s) (by simpa using hrun)⟩
    intro d hd
    have hnum := (couriersMove_cancel s).numCouriers
    have hold := hs.created d (by simpa only [State.createdCouriers, hpc, hnum] using hd)
    exact fun hnot => hold ((hcancel d).mp hnot)
  | keepWaiting pc hold hpc =>
    refine ⟨?_, hs.full⟩
    intro d hd
    apply hs.created d
    rcases hold with hold | hold <;> rcases hpc with rfl | rfl | rfl <;>
      simpa only [State.createdCouriers, hold] using hd
  | shiftOver hpc | join _ hpc | joined hpc | clear hpc =>
    refine ⟨?_, hs.full⟩
    intro d hd
    exact hs.created d (by simpa only [State.createdCouriers, hpc] using hd)

theorem staffed_reachable {orders : List Order} {s : State n}
    (h : (machine n orders).Reachable s) : Staffed s :=
  h.invariant ⟨fun c hc => by simp [machine, initial, State.createdCouriers] at hc, fun _ => rfl⟩
    (fun _ _ _ _ hs hstep => staffed_step (step_transition hstep) hs)

theorem exited_of_update {f : Fin n → CourierPc} {c d : Fin n} {pc : CourierPc}
    (hpc : pc ≠ .exited) (h : Function.update f c pc d = .exited) : f d = .exited := by
  by_cases hd : d = c
  · rw [hd, Function.update_self] at h
    exact absurd h hpc
  · rwa [Function.update_of_ne hd] at h

theorem wakeAll_eq_exited {courier : Fin n → CourierPc} {c : Fin n} :
    wakeAll courier c = .exited ↔ courier c = .exited := by
  unfold wakeAll
  cases courier c <;> simp

def LeaveTogether (s : State n) : Prop := ∀ c, s.courier c = .exited → s.shiftStopping = true

theorem leaveTogether_take {orders : List Order} {s : State n} {c : Fin n}
    (hc : Conserved orders s) (h : LeaveTogether s) : LeaveTogether (courierTake s c) := by
  unfold courierTake
  split
  · exact fun d hd => h d (exited_of_update (by simp) hd)
  · rename_i hwait
    split
    · rename_i hstop
      exact fun _ _ => hstop
    · rename_i hrun
      cases hq : s.queue.orders with
      | nil =>
        have hactive := activeDeliveryCount_eq hc
        have hzero : s.activeDeliveryCount = 0 := by
          by_contra hne
          exact hwait ⟨by rw [hc.size, hq]; rfl, by simpa using hrun, by omega⟩
        simp only [queuePop, hq, hzero, if_true]
        exact fun _ _ => rfl
      | cons order rest =>
        simp only [queuePop, hq]
        exact fun d hd => h d (exited_of_update (by simp) hd)

theorem cancelPendingOrders_exited {s : State n} {c : Fin n} :
    (cancelPendingOrders s).courier c = .exited ↔ s.courier c = .exited := by
  unfold cancelPendingOrders
  split
  · exact Iff.rfl
  · exact wakeAll_eq_exited

theorem mainStep_exited {s s' : State n} (h : mainStep s = some s') {c : Fin n}
    (hc : s'.courier c = .exited) : s.courier c = .exited := by
  unfold mainStep at h
  cases hpc : s.main with
  | creating i =>
    simp only [hpc] at h
    split_ifs at h with hi
    · obtain rfl := Option.some.inj h
      exact exited_of_update (by simp) hc
    · obtain rfl := Option.some.inj h
      exact hc
  | createFailed i | cancelling =>
    simp only [hpc, Option.some.injEq] at h
    subst h
    exact cancelPendingOrders_exited.mp hc
  | waitLoop | joining i =>
    simp only [hpc] at h
    split_ifs at h <;>
      · obtain rfl := Option.some.inj h
        exact hc
  | sleeping | summary =>
    simp only [hpc, Option.some.injEq] at h
    subst h
    exact hc
  | finished => simp [hpc] at h

theorem leaveTogether_step {orders : List Order} {s s' : State n} {a : Action n}
    (hc : Conserved orders s) (hs : step s a = some s') (h : LeaveTogether s) :
    LeaveTogether s' := by
  have hkeep := (step_transition hs).stopping
  by_cases htake : ∃ c, a = .courier c ∧ s.courier c = .ready
  · obtain ⟨c, rfl, hpc⟩ := htake
    simp only [step, courierStep, hpc, Option.some.injEq] at hs
    exact hs ▸ leaveTogether_take hc h
  · intro d hd
    apply hkeep
    apply h d
    cases a with
    | courier c =>
      simp only [step] at hs
      cases hpc : s.courier c with
      | ready => exact absurd ⟨c, rfl, hpc⟩ htake
      | finishing order =>
        simp only [courierStep, hpc, courierLeave, Option.some.injEq] at hs
        subst hs
        split_ifs at hd
        · exact wakeAll_eq_exited.mp (exited_of_update (by simp) hd)
        · exact wakeAll_eq_exited.mp (exited_of_update (by simp) hd)
        · exact exited_of_update (by simp) hd
      | delivering order | counting order | timing order =>
        simp only [courierStep, hpc, Option.some.injEq] at hs
        subst hs
        exact exited_of_update (by simp) hd
      | _ => simp [courierStep, hpc] at hs
    | wake c =>
      simp only [step] at hs
      split_ifs at hs
      obtain rfl := Option.some.inj hs
      exact exited_of_update (by simp) hd
    | main => exact mainStep_exited hs hd
    | createFails =>
      simp only [step] at hs
      cases hpc : s.main with
      | creating i =>
        simp only [hpc] at hs
        split_ifs at hs
        obtain rfl := Option.some.inj hs
        exact hd
      | _ => simp [hpc] at hs
    | sigint =>
      obtain rfl := Option.some.inj hs
      exact hd

theorem leaveTogether_reachable {orders : List Order} {s : State n}
    (h : (machine n orders).Reachable s) : LeaveTogether s :=
  h.invariant (fun _ hc => by cases hc)
    (fun _ _ _ hr hl hs => leaveTogether_step (conserved_reachable hr) hs hl)

theorem busy_of_active {orders : List Order} {s : State n} (hc : Conserved orders s)
    (h : 0 < s.activeDeliveryCount) : ∃ c, (s.courier c).busy = true := by
  rw [activeDeliveryCount_eq hc, Int.natCast_pos, Finset.card_pos] at h
  obtain ⟨c, hmem⟩ := h
  exact ⟨c, (Finset.mem_filter.mp hmem).2⟩

theorem canWork_of_busy {s : State n} {c : Fin n} (h : (s.courier c).busy = true) :
    CanWork s (.courier c) := by
  cases hpc : s.courier c <;> simp_all [CourierPc.busy, CanWork]

/-- A courier that has been created and has not left its loop has work, unless
it waits for a delivery. -/
theorem canWork_of_present {s : State n} {c : Fin n} (ha : Attended s) (hwait : ¬ MustWait s)
    (hnew : s.courier c ≠ .notCreated) (hexit : s.courier c ≠ .exited) :
    CanWork s (.courier c) := by
  cases hpc : s.courier c with
  | notCreated => exact absurd hpc hnew
  | exited => exact absurd hpc hexit
  | waiting =>
    obtain ⟨hrun, hsize, hactive⟩ := ha c hpc
    exact absurd ⟨hsize, hrun, hactive⟩ hwait
  | ready => simpa only [CanWork, hpc] using hwait
  | _ => simp only [CanWork, hpc]

theorem finished_of_stuck {orders : List Order} {s : State n} (hn : 0 < n)
    (h : (machine n orders).Reachable s) (hstuck : ∀ th, ¬ CanWork s th) :
    s.main = .finished := by
  have hm := mainInOrder_reachable h
  have hc := conserved_reachable h
  have hs := staffed_reachable h
  have hidle : s.activeDeliveryCount ≤ 0 := by
    by_contra hpos
    obtain ⟨c, hbusy⟩ := busy_of_active hc (not_le.mp hpos)
    exact hstuck _ (canWork_of_busy hbusy)
  have hwait : ¬ MustWait s := by
    rintro ⟨-, -, hactive⟩
    omega
  have hpresent : ∀ c : Fin n, c < s.createdCouriers → s.courier c = .exited := by
    intro c hcreated
    by_contra hexit
    exact hstuck _ (canWork_of_present (attended_reachable h) hwait (hs.created c hcreated) hexit)
  -- before the joins the first courier shows that the shift is stopping
  have hwaiting : s.createdCouriers = s.numCouriers → s.shiftStopping = true := by
    intro hcreated
    by_contra hrun
    have hfirst := hpresent ⟨0, hn⟩ (by rw [hcreated, hs.full (by simpa using hrun)]; exact hn)
    exact hrun (leaveTogether_reachable h _ hfirst)
  have hmain := hstuck .main
  cases hpc : s.main with
  | finished => rfl
  | waitLoop | sleeping | cancelling =>
    have hstop := hwaiting (by simp only [State.createdCouriers, hpc])
    simp [CanWork, hpc, hstop, hidle] at hmain
  | joining i =>
    apply absurd _ hmain
    simp only [CanWork, hpc]
    intro hi hcreated
    exact hpresent ⟨i, hi⟩ (by simpa only [State.createdCouriers, hpc] using hcreated)
  | _ => simp [CanWork, hpc] at hmain

/-! ### The end of the shift -/

/-- The main thread has written the summary, no courier is left, and every order
has been delivered once or cancelled once. -/
structure Ended (orders : List Order) (s : State n) : Prop where
  main : s.main = .finished
  couriers : ∀ c : Fin n, s.courier c = if c < s.numCouriers then .exited else .notCreated
  settled : Settled orders s

theorem ended_of_finished {orders : List Order} {s : State n} (h : (machine n orders).Reachable s)
    (hpc : s.main = .finished) : Ended orders s :=
  ⟨hpc, courier_of_joined (mainInOrder_reachable h) (.inr hpc), settled_of_joined h (.inr hpc)⟩

theorem finished_stays {s s' : State n} (h : Transition s s') (hpc : s.main = .finished) :
    s'.main = .finished := by
  cases h with
  | create _ hold | created hold | createFails hold | cancelFailed hold | cancel hold =>
    rw [hpc] at hold
    cases hold
  | shiftOver hold | join _ hold | joined hold =>
    rw [hpc] at hold
    cases hold
  | clear => rfl
  | keepWaiting pc hold =>
    rw [hpc] at hold
    rcases hold with hold | hold <;> cases hold
  | _ => exact hpc

structure Undisturbed (s : State n) : Prop where
  signal : s.sigintFlag = false
  main : s.main ≠ .cancelling ∧ ∀ i, s.main ≠ .createFailed i
  cancelled : s.hist.cancelled = []
  all : s.numCouriers = n

theorem Undisturbed.frame {s s' : State n} (h : Undisturbed s)
    (hsignal : s'.sigintFlag = s.sigintFlag) (hmain : s'.main = s.main)
    (hcancelled : s'.hist.cancelled = s.hist.cancelled) (hnum : s'.numCouriers = s.numCouriers) :
    Undisturbed s' :=
  ⟨hsignal.trans h.signal, hmain ▸ h.main, hcancelled.trans h.cancelled, hnum.trans h.all⟩

theorem undisturbed_courierStep {s s' : State n} {c : Fin n} (h : courierStep s c = some s')
    (hu : Undisturbed s) : Undisturbed s' := by
  unfold courierStep at h
  cases hpc : s.courier c with
  | notCreated | waiting | exited => simp [hpc] at h
  | ready =>
    simp only [hpc, Option.some.injEq] at h
    subst h
    unfold courierTake
    split
    · exact hu.frame rfl rfl rfl rfl
    · split
      · exact hu.frame rfl rfl rfl rfl
      · split
        · split_ifs <;> exact hu.frame rfl rfl rfl rfl
        · exact hu.frame rfl rfl rfl rfl
  | finishing order =>
    simp only [hpc, Option.some.injEq] at h
    subst h
    simp only [courierLeave]
    split_ifs <;> exact hu.frame rfl rfl rfl rfl
  | delivering order | counting order | timing order =>
    simp only [hpc, Option.some.injEq] at h
    subst h
    exact hu.frame rfl rfl rfl rfl

theorem undisturbed_mainStep {s s' : State n} (h : mainStep s = some s') (hu : Undisturbed s) :
    Undisturbed s' := by
  unfold mainStep at h
  cases hpc : s.main with
  | creating i =>
    simp only [hpc] at h
    split_ifs at h <;>
      · obtain rfl := Option.some.inj h
        exact ⟨hu.signal, by simp, hu.cancelled, hu.all⟩
  | createFailed i => exact absurd hpc (hu.main.2 i)
  | cancelling => exact absurd hpc hu.main.1
  | waitLoop =>
    simp only [hpc] at h
    split_ifs at h with hwait hflag
    · rw [hu.signal] at hflag
      cases hflag
    · obtain rfl := Option.some.inj h
      exact ⟨hu.signal, by simp, hu.cancelled, hu.all⟩
    · obtain rfl := Option.some.inj h
      exact ⟨hu.signal, by simp, hu.cancelled, hu.all⟩
  | joining i =>
    simp only [hpc] at h
    split_ifs at h <;>
      · obtain rfl := Option.some.inj h
        exact ⟨hu.signal, by simp, hu.cancelled, hu.all⟩
  | sleeping | summary =>
    simp only [hpc, Option.some.injEq] at h
    subst h
    exact ⟨hu.signal, by simp, hu.cancelled, hu.all⟩
  | finished => simp [hpc] at h

theorem undisturbed_step {s s' : State n} {a : Action n} (h : step s a = some s')
    (hsignal : a ≠ .sigint) (hcreate : a ≠ .createFails) (hu : Undisturbed s) :
    Undisturbed s' := by
  cases a with
  | courier c => exact undisturbed_courierStep h hu
  | wake c =>
    simp only [step] at h
    split_ifs at h
    obtain rfl := Option.some.inj h
    exact hu.frame rfl rfl rfl rfl
  | main => exact undisturbed_mainStep h hu
  | createFails => exact absurd rfl hcreate
  | sigint => exact absurd rfl hsignal

section FairRun
variable {orders : List Order} (r : (machine n orders).FairRun (turns n))

def Uninterrupted : Prop := ∀ k, r.action k ≠ some .sigint ∧ r.action k ≠ some .createFails

variable {r}

theorem undisturbed_fairRun (h : Uninterrupted r) (k : ℕ) : Undisturbed (r.state k) := by
  refine r.stable (P := Undisturbed) (n := 0) ?_ ?_ k (Nat.zero_le k)
  · rw [r.start]
    exact ⟨rfl, by simp [machine, initial], rfl, rfl⟩
  · intro m a ha hu
    apply undisturbed_step (r.moves m a ha) ?_ ?_ hu
    · exact fun heq => (h m).1 (heq ▸ ha)
    · exact fun heq => (h m).2 (heq ▸ ha)

theorem fairRun_progress (hn : 0 < n) :
    r.Progress (fun s => s.main = .finished) work CanWork (fun _ th => th.turn) turnsAway where
  some_live k hgoal := by
    by_contra hstuck
    push Not at hstuck
    exact hgoal (finished_of_stuck hn (r.reachable k) hstuck)
  enabled k th hth := ⟨⟨th, rfl⟩, hth.enabled⟩
  moves k a th ha hth := by
    rcases step_work (mainInOrder_reachable (r.reachable k)) (r.moves k a ha) with hlt | hidle
    · exact Or.inl hlt
    · refine Or.inr ⟨hidle.work_eq, hidle.canWork hth, ?_⟩
      rcases hidle.nearer hth with hnear | ⟨hsame, hne⟩
      · exact Or.inl hnear
      · exact Or.inr ⟨hsame, rfl, hne⟩

/-- With at least one courier every fair run of a shift ends and stays at its
end, with every order delivered once or cancelled once. Unless a signal came or
a thread could not be created, everything has been delivered, and the three totals
are those of the file. -/
theorem fairRun_shiftEnds (hn : 0 < n) : ∃ k, ∀ m ≥ k, Ended orders (r.state m) ∧
    (Uninterrupted r → (∀ c, (r.state m).courier c = .exited) ∧
      deliveredOrders (r.state m).hist.delivered = (orders : Multiset Order) ∧
      (writeSummaryFile (r.state m)).completed = int32 orders.length ∧
      (writeSummaryFile (r.state m)).cancelled = 0 ∧
      (writeSummaryFile (r.state m)).totalTime =
        int64 (500 * (orders.map Order.durationUnits).sum)) := by
  obtain ⟨k, hk⟩ := (fairRun_progress (r := r) hn).reaches
  apply Exists.intro k
  intro m hm
  have hfinished : (r.state m).main = .finished :=
    r.stable (P := fun s => s.main = .finished) hk
      (fun j a ha hpc => finished_stays (step_transition (r.moves j a ha)) hpc) m hm
  have hended := ended_of_finished (r.reachable m) hfinished
  refine ⟨hended, ?_⟩
  intro hfree
  have hu := undisturbed_fairRun hfree m
  have hall : deliveredOrders (r.state m).hist.delivered = (orders : Multiset Order) := by
    have haccounts := hended.settled.split
    rwa [hu.cancelled, Multiset.coe_nil, add_zero] at haccounts
  refine ⟨?_, hall, ?_, ?_, ?_⟩
  · intro c
    rw [hended.couriers c, hu.all, if_pos c.isLt]
  · simp only [writeSummaryFile, hended.settled.completed, hall, Multiset.coe_card]
  · simp only [writeSummaryFile, hended.settled.cancelled, hu.cancelled]
    exact int32_eq_self_iff.mpr (by decide)
  · simp only [writeSummaryFile, hended.settled.time, hall, Multiset.map_coe, Multiset.sum_coe]

end FairRun

theorem Ended.rest {orders : List Order} {s : State n} (h : Ended orders s) :
    ∀ a ∈ turns n, step s a = none := by
  rintro a ⟨th, rfl⟩
  cases th with
  | main => simp [ShiftThread.turn, step, mainStep, h.main]
  | courier c =>
    have hpc := h.couriers c
    split_ifs at hpc <;> simp [ShiftThread.turn, step, courierStep, hpc]

def endedShift : List (Action 2) := interruptedShift ++ [.main]

theorem endedShift_isSome :
    ((machine 2 fourOrders).run (machine 2 fourOrders).init endedShift).isSome := by decide

theorem shiftEnds_endedShift : ∃ r : (machine 2 fourOrders).FairRun (turns 2),
    ∃ k, ∀ m ≥ k, Ended fourOrders (r.state m) := by
  have hrun := (Option.some_get endedShift_isSome).symm
  have hreach := (Machine.execution_of_isSome endedShift_isSome).reachable
  have hended := ended_of_finished hreach (by decide)
  obtain ⟨k, hk⟩ := fairRun_shiftEnds (r := Machine.FairRun.ofScript endedShift _ hrun hended.rest)
    Nat.two_pos
  exact ⟨_, k, fun m hm => (hk m hm).1⟩

end SysProg.HW5

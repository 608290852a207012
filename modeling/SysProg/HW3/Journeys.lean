import SysProg.HW3.Traffic
import SysProg.HW3.ExactlyOnce

/-!
# One outstanding request a carrier

The building projects to its traffic: a request of the delivery elevator is
seen without its character, and a program counter is seen as a phase. Every
action of the building is a step of the traffic, so the balance of tickets
holds in every reachable state.
-/

open scoped BigOperators
namespace SysProg.HW3
open SysProg.Lib
variable {cfg : Config}

/-! ### The projection -/

def ElevatorPc.mover {ρ : Type} : ElevatorPc cfg ρ → Option (ρ × MovePc cfg)
  | .moving req _ pc => some (req, pc)
  | _ => none

def cabin {ρ : Type} (request : ρ → cfg.Reposition) (table : RequestTable ρ)
    (pc : ElevatorPc cfg ρ) : Cabin cfg where
  queue := (pending table + (↑pc.batch : Multiset ρ)).map request
  moving := pc.mover.map (fun p => (request p.1, p.2))

def Shaft.both {α : Type} (d r : α) : Shaft → α
  | .delivery => d
  | .reposition => r

@[simp] theorem Shaft.update_delivery {α : Type} (d r x : α) :
    Function.update (Shaft.both d r) .delivery x = Shaft.both x r := by
  funext e
  cases e <;> simp [Shaft.both]

@[simp] theorem Shaft.update_reposition {α : Type} (d r x : α) :
    Function.update (Shaft.both d r) .reposition x = Shaft.both d x := by
  funext e
  cases e <;> simp [Shaft.both]

def census (s : State cfg) : Census cfg where
  carrierCount := s.carrierCount
  respawnPending := s.respawnPending
  currentFloor := s.currentFloor

/-- The first carriers of the floor are still to come, or never will. -/
def awaited (s : State cfg) (f : cfg.Floor) : Prop :=
  (∃ jobs, s.parent = .starting jobs ∧ .letterCarrier f ∈ jobs) ∨
    (s.parent = .failed ∧ s.repositionElevator = .notStarted)

def traffic (s : State cfg) : Traffic cfg where
  cabins := Shaft.both
    (cabin (·.toRepositionRequest) s.deliveryRequests s.deliveryElevator)
    (cabin id s.repositionRequests s.repositionElevator)
  phase := fun k => (s.letterCarriers k).phase
  census := census s
  eventSem := s.eventSem
  nextSlot := s.nextCarrierSlot.val
  shutdown := s.shutdown
  awaited := awaited s

/-! ### Cabins -/

section Cabins
variable {ρ : Type} {request : ρ → cfg.Reposition} {table table' : RequestTable ρ}

theorem cabin_insert {pc : ElevatorPc cfg ρ} {req : ρ}
    (h : insertRequest table req = some table') :
    cabin request table' pc =
      { queue := (cabin request table pc).queue + {request req}
        moving := (cabin request table pc).moving } := by
  simp only [cabin, pending_insert h, Multiset.map_add, Multiset.map_singleton, Cabin.mk.injEq,
    and_true]
  abel

theorem cabin_collect {batch : List ρ}
    (h : pending table = pending table' + (↑batch : Multiset ρ)) :
    cabin request table' (.serving batch : ElevatorPc cfg ρ) =
      cabin request table (.woken : ElevatorPc cfg ρ) := by
  simp [cabin, ElevatorPc.batch, ElevatorPc.mover, h]

theorem cabin_serving (table : RequestTable ρ) (req : ρ) (rest : List ρ) :
    cabin request table (.serving (req :: rest) : ElevatorPc cfg ρ) =
      { queue := (pending table + (↑rest : Multiset ρ)).map request + {request req}
        moving := none } := by
  simp only [cabin, ElevatorPc.batch, ElevatorPc.mover, ← Multiset.cons_coe,
    ← Multiset.singleton_add, Multiset.map_add, Multiset.map_singleton, Option.map_none,
    Cabin.mk.injEq, and_true]
  abel

theorem cabin_moving (table : RequestTable ρ) (req : ρ) (rest : List ρ) (pc : MovePc cfg) :
    cabin request table (.moving req rest pc) =
      { queue := (pending table + (↑rest : Multiset ρ)).map request
        moving := some (request req, pc) } := rfl

theorem card_queue_of_full {pc : ElevatorPc cfg ρ} {req : ρ}
    (h : insertRequest table req = none) : maxRequests ≤ (cabin request table pc).queue.card := by
  simp only [cabin, Multiset.card_map, Multiset.card_add, card_pending_of_full h]
  omega

end Cabins

/-! ### Every action is a step of the traffic -/

theorem Traffic.Step.refl (t : Traffic cfg) : t.Step t := .quiet t.awaited (fun _ h => h)

theorem phase_update (carriers : Fin maxCarriers → LetterCarrierPc cfg) (k : Fin maxCarriers)
    (pc : LetterCarrierPc cfg) : (fun j => (Function.update carriers k pc j).phase) =
      Function.update (fun j => (carriers j).phase) k pc.phase := by
  funext j
  by_cases hj : j = k
  · subst hj
    simp
  · simp [Function.update_of_ne hj]

theorem phase_update_of_eq {carriers : Fin maxCarriers → LetterCarrierPc cfg}
    {k : Fin maxCarriers} {pc old : LetterCarrierPc cfg} (hold : carriers k = old)
    (h : pc.phase = old.phase) :
    (fun j => (Function.update carriers k pc j).phase) = fun j => (carriers j).phase := by
  funext j
  exact apply_update_of_eq LetterCarrierPc.phase (h.trans (congrArg _ hold.symm)) j

theorem traffic_step {s s' : State cfg} {t : Traffic cfg} (hstep : (traffic s).Step t)
    (hcabins : (traffic s').cabins = t.cabins) (hphase : (traffic s').phase = t.phase)
    (hcensus : census s' = t.census) (hsem : s'.eventSem = t.eventSem)
    (hnext : s'.nextCarrierSlot.val = t.nextSlot) (hrun : s'.shutdown = t.shutdown)
    (hawaited : awaited s' = t.awaited) : (traffic s).Step (traffic s') := by
  have heq : traffic s' = t := by
    cases t
    simp only [traffic] at hcabins hphase
    simp only [traffic, Traffic.mk.injEq]
    exact ⟨hcabins, hphase, hcensus, hsem, hnext, hrun, hawaited⟩
  rw [heq]
  exact hstep

theorem traffic_letterCarrier {s s' : State cfg} {k : Fin maxCarriers}
    (h : LetterCarrierTransition s k s') : (traffic s).Step (traffic s') := by
  cases h with
  | turn hpc hnext =>
    have hphase : (traffic s).phase k = .head := congrArg LetterCarrierPc.phase hpc
    subst hnext
    cases hrun : s.shutdown with
    | true =>
      exact traffic_step (.leave (.inl hphase)) rfl (phase_update _ _ _) rfl rfl rfl hrun.symm rfl
    | false =>
      exact traffic_step (.start hphase hrun) rfl (phase_update _ _ _) rfl rfl rfl hrun.symm rfl
  | skip hpc | attempt hpc | noTask hpc | claim hpc | noChar hpc | stay hpc | postReposition hpc
  | postDelivery hpc =>
    exact traffic_step (.refl _) rfl (phase_update_of_eq hpc rfl) rfl rfl rfl rfl rfl
  | @leave floor hpc =>
    have hphase : (traffic s).phase k = .working floor := congrArg LetterCarrierPc.phase hpc
    exact traffic_step (.leave (.inr ⟨floor, hphase⟩)) rfl (phase_update _ _ _) rfl rfl rfl rfl rfl
  | @direct floor wi ci hpc =>
    have hphase : (traffic s).phase k = .working floor := congrArg LetterCarrierPc.phase hpc
    exact traffic_step (.rest hphase) rfl (phase_update _ _ _) rfl rfl rfl rfl rfl
  | @enqueueReposition floor toFloor table hpc htable =>
    have hphase : (traffic s).phase k = .working floor := congrArg LetterCarrierPc.phase hpc
    refine traffic_step (.request .reposition toFloor hphase) ?_ (phase_update _ _ _)
      rfl rfl rfl rfl rfl
    simp only [traffic, cabin_insert htable, Shaft.update_reposition]
    rfl
  | @repositionOverflow floor toFloor hpc hfull =>
    have hphase : (traffic s).phase k = .working floor := congrArg LetterCarrierPc.phase hpc
    exact traffic_step (.overflow .reposition hphase (card_queue_of_full hfull)) rfl
      (phase_update _ _ _) rfl rfl rfl rfl rfl
  | @enqueueDelivery floor wi ci table hpc hdest htable =>
    have hphase : (traffic s).phase k = .working floor := congrArg LetterCarrierPc.phase hpc
    refine traffic_step (.request .delivery (s.words wi).sortingFloor hphase) ?_
      (phase_update _ _ _) rfl rfl rfl rfl rfl
    simp only [traffic, cabin_insert htable, Shaft.update_delivery]
    rfl
  | @deliveryOverflow floor wi ci hpc hdest hfull =>
    have hphase : (traffic s).phase k = .working floor := congrArg LetterCarrierPc.phase hpc
    exact traffic_step (.overflow .delivery hphase (card_queue_of_full hfull)) rfl
      (phase_update _ _ _) rfl rfl rfl rfl rfl
  | wake hpc hsem =>
    have hphase : (traffic s).phase k = .awaiting := congrArg LetterCarrierPc.phase hpc
    exact traffic_step (.wake hphase hsem) rfl (phase_update _ _ _) rfl rfl rfl rfl rfl

theorem census_move (s : State cfg) (slot : Fin maxCarriers) (toFloor : cfg.Floor)
    (pc : MovePc cfg) :
    census (moveCarrierBetweenFloors s slot toFloor pc).1 =
        ((census s).move slot toFloor pc).1 ∧
      (moveCarrierBetweenFloors s slot toFloor pc).2 = ((census s).move slot toFloor pc).2 := by
  cases pc with
  | rechecking old =>
    by_cases hempty : s.carrierCount old = 0 ∧ s.respawnPending old = false <;>
      simp [moveCarrierBetweenFloors, Census.move, census, hempty]
  | start | leaving | entering | arriving | done => exact ⟨rfl, rfl⟩

theorem traffic_deliveryElevator {s s' : State cfg} (h : DeliveryTransition s s') :
    (traffic s).Step (traffic s') := by
  cases h with
  | turn hpc hnext =>
    refine traffic_step (.refl _) ?_ rfl rfl rfl rfl rfl rfl
    subst hnext
    simp only [traffic, hpc]
    cases s.shutdown <;> rfl
  | wake hpc | nothing hpc | served hpc =>
    refine traffic_step (.refl _) ?_ rfl rfl rfl rfl rfl rfl
    simp only [traffic, hpc]
    rfl
  | collect hpc hcollect =>
    refine traffic_step (.refl _) ?_ rfl rfl rfl rfl rfl rfl
    simp only [traffic, hpc, cabin_collect (pending_collectDelivery hcollect)]
  | @deliver req rest hpc =>
    have hcabin : (traffic s).cabins .delivery = _ :=
      (congrArg _ hpc).trans (cabin_serving s.deliveryRequests req rest)
    exact traffic_step (.board .delivery hcabin) (Shaft.update_delivery _ _ _).symm
      rfl rfl rfl rfl rfl rfl
  | @signal req rest hpc =>
    have hcabin : (traffic s).cabins .delivery = _ :=
      (congrArg _ hpc).trans (cabin_moving s.deliveryRequests req rest .done)
    exact traffic_step (.signal .delivery hcabin) (Shaft.update_delivery _ _ _).symm
      rfl rfl rfl rfl rfl rfl
  | @move req rest pc hpc hdone =>
    have hcabin : (traffic s).cabins .delivery = _ :=
      (congrArg _ hpc).trans (cabin_moving s.deliveryRequests req rest pc)
    obtain ⟨hcensus, hnext⟩ := census_move s req.carrierSlot req.toFloor pc
    obtain ⟨count, pend, cur, hmove⟩ := moveCarrier_frame s req.carrierSlot req.toFloor pc
    rw [hmove] at hcensus ⊢
    rw [hnext]
    exact traffic_step (.move .delivery hcabin hdone) (Shaft.update_delivery _ _ _).symm
      rfl hcensus rfl rfl rfl rfl

theorem awaited_of_started {s s' : State cfg} (hparent : s'.parent = s.parent)
    (h : s.repositionElevator ≠ .notStarted) (h' : s'.repositionElevator ≠ .notStarted) :
    awaited s' = awaited s := by
  funext f
  simp [awaited, hparent, h, h']

theorem traffic_repositionElevator {s s' : State cfg} (h : RepositionTransition s s') :
    (traffic s).Step (traffic s') := by
  cases h with
  | turn hpc hnext =>
    subst hnext
    refine traffic_step (.refl _) ?_ rfl rfl rfl rfl rfl
      (awaited_of_started rfl (by simp [hpc]) (by dsimp only; split_ifs <;> simp))
    simp only [traffic, hpc]
    cases s.shutdown <;> rfl
  | wake hpc | nothing hpc | served hpc =>
    refine traffic_step (.refl _) ?_ rfl rfl rfl rfl rfl
      (awaited_of_started rfl (by simp [hpc]) (by simp))
    simp only [traffic, hpc]
    rfl
  | collect hpc hcollect =>
    refine traffic_step (.refl _) ?_ rfl rfl rfl rfl rfl
      (awaited_of_started rfl (by simp [hpc]) (by simp))
    simp only [traffic, hpc, cabin_collect (pending_collectReposition hcollect)]
  | @begin req rest hpc =>
    have hcabin : (traffic s).cabins .reposition = _ :=
      (congrArg _ hpc).trans (cabin_serving s.repositionRequests req rest)
    exact traffic_step (.board .reposition hcabin) (Shaft.update_reposition _ _ _).symm
      rfl rfl rfl rfl rfl (awaited_of_started rfl (by simp [hpc]) (by simp))
  | @signal req rest hpc =>
    have hcabin : (traffic s).cabins .reposition = _ :=
      (congrArg _ hpc).trans (cabin_moving s.repositionRequests req rest .done)
    exact traffic_step (.signal .reposition hcabin) (Shaft.update_reposition _ _ _).symm
      rfl rfl rfl rfl rfl (awaited_of_started rfl (by simp [hpc]) (by simp))
  | @move req rest pc hpc hdone =>
    have hcabin : (traffic s).cabins .reposition = _ :=
      (congrArg _ hpc).trans (cabin_moving s.repositionRequests req rest pc)
    obtain ⟨hcensus, hnext⟩ := census_move s req.carrierSlot req.toFloor pc
    obtain ⟨count, pend, cur, hmove⟩ := moveCarrier_frame s req.carrierSlot req.toFloor pc
    rw [hmove] at hcensus ⊢
    rw [hnext]
    exact traffic_step (.move .reposition hcabin hdone) (Shaft.update_reposition _ _ _).symm
      rfl hcensus rfl rfl rfl (awaited_of_started rfl (by simp [hpc]) (by simp))

/-! ### The parent -/

theorem spawnLetterCarrier_parent (s : State cfg) (f : cfg.Floor) (next : ParentPc cfg) :
    (spawnLetterCarrier s f next).parent = next ∨
    (spawnLetterCarrier s f next).parent = .failed := by
  unfold spawnLetterCarrier
  split
  · exact .inl rfl
  · exact .inr rfl

theorem startJob_parent (s : State cfg) (next : ParentPc cfg) (job : Job cfg) :
    (startJob s next job).parent = next ∨ (startJob s next job).parent = .failed := by
  cases job with
  | wordCarrier c | sorter c =>
    simp only [startJob]
    split
    · exact .inl rfl
    · exact .inr rfl
  | letterCarrier f => exact spawnLetterCarrier_parent s f next
  | deliveryElevator | repositionElevator => exact .inl rfl

/-- The jobs that remain are the last ones of the list, and only a run that has
been stopped is woken up. -/
structure ParentInvariant (s : State cfg) : Prop where
  remaining : ∀ jobs, s.parent = .starting jobs → jobs <:+ startJobs cfg
  waking : ∀ slot, s.parent = .waking slot → s.shutdown = true

theorem ParentInvariant.of_pc {s : State cfg} (hstart : ∀ jobs, s.parent ≠ .starting jobs)
    (hwake : ∀ slot, s.parent ≠ .waking slot) : ParentInvariant s :=
  ⟨fun jobs hpc => absurd hpc (hstart jobs), fun slot hpc => absurd hpc (hwake slot)⟩

theorem parentInvariant_parent {s s' : State cfg} (h : ParentInvariant s)
    (hs : parentStep s = some s') : ParentInvariant s' := by
  unfold parentStep at hs
  split at hs
  case h_2 job jobs hpc =>
    cases hs
    rcases startJob_parent s (.starting jobs) job with hnext | hnext
    · refine ⟨fun rest hrest => ?_, by simp [hnext]⟩
      obtain rfl : jobs = rest := by simpa [hnext] using hrest
      exact (List.suffix_cons job jobs).trans (h.remaining _ hpc)
    · exact .of_pc (by simp [hnext]) (by simp [hnext])
  case h_3 | h_5 =>
    cases hs
    split_ifs <;> exact .of_pc (by simp) (by simp)
  case h_4 =>
    split at hs <;> cases hs
    · split_ifs <;> exact .of_pc (by simp) (by simp)
    · exact .of_pc (by simp) (by simp)
  case h_7 f left hpc =>
    cases hs
    rcases spawnLetterCarrier_parent s f (.respawning f left) with hnext | hnext <;>
      exact .of_pc (by simp [hnext]) (by simp [hnext])
  case h_8 =>
    cases hs
    exact ⟨by simp, fun _ _ => rfl⟩
  case h_9 slot hpc =>
    have hstop := h.waking slot hpc
    split at hs <;> cases hs <;> exact ⟨by simp, fun _ _ => hstop⟩
  case h_12 =>
    cases hs
    split_ifs <;> exact .of_pc (by simp) (by simp)
  all_goals cases hs
  all_goals exact .of_pc (by simp) (by simp)

theorem parentInvariant_reachable {s : State cfg} (h : (building cfg).Reachable s) :
    ParentInvariant s := by
  refine h.invariant ⟨?_, by simp [building, init]⟩ ?_
  · intro jobs hpc
    obtain rfl : startJobs cfg = jobs := by simpa [building, init] using hpc
    exact List.suffix_rfl
  · intro s a s' _ hprior hs
    by_cases ha : a = .parent
    · subst ha
      exact parentInvariant_parent hprior hs
    · obtain ⟨hparent, hrun, -⟩ := step_parent_eq hs ha
      refine ⟨?_, ?_⟩
      · rw [hparent]
        exact hprior.remaining
      · rw [hparent, hrun]
        exact hprior.waking

theorem reposition_notStarted {s : State cfg} (hstart : StartInvariant s) (h : ParentInvariant s)
    {job : Job cfg} {jobs : List (Job cfg)} (hpc : s.parent = .starting (job :: jobs)) :
    s.repositionElevator = .notStarted := by
  have hlast : (job :: jobs).getLast (by simp) = .repositionElevator := by
    rw [(h.remaining _ hpc).getLast (by simp)]
    simp [startJobs]
  have hmem : Job.repositionElevator ∈ job :: jobs := hlast ▸ List.getLast_mem _
  exact hstart.waiting _ hpc _ hmem

theorem awaited_parent {s s' : State cfg} (hstart : StartInvariant s) (h : ParentInvariant s)
    (hs : parentStep s = some s') {f : cfg.Floor} (hf : awaited s f) :
    awaited s' f ∨ ∃ jobs, s.parent = .starting (.letterCarrier f :: jobs) ∧
      s'.nextCarrierSlot ≠ s.nextCarrierSlot := by
  rcases hf with ⟨jobs, hpc, hmem⟩ | ⟨hpc, -⟩
  · cases jobs with
    | nil => simp at hmem
    | cons job jobs =>
      have hfirst := reposition_notStarted hstart h hpc
      simp only [parentStep, hpc, Option.some.injEq] at hs
      subst hs
      cases job with
      | letterCarrier g =>
        simp only [startJob, spawnLetterCarrier]
        split
        · rcases List.mem_cons.mp hmem with heq | hrest
          · cases heq
            refine .inr ⟨jobs, hpc, ?_⟩
            simp [Fin.ext_iff]
          · exact .inl (.inl ⟨jobs, rfl, hrest⟩)
        · exact .inl (.inr ⟨rfl, hfirst⟩)
      | wordCarrier c | sorter c =>
        simp only [startJob]
        split
        · exact .inl (.inl ⟨jobs, rfl, by simpa using hmem⟩)
        · exact .inl (.inr ⟨rfl, hfirst⟩)
      | deliveryElevator | repositionElevator =>
        exact .inl (.inl ⟨jobs, rfl, by simpa using hmem⟩)
  · simp [parentStep, hpc] at hs

theorem traffic_parent {s s' : State cfg} (hstart : StartInvariant s) (h : ParentInvariant s)
    (hs : parentStep s = some s') : (traffic s).Step (traffic s') := by
  have hawaited := fun f => awaited_parent (f := f) hstart h hs
  cases parentStep_spec hs with
  | turn | post | succeed | startWordCarrier | startSorter =>
    refine traffic_step (.quiet (awaited _) ?_) rfl rfl rfl rfl rfl rfl rfl
    intro f hf
    exact (hawaited f hf).resolve_right (by simp)
  | startDelivery hpc =>
    have hfirst : s.deliveryElevator = .notStarted := hstart.waiting _ hpc _ List.mem_cons_self
    have hmono := fun f hf => (hawaited f hf).resolve_right (by simp)
    refine traffic_step (.quiet _ hmono) ?_ rfl rfl rfl rfl rfl rfl
    simp only [traffic, hfirst]
    rfl
  | startReposition hpc =>
    have hfirst : s.repositionElevator = .notStarted := hstart.waiting _ hpc _ List.mem_cons_self
    have hmono := fun f hf => (hawaited f hf).resolve_right (by simp)
    refine traffic_step (.quiet _ hmono) ?_ rfl rfl rfl rfl rfl rfl
    simp only [traffic, hfirst]
    rfl
  | stop hpc =>
    refine traffic_step .stop rfl rfl rfl rfl rfl rfl ?_
    funext f
    simp [awaited, traffic, hpc]
  | @wake slot hpc =>
    refine traffic_step (.alarm slot (h.waking _ hpc)) rfl rfl rfl rfl rfl rfl ?_
    funext f
    simp [awaited, traffic, hpc]
  | @spawn f next slot hslot hnext =>
    refine traffic_step (.spawn slot f (awaited _) hslot ?_) rfl (phase_update _ _ _)
      rfl rfl rfl rfl rfl
    intro g hg hold
    refine (hawaited g hold).resolve_right ?_
    rintro ⟨jobs, hpc, -⟩
    rcases hnext with ⟨jobs', hpc', -⟩ | ⟨left, hpc', -⟩ <;> rw [hpc] at hpc' <;> cases hpc'
    exact hg rfl

theorem step_traffic {s s' : State cfg} {a : Action cfg} (hstart : StartInvariant s)
    (h : ParentInvariant s) (hs : step s a = some s') : (traffic s).Step (traffic s') := by
  cases a with
  | wordCarrier c =>
    simp only [step] at hs
    obtain ⟨-, words, cursor, active, pc, reserved, adm, rfl⟩ := (wordCarrierStep_spec hs).frame
    exact .refl _
  | letterCarrier k rand =>
    simp only [step] at hs
    exact traffic_letterCarrier (letterCarrierStep_spec hs)
  | sorter x draw =>
    simp only [step] at hs
    obtain ⟨-, words, mutex, lock, comp, active, res, pc, rfl⟩ := (sorterStep_spec hs).frame
    exact .refl _
  | deliveryElevator =>
    simp only [step] at hs
    exact traffic_deliveryElevator (deliveryElevatorStep_spec hs)
  | repositionElevator =>
    simp only [step] at hs
    exact traffic_repositionElevator (repositionElevatorStep_spec hs)
  | parent =>
    simp only [step] at hs
    exact traffic_parent hstart h hs

theorem sound_init (cfg : Config) : (traffic (init cfg)).Sound := by
  have hqueue : ∀ e, ((traffic (init cfg)).cabins e).queue = 0 := by
    intro e
    cases e <;> simp [traffic, Shaft.both, init, cabin, ElevatorPc.batch, pending_emptyTable]
  have hmoving : ∀ e, ((traffic (init cfg)).cabins e).moving = none := by
    intro e
    cases e <;> rfl
  have hjourneys : ∀ k, Traffic.outstanding (traffic (init cfg)).cabins k = 0 := by
    intro k
    simp [Traffic.outstanding_eq, Cabin.journeys, hqueue, hmoving, entry]
  refine ⟨?_, fun _ _ => rfl, ?_, ?_, ?_⟩
  · intro k
    rw [hjourneys]
    refine ⟨fun _ => rfl, Nat.zero_le 1, fun _ => rfl, ?_⟩
    intro hphase
    cases hphase
  · intro k f hphase
    cases hphase
  · simp [hqueue]
  · simp [hmoving]

/-- The induction rule for the traffic of reachable states. -/
theorem traffic_reachable {P : Traffic cfg → Prop} {s : State cfg}
    (h : (building cfg).Reachable s) (hinit : P (traffic (init cfg)))
    (hstep : ∀ t t', t.Sound → P t → t.Step t' → P t') : (traffic s).Sound ∧ P (traffic s) := by
  refine h.invariant (P := fun s => (traffic s).Sound ∧ P (traffic s)) ⟨sound_init cfg, hinit⟩ ?_
  rintro s a s' hreach ⟨hsound, hprior⟩ hs
  have ht := step_traffic (startInvariant_reachable hreach) (parentInvariant_reachable hreach) hs
  exact ⟨hsound.step ht, hstep _ _ hsound hprior ht⟩

theorem sound_reachable {s : State cfg} (h : (building cfg).Reachable s) : (traffic s).Sound :=
  (traffic_reachable (P := fun _ => True) h trivial (fun _ _ _ _ _ => trivial)).1

/-! ### Journeys of one carrier -/

def ElevatorPc.unsignalled {ρ : Type} : ElevatorPc cfg ρ → List ρ
  | .serving batch => batch
  | .moving req rest _ => req :: rest
  | _ => []

/-- The request whose carrier stands on its destination and has not been signalled. -/
def ElevatorPc.arrived {ρ : Type} : ElevatorPc cfg ρ → Option ρ
  | .moving req _ (.rechecking _) => some req
  | .moving req _ .done => some req
  | _ => none

def pendingJourneys (s : State cfg) : Multiset cfg.Reposition :=
  (pending s.deliveryRequests + (↑s.deliveryElevator.unsignalled : Multiset cfg.Delivery)).map
      (·.toRepositionRequest) +
    (pending s.repositionRequests + (↑s.repositionElevator.unsignalled : Multiset cfg.Reposition))

def journeysOf (s : State cfg) (k : Fin maxCarriers) : Multiset cfg.Reposition :=
  (pendingJourneys s).filter (fun req => req.carrierSlot = k)

def Arrived (s : State cfg) (req : cfg.Reposition) : Prop :=
  s.deliveryElevator.arrived.map (·.toRepositionRequest) = some req ∨
    s.repositionElevator.arrived = some req

instance (s : State cfg) (req : cfg.Reposition) : Decidable (Arrived s req) :=
  inferInstanceAs (Decidable (_ ∨ _))

theorem cabin_journeys {ρ : Type} (request : ρ → cfg.Reposition) (table : RequestTable ρ)
    (pc : ElevatorPc cfg ρ) : (cabin request table pc).journeys =
      (pending table + (↑pc.unsignalled : Multiset ρ)).map request := by
  cases pc with
  | moving req rest pc =>
    simp only [Cabin.journeys, cabin, ElevatorPc.batch, ElevatorPc.mover, ElevatorPc.unsignalled,
      Option.map_some, entry, ← Multiset.cons_coe, ← Multiset.singleton_add, Multiset.map_add,
      Multiset.map_singleton]
    abel
  | notStarted | head | waiting | woken | serving | exited =>
    simp [Cabin.journeys, cabin, ElevatorPc.batch, ElevatorPc.mover, ElevatorPc.unsignalled, entry]

theorem journeys_traffic (s : State cfg) :
    Traffic.journeys (traffic s).cabins = pendingJourneys s := by
  simp only [Traffic.journeys, Shaft.sum_eq, traffic, Shaft.both, cabin_journeys, Multiset.map_id,
    pendingJourneys]

theorem outstanding_traffic (s : State cfg) (k : Fin maxCarriers) :
    Traffic.outstanding (traffic s).cabins k = (journeysOf s k).card := by
  rw [Traffic.outstanding, journeys_traffic, Multiset.countP_eq_card_filter]
  rfl

theorem arrived_cabin_iff {ρ : Type} (request : ρ → cfg.Reposition) (table : RequestTable ρ)
    (pc : ElevatorPc cfg ρ) (req : cfg.Reposition) : pc.arrived.map request = some req ↔
      ∃ m, (cabin request table pc).moving = some (req, m) ∧
        (m = .done ∨ ∃ old, m = .rechecking old) := by
  cases pc with
  | moving r rest m => cases m <;> simp [ElevatorPc.arrived, cabin, ElevatorPc.mover]
  | notStarted | head | waiting | woken | serving | exited =>
    simp [ElevatorPc.arrived, cabin, ElevatorPc.mover]

theorem arrived_traffic (s : State cfg) (req : cfg.Reposition) :
    (traffic s).Arrived req ↔ Arrived s req := by
  have hreposition := arrived_cabin_iff id s.repositionRequests s.repositionElevator req
  rw [Option.map_id_apply] at hreposition
  rw [Arrived, arrived_cabin_iff _ s.deliveryRequests, hreposition]
  constructor
  · rintro ⟨e, pc, hmoving⟩
    cases e with
    | delivery => exact .inl ⟨pc, hmoving⟩
    | reposition => exact .inr ⟨pc, hmoving⟩
  · rintro (⟨pc, hmoving⟩ | ⟨pc, hmoving⟩)
    · exact ⟨.delivery, pc, hmoving⟩
    · exact ⟨.reposition, pc, hmoving⟩

/-- Carriers have at most one journey. A carrier stands where its request says,
before the ride and after it. One that waits is either signalled or on its way. -/
theorem one_journey_per_carrier {s : State cfg} (h : (building cfg).Reachable s) :
    (∀ k, (journeysOf s k).card ≤ 1) ∧
    (∀ req ∈ pendingJourneys s, s.currentFloor req.carrierSlot =
      if Arrived s req then req.toFloor else req.fromFloor) ∧
    (s.shutdown = false → ∀ k, s.letterCarriers k = .waiting →
      ((journeysOf s k).card = 1 ∧ s.eventSem k = 0) ∨
        ((journeysOf s k).card = 0 ∧ s.eventSem k = 1)) ∧
    (pendingJourneys s).card ≤ maxCarriers ∧
    ∀ k held, s.letterCarriers k ≠ .overflowed held := by
  have hsound := sound_reachable h
  refine ⟨?_, ?_, ?_, ?_, ?_⟩
  · intro k
    rw [← outstanding_traffic]
    exact (hsound.tickets k).once
  · intro req
    by_cases harrived : Arrived s req
    · rw [if_pos harrived]
      exact fun _ => hsound.toFloor_of_arrived ((arrived_traffic s req).mpr harrived)
    · rw [if_neg harrived, ← journeys_traffic]
      rw [← arrived_traffic] at harrived
      exact hsound.fromFloor_of_not_arrived harrived
  · intro hrun k hpc
    have hphase : (traffic s).phase k = .awaiting := congrArg LetterCarrierPc.phase hpc
    have hbalance := (hsound.tickets k).balance hrun
    rw [outstanding_traffic, if_pos hphase] at hbalance
    have hsem : (traffic s).eventSem k = s.eventSem k := rfl
    omega
  · rw [← journeys_traffic]
    exact hsound.card_journeys
  · intro k held hpc
    exact (hsound.tickets k).fits (congrArg LetterCarrierPc.phase hpc)

/-- A carrier that finds no task on the only floor asks to be moved and waits. -/
def idleCarrier : List (Action oneWord) :=
  List.replicate 7 .parent ++ List.replicate 6 (.letterCarrier firstSlot (fun _ => 0))

theorem idleCarrier_isSome :
    ((building oneWord).run (building oneWord).init idleCarrier).isSome := by decide +kernel

theorem one_journey_idleCarrier :
    ∃ s, (building oneWord).Reachable s ∧ s.letterCarriers firstSlot = .waiting ∧
      s.eventSem firstSlot = 0 ∧ (journeysOf s firstSlot).card = 1 := by
  have hreach := (Machine.execution_of_isSome idleCarrier_isSome).reachable
  have hrun : (((building oneWord).run (building oneWord).init idleCarrier).get
      idleCarrier_isSome).shutdown = false := by decide +kernel
  have hwait : (((building oneWord).run (building oneWord).init idleCarrier).get
      idleCarrier_isSome).letterCarriers firstSlot = .waiting := by decide +kernel
  have hsem : (((building oneWord).run (building oneWord).init idleCarrier).get
      idleCarrier_isSome).eventSem firstSlot = 0 := by decide +kernel
  obtain ⟨-, -, hwaiting, -, -⟩ := one_journey_per_carrier hreach
  rcases hwaiting hrun firstSlot hwait with ⟨hone, -⟩ | ⟨-, hsignal⟩
  · exact ⟨_, hreach, hwait, hsem, hone⟩
  · rw [hsem] at hsignal
    cases hsignal

end SysProg.HW3

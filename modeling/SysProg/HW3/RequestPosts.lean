import SysProg.HW3.SystemSteps

/-!
# No request is stranded in front of a sleeping elevator

A carrier inserts its request and posts the semaphore afterwards; an elevator
takes one unit and then empties as many entries as travel together. Units and
entries drift apart, but never in the wrong direction: an elevator that has
taken a unit finds at least one entry whenever there is one.
-/

open scoped BigOperators
namespace SysProg.HW3
open SysProg.Lib
variable {cfg : Config}

/-! ### A request desk -/

/-- The used entries of a table, the units of its semaphore, the carriers between
insertion and post, and whether the elevator has taken a unit and not yet collected. -/
structure Desk where
  used : ℕ
  items : ℕ
  posting : ℕ
  woken : Bool

inductive Desk.Step (d : Desk) : Desk → Prop where
  | quiet : Step d d
  | insert : Step d { d with used := d.used + 1, posting := d.posting + 1 }
  | post (p : ℕ) : d.posting = p + 1 → Step d { d with items := d.items + 1, posting := p }
  | extra : Step d { d with items := d.items + 1 }
  | wait (n : ℕ) : d.items = n + 1 → d.woken = false → Step d { d with items := n, woken := true }
  | nothing : d.woken = true → d.used = 0 → Step d { d with woken := false }
  | collect (rest : ℕ) : d.woken = true → rest < d.used →
      Step d { d with used := rest, woken := false }

def Desk.Covered (d : Desk) : Prop := d.used ≤ d.items + d.posting + d.woken.toNat

theorem Desk.Covered.step {d d' : Desk} (h : d.Covered) (hs : d.Step d') : d'.Covered := by
  unfold Covered at h
  cases hs with
  | quiet => exact h
  | insert | extra =>
    simp only [Covered]
    omega
  | post _ hp =>
    simp only [Covered]
    omega
  | wait _ hn hwoken =>
    rw [hwoken, Bool.toNat_false] at h
    simp only [Covered, Bool.toNat_true]
    omega
  | nothing hwoken hrest | collect _ hwoken hrest =>
    rw [hwoken, Bool.toNat_true] at h
    simp only [Covered, Bool.toNat_false]
    omega

/-! ### The two desks of the building -/

@[irreducible] def carriersAt (carriers : Fin maxCarriers → LetterCarrierPc cfg)
    (pc : LetterCarrierPc cfg) : ℕ :=
  (Finset.univ.filter (fun k => carriers k = pc)).card

theorem carriersAt_update (carriers : Fin maxCarriers → LetterCarrierPc cfg) (k : Fin maxCarriers)
    (new pc : LetterCarrierPc cfg) :
    carriersAt (Function.update carriers k new) pc + (if carriers k = pc then 1 else 0) =
      carriersAt carriers pc + if new = pc then 1 else 0 := by
  unfold carriersAt
  simp only [Finset.card_filter]
  exact sum_update_add (fun _ x => if x = pc then 1 else 0) carriers k new

theorem carriersAt_update_of_ne {carriers : Fin maxCarriers → LetterCarrierPc cfg}
    {k : Fin maxCarriers} {new pc : LetterCarrierPc cfg} (hold : carriers k ≠ pc)
    (hnew : new ≠ pc) :
    carriersAt (Function.update carriers k new) pc = carriersAt carriers pc := by
  simpa [hold, hnew] using carriersAt_update carriers k new pc

theorem carriersAt_enter {carriers : Fin maxCarriers → LetterCarrierPc cfg} {k : Fin maxCarriers}
    {pc : LetterCarrierPc cfg} (hold : carriers k ≠ pc) :
    carriersAt (Function.update carriers k pc) pc = carriersAt carriers pc + 1 := by
  simpa [hold] using carriersAt_update carriers k pc pc

theorem carriersAt_leave {carriers : Fin maxCarriers → LetterCarrierPc cfg} {k : Fin maxCarriers}
    {new pc : LetterCarrierPc cfg} (hold : carriers k = pc) (hnew : new ≠ pc) :
    carriersAt carriers pc = carriersAt (Function.update carriers k new) pc + 1 := by
  simpa [hold, hnew] using (carriersAt_update carriers k new pc).symm

def ElevatorPc.isWoken {ρ : Type} : ElevatorPc cfg ρ → Bool
  | .woken => true
  | _ => false

def deliveryDesk (s : State cfg) : Desk where
  used := (pending s.deliveryRequests).card
  items := s.deliveryItems
  posting := carriersAt s.letterCarriers .deliveryPost
  woken := s.deliveryElevator.isWoken

def repositionDesk (s : State cfg) : Desk where
  used := (pending s.repositionRequests).card
  items := s.repositionItems
  posting := carriersAt s.letterCarriers .repositionPost
  woken := s.repositionElevator.isWoken

theorem Desk.Step.of_eq {d d' e : Desk} (h : d.Step e) (he : d' = e) : d.Step d' := he ▸ h

theorem desks_letterCarrier {s s' : State cfg} {k : Fin maxCarriers}
    (h : LetterCarrierTransition s k s') :
    (deliveryDesk s).Step (deliveryDesk s') ∧ (repositionDesk s).Step (repositionDesk s') := by
  have hquiet : ∀ {pc pc' target : LetterCarrierPc cfg}, s.letterCarriers k = pc → pc ≠ target →
      pc' ≠ target → carriersAt (Function.update s.letterCarriers k pc') target =
        carriersAt s.letterCarriers target := by
    rintro pc pc' target rfl hold hnew
    exact carriersAt_update_of_ne hold hnew
  cases h with
  | turn hpc hnext =>
    subst hnext
    constructor
    all_goals
      refine Desk.Step.quiet.of_eq ?_
      simp only [deliveryDesk, repositionDesk]
      rw [hquiet hpc (by simp) (by split_ifs <;> simp)]
  | skip hpc | attempt hpc | noTask hpc | claim hpc | noChar hpc | leave hpc | stay hpc
  | repositionOverflow hpc | direct hpc | deliveryOverflow hpc | wake hpc =>
    constructor
    all_goals
      refine Desk.Step.quiet.of_eq ?_
      simp only [deliveryDesk, repositionDesk]
      rw [hquiet hpc (by simp) (by simp)]
  | enqueueReposition hpc htable =>
    constructor
    · refine Desk.Step.quiet.of_eq ?_
      simp only [deliveryDesk]
      rw [hquiet hpc (by simp) (by simp)]
    · refine Desk.Step.insert.of_eq ?_
      simp only [repositionDesk]
      rw [carriersAt_enter (by simp [hpc]), pending_insert htable, Multiset.card_add,
        Multiset.card_singleton]
  | postReposition hpc =>
    constructor
    · refine Desk.Step.quiet.of_eq ?_
      simp only [deliveryDesk]
      rw [hquiet hpc (by simp) (by simp)]
    · have hleave := carriersAt_leave hpc (show LetterCarrierPc.waiting ≠ _ by simp)
      exact (Desk.Step.post (d := repositionDesk s) _ hleave).of_eq (by simp only [repositionDesk])
  | enqueueDelivery hpc hdest htable =>
    constructor
    · refine Desk.Step.insert.of_eq ?_
      simp only [deliveryDesk]
      rw [carriersAt_enter (by simp [hpc]), pending_insert htable, Multiset.card_add,
        Multiset.card_singleton]
    · refine Desk.Step.quiet.of_eq ?_
      simp only [repositionDesk]
      rw [hquiet hpc (by simp) (by simp)]
  | postDelivery hpc =>
    constructor
    · have hleave := carriersAt_leave hpc (show LetterCarrierPc.waiting ≠ _ by simp)
      exact (Desk.Step.post (d := deliveryDesk s) _ hleave).of_eq (by simp only [deliveryDesk])
    · refine Desk.Step.quiet.of_eq ?_
      simp only [repositionDesk]
      rw [hquiet hpc (by simp) (by simp)]

def Scanning (s : State cfg) : Prop :=
  (s.deliveryDirection = 1 ∨ s.deliveryDirection = -1) ∧
    (s.repositionDirection = 1 ∨ s.repositionDirection = -1)

theorem towards_eq (floor fromFloor : cfg.Floor) {direction : ℤ}
    (h : direction = 1 ∨ direction = -1) :
    towards floor fromFloor direction = 1 ∨ towards floor fromFloor direction = -1 := by
  unfold towards
  split_ifs
  · exact .inl rfl
  · exact .inr rfl
  · exact h

theorem desks_deliveryElevator {s s' : State cfg} (h : DeliveryTransition s s')
    (hscan : Scanning s) : (deliveryDesk s).Step (deliveryDesk s') ∧
      repositionDesk s' = repositionDesk s ∧ Scanning s' := by
  cases h with
  | turn hpc hnext =>
    subst hnext
    refine ⟨Desk.Step.quiet.of_eq ?_, rfl, hscan⟩
    simp only [deliveryDesk, hpc]
    split_ifs <;> rfl
  | wake hpc hitems =>
    obtain ⟨items, hitems⟩ := Nat.exists_eq_succ_of_ne_zero hitems.ne'
    refine ⟨(Desk.Step.wait (d := deliveryDesk s) items hitems ?_).of_eq ?_, rfl, hscan⟩
    · simp only [deliveryDesk, hpc]
      rfl
    · simp only [deliveryDesk, hitems]
      rfl
  | nothing hpc hnone =>
    have hempty : (deliveryDesk s).used = 0 := by
      simp only [deliveryDesk]
      rw [pending_of_collect_none hscan.1 hnone, Multiset.card_zero]
    refine ⟨(Desk.Step.nothing (d := deliveryDesk s) ?_ hempty).of_eq ?_, rfl, hscan⟩
    · simp only [deliveryDesk, hpc]
      rfl
    · simp only [deliveryDesk]
      rfl
  | @collect table batch dir hpc hsome =>
    obtain ⟨hless, hdir⟩ := collectDelivery_some hsome
    have hused : (pending table).card < (deliveryDesk s).used := by
      simp only [deliveryDesk]
      exact hless
    refine ⟨(Desk.Step.collect (d := deliveryDesk s) _ ?_ hused).of_eq ?_, rfl,
      towards_eq _ _ hdir, hscan.2⟩
    · simp only [deliveryDesk, hpc]
      rfl
    · simp only [deliveryDesk]
      rfl
  | served hpc | deliver hpc | signal hpc =>
    refine ⟨Desk.Step.quiet.of_eq ?_, rfl, hscan⟩
    simp only [deliveryDesk, hpc]
    rfl
  | @move req rest pc hpc hdone =>
    obtain ⟨count, pend, cur, hmove⟩ := moveCarrier_frame s req.carrierSlot req.toFloor pc
    rw [hmove]
    refine ⟨Desk.Step.quiet.of_eq ?_, rfl, hscan⟩
    simp only [deliveryDesk, hpc]
    rfl

theorem desks_repositionElevator {s s' : State cfg} (h : RepositionTransition s s')
    (hscan : Scanning s) : deliveryDesk s' = deliveryDesk s ∧
      (repositionDesk s).Step (repositionDesk s') ∧ Scanning s' := by
  cases h with
  | turn hpc hnext =>
    subst hnext
    refine ⟨rfl, Desk.Step.quiet.of_eq ?_, hscan⟩
    simp only [repositionDesk, hpc]
    split_ifs <;> rfl
  | wake hpc hitems =>
    obtain ⟨items, hitems⟩ := Nat.exists_eq_succ_of_ne_zero hitems.ne'
    refine ⟨rfl, (Desk.Step.wait (d := repositionDesk s) items hitems ?_).of_eq ?_, hscan⟩
    · simp only [repositionDesk, hpc]
      rfl
    · simp only [repositionDesk, hitems]
      rfl
  | nothing hpc hnone =>
    have hempty : (repositionDesk s).used = 0 := by
      simp only [repositionDesk]
      rw [pending_of_collect_none hscan.2 hnone, Multiset.card_zero]
    refine ⟨rfl, (Desk.Step.nothing (d := repositionDesk s) ?_ hempty).of_eq ?_, hscan⟩
    · simp only [repositionDesk, hpc]
      rfl
    · simp only [repositionDesk]
      rfl
  | @collect table batch dir hpc hsome =>
    obtain ⟨hless, hdir⟩ := collectReposition_some hsome
    have hused : (pending table).card < (repositionDesk s).used := by
      simp only [repositionDesk]
      exact hless
    refine ⟨rfl, (Desk.Step.collect (d := repositionDesk s) _ ?_ hused).of_eq ?_,
      hscan.1, hdir⟩
    · simp only [repositionDesk, hpc]
      rfl
    · simp only [repositionDesk]
      rfl
  | served hpc | begin hpc | signal hpc =>
    refine ⟨rfl, Desk.Step.quiet.of_eq ?_, hscan⟩
    simp only [repositionDesk, hpc]
    rfl
  | @move req rest pc hpc hdone =>
    obtain ⟨count, pend, cur, hmove⟩ := moveCarrier_frame s req.carrierSlot req.toFloor pc
    rw [hmove]
    refine ⟨rfl, Desk.Step.quiet.of_eq ?_, hscan⟩
    simp only [repositionDesk, hpc]
    rfl

theorem desks_parent {s s' : State cfg} (hstart : StartInvariant s) (h : ParentTransition s s') :
    (deliveryDesk s).Step (deliveryDesk s') ∧ (repositionDesk s).Step (repositionDesk s') ∧
      s'.deliveryDirection = s.deliveryDirection ∧
      s'.repositionDirection = s.repositionDirection := by
  cases h with
  | turn | stop | wake | succeed | startWordCarrier | startSorter =>
    exact ⟨.quiet, .quiet, rfl, rfl⟩
  | post =>
    refine ⟨Desk.Step.extra.of_eq ?_, Desk.Step.extra.of_eq ?_, rfl, rfl⟩
    · simp only [deliveryDesk]
    · simp only [repositionDesk]
  | startDelivery hpc =>
    have hfirst : s.deliveryElevator = .notStarted := hstart.waiting _ hpc _ List.mem_cons_self
    refine ⟨Desk.Step.quiet.of_eq ?_, .quiet, rfl, rfl⟩
    simp only [deliveryDesk, hfirst]
    rfl
  | startReposition hpc =>
    have hfirst : s.repositionElevator = .notStarted := hstart.waiting _ hpc _ List.mem_cons_self
    refine ⟨.quiet, Desk.Step.quiet.of_eq ?_, rfl, rfl⟩
    simp only [repositionDesk, hfirst]
    rfl
  | spawn slot hslot hnext =>
    have hfree : s.letterCarriers slot = .notStarted := hstart.slots slot hslot.le
    refine ⟨Desk.Step.quiet.of_eq ?_, Desk.Step.quiet.of_eq ?_, rfl, rfl⟩
    · simp only [deliveryDesk]
      rw [carriersAt_update_of_ne (by simp [hfree]) (by simp)]
    · simp only [repositionDesk]
      rw [carriersAt_update_of_ne (by simp [hfree]) (by simp)]

/-! ### Every reachable state -/

structure PostInvariant (s : State cfg) : Prop where
  delivery : (deliveryDesk s).Covered
  reposition : (repositionDesk s).Covered
  scanning : Scanning s

theorem postInvariant_init (cfg : Config) : PostInvariant (init cfg) where
  delivery := by simp [Desk.Covered, deliveryDesk, init, pending_emptyTable]
  reposition := by simp [Desk.Covered, repositionDesk, init, pending_emptyTable]
  scanning := ⟨.inl rfl, .inl rfl⟩

theorem postInvariant_step {s s' : State cfg} {a : Action cfg} (hstart : StartInvariant s)
    (h : PostInvariant s) (hs : step s a = some s') : PostInvariant s' := by
  cases a with
  | wordCarrier c =>
    simp only [step] at hs
    obtain ⟨-, words, cursor, active, pc, reserved, adm, rfl⟩ := (wordCarrierStep_spec hs).frame
    exact ⟨h.delivery, h.reposition, h.scanning⟩
  | letterCarrier k rand =>
    simp only [step] at hs
    have ht := letterCarrierStep_spec hs
    obtain ⟨hdelivery, hreposition⟩ := desks_letterCarrier ht
    have hscan : Scanning s' := by
      obtain ⟨-, words, pc, d, r, di, ri, ev, rfl⟩ := ht.frame
      exact h.scanning
    exact ⟨h.delivery.step hdelivery, h.reposition.step hreposition, hscan⟩
  | sorter x draw =>
    simp only [step] at hs
    obtain ⟨-, words, mutex, lock, comp, active, res, pc, rfl⟩ := (sorterStep_spec hs).frame
    exact ⟨h.delivery, h.reposition, h.scanning⟩
  | deliveryElevator =>
    simp only [step] at hs
    obtain ⟨hdelivery, hreposition, hscan⟩ :=
      desks_deliveryElevator (deliveryElevatorStep_spec hs) h.scanning
    refine ⟨h.delivery.step hdelivery, ?_, hscan⟩
    rw [hreposition]
    exact h.reposition
  | repositionElevator =>
    simp only [step] at hs
    obtain ⟨hdelivery, hreposition, hscan⟩ :=
      desks_repositionElevator (repositionElevatorStep_spec hs) h.scanning
    refine ⟨?_, h.reposition.step hreposition, hscan⟩
    rw [hdelivery]
    exact h.delivery
  | parent =>
    simp only [step] at hs
    obtain ⟨hdelivery, hreposition, hd, hr⟩ := desks_parent hstart (parentStep_spec hs)
    refine ⟨h.delivery.step hdelivery, h.reposition.step hreposition, ?_⟩
    unfold Scanning
    rw [hd, hr]
    exact h.scanning

theorem postInvariant_reachable {s : State cfg} (h : (building cfg).Reachable s) :
    PostInvariant s := by
  refine h.invariant (postInvariant_init cfg) ?_
  intro s a s' hreach hprior hs
  exact postInvariant_step (startInvariant_reachable hreach) hprior hs

theorem exists_of_carriersAt_pos {carriers : Fin maxCarriers → LetterCarrierPc cfg}
    {pc : LetterCarrierPc cfg} (h : 0 < carriersAt carriers pc) : ∃ k, carriers k = pc := by
  unfold carriersAt at h
  obtain ⟨k, hk⟩ := Finset.card_pos.mp h
  exact ⟨k, (Finset.mem_filter.mp hk).2⟩

theorem Desk.Covered.posting_pos {d : Desk} (h : d.Covered) (hitems : d.items = 0)
    (hwoken : d.woken = false) (hused : d.used ≠ 0) : 0 < d.posting := by
  unfold Covered at h
  rw [hitems, hwoken, Bool.toNat_false] at h
  omega

/-- Requests never outnumber the units, the posts to come and the elevator that has
passed its wait, so no elevator sleeps in front of a request nobody will announce. -/
theorem no_stranded_request {s : State cfg} (h : (building cfg).Reachable s) :
    ((pending s.deliveryRequests).card ≤ s.deliveryItems +
        carriersAt s.letterCarriers .deliveryPost +
        s.deliveryElevator.isWoken.toNat) ∧
    ((pending s.repositionRequests).card ≤ s.repositionItems +
        carriersAt s.letterCarriers .repositionPost +
        s.repositionElevator.isWoken.toNat) ∧
    (s.deliveryElevator = .waiting → s.deliveryItems = 0 → pending s.deliveryRequests ≠ 0 →
      ∃ k, s.letterCarriers k = .deliveryPost) ∧
    (s.repositionElevator = .waiting → s.repositionItems = 0 → pending s.repositionRequests ≠ 0 →
      ∃ k, s.letterCarriers k = .repositionPost) := by
  obtain ⟨hdelivery, hreposition, -⟩ := postInvariant_reachable h
  refine ⟨?_, ?_, ?_, ?_⟩
  · simpa only [Desk.Covered, deliveryDesk] using hdelivery
  · simpa only [Desk.Covered, repositionDesk] using hreposition
  · intro hwaiting hitems hpending
    refine exists_of_carriersAt_pos (hdelivery.posting_pos hitems ?_ ?_)
    · simp only [deliveryDesk, hwaiting]
      rfl
    · simp only [deliveryDesk]
      exact mt Multiset.card_eq_zero.mp hpending
  · intro hwaiting hitems hpending
    refine exists_of_carriersAt_pos (hreposition.posting_pos hitems ?_ ?_)
    · simp only [repositionDesk, hwaiting]
      rfl
    · simp only [repositionDesk]
      exact mt Multiset.card_eq_zero.mp hpending

/-- The elevator goes to sleep while the only carrier is between insertion and post. -/
def unannounced : List (Action oneWord) :=
  List.replicate 7 .parent ++ [.repositionElevator] ++
    List.replicate 5 (.letterCarrier firstSlot (fun _ => 0))

theorem unannounced_isSome :
    ((building oneWord).run (building oneWord).init unannounced).isSome := by decide +kernel

theorem no_stranded_unannounced : ∃ s, (building oneWord).Reachable s ∧
    s.repositionElevator = .waiting ∧ s.repositionItems = 0 ∧ pending s.repositionRequests ≠ 0 ∧
      ∃ k, s.letterCarriers k = .repositionPost := by
  have hreach := (Machine.execution_of_isSome unannounced_isSome).reachable
  have hwait : (((building oneWord).run (building oneWord).init unannounced).get
      unannounced_isSome).repositionElevator = .waiting := by decide +kernel
  have hitems : (((building oneWord).run (building oneWord).init unannounced).get
      unannounced_isSome).repositionItems = 0 := by decide +kernel
  have hentry : ((((building oneWord).run (building oneWord).init unannounced).get
      unannounced_isSome).repositionRequests ⟨0, by decide⟩).isSome := by decide +kernel
  obtain ⟨req, hreq⟩ := Option.isSome_iff_exists.mp hentry
  have hpending := pending_ne_zero hreq
  obtain ⟨-, -, -, hnone⟩ := no_stranded_request hreach
  exact ⟨_, hreach, hwait, hitems, hpending, hnone hwait hitems hpending⟩

end SysProg.HW3

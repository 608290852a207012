import SysProg.HW3.Respawn

/-!
# A schedule that uses up the slots

No word is admitted in the schedule, so a carrier that looks for a task finds
none and asks for another floor. Between the trips the building is calm: the
carriers are at the head of their loop and both elevators are idle. A trip
takes one carrier from its floor, a round empties the ground floor and lets
the parent respawn, and rounds follow until a respawn finds no slot.
-/

open scoped BigOperators
namespace SysProg.HW3
open SysProg.Lib
variable {cfg : Config} {s : State cfg}

structure Calm (s : State cfg) : Prop where
  running : s.shutdown = false
  completed : s.completedWords = 0
  unadmitted : ∀ wi, (s.words wi).admitted = false
  table : s.repositionRequests = emptyTable
  items : s.repositionItems = 0
  direction : s.repositionDirection = 1 ∨ s.repositionDirection = -1
  carriers : ∀ k : Fin maxCarriers, k.val < s.nextCarrierSlot.val → s.letterCarriers k = .head

theorem Calm.unfinished (h : Calm s) : unfinished s = true := by
  simp [SysProg.HW3.unfinished, h.running, h.completed, cfg.words_pos]

/-! ### One trip -/

theorem repositionTarget_of_ne {floor toFloor : cfg.Floor} (h : toFloor ≠ floor) :
    repositionTarget floor toFloor.val = toFloor := by
  have hmod : toFloor.val % cfg.numFloors = toFloor.val := Nat.mod_eq_of_lt toFloor.isLt
  have hval : ¬ (toFloor.val = floor.val ∧ 1 < cfg.numFloors) := fun heq => h (Fin.ext heq.1)
  simp [repositionTarget, hmod, hval]

def setCarrier (s : State cfg) (k : Fin maxCarriers) (pc : LetterCarrierPc cfg) : State cfg :=
  { s with letterCarriers := Function.update s.letterCarriers k pc }

@[simp] theorem setCarrier_self (s : State cfg) (k : Fin maxCarriers) (pc : LetterCarrierPc cfg) :
    (setCarrier s k pc).letterCarriers k = pc := Function.update_self _ _ _

theorem setCarrier_setCarrier (s : State cfg) (k : Fin maxCarriers) (pc pc' : LetterCarrierPc cfg) :
    setCarrier (setCarrier s k pc) k pc' = setCarrier s k pc' := by
  simp [setCarrier]

theorem carrier_reaches {k : Fin maxCarriers} {pc pc' : LetterCarrierPc cfg} (rand : ℕ → ℕ)
    (h : (building cfg).Reachable (setCarrier s k pc))
    (hs : letterCarrierStep (setCarrier s k pc) k rand =
      some (setCarrier (setCarrier s k pc) k pc')) :
    (building cfg).Reachable (setCarrier s k pc') := by
  rw [setCarrier_setCarrier] at hs
  exact h.next (a := .letterCarrier k rand) hs

theorem scan_reaches (hwords : ∀ wi, (s.words wi).admitted = false) {k : Fin maxCarriers}
    {floor : cfg.Floor} {pass : ℕ} (hpass : pass ≤ cfg.totalWords)
    (h : (building cfg).Reachable (setCarrier s k (.scanning floor pass))) :
    (building cfg).Reachable (setCarrier s k (.idle floor)) := by
  induction hleft : cfg.totalWords - pass generalizing pass with
  | zero =>
    have hend : ¬ pass < cfg.totalWords := by omega
    refine carrier_reaches (fun _ => 0) h ?_
    simp only [letterCarrierStep, setCarrier_self, hend, ↓reduceIte]
    rfl
  | succ left ih =>
    have hmore : pass < cfg.totalWords := by omega
    refine ih hmore (carrier_reaches (fun _ => 0) h ?_) (by omega)
    have hnone : ∀ wi, availableAt ((setCarrier s k (.scanning floor pass)).words wi) floor =
        false := by
      intro wi
      simp [availableAt, setCarrier, hwords]
    simp only [letterCarrierStep, setCarrier_self, hmore, ↓reduceIte, hnone, Bool.false_eq_true]
    rfl

theorem call_reaches (hcalm : Calm s) (h : (building cfg).Reachable s) {k : Fin maxCarriers}
    (hk : k.val < s.nextCarrierSlot.val) {toFloor : cfg.Floor} (hto : toFloor ≠ s.currentFloor k)
    {table : RequestTable cfg.Reposition} (htable : insertRequest emptyTable
      { carrierSlot := k, fromFloor := s.currentFloor k, toFloor := toFloor } = some table) :
    (building cfg).Reachable { setCarrier s k .waiting with
      repositionRequests := table, repositionItems := 1 } := by
  have hhead := hcalm.carriers k hk
  have hscan : (building cfg).Reachable (setCarrier s k (.scanning (s.currentFloor k) 0)) := by
    refine h.next (a := .letterCarrier k (fun _ => 0)) ?_
    simp [building, step, letterCarrierStep, hhead, hcalm.running, setCarrier]
  have hidle := scan_reaches hcalm.unadmitted (Nat.zero_le _) hscan
  have hasks : (building cfg).Reachable (setCarrier s k (.requesting (s.currentFloor k))) := by
    refine carrier_reaches (fun _ => 0) hidle ?_
    have hmore : ¬ (cfg.totalWords ≤ (setCarrier s k (.idle (s.currentFloor k))).completedWords ∨
        (setCarrier s k (.idle (s.currentFloor k))).shutdown = true) := by
      simp only [setCarrier, hcalm.completed, hcalm.running, Bool.false_eq_true, or_false]
      exact Nat.not_le.mpr cfg.words_pos
    simp only [letterCarrierStep, setCarrier_self, hmore, ↓reduceIte]
    rfl
  have hpost : (building cfg).Reachable { setCarrier s k .repositionPost with
      repositionRequests := table } := by
    refine hasks.next (a := .letterCarrier k (fun _ => toFloor.val)) ?_
    have hinsert :
        insertRequest (setCarrier s k (.requesting (s.currentFloor k))).repositionRequests
        { carrierSlot := k, fromFloor := s.currentFloor k,
          toFloor := repositionTarget (s.currentFloor k) toFloor.val } = some table := by
      rw [repositionTarget_of_ne hto]
      simpa only [setCarrier, hcalm.table] using htable
    simp only [building, step, letterCarrierStep, setCarrier_self, hinsert]
    simp [setCarrier]
  refine hpost.next (a := .letterCarrier k (fun _ => 0)) ?_
  simp [building, step, letterCarrierStep, setCarrier, hcalm.items]

theorem collect_reaches (h : (building cfg).Reachable s) (hhead : s.repositionElevator = .head)
    (hrun : s.shutdown = false) (hitems : s.repositionItems = 1)
    (hdir : s.repositionDirection = 1 ∨ s.repositionDirection = -1) {i : Fin maxRequests}
    {req : cfg.Reposition} (htable : s.repositionRequests = singleRequest i req) :
    (building cfg).Reachable { s with
      repositionElevator := .moving req [] .start
      repositionItems := 0
      repositionRequests := emptyTable
      repositionDirection := travelDirection req
      repositionFloor := req.toFloor } := by
  have hwait : (building cfg).Reachable { s with repositionElevator := .waiting } := by
    refine h.next (a := .repositionElevator) ?_
    simp [building, step, repositionElevatorStep, hhead, hrun]
  have hwoken : (building cfg).Reachable { s with
      repositionElevator := .woken, repositionItems := 0 } := by
    refine hwait.next (a := .repositionElevator) ?_
    simp [building, step, repositionElevatorStep, hitems]
  have hserve : (building cfg).Reachable { s with
      repositionElevator := .serving [req]
      repositionItems := 0
      repositionRequests := emptyTable
      repositionDirection := travelDirection req } := by
    refine hwoken.next (a := .repositionElevator) ?_
    simp only [building, step, repositionElevatorStep, htable,
      collectRepositionBatch_singleRequest i req _ hdir]
  refine hserve.next (a := .repositionElevator) ?_
  simp [building, step, repositionElevatorStep]

theorem move_reaches (h : (building cfg).Reachable s) {req : cfg.Reposition}
    (hpc : s.repositionElevator = .moving req [] .start)
    (hne : s.currentFloor req.carrierSlot ≠ req.toFloor) :
    ∃ count pend, (building cfg).Reachable { s with
      repositionElevator := .moving req [] .done
      carrierCount := count
      respawnPending := pend
      currentFloor := Function.update s.currentFloor req.carrierSlot req.toFloor } := by
  have hleave : (building cfg).Reachable { s with
      repositionElevator := .moving req [] (.leaving (s.currentFloor req.carrierSlot)) } := by
    refine h.next (a := .repositionElevator) ?_
    simp [building, step, repositionElevatorStep, hpc, moveCarrierBetweenFloors, hne]
  obtain ⟨count, nowEmpty, henter⟩ : ∃ count, ∃ nowEmpty : Bool, (building cfg).Reachable { s with
      repositionElevator :=
        .moving req [] (.entering (s.currentFloor req.carrierSlot) nowEmpty)
      carrierCount := count } :=
    ⟨_, _, hleave.next (a := .repositionElevator) rfl⟩
  obtain ⟨count, pend, harrive⟩ : ∃ count pend, (building cfg).Reachable { s with
      repositionElevator :=
        .moving req [] (.arriving (s.currentFloor req.carrierSlot) nowEmpty)
      carrierCount := count
      respawnPending := pend } :=
    ⟨_, _, henter.next (a := .repositionElevator) rfl⟩
  have hassign : (building cfg).Reachable { s with
      repositionElevator := .moving req [] (if nowEmpty then
        .rechecking (s.currentFloor req.carrierSlot) else .done)
      carrierCount := count
      respawnPending := pend
      currentFloor := Function.update s.currentFloor req.carrierSlot req.toFloor } :=
    harrive.next (a := .repositionElevator) rfl
  cases nowEmpty with
  | false => exact ⟨count, pend, hassign⟩
  | true =>
    have hdone := hassign.next (a := .repositionElevator) rfl
    by_cases hmark : count (s.currentFloor req.carrierSlot) = 0 ∧
        pend (s.currentFloor req.carrierSlot) = false
    · simp only [moveCarrierBetweenFloors, hmark, and_self, ↓reduceIte] at hdone
      exact ⟨count, _, hdone⟩
    · simp only [moveCarrierBetweenFloors, hmark, ↓reduceIte] at hdone
      exact ⟨count, pend, hdone⟩

theorem signal_reaches (h : (building cfg).Reachable s) {req : cfg.Reposition}
    (hpc : s.repositionElevator = .moving req [] .done)
    (hwait : s.letterCarriers req.carrierSlot = .waiting) :
    (building cfg).Reachable { s with
      repositionElevator := .head
      letterCarriers := Function.update s.letterCarriers req.carrierSlot .head } := by
  have hsignal : (building cfg).Reachable { s with
      repositionElevator := .serving []
      eventSem :=
        Function.update s.eventSem req.carrierSlot (s.eventSem req.carrierSlot + 1) } := by
    refine h.next (a := .repositionElevator) ?_
    simp [building, step, repositionElevatorStep, hpc, signalCarrierEvent]
  have hserved : (building cfg).Reachable { s with
      repositionElevator := .head
      eventSem := Function.update s.eventSem req.carrierSlot (s.eventSem req.carrierSlot + 1) } :=
    hsignal.next (a := .repositionElevator) rfl
  refine hserved.next (a := .letterCarrier req.carrierSlot (fun _ => 0)) ?_
  simp [building, step, letterCarrierStep, hwait]

/-- One carrier rides to another floor and is back at the head of its loop. -/
theorem trip_reaches (hcalm : Calm s) (h : (building cfg).Reachable s)
    (hhead : s.repositionElevator = .head) {k : Fin maxCarriers}
    (hk : k.val < s.nextCarrierSlot.val) (toFloor : cfg.Floor) (hto : toFloor ≠ s.currentFloor k) :
    ∃ s', (building cfg).Reachable s' ∧ Calm s' ∧ s'.repositionElevator = .head ∧
      s'.deliveryElevator = s.deliveryElevator ∧ s'.parent = s.parent ∧
      s'.nextCarrierSlot = s.nextCarrierSlot ∧
      s'.currentFloor = Function.update s.currentFloor k toFloor := by
  obtain ⟨i, htable⟩ := insertRequest_emptyTable
    { carrierSlot := k, fromFloor := s.currentFloor k, toFloor := toFloor : cfg.Reposition }
  have hcall := call_reaches hcalm h hk hto htable
  have hstart := collect_reaches hcall hhead hcalm.running rfl hcalm.direction rfl
  obtain ⟨count, pend, hdone⟩ := move_reaches hstart rfl (Ne.symm hto)
  have hback := signal_reaches hdone rfl (setCarrier_self s k .waiting)
  refine ⟨_, hback, ⟨hcalm.running, hcalm.completed, hcalm.unadmitted, rfl, rfl, ?_, ?_⟩, rfl, rfl,
    rfl, rfl, rfl⟩
  · exact travelDirection_eq _
  · intro j hj
    by_cases hjk : j = k
    · subst hjk
      exact Function.update_self _ _ _
    · exact (Function.update_of_ne hjk _ _).trans
        ((Function.update_of_ne hjk _ _).trans (hcalm.carriers j hj))

/-! ### One round -/

structure Resting (s : State cfg) : Prop extends Calm s where
  delivery : s.deliveryElevator = .head
  reposition : s.repositionElevator = .head

theorem Resting.of_parent (h : Resting s) (pc : ParentPc cfg) :
    Resting { s with parent := pc } :=
  ⟨⟨h.running, h.completed, h.unadmitted, h.table, h.items, h.direction, h.carriers⟩,
    h.delivery, h.reposition⟩

theorem evacuation_reaches (hrest : Resting s) (h : (building cfg).Reachable s)
    {floor toFloor : cfg.Floor} (hne : toFloor ≠ floor) :
    ∃ s', (building cfg).Reachable s' ∧ Resting s' ∧ s'.parent = s.parent ∧
      s'.nextCarrierSlot = s.nextCarrierSlot ∧ carriersOn s' floor = ∅ := by
  induction hcount : (carriersOn s floor).card generalizing s with
  | zero => exact ⟨s, h, hrest, rfl, rfl, Finset.card_eq_zero.mp hcount⟩
  | succ n ih =>
    obtain ⟨k, hk⟩ := Finset.card_pos.mp (by omega : 0 < (carriersOn s floor).card)
    obtain ⟨hslot, hfloor⟩ := (Finset.mem_filter.mp hk).2
    obtain ⟨s', hreach, hcalm, hhead, hdelivery, hparent, hnext, hcurrent⟩ :=
      trip_reaches hrest.toCalm h hrest.reposition hslot toFloor (by rwa [hfloor])
    have hgone : carriersOn s' floor = (carriersOn s floor).erase k := by
      ext j
      by_cases hj : j = k
      · subst hj
        simp [carriersOn, hcurrent, hne]
      · simp [carriersOn, hcurrent, hnext, hj]
    have hless : (carriersOn s' floor).card = n := by
      rw [hgone, Finset.card_erase_of_mem hk]
      omega
    obtain ⟨s'', hreach', hrest', hparent', hnext', hempty⟩ :=
      ih ⟨hcalm, by rw [hdelivery, hrest.delivery], hhead⟩ hreach hless
    exact ⟨s'', hreach', hrest', hparent'.trans hparent, hnext'.trans hnext, hempty⟩

/-- The next respawn finds no slot although words remain. -/
def Exhausted (s : State cfg) : Prop :=
  unfinished s = true ∧ s.nextCarrierSlot.val = maxCarriers ∧
    ∃ f left, s.parent = .respawning f (left + 1)

theorem Calm.of_spawn (h : Calm s) (hslot : s.nextCarrierSlot.val < maxCarriers) (f : cfg.Floor)
    (next : ParentPc cfg) : Calm (spawnLetterCarrier s f next) := by
  simp only [spawnLetterCarrier, hslot, ↓reduceDIte]
  refine ⟨h.running, h.completed, h.unadmitted, h.table, h.items, h.direction, ?_⟩
  intro k hk
  by_cases hkslot : k = ⟨s.nextCarrierSlot.val, hslot⟩
  · subst hkslot
    exact Function.update_self _ _ _
  · have hval : k.val ≠ s.nextCarrierSlot.val := fun heq => hkslot (Fin.ext heq)
    have hlt : k.val < s.nextCarrierSlot.val + 1 := hk
    exact (Function.update_of_ne hkslot _ _).trans (h.carriers k (by omega))

theorem spawn_fields (hslot : s.nextCarrierSlot.val < maxCarriers) (f : cfg.Floor)
    (next : ParentPc cfg) : (spawnLetterCarrier s f next).parent = next ∧
      (spawnLetterCarrier s f next).nextCarrierSlot.val = s.nextCarrierSlot.val + 1 ∧
      (spawnLetterCarrier s f next).deliveryElevator = s.deliveryElevator ∧
      (spawnLetterCarrier s f next).repositionElevator = s.repositionElevator := by
  simp [spawnLetterCarrier, hslot]

/-- The parent starts the carriers of a floor, or runs out of slots. -/
theorem respawn_reaches (hrest : Resting s) (h : (building cfg).Reachable s) {f : cfg.Floor}
    {left : ℕ} (hpc : s.parent = .respawning f left) :
    (∃ s', (building cfg).Reachable s' ∧ Exhausted s') ∨
      ∃ s', (building cfg).Reachable s' ∧ Resting s' ∧ s'.parent = .checking (f + 1) ∧
        s'.nextCarrierSlot.val = s.nextCarrierSlot.val + left := by
  induction left generalizing s with
  | zero =>
    have hnext : (building cfg).Reachable { s with parent := .checking (f + 1) } := by
      refine h.next (a := .parent) ?_
      simp [building, step, parentStep, hpc]
    exact .inr ⟨_, hnext, hrest.of_parent _, rfl, rfl⟩
  | succ left ih =>
    by_cases hslot : s.nextCarrierSlot.val < maxCarriers
    · have hnext : (building cfg).Reachable (spawnLetterCarrier s f (.respawning f left)) := by
        refine h.next (a := .parent) ?_
        simp only [building, step, parentStep, hpc]
      obtain ⟨hparent, hcount, hdelivery, hreposition⟩ := spawn_fields hslot f (.respawning f left)
      have hrest' : Resting (spawnLetterCarrier s f (.respawning f left)) :=
        ⟨hrest.toCalm.of_spawn hslot f _, by rw [hdelivery, hrest.delivery],
          by rw [hreposition, hrest.reposition]⟩
      refine (ih hrest' hnext hparent).imp_right ?_
      rintro ⟨s', hreach, hrest', hpc', hcount'⟩
      exact ⟨s', hreach, hrest', hpc', by omega⟩
    · have hlimit := s.nextCarrierSlot.isLt
      exact .inl ⟨s, h, hrest.toCalm.unfinished, by omega, f, left, hpc⟩

theorem decision_reaches (hrest : Resting s) (h : (building cfg).Reachable s) {f : cfg.Floor}
    (hpc : s.parent = .deciding f) :
    (∃ s', (building cfg).Reachable s' ∧ Exhausted s') ∨
      ∃ s', (building cfg).Reachable s' ∧ Resting s' ∧ s'.parent = .checking (f + 1) ∧
        s.nextCarrierSlot.val < s'.nextCarrierSlot.val := by
  have hnext : (building cfg).Reachable { s with
      parent := .respawning f cfg.letterCarriersPerFloor } := by
    refine h.next (a := .parent) ?_
    simp [building, step, parentStep, hpc, hrest.toCalm.unfinished]
  refine (respawn_reaches (hrest.of_parent _) hnext rfl).imp_right ?_
  rintro ⟨s', hreach, hrest', hpc', hcount⟩
  have hpos := cfg.letterCarriers_pos
  dsimp only at hcount
  exact ⟨s', hreach, hrest', hpc', by omega⟩

theorem pass_reaches (hrest : Resting s) (h : (building cfg).Reachable s) {f : ℕ}
    (hpc : s.parent = .checking f) :
    (∃ s', (building cfg).Reachable s' ∧ Exhausted s') ∨
      ∃ s', (building cfg).Reachable s' ∧ Resting s' ∧ s'.parent = .loop ∧
        s.nextCarrierSlot.val ≤ s'.nextCarrierSlot.val := by
  induction hleft : cfg.numFloors - f generalizing s f with
  | zero =>
    have hend : ¬ f < cfg.numFloors := by omega
    have hnext : (building cfg).Reachable { s with parent := .loop } := by
      refine h.next (a := .parent) ?_
      simp [building, step, parentStep, hpc, hend]
    exact .inr ⟨_, hnext, hrest.of_parent _, rfl, le_refl _⟩
  | succ left ih =>
    have hf : f < cfg.numFloors := by omega
    by_cases hmarked : s.carrierCount ⟨f, hf⟩ = 0 ∧ s.respawnPending ⟨f, hf⟩ = true
    · have hnext : (building cfg).Reachable { s with parent := .deciding ⟨f, hf⟩ } := by
        refine h.next (a := .parent) ?_
        simp [building, step, parentStep, hpc, hf, hmarked]
      rcases decision_reaches (hrest.of_parent _) hnext rfl with
        hbad | ⟨s', hreach, hrest', hpc', hlt⟩
      · exact .inl hbad
      · refine (ih hrest' hreach hpc' (by dsimp only; omega)).imp_right ?_
        rintro ⟨s'', hreach', hrest'', hpc'', hle⟩
        exact ⟨s'', hreach', hrest'', hpc'', le_trans (le_of_lt hlt) hle⟩
    · have hnext : (building cfg).Reachable { s with parent := .checking (f + 1) } := by
        refine h.next (a := .parent) ?_
        simp only [building, step, parentStep, hpc, hf, hmarked, ↓reduceDIte, ↓reduceIte]
      have hrest' := hrest.of_parent (.checking (f + 1))
      have hend := ih hrest' hnext rfl (by omega)
      exact hend

theorem round_reaches (hfloors : 1 < cfg.numFloors) (hrest : Resting s)
    (h : (building cfg).Reachable s) (hpc : s.parent = .loop) :
    (∃ s', (building cfg).Reachable s' ∧ Exhausted s') ∨
      ∃ s', (building cfg).Reachable s' ∧ Resting s' ∧ s'.parent = .loop ∧
        s.nextCarrierSlot.val < s'.nextCarrierSlot.val := by
  have hother : (⟨1, hfloors⟩ : cfg.Floor) ≠ cfg.groundFloor := by
    simp [Config.groundFloor, Fin.ext_iff]
  obtain ⟨s₁, hreach₁, hrest₁, hparent, hnext, hempty⟩ := evacuation_reaches hrest h hother
  have hpc₁ : s₁.parent = .loop := hparent.trans hpc
  have hcount : s₁.carrierCount cfg.groundFloor = 0 := by
    rw [carrierCount_eq hreach₁ (by rw [hrest₁.delivery]; rfl) (by rw [hrest₁.reposition]; rfl),
      hempty]
    rfl
  have hmarked : s₁.respawnPending cfg.groundFloor = true :=
    respawnPending_of_empty hreach₁ (by simp [Spawned, hrest₁.reposition])
      (by rw [hrest₁.delivery]; rfl) (by rw [hrest₁.reposition]; rfl) hcount
  have hcheck : (building cfg).Reachable { s₁ with parent := .checking 0 } := by
    refine hreach₁.next (a := .parent) ?_
    simp [building, step, parentStep, hpc₁, hrest₁.toCalm.unfinished]
  have hdecide : (building cfg).Reachable { s₁ with parent := .deciding cfg.groundFloor } := by
    refine hcheck.next (a := .parent) ?_
    have hmark : s₁.carrierCount ⟨0, cfg.numFloors_pos⟩ = 0 ∧
      s₁.respawnPending ⟨0, cfg.numFloors_pos⟩ = true := ⟨hcount, hmarked⟩
    simp [building, step, parentStep, cfg.numFloors_pos, hmark, Config.groundFloor]
  rcases decision_reaches (hrest₁.of_parent _) hdecide rfl with
    hbad | ⟨s₂, hreach₂, hrest₂, hpc₂, hlt⟩
  · exact .inl hbad
  · refine (pass_reaches hrest₂ hreach₂ hpc₂).imp_right ?_
    rintro ⟨s₃, hreach₃, hrest₃, hpc₃, hle⟩
    dsimp only at hlt
    rw [hnext] at hlt
    exact ⟨s₃, hreach₃, hrest₃, hpc₃, by omega⟩

theorem rounds_reach (hfloors : 1 < cfg.numFloors) (hrest : Resting s)
    (h : (building cfg).Reachable s) (hpc : s.parent = .loop) :
    ∃ s', (building cfg).Reachable s' ∧ Exhausted s' := by
  induction hfree : maxCarriers - s.nextCarrierSlot.val using Nat.strong_induction_on
    generalizing s with
  | _ n ih =>
    rcases round_reaches hfloors hrest h hpc with hbad | ⟨s', hreach, hrest', hpc', hlt⟩
    · exact hbad
    · have hlimit := s'.nextCarrierSlot.isLt
      exact ih _ (by omega) hrest' hreach hpc' rfl

/-! ### The start -/

theorem forks_reach (hcalm : Calm s) (h : (building cfg).Reachable s) (jobs rest : List (Job cfg))
    (hjobs : ∀ job ∈ jobs, job ≠ .deliveryElevator ∧ job ≠ .repositionElevator)
    (hpc : s.parent = .starting (jobs ++ rest))
    (hwords : s.nextWordCarrierSlot + jobs.countP Job.isWordCarrier ≤ maxWordCarriers)
    (hletters : s.nextCarrierSlot.val + jobs.countP Job.isLetterCarrier ≤ maxCarriers)
    (hsorters : s.nextSorterSlot + jobs.countP Job.isSorter ≤ maxSorters) :
    ∃ s', (building cfg).Reachable s' ∧ Calm s' ∧ s'.parent = .starting rest := by
  induction jobs generalizing s with
  | nil => exact ⟨s, h, hcalm, hpc⟩
  | cons job jobs ih =>
    have hnext : (building cfg).Reachable (startJob s (.starting (jobs ++ rest)) job) := by
      refine h.next (a := .parent) ?_
      simp only [building, step, parentStep, hpc, List.cons_append]
    have hjobs' := fun j hj => hjobs j (List.mem_cons_of_mem job hj)
    simp only [List.countP_cons] at hwords hletters hsorters
    cases job with
    | wordCarrier c =>
      simp only [Job.isWordCarrier, Job.isLetterCarrier, Job.isSorter, ↓reduceIte,
        Bool.false_eq_true, add_zero] at hwords hletters hsorters
      have hslot : s.nextWordCarrierSlot < maxWordCarriers := by omega
      simp only [startJob, hslot, ↓reduceIte] at hnext
      refine ih ?_ hnext hjobs' rfl (by dsimp only; omega) hletters hsorters
      exact ⟨hcalm.running, hcalm.completed, hcalm.unadmitted, hcalm.table, hcalm.items,
        hcalm.direction, hcalm.carriers⟩
    | letterCarrier f =>
      simp only [Job.isWordCarrier, Job.isLetterCarrier, Job.isSorter, ↓reduceIte,
        Bool.false_eq_true, add_zero] at hwords hletters hsorters
      have hslot : s.nextCarrierSlot.val < maxCarriers := by omega
      obtain ⟨hparent, hcount, -, -⟩ := spawn_fields hslot f (.starting (jobs ++ rest))
      have hsame : (spawnLetterCarrier s f (.starting (jobs ++ rest))).nextWordCarrierSlot =
          s.nextWordCarrierSlot ∧
          (spawnLetterCarrier s f (.starting (jobs ++ rest))).nextSorterSlot =
          s.nextSorterSlot := by
        simp [spawnLetterCarrier, hslot]
      exact ih (hcalm.of_spawn hslot f _) hnext hjobs' hparent (by omega) (by omega) (by omega)
    | sorter x =>
      simp only [Job.isWordCarrier, Job.isLetterCarrier, Job.isSorter, ↓reduceIte,
        Bool.false_eq_true, add_zero] at hwords hletters hsorters
      have hslot : s.nextSorterSlot < maxSorters := by omega
      simp only [startJob, hslot, ↓reduceIte] at hnext
      refine ih ?_ hnext hjobs' rfl hwords hletters (by dsimp only; omega)
      exact ⟨hcalm.running, hcalm.completed, hcalm.unadmitted, hcalm.table, hcalm.items,
        hcalm.direction, hcalm.carriers⟩
    | deliveryElevator => exact absurd rfl (hjobs _ List.mem_cons_self).1
    | repositionElevator => exact absurd rfl (hjobs _ List.mem_cons_self).2

def floorJobs (cfg : Config) : List (Job cfg) :=
  (List.finRange cfg.numFloors).flatMap (fun f =>
    (List.finRange cfg.wordCarriersPerFloor).map (fun i => .wordCarrier (f, i)) ++
    List.replicate cfg.letterCarriersPerFloor (.letterCarrier f) ++
    (List.finRange cfg.sortingProcessesPerFloor).map (fun i => .sorter (f, i)))

theorem startJobs_eq (cfg : Config) :
    startJobs cfg = floorJobs cfg ++ [.deliveryElevator, .repositionElevator] := rfl

theorem floorJobs_spec (cfg : Config) :
    ∀ job ∈ floorJobs cfg, job ≠ .deliveryElevator ∧ job ≠ .repositionElevator := by
  intro job hjob
  simp only [floorJobs, List.mem_flatMap, List.mem_append, List.mem_map, List.mem_replicate] at hjob
  obtain ⟨f, -, (⟨i, -, rfl⟩ | ⟨-, rfl⟩) | ⟨i, -, rfl⟩⟩ := hjob <;> simp

theorem start_reaches (hletters : cfg.numFloors * cfg.letterCarriersPerFloor ≤ maxCarriers)
    (hwords : cfg.numFloors * cfg.wordCarriersPerFloor ≤ maxWordCarriers)
    (hsorters : cfg.numFloors * cfg.sortingProcessesPerFloor ≤ maxSorters) :
    ∃ s : State cfg, (building cfg).Reachable s ∧ Resting s ∧ s.parent = .loop := by
  obtain ⟨hw, hl, hx⟩ := countP_startJobs cfg
  simp only [startJobs_eq, List.countP_append, List.countP_cons, List.countP_nil, Job.isWordCarrier,
    Job.isLetterCarrier, Job.isSorter, Bool.false_eq_true, ↓reduceIte, add_zero] at hw hl hx
  have hcalm : Calm (init cfg) :=
    ⟨rfl, rfl, fun _ => rfl, rfl, rfl, .inl rfl, fun k hk => absurd hk (Nat.not_lt_zero _)⟩
  obtain ⟨s, hreach, hcalm, hpc⟩ := forks_reach hcalm Machine.Reachable.start (floorJobs cfg)
    [.deliveryElevator, .repositionElevator] (floorJobs_spec cfg) rfl (by simpa [init, hw])
    (by simpa [init, hl]) (by simpa [init, hx])
  have hdelivery : (building cfg).Reachable { s with
      deliveryElevator := .head, parent := .starting [.repositionElevator] } := by
    refine hreach.next (a := .parent) ?_
    simp [building, step, parentStep, hpc, startJob]
  have hreposition := hdelivery.next (a := .parent) rfl
  have hloop := hreposition.next (a := .parent) rfl
  exact ⟨_, hloop, ⟨⟨hcalm.running, hcalm.completed, hcalm.unadmitted, hcalm.table, hcalm.items,
    hcalm.direction, hcalm.carriers⟩, rfl, rfl⟩, rfl⟩

def started : List (Action twoFloors) := List.replicate 9 .parent

theorem started_isSome : ((building twoFloors).run (building twoFloors).init started).isSome := by
  decide +kernel

theorem resting_started :
    Resting (((building twoFloors).run (building twoFloors).init started).get started_isSome) where
  running := by decide +kernel
  completed := by decide +kernel
  unadmitted := by decide +kernel
  table := rfl
  items := by decide +kernel
  direction := by decide +kernel
  carriers := by decide +kernel
  delivery := by decide +kernel
  reposition := by decide +kernel

/-- The only carrier of the ground floor leaves it, and the floor is marked for a respawn. -/
theorem carrier_census_emptiedFloor : ∃ s, (building twoFloors).Reachable s ∧
    (∀ f, s.carrierCount f = (carriersOn s f).card) ∧ ∑ f, s.carrierCount f = 2 ∧
      s.carrierCount twoFloors.groundFloor = 0 ∧
      s.respawnPending twoFloors.groundFloor = true := by
  have hstart := (Machine.execution_of_isSome started_isSome).reachable
  have hslots : (((building twoFloors).run (building twoFloors).init started).get
      started_isSome).nextCarrierSlot.val = 2 := by decide +kernel
  have hupstairs : (⟨1, Nat.one_lt_two⟩ : twoFloors.Floor) ≠ twoFloors.groundFloor := by decide
  obtain ⟨s, hreach, hrest, -, hnext, hempty⟩ :=
    evacuation_reaches resting_started hstart hupstairs
  obtain ⟨hcounts, hsum, hmarked⟩ := carrier_census hreach (by simp [Spawned, hrest.reposition])
    (by rw [hrest.delivery]; rfl) (by rw [hrest.reposition]; rfl)
  have hzero : s.carrierCount twoFloors.groundFloor = 0 := by
    rw [hcounts, hempty]
    rfl
  rw [hnext, hslots] at hsum
  exact ⟨s, hreach, hcounts, hsum, hzero, hmarked _ hzero⟩

/-! ### The slots that a configuration needs -/

theorem exhausted_of_floors (hfloors : 1 < cfg.numFloors)
    (hletters : cfg.numFloors * cfg.letterCarriersPerFloor ≤ maxCarriers)
    (hwords : cfg.numFloors * cfg.wordCarriersPerFloor ≤ maxWordCarriers)
    (hsorters : cfg.numFloors * cfg.sortingProcessesPerFloor ≤ maxSorters) :
    ∃ s : State cfg, (building cfg).Reachable s ∧ Exhausted s := by
  obtain ⟨s, hreach, hrest, hpc⟩ := start_reaches hletters hwords hsorters
  exact rounds_reach hfloors hrest hreach hpc

theorem respawnsSucceed_of_oneFloor (hone : cfg.numFloors = 1) : RespawnsSucceed cfg := by
  intro s hreach f left hpc
  have hquiet := respawns_of_oneFloor hone hreach
  rw [hpc] at hquiet
  cases hquiet

theorem respawnsSucceed_of_tooMany
    (hmany : maxWordCarriers < cfg.numFloors * cfg.wordCarriersPerFloor ∨
      maxSorters < cfg.numFloors * cfg.sortingProcessesPerFloor) : RespawnsSucceed cfg := by
  intro s hreach f left hpc
  rcases booting_of_tooMany hmany hreach with ⟨jobs, hboot⟩ | hfailed
  · have hstart := hboot.pc
    rw [hpc] at hstart
    cases hstart
  · rw [hpc] at hfailed
    cases hfailed

/-- Slots suffice on one floor, or when the run fails before its loop, and never otherwise. -/
theorem respawns_succeed_iff (hfits : cfg.numFloors * cfg.letterCarriersPerFloor ≤ maxCarriers) :
    RespawnsSucceed cfg ↔ cfg.numFloors = 1 ∨
      maxWordCarriers < cfg.numFloors * cfg.wordCarriersPerFloor ∨
      maxSorters < cfg.numFloors * cfg.sortingProcessesPerFloor := by
  constructor
  · intro hslots
    by_contra hcond
    have hpos := cfg.numFloors_pos
    obtain ⟨s, hreach, -, hfull, f, left, hpc⟩ :=
      @exhausted_of_floors cfg (by omega) hfits (by omega) (by omega)
    have hfree := hslots s hreach f left hpc
    omega
  · rintro (hone | hmany)
    · exact respawnsSucceed_of_oneFloor hone
    · exact respawnsSucceed_of_tooMany hmany

theorem respawns_succeed_oneWord :
    oneWord.numFloors * oneWord.letterCarriersPerFloor ≤ maxCarriers ∧ RespawnsSucceed oneWord :=
  ⟨by decide, (respawns_succeed_iff (by decide)).mpr (.inl rfl)⟩

/-- With two floors the parent can fail in `maybe_spawn_more_carriers` while the word waits. -/
theorem respawn_without_slot :
    twoFloors.numFloors * twoFloors.letterCarriersPerFloor ≤ maxCarriers ∧
    ¬ RespawnsSucceed twoFloors ∧
    ∃ s, (building twoFloors).Reachable s ∧ unfinished s = true ∧
      (∃ f left, s.parent = .respawning f (left + 1)) ∧
      step s .parent = some { s with parent := .failed } := by
  have hfits : twoFloors.numFloors * twoFloors.letterCarriersPerFloor ≤ maxCarriers := by decide
  obtain ⟨s, hreach, hmore, hfull, f, left, hpc⟩ :=
    exhausted_of_floors (by decide : 1 < twoFloors.numFloors) hfits (by decide) (by decide)
  refine ⟨hfits, ?_, s, hreach, hmore, ⟨f, left, hpc⟩, ?_⟩
  · intro hslots
    have hfree := hslots s hreach f left hpc
    omega
  · simp [step, parentStep, hpc, spawnLetterCarrier, hfull]

end SysProg.HW3

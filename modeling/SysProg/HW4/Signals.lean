import SysProg.HW4.PipelineWork
import SysProg.Lib.CondWaits

/-!
# The signals of the pipeline

The pipeline again, with the signal or the broadcast that each critical section
gives before it releases its mutex. A signal wakes one of the threads asleep on
its condition variable, a broadcast all of them; every run of this machine is a
run of the one where threads wake by themselves. A thread is asleep only while
its loop condition is false or another thread is awake at the same variable.
-/

namespace SysProg.HW4
open SysProg.Lib
variable {o : Options}

inductive Queue (o : Options) where
  | priv (r : o.Reader)
  | regionA
  | regionB (l : Level)
  | regionD
  deriving DecidableEq

/-- `result` is the `result_cond` of Region C. -/
inductive Cond (o : Options) where
  | notFull (q : Queue o)
  | notEmpty (q : Queue o)
  | result
  deriving DecidableEq

def ringOf (s : State o) : Queue o → RingBuffer LogEntry
  | .priv r => (s.buffer r).ring
  | .regionA => s.regionA.ring
  | .regionB l => (s.regionB l).ring
  | .regionD => s.regionD.ring

def endPosted (s : State o) : Queue o → Bool
  | .priv r => (s.buffer r).producersDone
  | .regionA => false
  | .regionB l => (s.regionB l).eofPosted
  | .regionD => s.regionD.dispatcherDone

def waitsOn (s : State o) : Thread o → Option (Cond o)
  | .reader p =>
    match s.todo p with
    | [] => none
    | _ :: _ => some (.notFull (.priv p.1))
  | .readerMain _ => none
  | .parser r =>
    match s.parser r with
    | .popping => some (.notEmpty (.priv r))
    | .pushing _ => some (.notFull .regionA)
    | .markers [] => none
    | .markers (_ :: _) => some (.notFull .regionA)
  | .dispatcher =>
    match s.dispatcher with
    | .popping => some (.notEmpty .regionA)
    | .routing e => if e.isEof then none else some (.notFull (.regionB e.levelIndex))
    | .priority _ => some (.notFull .regionD)
    | .timedOut | .leaving | .finished => none
  | .worker w =>
    match (s.worker w).pc with
    | .popping => some (.notEmpty (.regionB w.1))
    | _ => none
  | .analyzer _ => none
  | .aggregator =>
    match s.aggregator with
    | .draining => some (.notEmpty .regionD)
    | .collecting (_ :: _) => some .result
    | .collecting [] | .semWait _ _ => none

def resource (s : State o) : Cond o → ℕ
  | .notFull q => (ringOf s q).capacity - (ringOf s q).count
  | .notEmpty q => (ringOf s q).count
  | .result => 0

def flagged (s : State o) : Cond o → Bool
  | .notFull _ => false
  | .notEmpty q => endPosted s q
  | .result =>
    match s.aggregator with
    | .collecting (l :: _) => (s.results l).ready
    | _ => false

def view (s : State o) : WaitView (Thread o) (Cond o) where
  asleep := s.asleep
  waitsOn := waitsOn s
  resource := resource s
  flagged := flagged s

/-! ### The notice of each critical section -/

def pushNotice (s : State o) (q : Queue o) : Notice (Cond o) :=
  if (ringOf s q).count = (ringOf s q).capacity then .silent else .signal (.notEmpty q)

def popNotice (s : State o) (q : Queue o) : Notice (Cond o) :=
  if (ringOf s q).count = 0 then .silent else .signal (.notFull q)

def notice (s : State o) : Thread o → Notice (Cond o)
  | .reader p => pushNotice s (.priv p.1)
  | .readerMain r => .broadcast (.notEmpty (.priv r))
  | .parser r =>
    match s.parser r with
    | .popping => popNotice s (.priv r)
    | .pushing _ | .markers _ => pushNotice s .regionA
  | .dispatcher =>
    match s.dispatcher with
    | .popping => popNotice s .regionA
    | .routing e =>
      if e.isEof then
        if s.eofSeen e.levelIndex + 1 = o.numFiles ∧ (s.regionB e.levelIndex).eofPosted = false then
          .broadcast (.notEmpty (.regionB e.levelIndex))
        else .silent
      else pushNotice s (.regionB e.levelIndex)
    | .priority _ => pushNotice s .regionD
    | .leaving => .broadcast (.notEmpty .regionD)
    | .timedOut | .finished => .silent
  | .worker w =>
    match (s.worker w).pc with
    | .popping => popNotice s (.regionB w.1)
    | _ => .silent
  | .analyzer l =>
    match s.analyzer l with
    | .publishing => .broadcast .result
    | _ => .silent
  | .aggregator =>
    match s.aggregator with
    | .draining => popNotice s .regionD
    | _ => .silent

/-- Which of the sleepers each signal wakes. Every signal comes with a step that does
some of the work, so no state signals twice and the state decides for each signal. -/
structure SignalPolicy (o : Options) where
  pick : State o → Cond o → Option (Thread o)
  picks : ∀ s, (view s).Picks (pick s)

def notify (policy : SignalPolicy o) (s : State o) (n : Notice (Cond o)) : State o :=
  { s with asleep := (view s).notified (policy.pick s) n }

/-- `wake` is now only the spurious wake-up and the timeout whose caller tests again. -/
def signalStep (policy : SignalPolicy o) (s : State o) : Action o → Option (State o)
  | .run th =>
    if s.asleep th then none
    else (threadStep s th).map (fun s' => notify policy s' (notice s th))
  | .wake th => step s (.wake th)
  | .timeout => step s .timeout

def signalMachine (policy : SignalPolicy o) (input : o.Input) : Machine (State o) (Action o) :=
  ⟨initial input, signalStep policy⟩

/-! ### One thread moves on -/

section Moves
variable {s s' : State o} {th : Thread o}

def loopNotice (s : State o) : Cond o → Notice (Cond o)
  | .notFull q => pushNotice s q
  | .notEmpty q => popNotice s q
  | .result => .silent

theorem notice_of_waitsOn {c : Cond o} (h : waitsOn s th = some c) :
    notice s th = loopNotice s c := by
  cases th with
  | readerMain r => cases h
  | analyzer l => cases h
  | dispatcher =>
    simp only [waitsOn] at h
    split at h
    · cases h
      simp_all [notice, loopNotice]
    · split at h <;> cases h
      simp_all [notice, loopNotice]
    all_goals
      cases h
      try simp_all [notice, loopNotice]
  | _ =>
    simp only [waitsOn] at h
    split at h <;> cases h
    all_goals simp_all [notice, loopNotice]

theorem flagged_eq (hend : ∀ q, endPosted s' q = endPosted s q)
    (hresult : flagged s' .result = flagged s .result) (c : Cond o) :
    flagged s' c = flagged s c := by
  cases c with
  | notFull q => rfl
  | notEmpty q => exact hend q
  | result => exact hresult

theorem moves_push {q : Queue o} (hwaits : waitsOn s th = some (.notFull q))
    (hroom : (ringOf s q).count < (ringOf s q).capacity)
    (hasleep : s'.asleep = s.asleep) (hothers : ∀ u, u ≠ th → waitsOn s' u = waitsOn s u)
    (hcount : (ringOf s' q).count = (ringOf s q).count + 1)
    (hcapacity : (ringOf s' q).capacity = (ringOf s q).capacity)
    (hrest : ∀ k, k ≠ q → ringOf s' k = ringOf s k)
    (hend : ∀ k, endPosted s' k = endPosted s k)
    (hresult : flagged s' .result = flagged s .result) :
    WaitView.Moves th (notice s th) (view s) (view s') := by
  have hflag := flagged_eq hend hresult
  refine ⟨hasleep, hothers, ?_, fun c _ hc => Or.inl ((hflag c).symm.trans hc)⟩
  intro c
  apply Or.inr
  rw [notice_of_waitsOn hwaits, loopNotice, pushNotice, if_neg hroom.ne]
  simp only [view, WaitView.share, WaitView.credit, hwaits]
  cases c with
  | notFull k =>
    by_cases hk : k = q
    · subst hk
      simp only [resource, hcount, hcapacity, if_true]
      omega
    · simp [resource, hrest k hk, Ne.symm hk]
  | notEmpty k =>
    by_cases hk : k = q
    · subst hk
      simp only [resource, hcount, reduceCtorEq, Option.some.injEq, if_false, if_true]
      omega
    · simp [resource, hrest k hk, Ne.symm hk]
  | result => simp [resource]

theorem moves_pop {q : Queue o} (hwaits : waitsOn s th = some (.notEmpty q))
    (hne : (ringOf s q).count ≠ 0)
    (hasleep : s'.asleep = s.asleep) (hothers : ∀ u, u ≠ th → waitsOn s' u = waitsOn s u)
    (hcount : (ringOf s' q).count = (ringOf s q).count - 1)
    (hcapacity : (ringOf s' q).capacity = (ringOf s q).capacity)
    (hrest : ∀ k, k ≠ q → ringOf s' k = ringOf s k)
    (hend : ∀ k, endPosted s' k = endPosted s k)
    (hresult : flagged s' .result = flagged s .result) :
    WaitView.Moves th (notice s th) (view s) (view s') := by
  have hflag := flagged_eq hend hresult
  refine ⟨hasleep, hothers, ?_, fun c _ hc => Or.inl ((hflag c).symm.trans hc)⟩
  intro c
  apply Or.inr
  rw [notice_of_waitsOn hwaits, loopNotice, popNotice, if_neg hne]
  simp only [view, WaitView.share, WaitView.credit, hwaits]
  cases c with
  | notFull k =>
    by_cases hk : k = q
    · subst hk
      simp only [resource, hcount, hcapacity, reduceCtorEq, Option.some.injEq, if_false, if_true]
      omega
    · simp [resource, hrest k hk, Ne.symm hk]
  | notEmpty k =>
    by_cases hk : k = q
    · subst hk
      simp only [resource, hcount, if_true]
      omega
    · simp [resource, hrest k hk, Ne.symm hk]
  | result => simp [resource]

theorem moves_still (hasleep : s'.asleep = s.asleep)
    (hothers : ∀ u, u ≠ th → waitsOn s' u = waitsOn s u) (hring : ∀ q, ringOf s' q = ringOf s q)
    (hleaves : ∀ c, waitsOn s th = some c → resource s c = 0)
    (hflag : ∀ c, (∃ u, u ≠ th ∧ waitsOn s u = some c) → flagged s' c = true →
      flagged s c = true ∨ notice s th = .broadcast c) :
    WaitView.Moves th (notice s th) (view s) (view s') := by
  have hresource : resource s' = resource s := by
    funext c
    cases c with
    | notFull q => simp only [resource, hring]
    | notEmpty q => simp only [resource, hring]
    | result => rfl
  refine ⟨hasleep, hothers, ?_, hflag⟩
  intro c
  simp only [view, WaitView.share, hresource]
  by_cases hc : waitsOn s th = some c
  · exact Or.inl (hleaves c hc)
  · apply Or.inr
    simp only [hc, if_false]
    omega

theorem flagged_result_eq (hpc : s'.aggregator = s.aggregator)
    (hready : ∀ l, (s'.results l).ready = (s.results l).ready) :
    flagged s' .result = flagged s .result := by
  simp only [flagged, hpc, hready]

theorem moves_silent (hasleep : s'.asleep = s.asleep)
    (hothers : ∀ u, u ≠ th → waitsOn s' u = waitsOn s u) (hring : ∀ q, ringOf s' q = ringOf s q)
    (hleaves : ∀ c, waitsOn s th = some c → resource s c = 0)
    (hend : ∀ q, endPosted s' q = endPosted s q)
    (hresult : flagged s' .result = flagged s .result) :
    WaitView.Moves th (notice s th) (view s) (view s') :=
  moves_still hasleep hothers hring hleaves
    (fun c _ hc => Or.inl ((flagged_eq hend hresult c).symm.trans hc))

theorem reader_moves {p : o.ReaderThread} (hq : QueuesWellFormed s)
    (h : Transition s (.run (.reader p)) s') (hmoved : ∀ f, s' ≠ { s with asleep := f }) :
    WaitView.Moves (.reader p) (notice s (.reader p)) (view s) (view s') := by
  cases h with
  | schedule f => exact absurd rfl (hmoved _)
  | readerPush _ htodo hfull =>
    have hroom := lt_of_le_of_ne (hq.buffer p.1).count_le hfull
    refine moves_push (q := .priv p.1) ?_ hroom rfl ?_ ?_ ?_ ?_ ?_ rfl
    · simp [waitsOn, htodo]
    · intro u hu
      cases u <;> simp_all [waitsOn]
    · simp [ringOf, RingBuffer.push]
    · simp [ringOf, RingBuffer.push]
    · intro k hk
      cases k <;> simp_all [ringOf]
    · intro k
      cases k with
      | priv r => exact apply_update_of_eq (f := s.buffer) PrivateBuffer.producersDone (by rfl) r
      | _ => rfl

theorem readerMain_moves {r : o.Reader} (h : Transition s (.run (.readerMain r)) s')
    (hmoved : ∀ f, s' ≠ { s with asleep := f }) :
    WaitView.Moves (.readerMain r) (notice s (.readerMain r)) (view s) (view s') := by
  cases h with
  | schedule f => exact absurd rfl (hmoved _)
  | producersDone _ hjoin =>
    refine moves_still rfl (fun u _ => by cases u <;> rfl) ?_ (by simp [waitsOn]) ?_
    · intro k
      cases k with
      | priv i => exact apply_update_of_eq (f := s.buffer) PrivateBuffer.ring (by rfl) i
      | _ => rfl
    · intro c _ hc
      cases c with
      | notFull q => exact Or.inl hc
      | notEmpty q =>
        cases q with
        | priv i =>
          by_cases hi : i = r
          · rw [hi]
            exact Or.inr rfl
          · exact Or.inl (by simpa [flagged, endPosted, Function.update_of_ne hi] using hc)
        | _ => exact Or.inl hc
      | result => exact Or.inl hc

theorem parser_moves {r : o.Reader} (hq : QueuesWellFormed s)
    (h : Transition s (.run (.parser r)) s') (hmoved : ∀ f, s' ≠ { s with asleep := f }) :
    WaitView.Moves (.parser r) (notice s (.parser r)) (view s) (view s') := by
  have hroom := fun hfull => lt_of_le_of_ne hq.regionA.count_le hfull
  cases h with
  | schedule f => exact absurd rfl (hmoved _)
  | parserPop _ hpc hne =>
    refine moves_pop (q := .priv r) ?_ hne rfl ?_ ?_ ?_ ?_ ?_ rfl
    · simp [waitsOn, hpc]
    · intro u hu
      cases u <;> simp_all [waitsOn]
    · simp [ringOf, RingBuffer.pop]
    · simp [ringOf, RingBuffer.pop]
    · intro k hk
      cases k <;> simp_all [ringOf]
    · intro k
      cases k with
      | priv i => exact apply_update_of_eq (f := s.buffer) PrivateBuffer.producersDone (by rfl) i
      | _ => rfl
  | parserEnd _ hpc hz hdone =>
    refine moves_silent rfl ?_ (fun k => by cases k <;> rfl) ?_ (fun k => by cases k <;> rfl) rfl
    · intro u hu
      cases u <;> simp_all [waitsOn]
    · intro c hc
      simp only [waitsOn, hpc, Option.some.injEq] at hc
      rw [← hc]
      exact hz
  | parserPush _ hpc hfull =>
    refine moves_push (q := .regionA) ?_ (hroom hfull) rfl ?_ rfl rfl ?_
      (fun k => by cases k <;> rfl) rfl
    · simp [waitsOn, hpc]
    · intro u hu
      cases u <;> simp_all [waitsOn]
    · intro k hk
      cases k <;> first | rfl | exact absurd rfl hk
  | parserMarker _ hpc hfull =>
    refine moves_push (q := .regionA) ?_ (hroom hfull) rfl ?_ rfl rfl ?_
      (fun k => by cases k <;> rfl) rfl
    · simp [waitsOn, hpc]
    · intro u hu
      cases u <;> simp_all [waitsOn]
    · intro k hk
      cases k <;> first | rfl | exact absurd rfl hk

theorem dispatcher_moves (hq : QueuesWellFormed s) (h : Transition s (.run .dispatcher) s')
    (hmoved : ∀ f, s' ≠ { s with asleep := f }) :
    WaitView.Moves .dispatcher (notice s .dispatcher) (view s) (view s') := by
  cases h with
  | schedule f => exact absurd rfl (hmoved _)
  | dispatcherPop hpc hne =>
    refine moves_pop (q := .regionA) ?_ hne rfl ?_ rfl rfl ?_ (fun k => by cases k <;> rfl) rfl
    · simp [waitsOn, hpc]
    · intro u hu
      cases u <;> first | rfl | exact absurd rfl hu
    · intro k hk
      cases k <;> first | rfl | exact absurd rfl hk
  | allDone hpc hall =>
    refine moves_silent rfl ?_ (fun k => by cases k <;> rfl) ?_ (fun k => by cases k <;> rfl) rfl
    · intro u hu
      cases u <;> first | rfl | exact absurd rfl hu
    · simp [waitsOn, hpc]
  | notAllDone hpc hall =>
    refine moves_silent rfl ?_ (fun k => by cases k <;> rfl) ?_ (fun k => by cases k <;> rfl) rfl
    · intro u hu
      cases u <;> first | rfl | exact absurd rfl hu
    · simp [waitsOn, hpc]
  | @lastMarker e hpc heof hlast hopen =>
    refine moves_still rfl ?_ ?_ ?_ ?_
    · intro u hu
      cases u <;> first | rfl | exact absurd rfl hu
    · intro k
      cases k with
      | regionB l => exact apply_update_of_eq (f := s.regionB) RegionB.ring (by rfl) l
      | _ => rfl
    · simp [waitsOn, hpc, heof]
    · intro c _ hc
      cases c with
      | notFull q => exact Or.inl hc
      | notEmpty q =>
        cases q with
        | regionB l =>
          by_cases hl : l = e.levelIndex
          · rw [hl]
            exact Or.inr (by simp [notice, hpc, heof, hlast, hopen])
          · exact Or.inl (by simpa [flagged, endPosted, Function.update_of_ne hl] using hc)
        | _ => exact Or.inl hc
      | result => exact Or.inl hc
  | marker hpc heof hlast =>
    refine moves_silent rfl ?_ (fun k => by cases k <;> rfl) ?_ (fun k => by cases k <;> rfl) rfl
    · intro u hu
      cases u <;> first | rfl | exact absurd rfl hu
    · simp [waitsOn, hpc, heof]
  | @route e hpc heof hfull =>
    have hroom := lt_of_le_of_ne (hq.regionB e.levelIndex).count_le hfull
    refine moves_push (q := .regionB e.levelIndex) ?_ hroom rfl ?_ ?_ ?_ ?_ ?_ rfl
    · simp [waitsOn, hpc, heof]
    · intro u hu
      cases u <;> first | rfl | exact absurd rfl hu
    · simp [ringOf, RingBuffer.push]
    · simp [ringOf, RingBuffer.push]
    · intro k hk
      cases k <;> simp_all [ringOf]
    · intro k
      cases k with
      | regionB l => exact apply_update_of_eq (f := s.regionB) RegionB.eofPosted (by rfl) l
      | _ => rfl
  | routePriority hpc hfull =>
    have hroom := lt_of_le_of_ne hq.regionD.count_le hfull
    refine moves_push (q := .regionD) ?_ hroom rfl ?_ rfl rfl ?_ (fun k => by cases k <;> rfl) rfl
    · simp [waitsOn, hpc]
    · intro u hu
      cases u <;> first | rfl | exact absurd rfl hu
    · intro k hk
      cases k <;> first | rfl | exact absurd rfl hk
  | leave hpc =>
    refine moves_still rfl ?_ (fun k => by cases k <;> rfl) ?_ ?_
    · intro u hu
      cases u <;> first | rfl | exact absurd rfl hu
    · simp [waitsOn, hpc]
    · intro c _ hc
      cases c with
      | notFull q => exact Or.inl hc
      | notEmpty q =>
        cases q with
        | regionD => exact Or.inr (by simp [notice, hpc])
        | _ => exact Or.inl hc
      | result => exact Or.inl hc

theorem worker_moves {w : o.Worker} (h : Transition s (.run (.worker w)) s')
    (hmoved : ∀ f, s' ≠ { s with asleep := f }) :
    WaitView.Moves (.worker w) (notice s (.worker w)) (view s) (view s') := by
  have hothers : ∀ (t : State o) (ws : WorkerState) (u : Thread o), u ≠ .worker w →
      waitsOn { t with worker := Function.update t.worker w ws } u = waitsOn t u := by
    intro t ws u hu
    cases u <;> simp_all [waitsOn]
  cases h with
  | schedule f => exact absurd rfl (hmoved _)
  | workerPop _ hpc hne =>
    refine moves_pop (q := .regionB w.1) ?_ hne rfl (fun u hu => ?_) ?_ ?_ ?_ ?_ rfl
    · simp [waitsOn, hpc]
    · exact hothers s _ u hu
    · simp [ringOf, RingBuffer.pop]
    · simp [ringOf, RingBuffer.pop]
    · intro k hk
      cases k <;> simp_all [ringOf]
    · intro k
      cases k with
      | regionB l => exact apply_update_of_eq (f := s.regionB) RegionB.eofPosted (by rfl) l
      | _ => rfl
  | workerEnd _ hpc hz hp =>
    refine moves_silent rfl (hothers s _) (fun k => by cases k <;> rfl) ?_
      (fun k => by cases k <;> rfl) rfl
    intro c hc
    simp only [waitsOn, hpc, Option.some.injEq] at hc
    rw [← hc]
    exact hz
  | workerHits _ hpc =>
    exact moves_silent rfl (fun u hu => hothers s _ u hu) (fun k => by cases k <;> rfl)
      (by simp [waitsOn, hpc]) (fun k => by cases k <;> rfl) rfl
  | workerExit _ hpc hall =>
    exact moves_silent rfl (hothers s _) (fun k => by cases k <;> rfl) (by simp [waitsOn, hpc])
      (fun k => by cases k <;> rfl) rfl
  | workerDestructor _ hpc =>
    exact moves_silent rfl (fun u hu => hothers s _ u hu) (fun k => by cases k <;> rfl)
      (by simp [waitsOn, hpc]) (fun k => by cases k <;> rfl)
      (flagged_result_eq rfl (apply_update_of_eq (f := s.results) LevelResult.ready (by rfl)))

theorem analyzer_moves {l : Level} (h : Transition s (.run (.analyzer l)) s')
    (hmoved : ∀ f, s' ≠ { s with asleep := f }) :
    WaitView.Moves (.analyzer l) (notice s (.analyzer l)) (view s) (view s') := by
  cases h with
  | schedule f => exact absurd rfl (hmoved _)
  | analyzerTop3 _ hpc hall =>
    exact moves_silent rfl (fun u _ => by cases u <;> rfl) (fun k => by cases k <;> rfl)
      (by simp [waitsOn]) (fun k => by cases k <;> rfl)
      (flagged_result_eq rfl (apply_update_of_eq (f := s.results) LevelResult.ready (by rfl)))
  | analyzerReady _ hpc =>
    refine moves_still rfl (fun u _ => by cases u <;> rfl) (fun k => by cases k <;> rfl)
      (by simp [waitsOn]) ?_
    intro c _ hc
    cases c with
    | notFull q => exact Or.inl hc
    | notEmpty q => exact Or.inl (by cases q <;> exact hc)
    | result => exact Or.inr (by simp [notice, hpc])
  | analyzerPost _ hpc =>
    exact moves_silent rfl (fun u _ => by cases u <;> rfl) (fun k => by cases k <;> rfl)
      (by simp [waitsOn]) (fun k => by cases k <;> rfl) rfl

theorem eq_aggregator_of_waitsOn {u : Thread o} (h : waitsOn s u = some .result) :
    u = .aggregator := by
  cases u with
  | aggregator => rfl
  | readerMain r => cases h
  | analyzer l => cases h
  | _ => simp only [waitsOn] at h; split at h <;> simp_all

theorem aggregator_moves (h : AggregatorMove s s') (hmoved : ∀ f, s' ≠ { s with asleep := f }) :
    WaitView.Moves .aggregator (notice s .aggregator) (view s) (view s') := by
  have hflag : (∀ q, endPosted s' q = endPosted s q) → ∀ c,
      (∃ u, u ≠ .aggregator ∧ waitsOn s u = some c) → flagged s' c = true →
      flagged s c = true ∨ notice s .aggregator = .broadcast c := by
    rintro hend c ⟨u, hu, hw⟩ hc
    cases c with
    | notFull q => exact Or.inl hc
    | notEmpty q => exact Or.inl ((hend q).symm.trans hc)
    | result => exact absurd (eq_aggregator_of_waitsOn hw) hu
  cases h with
  | sleepEmpty => exact absurd rfl (hmoved _)
  | sleepUnready => exact absurd rfl (hmoved _)
  | score hpc hne =>
    refine moves_pop (q := .regionD) ?_ hne rfl ?_ rfl rfl ?_ (fun k => by cases k <;> rfl) rfl
    · simp [waitsOn, hpc]
    · intro u hu
      cases u <;> rfl
    · intro k hk
      cases k <;> first | rfl | exact absurd rfl hk
  | drained hpc hz hdone =>
    refine moves_still rfl ?_ (fun k => by cases k <;> rfl) ?_ (hflag (fun k => by cases k <;> rfl))
    · intro u hu
      cases u <;> first | rfl | exact absurd rfl hu
    · intro c hc
      simp only [waitsOn, hpc, Option.some.injEq] at hc
      rw [← hc]
      exact hz
  | received l rest hpc hready =>
    refine moves_still rfl ?_ (fun k => by cases k <;> rfl) ?_ (hflag (fun k => by cases k <;> rfl))
    · intro u hu
      cases u <;> first | rfl | exact absurd rfl hu
    · intro c hc
      simp only [waitsOn, hpc, Option.some.injEq] at hc
      rw [← hc]
      rfl
  | taken l rest hpc hne =>
    refine moves_still rfl ?_ (fun k => by cases k <;> rfl) ?_ (hflag (fun k => by cases k <;> rfl))
    · intro u hu
      cases u <;> first | rfl | exact absurd rfl hu
    · simp [waitsOn, hpc]

end Moves

/-- What one critical section of a thread does to the sleepers: it puts the thread to sleep
where there is nothing, or it moves the thread on. -/
inductive Effect (s : State o) (th : Thread o) : State o → Prop where
  | sleeps {c : Cond o} : waitsOn s th = some c → resource s c = 0 → flagged s c = false →
      notice s th = .silent → Effect s th (s.block th)
  | moves {s' : State o} : WaitView.Moves th (notice s th) (view s) (view s') → Effect s th s'

theorem ready_iff_of_waitsOn {s : State o} (hq : QueuesWellFormed s) {th : Thread o} {c : Cond o}
    (h : waitsOn s th = some c) : Ready s th ↔ resource s c ≠ 0 ∨ flagged s c = true := by
  have hfull : ∀ {ring : RingBuffer LogEntry}, ring.WellFormed →
      (ring.count ≠ ring.capacity ↔ ring.capacity - ring.count ≠ 0) := by
    intro ring hring
    have hle := hring.count_le
    omega
  cases th with
  | readerMain r => cases h
  | analyzer l => cases h
  | reader p =>
    cases htodo : s.todo p with
    | nil => simp [waitsOn, htodo] at h
    | cons e rest =>
      simp only [waitsOn, htodo, Option.some.injEq] at h
      simp [← h, Ready, htodo, resource, flagged, ringOf, hfull (hq.buffer p.1)]
  | parser r =>
    cases hpc : s.parser r with
    | popping =>
      simp only [waitsOn, hpc, Option.some.injEq] at h
      simp [← h, Ready, hpc, resource, flagged, ringOf, endPosted]
    | pushing e =>
      simp only [waitsOn, hpc, Option.some.injEq] at h
      simp [← h, Ready, hpc, resource, flagged, ringOf, hfull hq.regionA]
    | markers rest =>
      cases rest with
      | nil => simp [waitsOn, hpc] at h
      | cons l rest =>
        simp only [waitsOn, hpc, Option.some.injEq] at h
        simp [← h, Ready, hpc, resource, flagged, ringOf, hfull hq.regionA]
  | dispatcher =>
    cases hpc : s.dispatcher with
    | popping =>
      simp only [waitsOn, hpc, Option.some.injEq] at h
      simp [← h, Ready, hpc, resource, flagged, ringOf, endPosted]
    | routing e =>
      cases heof : e.isEof with
      | true => simp [waitsOn, hpc, heof] at h
      | false =>
        simp only [waitsOn, hpc, heof, Bool.false_eq_true, if_false, Option.some.injEq] at h
        simp [← h, Ready, hpc, heof, resource, flagged, ringOf, hfull (hq.regionB e.levelIndex)]
    | priority e =>
      simp only [waitsOn, hpc, Option.some.injEq] at h
      simp [← h, Ready, hpc, resource, flagged, ringOf, hfull hq.regionD]
    | _ => simp [waitsOn, hpc] at h
  | worker w =>
    cases hpc : (s.worker w).pc with
    | popping =>
      simp only [waitsOn, hpc, Option.some.injEq] at h
      simp [← h, Ready, hpc, resource, flagged, ringOf, endPosted]
    | _ => simp [waitsOn, hpc] at h
  | aggregator =>
    cases hpc : s.aggregator with
    | draining =>
      simp only [waitsOn, hpc, Option.some.injEq] at h
      simp [← h, Ready, hpc, resource, flagged, ringOf, endPosted]
    | collecting pending =>
      cases pending with
      | nil => simp [waitsOn, hpc] at h
      | cons l rest =>
        simp only [waitsOn, hpc, Option.some.injEq] at h
        simp [← h, Ready, hpc, resource, flagged]
    | semWait l rest => simp [waitsOn, hpc] at h

theorem loopNotice_eq_silent {s : State o} (hq : QueuesWellFormed s) {c : Cond o}
    (h : resource s c = 0) : loopNotice s c = .silent := by
  cases c with
  | notFull q =>
    have hle : (ringOf s q).count ≤ (ringOf s q).capacity := by
      cases q with
      | priv r => exact (hq.buffer r).count_le
      | regionA => exact hq.regionA.count_le
      | regionB l => exact (hq.regionB l).count_le
      | regionD => exact hq.regionD.count_le
    simp only [resource] at h
    exact if_pos (by omega)
  | notEmpty q => exact if_pos h
  | result => rfl

theorem ready_of_waitsOn_none {s s' : State o} {th : Thread o} (h : threadStep s th = some s')
    (hnone : waitsOn s th = none) (hout : th = .dispatcher → s.dispatcher ≠ .timedOut) :
    Ready s th := by
  cases th with
  | reader p =>
    cases htodo : s.todo p with
    | nil => simp [threadStep, readerThreadStep, htodo] at h
    | cons e rest => simp [waitsOn, htodo] at hnone
  | readerMain r =>
    simp only [threadStep, readerMainStep] at h
    split at h
    · assumption
    · cases h
  | parser r =>
    cases hpc : s.parser r with
    | markers rest =>
      cases rest with
      | nil => simp [threadStep, parserStep, hpc] at h
      | cons l rest => simp [waitsOn, hpc] at hnone
    | _ => simp [waitsOn, hpc] at hnone
  | dispatcher =>
    cases hpc : s.dispatcher with
    | timedOut => exact absurd hpc (hout rfl)
    | routing e =>
      have heof : e.isEof = true := by simpa [waitsOn, hpc] using hnone
      simp [Ready, hpc, heof]
    | leaving => simp [Ready, hpc]
    | finished => simp [threadStep, dispatcherStep, hpc] at h
    | _ => simp [waitsOn, hpc] at hnone
  | worker w =>
    cases hpc : (s.worker w).pc with
    | popping => simp [waitsOn, hpc] at hnone
    | atBarrier =>
      simp only [threadStep, workerStep, hpc] at h
      split at h
      · simpa [Ready, hpc] using ‹∀ v, (s.worker (w.1, v)).pc.atOrPastBarrier = true›
      · cases h
    | terminated => simp [threadStep, workerStep, hpc] at h
    | _ => simp [Ready, hpc]
  | analyzer l =>
    cases hpc : s.analyzer l with
    | joining =>
      simp only [threadStep, analyzerStep, hpc] at h
      split at h
      · simpa [Ready, hpc] using ‹∀ v, (s.worker (l, v)).pc.isTerminated = true›
      · cases h
    | finished => simp [threadStep, analyzerStep, hpc] at h
    | _ => simp [Ready, hpc]
  | aggregator =>
    cases hpc : s.aggregator with
    | draining => simp [waitsOn, hpc] at hnone
    | collecting pending =>
      cases pending with
      | nil => simp [threadStep, aggregatorStep, hpc] at h
      | cons l rest => simp [waitsOn, hpc] at hnone
    | semWait l rest =>
      simp only [threadStep, aggregatorStep, hpc] at h
      split at h
      · cases h
      · simpa [Ready, hpc]

theorem thread_moves {s s' : State o} {th : Thread o} (hq : QueuesWellFormed s)
    (h : threadStep s th = some s') (hmoved : ∀ f, s' ≠ { s with asleep := f }) :
    WaitView.Moves th (notice s th) (view s) (view s') := by
  have htrans := threadStep_transition h
  cases th with
  | reader p => exact reader_moves hq htrans hmoved
  | readerMain r => exact readerMain_moves htrans hmoved
  | parser r => exact parser_moves hq htrans hmoved
  | dispatcher => exact dispatcher_moves hq htrans hmoved
  | worker w => exact worker_moves htrans hmoved
  | analyzer l => exact analyzer_moves htrans hmoved
  | aggregator => exact aggregator_moves (aggregatorStep_move h) hmoved

theorem threadStep_effect {s s' : State o} {th : Thread o} (hq : QueuesWellFormed s)
    (h : threadStep s th = some s') : Effect s th s' := by
  by_cases hout : th = .dispatcher ∧ s.dispatcher = .timedOut
  · obtain ⟨rfl, hpc⟩ := hout
    apply Effect.moves
    apply thread_moves hq h
    simp only [threadStep, dispatcherStep, hpc] at h
    rintro f rfl
    split at h <;> simp [State.mk.injEq, hpc] at h
  · have hnot : th = .dispatcher → s.dispatcher ≠ .timedOut := fun hd hpc => hout ⟨hd, hpc⟩
    have ho := threadStep_outcome hq th hnot
    rw [h] at ho
    cases ho with
    | advances hready hlt =>
      apply Effect.moves
      apply thread_moves hq h
      rintro f rfl
      exact lt_irrefl _ hlt
    | sleeps hstuck =>
      cases hc : waitsOn s th with
      | none => exact absurd (ready_of_waitsOn_none h hc hnot) hstuck
      | some c =>
        rw [ready_iff_of_waitsOn hq hc, not_or, not_ne_iff, Bool.not_eq_true] at hstuck
        refine .sleeps hc hstuck.1 hstuck.2 ?_
        rw [notice_of_waitsOn hc, loopNotice_eq_silent hq hstuck.1]

/-! ### Every thread, and one policy -/

def threads (o : Options) : List (Thread o) :=
  (List.finRange o.numFiles).flatMap (fun r =>
    .readerMain r :: .parser r :: (List.finRange o.readerThreads).map (fun t => .reader (r, t))) ++
  allLevels.flatMap (fun l =>
    .analyzer l :: (List.finRange o.workerThreads).map (fun v => .worker (l, v))) ++
  [.dispatcher, .aggregator]

theorem mem_threads (th : Thread o) : th ∈ threads o := by
  cases th <;> simp [threads, mem_allLevels, Prod.ext_iff]

instance : Fintype (Thread o) :=
    ⟨(threads o).toFinset, fun th => List.mem_toFinset.mpr (mem_threads th)⟩

def firstSleeper (s : State o) (c : Cond o) : Option (Thread o) :=
  (threads o).find? (fun th => s.asleep th && decide (waitsOn s th = some c))

/-- Signals wake the threads in the order of `threads`. -/
def SignalPolicy.inOrder (o : Options) : SignalPolicy o where
  pick := firstSleeper
  picks s := by
    constructor
    · intro c th h
      have hfound := List.find?_some h
      simpa [WaitView.Sleeps, view] using hfound
    · intro c h th hs
      have hnone := List.find?_eq_none.mp h th (mem_threads th)
      exact hnone (by simpa [WaitView.Sleeps, view] using hs)

/-! ### Runs with signals are runs -/

def State.wakeAll (s : State o) (woken : Finset (Thread o)) : State o :=
  { s with asleep := fun th => s.asleep th && !decide (th ∈ woken) }

theorem execution_wakeAll {input : o.Input} {tr : List (State o × Action o)} {s : State o}
    (h : (machine input).Execution tr s) (woken : Finset (Thread o)) :
    (∀ th ∈ woken, s.asleep th = true) →
      ∃ wakes, (machine input).Execution (tr ++ wakes) (s.wakeAll woken) ∧
        ∀ p ∈ wakes, ∃ th, p.2 = .wake th := by
  induction woken using Finset.induction_on with
  | empty =>
    intro _
    refine ⟨[], ?_, by simp⟩
    simpa [State.wakeAll] using h
  | insert u woken hu ih =>
    intro hall
    obtain ⟨wakes, hexec, hwakes⟩ := ih (fun th hth => hall th (Finset.mem_insert_of_mem hth))
    have hasleep := hall u (Finset.mem_insert_self u woken)
    have hstep : step (s.wakeAll woken) (.wake u) = some (s.wakeAll (insert u woken)) := by
      simp only [State.wakeAll, step, hasleep, hu, decide_false, Bool.not_false, Bool.and_true,
        if_true]
      congr 2
      funext th
      by_cases hth : th = u
      · simp [hth]
      · simp [hth]
    refine ⟨wakes ++ [(s.wakeAll woken, .wake u)], ?_, ?_⟩
    · rw [← List.append_assoc]
      exact hexec.next hstep
    · intro p hp
      rcases List.mem_append.mp hp with hp | hp
      · exact hwakes p hp
      · exact ⟨u, by rw [List.mem_singleton.mp hp]⟩

theorem eq_wakeAll {s : State o} {f : Thread o → Bool}
    (h : ∀ th, f th = true → s.asleep th = true) :
    { s with asleep := f } = s.wakeAll {th | s.asleep th = true ∧ f th = false} := by
  simp only [State.wakeAll, State.mk.injEq, and_true, Finset.mem_filter, Finset.mem_univ, true_and]
  funext th
  cases hs : s.asleep th with
  | false => simpa [hs] using h th
  | true => cases f th <;> rfl

/-- A step with its notice is a step after which some more threads are awake. -/
theorem signalStep_step {policy : SignalPolicy o} {s s' : State o} {a : Action o}
    (h : signalStep policy s a = some s') : ∃ t f, step s a = some t ∧
      (∀ th, f th = true → t.asleep th = true) ∧ s' = { t with asleep := f } := by
  cases a with
  | run th =>
    simp only [signalStep] at h
    split at h
    · cases h
    · rename_i hawake
      obtain ⟨t, ht, rfl⟩ := Option.map_eq_some_iff.mp h
      exact ⟨t, _, by simpa [step, hawake] using ht, fun _ => WaitView.asleep_of_notified, rfl⟩
  | wake th => exact ⟨s', s'.asleep, h, fun _ => id, rfl⟩
  | timeout => exact ⟨s', s'.asleep, h, fun _ => id, rfl⟩

/-- Each run with signals is a run in which threads wake by themselves, with the same exits
after a timeout. -/
theorem execution_of_signals {input : o.Input} {policy : SignalPolicy o}
    {tr : List (State o × Action o)} {s : State o}
    (h : (signalMachine policy input).Execution tr s) :
    ∃ tr', (machine input).Execution tr' s ∧
      ((∃ p ∈ tr', TimeoutBreak p.1 p.2) ↔ ∃ p ∈ tr, TimeoutBreak p.1 p.2) := by
  induction h with
  | start => exact ⟨[], .start, Iff.rfl⟩
  | @next tr s s' a prior hs ih =>
    obtain ⟨tr', hexec, hbreaks⟩ := ih
    obtain ⟨t, f, hstep, hle, rfl⟩ := signalStep_step hs
    have hone : (machine input).Execution (tr' ++ [(s, a)]) t := hexec.next hstep
    obtain ⟨wakes, hnext, hwakes⟩ := execution_wakeAll hone {th | t.asleep th = true ∧ f th = false}
      (fun th hth => (Finset.mem_filter.mp hth).2.1)
    rw [eq_wakeAll hle]
    refine ⟨_, hnext, ?_⟩
    have hno : ¬ ∃ p ∈ wakes, TimeoutBreak p.1 p.2 := by
      rintro ⟨p, hp, hbreak⟩
      obtain ⟨th, hth⟩ := hwakes p hp
      rw [hbreak.1] at hth
      cases hth
    simp only [List.mem_append, or_and_right, exists_or, hbreaks, hno, or_false]

theorem reachable_of_signals {input : o.Input} {policy : SignalPolicy o} {s : State o}
    (h : (signalMachine policy input).Reachable s) : (machine input).Reachable s := by
  obtain ⟨tr, htr⟩ := h
  obtain ⟨tr', htr', -⟩ := execution_of_signals htr
  exact htr'.reachable

/-! ### No wake-up is lost -/

theorem heard_signalStep {policy : SignalPolicy o} {s s' : State o} {a : Action o}
    (hq : QueuesWellFormed s) (h : (view s).Heard) (hs : signalStep policy s a = some s') :
    (view s').Heard := by
  cases a with
  | run th =>
    simp only [signalStep] at hs
    split at hs
    · cases hs
    · rename_i hawake
      obtain ⟨t, ht, rfl⟩ := Option.map_eq_some_iff.mp hs
      cases threadStep_effect hq ht with
      | sleeps hc hres hflag hsilent =>
        rw [hsilent]
        exact h.sleep hc hres hflag
      | moves hm => exact h.moves (Bool.eq_false_iff.mpr hawake) hm (policy.picks t)
  | wake th =>
    simp only [signalStep, step] at hs
    split at hs
    · obtain rfl := Option.some.inj hs
      exact h.wakes ‹s.asleep th = true› rfl (fun _ _ => rfl) rfl rfl
    · cases hs
  | timeout =>
    simp only [signalStep, step] at hs
    split at hs
    · rename_i hd
      obtain rfl := Option.some.inj hs
      refine h.wakes hd.1 rfl ?_ ?_ rfl
      · intro u hu
        cases u <;> first | rfl | exact absurd rfl hu
      · funext c
        rcases c with q | q | _
        · cases q <;> rfl
        · cases q <;> rfl
        · rfl
    · cases hs

/-- Whenever a thread is asleep and its wait loop has something for it, another thread is
awake in the loop of the same variable; whichever sleepers the signals wake. -/
theorem heard_reachable {input : o.Input} {policy : SignalPolicy o} {s : State o}
    (h : (signalMachine policy input).Reachable s) : (view s).Heard := by
  refine h.invariant (P := fun s => (view s).Heard) ?_ (fun s a s' hreach hh hs => ?_)
  · refine ⟨by simp [view, signalMachine, initial], ?_, ?_⟩
    · rintro c ⟨th, hth⟩
      simp [WaitView.isWaiting_phase, WaitView.Sleeps, view, signalMachine, initial] at hth
    · rintro c th ⟨hth, -⟩
      simp [view, signalMachine, initial] at hth
  · exact heard_signalStep (flowInvariant_reachable (reachable_of_signals hreach)).queues hh hs

theorem awake_of_ready {input : o.Input} {policy : SignalPolicy o} {s : State o}
    (h : (signalMachine policy input).Reachable s) {th : Thread o} (hready : Ready s th) :
    ∃ u, Ready s u ∧ s.asleep u = false := by
  cases hs : s.asleep th with
  | false => exact ⟨th, hready, hs⟩
  | true =>
    have hh := heard_reachable h
    have hq := (flowInvariant_reachable (reachable_of_signals h)).queues
    obtain ⟨c, hc⟩ := Option.ne_none_iff_exists'.mp (hh.placed th hs)
    obtain ⟨hres, u, hawake, hu⟩ := hh.awake ⟨hs, hc⟩ ((ready_iff_of_waitsOn hq hc).mp hready)
    exact ⟨u, (ready_iff_of_waitsOn hq hu).mpr (Or.inl hres), hawake⟩

end SysProg.HW4

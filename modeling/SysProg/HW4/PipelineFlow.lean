import SysProg.HW4.PipelineSteps
import Mathlib.Algebra.Order.BigOperators.Group.Finset
import Mathlib.Data.Multiset.Filter
import Mathlib.Tactic.Abel

/-!
# Flow of entries and end markers through the queues

Entries are conserved along the path from the reader threads to the workers,
and each queue passes them on in order. The end of a level rests on one fact:
an entry in Region A (or in the dispatcher's hands) is followed there by every
end marker that its reader has already posted. When the dispatcher has counted
one marker of a level from each reader, none is left in Region A, so no entry
of any reader is left there either.
-/

open scoped BigOperators
namespace SysProg.HW4
open SysProg.Lib
variable {o : Options}

/-! ### Well-formed queues -/

structure QueuesWellFormed (s : State o) : Prop where
  buffer : ∀ r, (s.buffer r).ring.WellFormed
  regionA : s.regionA.ring.WellFormed
  regionB : ∀ l, (s.regionB l).ring.WellFormed
  regionD : s.regionD.ring.WellFormed

theorem queuesWellFormed_initial (input : o.Input) : QueuesWellFormed (initial input) where
  buffer := fun _ => RingBuffer.wellFormed_empty o.capacityB_pos _
  regionA := RingBuffer.wellFormed_empty o.capacityA_pos _
  regionB := fun _ => RingBuffer.wellFormed_empty o.capacityB_pos _
  regionD := RingBuffer.wellFormed_empty o.capacityD_pos _

theorem queuesWellFormed_step {s s' : State o} {a : Action o} (h : Transition s a s')
    (hq : QueuesWellFormed s) : QueuesWellFormed s' := by
  obtain ⟨hbuf, hA, hB, hD⟩ := hq
  cases h with
  | readerPush p htodo hfull =>
    refine ⟨?_, hA, hB, hD⟩
    rw [Function.forall_update_iff s.buffer (fun _ b => b.ring.WellFormed)]
    exact ⟨RingBuffer.wellFormed_push (hbuf _) hfull _, fun r _ => hbuf r⟩
  | producersDone r hjoin =>
    refine ⟨?_, hA, hB, hD⟩
    rw [Function.forall_update_iff s.buffer (fun _ b => b.ring.WellFormed)]
    exact ⟨hbuf _, fun r _ => hbuf r⟩
  | parserPop r hpc hne =>
    refine ⟨?_, hA, hB, hD⟩
    rw [Function.forall_update_iff s.buffer (fun _ b => b.ring.WellFormed)]
    exact ⟨RingBuffer.wellFormed_pop (hbuf _) hne, fun r _ => hbuf r⟩
  | parserPush r hpc hfull => exact ⟨hbuf, RingBuffer.wellFormed_push hA hfull _, hB, hD⟩
  | parserMarker r hpc hfull => exact ⟨hbuf, RingBuffer.wellFormed_push hA hfull _, hB, hD⟩
  | dispatcherPop hpc hne => exact ⟨hbuf, RingBuffer.wellFormed_pop hA hne, hB, hD⟩
  | lastMarker hpc heof hseen hpost =>
    refine ⟨hbuf, hA, ?_, hD⟩
    rw [Function.forall_update_iff s.regionB (fun _ b => b.ring.WellFormed)]
    exact ⟨hB _, fun l _ => hB l⟩
  | route hpc heof hfull =>
    refine ⟨hbuf, hA, ?_, hD⟩
    rw [Function.forall_update_iff s.regionB (fun _ b => b.ring.WellFormed)]
    exact ⟨RingBuffer.wellFormed_push (hB _) hfull _, fun l _ => hB l⟩
  | routePriority hpc hfull => exact ⟨hbuf, hA, hB, RingBuffer.wellFormed_push hD hfull _⟩
  | workerPop w hpc hne =>
    refine ⟨hbuf, hA, ?_, hD⟩
    rw [Function.forall_update_iff s.regionB (fun _ b => b.ring.WellFormed)]
    exact ⟨RingBuffer.wellFormed_pop (hB _) hne, fun l _ => hB l⟩
  | aggregatorPop hpc hne => exact ⟨hbuf, hA, hB, RingBuffer.wellFormed_pop hD hne⟩
  | _ => exact ⟨hbuf, hA, hB, hD⟩

/-! ### One reader process -/

def ParserPc.held : ParserPc → List LogEntry
  | .pushing e => [e]
  | _ => []

def ParserPc.posted : ParserPc → Level → Bool
  | .markers rest, l => !rest.contains l
  | _, _ => false

def FromReader (r : ℕ) (e : LogEntry) : Prop := e.isEof = false ∧ e.readerId = r

structure ReadersInOrder (s : State o) : Prop where
  todo : ∀ p, ∀ e ∈ s.todo p, FromReader p.1 e
  buffer : ∀ r, ∀ e ∈ (s.buffer r).ring.toList, FromReader r e
  held : ∀ r, ∀ e ∈ (s.parser r).held, FromReader r e
  joined : ∀ r, (s.buffer r).producersDone = true → ∀ t, s.todo (r, t) = []
  drained : ∀ r ls, s.parser r = .markers ls →
    (s.buffer r).producersDone = true ∧ (s.buffer r).ring.count = 0 ∧ ls <:+ allLevels

theorem readersInOrder_initial (input : o.Input) : ReadersInOrder (initial input) where
  todo := by
    intro p e he
    obtain ⟨line, -, rfl⟩ := List.mem_map.mp he
    exact ⟨rfl, rfl⟩
  buffer := by
    intro r e he
    simp [initial] at he
  held := by
    intro r e he
    simp [initial, ParserPc.held] at he
  joined := by
    intro r hd
    simp [initial] at hd
  drained := by
    intro r ls hpc
    simp [initial] at hpc

theorem ReadersInOrder.of_parser {s : State o} (h : ReadersInOrder s) {r : o.Reader}
    {pc : ParserPc} {regionA : RegionA} {hist : History} (hheld : pc.held = [])
    (hdrain : ∀ ls, pc = .markers ls →
      (s.buffer r).producersDone = true ∧ (s.buffer r).ring.count = 0 ∧ ls <:+ allLevels) :
    ReadersInOrder { s with
      regionA := regionA, parser := Function.update s.parser r pc, hist := hist } := by
  refine ⟨h.todo, h.buffer, ?_, h.joined, ?_⟩
  · rw [Function.forall_update_iff s.parser (fun r pc => ∀ x ∈ pc.held, FromReader r x)]
    exact ⟨fun x hx => by simp [hheld] at hx, fun q _ => h.held q⟩
  · intro q ls hq
    by_cases hqr : q = r
    · subst hqr
      exact hdrain ls (by simpa using hq)
    · exact h.drained q ls (by simpa only [Function.update_of_ne hqr] using hq)

theorem readersInOrder_readerPush {s : State o} (h : ReadersInOrder s) (hq : QueuesWellFormed s)
    {p : o.ReaderThread} {e : LogEntry} {rest : List LogEntry} (hp : s.todo p = e :: rest)
    (hfull : (s.buffer p.1).ring.count ≠ (s.buffer p.1).ring.capacity) :
    ReadersInOrder { s with
      todo := Function.update s.todo p rest
      buffer := Function.update s.buffer p.1
        { s.buffer p.1 with ring := (s.buffer p.1).ring.push e } } := by
  have hmem : ∀ x ∈ e :: rest, FromReader p.1 x := hp ▸ h.todo p
  -- a thread with work left keeps its process from announcing the end
  have hopen : (s.buffer p.1).producersDone = false := by
    by_contra hd
    have hnil := h.joined p.1 (by simpa using hd) p.2
    rw [hp] at hnil
    cases hnil
  refine ⟨?_, ?_, h.held, ?_, ?_⟩
  · rw [Function.forall_update_iff s.todo (fun q xs => ∀ x ∈ xs, FromReader q.1 x)]
    exact ⟨fun x hx => hmem x (List.mem_cons_of_mem _ hx), fun q _ => h.todo q⟩
  · rw [Function.forall_update_iff s.buffer (fun r b => ∀ x ∈ b.ring.toList, FromReader r x)]
    refine ⟨fun x hx => ?_, fun r _ => h.buffer r⟩
    rw [RingBuffer.toList_push (hq.buffer _) hfull] at hx
    rcases List.mem_append.mp hx with hx | hx
    · exact h.buffer _ x hx
    · exact List.mem_singleton.mp hx ▸ hmem e (List.mem_cons_self)
  · intro r hd t
    by_cases hrp : r = p.1
    · subst hrp
      simp [hopen] at hd
    · simp only [Function.update_of_ne hrp] at hd
      have hne : (r, t) ≠ p := fun heq => hrp (congrArg Prod.fst heq)
      simpa only [Function.update_of_ne hne] using h.joined r hd t
  · intro r ls hpc
    by_cases hrp : r = p.1
    · subst hrp
      simp [(h.drained _ ls hpc).1] at hopen
    · simpa only [Function.update_of_ne hrp] using h.drained r ls hpc

theorem readersInOrder_producersDone {s : State o} (h : ReadersInOrder s) {r : o.Reader}
    (hall : ∀ t, s.todo (r, t) = []) :
    ReadersInOrder { s with
      buffer := Function.update s.buffer r { s.buffer r with producersDone := true } } := by
  refine ⟨h.todo, ?_, h.held, ?_, ?_⟩
  · rw [Function.forall_update_iff s.buffer (fun r b => ∀ x ∈ b.ring.toList, FromReader r x)]
    exact ⟨h.buffer r, fun q _ => h.buffer q⟩
  · intro q hd
    by_cases hqr : q = r
    · exact hqr ▸ hall
    · simp only [Function.update_of_ne hqr] at hd
      exact h.joined q hd
  · intro q ls hpc
    by_cases hqr : q = r
    · subst hqr
      simpa only [Function.update_self, true_and] using (h.drained q ls hpc).2
    · simpa only [Function.update_of_ne hqr] using h.drained q ls hpc

theorem readersInOrder_parserPop {s : State o} (h : ReadersInOrder s) (hq : QueuesWellFormed s)
    {r : o.Reader} (hne : (s.buffer r).ring.count ≠ 0) :
    ReadersInOrder { s with
      buffer := Function.update s.buffer r { s.buffer r with ring := (s.buffer r).ring.pop }
      parser := Function.update s.parser r (.pushing (s.buffer r).ring.front) } := by
  have hpop := RingBuffer.toList_pop (hq.buffer r) hne
  have hfront : (s.buffer r).ring.front ∈ (s.buffer r).ring.toList := by
    rw [hpop]
    exact List.mem_cons_self
  refine ⟨h.todo, ?_, ?_, ?_, ?_⟩
  · rw [Function.forall_update_iff s.buffer (fun r b => ∀ x ∈ b.ring.toList, FromReader r x)]
    refine ⟨fun x hx => h.buffer r x ?_, fun q _ => h.buffer q⟩
    rw [hpop]
    exact List.mem_cons_of_mem _ hx
  · rw [Function.forall_update_iff s.parser (fun r pc => ∀ x ∈ pc.held, FromReader r x)]
    refine ⟨fun x hx => ?_, fun q _ => h.held q⟩
    exact List.mem_singleton.mp hx ▸ h.buffer r _ hfront
  · have hdone := apply_update_of_eq (f := s.buffer) (i := r)
      (x := { s.buffer r with ring := (s.buffer r).ring.pop }) PrivateBuffer.producersDone rfl
    intro q hd
    exact h.joined q (hdone q ▸ hd)
  · intro q ls hpc
    by_cases hqr : q = r
    · subst hqr
      simp at hpc
    · simp only [Function.update_of_ne hqr] at hpc ⊢
      exact h.drained q ls hpc

theorem readersInOrder_step {s s' : State o} {a : Action o} (h : Transition s a s')
    (hq : QueuesWellFormed s) (hr : ReadersInOrder s) : ReadersInOrder s' := by
  cases h with
  | readerPush p hp hfull => exact readersInOrder_readerPush hr hq hp hfull
  | producersDone r hall => exact readersInOrder_producersDone hr hall
  | parserPop r hpc hne => exact readersInOrder_parserPop hr hq hne
  | parserEnd r hpc hz hd =>
    refine hr.of_parser rfl (fun ls hls => ?_)
    obtain rfl := ParserPc.markers.inj hls
    exact ⟨hd, hz, List.suffix_refl _⟩
  | parserPush r hpc hfull => exact hr.of_parser rfl (fun ls hls => by cases hls)
  | parserMarker r hpc hfull =>
    refine hr.of_parser rfl (fun ls hls => ?_)
    obtain rfl := ParserPc.markers.inj hls
    obtain ⟨hd, hz, hsuf⟩ := hr.drained r _ hpc
    exact ⟨hd, hz, (List.suffix_cons _ _).trans hsuf⟩
  | _ => exact ⟨hr.todo, hr.buffer, hr.held, hr.joined, hr.drained⟩

/-! ### End markers in Region A -/

def isMarker (l : Level) (e : LogEntry) : Bool := e.isEof && decide (e.levelIndex = l)

def Trailing (posted : LogEntry → Level → Prop) : List LogEntry → Prop
  | [] => True
  | e :: rest =>
    (e.isEof = false → ∀ l, posted e l → ∃ m ∈ rest, isMarker l m = true) ∧ Trailing posted rest

theorem trailing_append {posted posted' : LogEntry → Level → Prop} {es : List LogEntry}
    {x : LogEntry} (h : Trailing posted es) (hx : x.isEof = false → ∀ l, ¬ posted' x l)
    (hp : ∀ e l, posted' e l → posted e l ∨ isMarker l x = true) :
    Trailing posted' (es ++ [x]) := by
  induction es with
  | nil => exact ⟨fun he l hl => absurd hl (hx he l), trivial⟩
  | cons e es ih =>
    refine ⟨fun he l hl => ?_, ih h.2⟩
    rcases hp e l hl with hold | hnew
    · obtain ⟨m, hm, hml⟩ := h.1 he l hold
      exact ⟨m, List.mem_append_left _ hm, hml⟩
    · exact ⟨x, List.mem_append_right _ (List.mem_singleton_self _), hnew⟩

theorem trailing_congr {posted posted' : LogEntry → Level → Prop} {es : List LogEntry}
    (h : Trailing posted es) (hp : ∀ e l, posted' e l → posted e l) : Trailing posted' es := by
  induction es with
  | nil => trivial
  | cons e es ih => exact ⟨fun he l hl => h.1 he l (hp e l hl), ih h.2⟩

theorem trailing_clear {posted : LogEntry → Level → Prop} {es : List LogEntry} {l : Level}
    (h : Trailing posted es) (hno : ∀ m ∈ es, isMarker l m = false) :
    ∀ e ∈ es, e.isEof = false → ¬ posted e l := by
  induction es with
  | nil => simp
  | cons x es ih =>
    intro e he heof hl
    rcases List.mem_cons.mp he with rfl | he
    · obtain ⟨m, hm, hml⟩ := h.1 heof l hl
      simp [hno m (List.mem_cons_of_mem _ hm)] at hml
    · exact ih h.2 (fun m hm => hno m (List.mem_cons_of_mem _ hm)) e he heof hl

def DispatcherPc.held : DispatcherPc → List LogEntry
  | .routing e => [e]
  | _ => []

/-- What the dispatcher has still to route: the entry it has popped, then Region A. -/
def inFlight (s : State o) : List LogEntry := s.dispatcher.held ++ s.regionA.ring.toList

def PostedFor (parser : o.Reader → ParserPc) (e : LogEntry) (l : Level) : Prop :=
  ∃ r : o.Reader, e.readerId = r ∧ (parser r).posted l = true

def postedCount (parser : o.Reader → ParserPc) (l : Level) : ℕ :=
  ∑ r, if (parser r).posted l then 1 else 0

theorem postedCount_le (parser : o.Reader → ParserPc) (l : Level) :
    postedCount parser l ≤ o.numFiles := by
  simpa [postedCount] using sum_indicator_le_card (fun r => (parser r).posted l)

theorem posted_of_postedCount {parser : o.Reader → ParserPc} {l : Level}
    (h : postedCount parser l = o.numFiles) (r : o.Reader) : (parser r).posted l = true := by
  refine (sum_indicator_eq_card (fun r => (parser r).posted l)).mp ?_ r
  simpa [postedCount] using h

theorem postedCount_update (parser : o.Reader → ParserPc) (r : o.Reader) (pc : ParserPc)
    (l : Level) :
    postedCount (Function.update parser r pc) l + (if (parser r).posted l then 1 else 0) =
      postedCount parser l + (if pc.posted l then 1 else 0) :=
  sum_update_add (fun _ q => if ParserPc.posted q l then 1 else 0) parser r pc

theorem postedCount_same {parser : o.Reader → ParserPc} {r : o.Reader} {pc : ParserPc}
    (h : ∀ l, pc.posted l = (parser r).posted l) (l : Level) :
    postedCount (Function.update parser r pc) l = postedCount parser l := by
  have hu := postedCount_update parser r pc l
  rw [h l] at hu
  exact Nat.add_right_cancel hu

theorem postedFor_same {parser : o.Reader → ParserPc} {r : o.Reader} {pc : ParserPc}
    (h : ∀ l, pc.posted l = (parser r).posted l) (e : LogEntry) (l : Level)
    (hp : PostedFor (Function.update parser r pc) e l) : PostedFor parser e l := by
  obtain ⟨q, hq, hl⟩ := hp
  refine ⟨q, hq, ?_⟩
  by_cases hqr : q = r
  · subst hqr
    rwa [Function.update_self, h l] at hl
  · rwa [Function.update_of_ne hqr] at hl

theorem posted_markers_all (l : Level) : (ParserPc.markers allLevels).posted l = false := by
  simp [ParserPc.posted, mem_allLevels l]

theorem notMem_of_suffix {l : Level} {rest : List Level} (h : (l :: rest) <:+ allLevels) :
    l ∉ rest :=
  (List.nodup_cons.mp (h.sublist.nodup (by decide))).1

theorem posted_markers_head {l : Level} {rest : List Level} (h : (l :: rest) <:+ allLevels) :
    (ParserPc.markers (l :: rest)).posted l = false ∧ (ParserPc.markers rest).posted l = true := by
  simp [ParserPc.posted, notMem_of_suffix h]

theorem posted_markers_other {l k : Level} {rest : List Level} (hk : k ≠ l) :
    (ParserPc.markers rest).posted k = (ParserPc.markers (l :: rest)).posted k := by
  simp [ParserPc.posted, hk]

structure MarkersInOrder (s : State o) : Prop where
  trailing : Trailing (PostedFor s.parser) (inFlight s)
  readers : ∀ e ∈ inFlight s, ∃ r : o.Reader, e.readerId = r
  seen : ∀ l, s.eofSeen l + (inFlight s).countP (isMarker l) = postedCount s.parser l
  counted : ∀ l, s.regionA.eofCountPerLevel l = postedCount s.parser l
  total : s.regionA.totalReaders = o.numFiles
  ended : ∀ l, (s.regionB l).eofPosted = true ↔ s.eofSeen l = o.numFiles
  finished : s.finishedLevels = ∑ l, if (s.regionB l).eofPosted then 1 else 0

theorem postedCount_initial (input : o.Input) (l : Level) :
    postedCount (initial input).parser l = 0 := by
  simp [postedCount, initial, ParserPc.posted]

theorem markersInOrder_initial (input : o.Input) : MarkersInOrder (initial input) := by
  have hflight : inFlight (initial input) = [] := by
    simp [inFlight, initial, loopHead, maxLevels, allLevels, DispatcherPc.held]
  refine ⟨?_, ?_, ?_, ?_, rfl, ?_, ?_⟩
  · rw [hflight]
    trivial
  · simp [hflight]
  · intro l
    rw [hflight, postedCount_initial]
    rfl
  · intro l
    rw [postedCount_initial]
    rfl
  · intro l
    have hpos := o.numFiles_pos
    simp only [initial, Bool.false_eq_true, false_iff]
    omega
  · simp [initial]

@[simp] theorem held_loopHead (n : ℕ) : (loopHead n).held = [] := by
  unfold loopHead
  split_ifs <;> rfl

/-- Once every reader's marker of a level has been counted, nothing but markers
of other levels is in flight. -/
theorem MarkersInOrder.clear {s : State o} (h : MarkersInOrder s) {l : Level}
    (hl : s.eofSeen l = o.numFiles) : ∀ e ∈ inFlight s, e.isEof = true := by
  have hle := postedCount_le s.parser l
  have hseen := h.seen l
  have hzero : (inFlight s).countP (isMarker l) = 0 := by omega
  have hall : postedCount s.parser l = o.numFiles := by omega
  have hno : ∀ m ∈ inFlight s, isMarker l m = false := by
    intro m hm
    simpa using List.countP_eq_zero.mp hzero m hm
  intro e he
  by_contra heof
  obtain ⟨r, hr⟩ := h.readers e he
  exact trailing_clear h.trailing hno e he (by simpa using heof)
    ⟨r, hr, posted_of_postedCount hall r⟩

theorem eofPosted_false_of_held {s : State o} (h : MarkersInOrder s) {e : LogEntry}
    (hpc : s.dispatcher = .routing e) (heof : e.isEof = true) :
    s.eofSeen e.levelIndex < o.numFiles := by
  have hle := postedCount_le s.parser e.levelIndex
  have hseen := h.seen e.levelIndex
  have hhead : 1 ≤ (inFlight s).countP (isMarker e.levelIndex) := by
    apply List.countP_pos_iff.mpr
    exact ⟨e, by simp [inFlight, hpc, DispatcherPc.held], by simp [isMarker, heof]⟩
  omega

theorem markersInOrder_consume {s : State o} (h : MarkersInOrder s) {e : LogEntry}
    (hpc : s.dispatcher = .routing e) (heof : e.isEof = true) (l : Level) :
    Function.update s.eofSeen e.levelIndex (s.eofSeen e.levelIndex + 1) l +
      s.regionA.ring.toList.countP (isMarker l) = postedCount s.parser l := by
  have hseen := h.seen l
  simp only [inFlight, hpc, DispatcherPc.held, List.singleton_append, List.countP_cons] at hseen
  by_cases hl : l = e.levelIndex
  · subst hl
    simp only [Function.update_self]
    simp only [isMarker, heof, decide_true, Bool.and_self, ↓reduceIte] at hseen ⊢
    omega
  · rw [Function.update_of_ne hl]
    simpa [isMarker, Ne.symm hl] using hseen

theorem MarkersInOrder.congr {s s' : State o} (h : MarkersInOrder s)
    (hflight : inFlight s' = inFlight s)
    (hposted : ∀ r l, (s'.parser r).posted l = (s.parser r).posted l)
    (hcount : s'.regionA.eofCountPerLevel = s.regionA.eofCountPerLevel)
    (htotal : s'.regionA.totalReaders = s.regionA.totalReaders) (hseen : s'.eofSeen = s.eofSeen)
    (hend : ∀ l, (s'.regionB l).eofPosted = (s.regionB l).eofPosted)
    (hfin : s'.finishedLevels = s.finishedLevels) : MarkersInOrder s' := by
  have hpc : ∀ l, postedCount s'.parser l = postedCount s.parser l := by
    intro l
    simp only [postedCount, hposted]
  refine ⟨?_, ?_, ?_, ?_, ?_, ?_, ?_⟩
  · rw [hflight]
    exact trailing_congr h.trailing (fun e l ⟨r, hr, hl⟩ => ⟨r, hr, hposted r l ▸ hl⟩)
  · rw [hflight]
    exact h.readers
  · intro l
    rw [hseen, hflight, hpc, h.seen]
  · intro l
    rw [hcount, hpc, h.counted]
  · rw [htotal, h.total]
  · intro l
    rw [hend, hseen, h.ended]
  · rw [hfin, h.finished]
    simp only [hend]

theorem markersInOrder_parserPush {s : State o} (hq : QueuesWellFormed s) (hr : ReadersInOrder s)
    (hm : MarkersInOrder s) {r : o.Reader} {e : LogEntry} {hist : History}
    (hpc : s.parser r = .pushing e) (hfull : s.regionA.ring.count ≠ s.regionA.ring.capacity) :
    MarkersInOrder { s with
      regionA := { s.regionA with
        ring := s.regionA.ring.push e
        eofCountPerLevel :=
          if e.isEof then Function.update s.regionA.eofCountPerLevel e.levelIndex
            (s.regionA.eofCountPerLevel e.levelIndex + 1)
          else s.regionA.eofCountPerLevel }
      parser := Function.update s.parser r .popping
      hist := hist } := by
  obtain ⟨heof, hid⟩ := hr.held r e (by simp [hpc, ParserPc.held])
  have hsame : ∀ l, ParserPc.popping.posted l = (s.parser r).posted l := by
    simp [hpc, ParserPc.posted]
  have hpush := RingBuffer.toList_push hq.regionA hfull e
  refine ⟨?_, ?_, ?_, ?_, hm.total, hm.ended, hm.finished⟩
  · simp only [inFlight, hpush, ← List.append_assoc]
    refine trailing_append hm.trailing ?_ (fun x l hx => Or.inl (postedFor_same hsame x l hx))
    rintro - l ⟨q, hq', hl⟩
    -- the pushing parser is the entry's own reader and has posted nothing
    have hqr : q = r := Fin.ext (hq'.symm.trans hid)
    subst hqr
    simp [ParserPc.posted] at hl
  · intro x hx
    simp only [inFlight, hpush, ← List.append_assoc] at hx
    rcases List.mem_append.mp hx with hx | hx
    · exact hm.readers x hx
    · exact ⟨r, List.mem_singleton.mp hx ▸ hid⟩
  · intro l
    have hl := hm.seen l
    rw [postedCount_same hsame]
    simp only [inFlight, hpush, List.countP_append] at hl ⊢
    simpa [isMarker, heof] using hl
  · intro l
    rw [postedCount_same hsame]
    simpa [heof] using hm.counted l

theorem markersInOrder_parserMarker {s : State o} (hq : QueuesWellFormed s)
    (hr : ReadersInOrder s) (hm : MarkersInOrder s) {r : o.Reader} {k : Level} {rest : List Level}
    (hpc : s.parser r = .markers (k :: rest))
    (hfull : s.regionA.ring.count ≠ s.regionA.ring.capacity) :
    MarkersInOrder { s with
      regionA := { s.regionA with
        ring := s.regionA.ring.push (eofEntry r k)
        eofCountPerLevel := Function.update s.regionA.eofCountPerLevel k
          (s.regionA.eofCountPerLevel k + 1) }
      parser := Function.update s.parser r (.markers rest) } := by
  obtain ⟨-, -, hsuf⟩ := hr.drained r _ hpc
  have hhead := posted_markers_head hsuf
  have hpush := RingBuffer.toList_push hq.regionA hfull (eofEntry r k)
  have hself : postedCount (Function.update s.parser r (.markers rest)) k =
      postedCount s.parser k + 1 := by
    have hu := postedCount_update s.parser r (.markers rest) k
    simpa [hpc, hhead.1, hhead.2] using hu
  have hother : ∀ l, l ≠ k → postedCount (Function.update s.parser r (.markers rest)) l =
      postedCount s.parser l := by
    intro l hl
    have hu := postedCount_update s.parser r (.markers rest) l
    rw [hpc, ← posted_markers_other hl] at hu
    exact Nat.add_right_cancel hu
  refine ⟨?_, ?_, ?_, ?_, hm.total, hm.ended, hm.finished⟩
  · simp only [inFlight, hpush, ← List.append_assoc]
    refine trailing_append hm.trailing (fun h => by simp [eofEntry] at h) ?_
    rintro x l ⟨q, hq', hl⟩
    by_cases hlk : l = k
    · exact Or.inr (by simp [isMarker, eofEntry, hlk])
    · refine Or.inl ⟨q, hq', ?_⟩
      by_cases hqr : q = r
      · subst hqr
        rw [Function.update_self] at hl
        rw [hpc, ← posted_markers_other hlk]
        exact hl
      · rwa [Function.update_of_ne hqr] at hl
  · intro x hx
    simp only [inFlight, hpush, ← List.append_assoc] at hx
    rcases List.mem_append.mp hx with hx | hx
    · exact hm.readers x hx
    · exact ⟨r, by rw [List.mem_singleton.mp hx]; rfl⟩
  · intro l
    have hl := hm.seen l
    simp only [inFlight, hpush, List.countP_append, List.countP_singleton] at hl ⊢
    by_cases hlk : l = k
    · subst hlk
      rw [hself]
      simp only [isMarker, eofEntry, decide_true, Bool.and_self, ↓reduceIte]
      omega
    · rw [hother l hlk]
      simpa [isMarker, eofEntry, Ne.symm hlk] using hl
  · intro l
    by_cases hlk : l = k
    · subst hlk
      simp only [Function.update_self, hself, hm.counted]
    · simp only [Function.update_of_ne hlk, hother l hlk, hm.counted]

theorem MarkersInOrder.dealt {s : State o} (hm : MarkersInOrder s) {e : LogEntry}
    (hpc : s.dispatcher = .routing e) :
    Trailing (PostedFor s.parser) s.regionA.ring.toList ∧
      ∀ x ∈ s.regionA.ring.toList, ∃ r : o.Reader, x.readerId = r := by
  have htrail := hm.trailing
  have hread := hm.readers
  simp only [inFlight, hpc, DispatcherPc.held, List.singleton_append] at htrail hread
  exact ⟨htrail.2, fun x hx => hread x (List.mem_cons_of_mem _ hx)⟩

theorem markersInOrder_lastMarker {s : State o} (hm : MarkersInOrder s) {e : LogEntry}
    (hpc : s.dispatcher = .routing e) (heof : e.isEof = true)
    (hlast : s.eofSeen e.levelIndex + 1 = o.numFiles)
    (hpost : (s.regionB e.levelIndex).eofPosted = false) :
    MarkersInOrder { s with
      eofSeen := Function.update s.eofSeen e.levelIndex (s.eofSeen e.levelIndex + 1)
      regionB := Function.update s.regionB e.levelIndex
        { s.regionB e.levelIndex with eofPosted := true }
      finishedLevels := s.finishedLevels + 1
      dispatcher := loopHead (s.finishedLevels + 1) } := by
  obtain ⟨htrail, hread⟩ := hm.dealt hpc
  have hcons := markersInOrder_consume hm hpc heof
  refine ⟨?_, ?_, ?_, hm.counted, hm.total, ?_, ?_⟩
  · simpa [inFlight] using htrail
  · simpa [inFlight] using hread
  · simpa [inFlight] using hcons
  · intro l
    by_cases hl : l = e.levelIndex
    · subst hl
      simp [hlast]
    · simpa only [Function.update_of_ne hl] using hm.ended l
  · have hsum := sum_update_add (fun (_ : Level) b => if RegionB.eofPosted b then 1 else 0)
      s.regionB e.levelIndex { s.regionB e.levelIndex with eofPosted := true }
    simp only [hpost, Bool.false_eq_true, ↓reduceIte, Nat.add_zero] at hsum
    rw [hsum, hm.finished]

theorem markersInOrder_marker {s : State o} (hm : MarkersInOrder s) {e : LogEntry}
    (hpc : s.dispatcher = .routing e) (heof : e.isEof = true)
    (hlast : ¬ (s.eofSeen e.levelIndex + 1 = o.numFiles ∧
      (s.regionB e.levelIndex).eofPosted = false)) :
    MarkersInOrder { s with
      eofSeen := Function.update s.eofSeen e.levelIndex (s.eofSeen e.levelIndex + 1)
      dispatcher := loopHead s.finishedLevels } := by
  obtain ⟨htrail, hread⟩ := hm.dealt hpc
  have hcons := markersInOrder_consume hm hpc heof
  have hlt := eofPosted_false_of_held hm hpc heof
  refine ⟨?_, ?_, ?_, hm.counted, hm.total, ?_, hm.finished⟩
  · simpa [inFlight] using htrail
  · simpa [inFlight] using hread
  · simpa [inFlight] using hcons
  · intro l
    by_cases hl : l = e.levelIndex
    · subst hl
      have hnot : (s.regionB e.levelIndex).eofPosted = false := by
        rw [Bool.eq_false_iff]
        intro ht
        have hfull := (hm.ended e.levelIndex).mp ht
        omega
      have hne : s.eofSeen e.levelIndex + 1 ≠ o.numFiles := fun heq => hlast ⟨heq, hnot⟩
      simp [hnot, hne]
    · simpa only [Function.update_of_ne hl] using hm.ended l

theorem held_afterRoute (e : LogEntry) (n : ℕ) :
    (if sourceIsPriority o e.source = true then DispatcherPc.priority e else loopHead n).held =
      [] := by
  split_ifs
  · rfl
  · exact held_loopHead _

theorem markersInOrder_route {s : State o} (hm : MarkersInOrder s) {e : LogEntry} {hist : History}
    (hpc : s.dispatcher = .routing e) (heof : e.isEof = false) :
    MarkersInOrder { s with
      regionB := Function.update s.regionB e.levelIndex
        { s.regionB e.levelIndex with ring := (s.regionB e.levelIndex).ring.push e }
      dispatcher := if sourceIsPriority o e.source then .priority e
        else loopHead s.finishedLevels
      hist := hist } := by
  obtain ⟨htrail, hread⟩ := hm.dealt hpc
  have hheld := held_afterRoute (o := o) e s.finishedLevels
  have hposted : ∀ l, (Function.update s.regionB e.levelIndex
      { s.regionB e.levelIndex with ring := (s.regionB e.levelIndex).ring.push e } l).eofPosted =
        (s.regionB l).eofPosted := apply_update_of_eq RegionB.eofPosted (by rfl)
  refine ⟨?_, ?_, ?_, hm.counted, hm.total, ?_, ?_⟩
  · simpa [inFlight, hheld] using htrail
  · simpa [inFlight, hheld] using hread
  · intro l
    have hseen := hm.seen l
    simp only [inFlight, hpc, DispatcherPc.held, List.singleton_append] at hseen
    simpa [inFlight, hheld, isMarker, heof] using hseen
  · intro l
    simp only [hposted]
    exact hm.ended l
  · simp only [hposted]
    exact hm.finished

theorem markersInOrder_step {s s' : State o} {a : Action o} (h : Transition s a s')
    (hq : QueuesWellFormed s) (hr : ReadersInOrder s) (hm : MarkersInOrder s) :
    MarkersInOrder s' := by
  cases h with
  | parserPop r hpc hne =>
    refine hm.congr rfl (fun q l => ?_) rfl rfl rfl (fun _ => rfl) rfl
    exact apply_update_of_eq (ParserPc.posted · l) (by simp [hpc, ParserPc.posted]) q
  | parserEnd r hpc hz hd =>
    refine hm.congr rfl (fun q l => ?_) rfl rfl rfl (fun _ => rfl) rfl
    refine apply_update_of_eq (ParserPc.posted · l) ?_ q
    rw [posted_markers_all, hpc]
    rfl
  | parserPush r hpc hfull => exact markersInOrder_parserPush hq hr hm hpc hfull
  | parserMarker r hpc hfull => exact markersInOrder_parserMarker hq hr hm hpc hfull
  | dispatcherPop hpc hne =>
    refine hm.congr ?_ (fun _ _ => rfl) rfl rfl rfl (fun _ => rfl) rfl
    simp [inFlight, hpc, DispatcherPc.held, ← RingBuffer.toList_pop hq.regionA hne]
  | timeout f hpc | allDone hpc | notAllDone hpc | leave hpc =>
    -- the dispatcher turns around with empty hands
    refine hm.congr ?_ (fun _ _ => rfl) rfl rfl rfl (fun _ => rfl) rfl
    simp [inFlight, hpc, DispatcherPc.held]
  | routePriority hpc hfull =>
    refine hm.congr ?_ (fun _ _ => rfl) rfl rfl rfl (fun _ => rfl) rfl
    simp only [inFlight, held_loopHead, hpc]
    rfl
  | lastMarker hpc heof hlast hpost => exact markersInOrder_lastMarker hm hpc heof hlast hpost
  | marker hpc heof hlast => exact markersInOrder_marker hm hpc heof hlast
  | route hpc heof hfull => exact markersInOrder_route hm hpc heof
  | workerPop w hpc hne =>
    exact hm.congr rfl (fun _ _ => rfl) rfl rfl rfl
      (apply_update_of_eq RegionB.eofPosted (by rfl)) rfl
  | _ => exact hm.congr rfl (fun _ _ => rfl) rfl rfl rfl (fun _ => rfl) rfl

/-! ### Conservation of entries -/

/-- An entry that is in its Region B queue but not yet copied to Region D. -/
def DispatcherPc.pendingD : DispatcherPc → List LogEntry
  | .priority e => [e]
  | _ => []

@[simp] theorem pendingD_loopHead (n : ℕ) : (loopHead n).pendingD = [] := by
  unfold loopHead
  split_ifs <;> rfl

def upstream (s : State o) : Multiset LogEntry :=
  ∑ p, (s.todo p : Multiset LogEntry) + ∑ r, ((s.buffer r).ring.toList : Multiset LogEntry) +
    ∑ r, ((s.parser r).held : Multiset LogEntry)

def produced (input : o.Input) : Multiset LogEntry := ∑ p, (entriesOf input p : Multiset LogEntry)

structure EntriesConserved (input : o.Input) (s : State o) : Prop where
  supply : upstream s + (s.hist.pushedA : Multiset LogEntry) = produced input
  routed : s.hist.pushedA = s.hist.routedB ++ (inFlight s).filter (fun e => !e.isEof)
  popped : ∀ l, s.hist.popped l ++ (s.regionB l).ring.toList =
    s.hist.routedB.filter (fun e => e.levelIndex = l)
  priority : s.hist.routedD ++ s.dispatcher.pendingD =
    s.hist.routedB.filter (fun e => sourceIsPriority o e.source)

theorem entriesConserved_initial (input : o.Input) : EntriesConserved input (initial input) := by
  have hheld : (initial input).dispatcher.held = [] := held_loopHead 0
  have hpend : (initial input).dispatcher.pendingD = [] := pendingD_loopHead 0
  refine ⟨?_, ?_, ?_, ?_⟩
  · simp [upstream, produced, initial, ParserPc.held]
  · rw [inFlight, hheld]
    simp [initial]
  · simp [initial]
  · rw [hpend]
    simp [initial]

theorem upstream_readerPush {s : State o} (hq : QueuesWellFormed s) {p : o.ReaderThread}
    {e : LogEntry} {rest : List LogEntry} (hp : s.todo p = e :: rest)
    (hfull : (s.buffer p.1).ring.count ≠ (s.buffer p.1).ring.capacity) :
    upstream { s with
      todo := Function.update s.todo p rest
      buffer := Function.update s.buffer p.1
        { s.buffer p.1 with ring := (s.buffer p.1).ring.push e } } = upstream s := by
  have ht := sum_update_exchange (fun _ xs => ((xs : List LogEntry) : Multiset LogEntry)) s.todo p
    rest (c := rest) (u := {e}) (v := 0)
    (by rw [hp, ← Multiset.cons_coe, ← Multiset.singleton_add, add_comm]) (add_zero _).symm
  have hb := sum_update_exchange (fun _ b => ((PrivateBuffer.ring b).toList : Multiset LogEntry))
    s.buffer p.1 { s.buffer p.1 with ring := (s.buffer p.1).ring.push e }
    (c := (s.buffer p.1).ring.toList) (u := 0) (v := {e}) (add_zero _).symm
    (by rw [RingBuffer.toList_push (hq.buffer _) hfull, ← Multiset.coe_add]; rfl)
  rw [add_zero] at ht hb
  simp only [upstream]
  rw [hb, ← ht]
  abel

theorem upstream_producersDone (s : State o) (r : o.Reader) :
    upstream { s with
      buffer := Function.update s.buffer r { s.buffer r with producersDone := true } } =
      upstream s := by
  have hb := sum_update_add (fun _ b => ((PrivateBuffer.ring b).toList : Multiset LogEntry))
    s.buffer r { s.buffer r with producersDone := true }
  simp only [upstream]
  rw [add_right_cancel hb]

theorem upstream_parserPop {s : State o} (hq : QueuesWellFormed s) {r : o.Reader}
    (hpc : s.parser r = .popping) (hne : (s.buffer r).ring.count ≠ 0) :
    upstream { s with
      buffer := Function.update s.buffer r { s.buffer r with ring := (s.buffer r).ring.pop }
      parser := Function.update s.parser r (.pushing (s.buffer r).ring.front) } = upstream s := by
  have hb := sum_update_exchange (fun _ b => ((PrivateBuffer.ring b).toList : Multiset LogEntry))
    s.buffer r { s.buffer r with ring := (s.buffer r).ring.pop }
    (c := (s.buffer r).ring.pop.toList) (u := {(s.buffer r).ring.front}) (v := 0)
    (by rw [RingBuffer.toList_pop (hq.buffer _) hne, ← Multiset.cons_coe,
      ← Multiset.singleton_add, add_comm]) (add_zero _).symm
  have hh := sum_update_exchange (fun _ pc => (ParserPc.held pc : Multiset LogEntry))
    s.parser r (.pushing (s.buffer r).ring.front)
    (c := 0) (u := 0) (v := {(s.buffer r).ring.front})
    (by simp [hpc, ParserPc.held]) (by simp [ParserPc.held])
  rw [add_zero] at hb hh
  simp only [upstream]
  rw [hh, ← hb]
  abel

theorem upstream_parser_same (s : State o) (r : o.Reader) (pc : ParserPc)
    (h : pc.held = (s.parser r).held) :
    upstream { s with parser := Function.update s.parser r pc } = upstream s := by
  have hh := sum_update_add (fun _ q => (ParserPc.held q : Multiset LogEntry)) s.parser r pc
  simp only [h] at hh
  simp only [upstream]
  rw [add_right_cancel hh]

theorem upstream_parserPush {s : State o} {r : o.Reader} {e : LogEntry}
    (hpc : s.parser r = .pushing e) :
    upstream { s with parser := Function.update s.parser r .popping } + {e} = upstream s := by
  have hh := sum_update_exchange (fun _ pc => (ParserPc.held pc : Multiset LogEntry))
    s.parser r .popping (c := 0) (u := {e}) (v := 0)
    (by simp [hpc, ParserPc.held]) (by simp [ParserPc.held])
  rw [add_zero] at hh
  simp only [upstream]
  rw [← hh]
  abel

theorem EntriesConserved.congr {input : o.Input} {s s' : State o} (h : EntriesConserved input s)
    (hup : upstream s' = upstream s) (hpushed : s'.hist.pushedA = s.hist.pushedA)
    (hrouted : s'.hist.routedB = s.hist.routedB)
    (hflight : (inFlight s').filter (fun e => !e.isEof) = (inFlight s).filter (fun e => !e.isEof))
    (hpopped : ∀ l, s'.hist.popped l ++ (s'.regionB l).ring.toList =
      s.hist.popped l ++ (s.regionB l).ring.toList)
    (hprio : s'.hist.routedD ++ s'.dispatcher.pendingD =
      s.hist.routedD ++ s.dispatcher.pendingD) : EntriesConserved input s' := by
  refine ⟨?_, ?_, ?_, ?_⟩
  · rw [hup, hpushed, h.supply]
  · rw [hpushed, hrouted, hflight, h.routed]
  · intro l
    rw [hpopped, hrouted, h.popped]
  · rw [hprio, hrouted, h.priority]

theorem entriesConserved_route {input : o.Input} {s : State o} (hq : QueuesWellFormed s)
    (hc : EntriesConserved input s) {e : LogEntry} (hpc : s.dispatcher = .routing e)
    (heof : e.isEof = false)
    (hfull : (s.regionB e.levelIndex).ring.count ≠ (s.regionB e.levelIndex).ring.capacity) :
    EntriesConserved input { s with
      regionB := Function.update s.regionB e.levelIndex
        { s.regionB e.levelIndex with ring := (s.regionB e.levelIndex).ring.push e }
      dispatcher := if sourceIsPriority o e.source then .priority e
        else loopHead s.finishedLevels
      hist := { s.hist with routedB := s.hist.routedB ++ [e] } } := by
  obtain ⟨hsup, hrout, hpop, hprio⟩ := hc
  have hheld := held_afterRoute (o := o) e s.finishedLevels
  simp only [inFlight, hpc, DispatcherPc.held, DispatcherPc.pendingD, List.singleton_append,
    List.filter_cons, heof, Bool.not_false, ↓reduceIte, List.append_nil] at hrout hprio
  refine ⟨hsup, ?_, ?_, ?_⟩
  · simpa [inFlight, hheld] using hrout
  · intro l
    have hl := hpop l
    by_cases hle : l = e.levelIndex
    · subst hle
      simp only [Function.update_self, RingBuffer.toList_push (hq.regionB _) hfull,
        List.filter_append, ← hl, List.append_assoc]
      simp
    · simp only [Function.update_of_ne hle, List.filter_append, ← hl]
      simp [Ne.symm hle]
  · simp only [List.filter_append, ← hprio]
    by_cases hp : sourceIsPriority o e.source = true
    · simp [hp, DispatcherPc.pendingD]
    · simp [hp]

theorem entriesConserved_step {input : o.Input} {s s' : State o} {a : Action o}
    (h : Transition s a s') (hq : QueuesWellFormed s) (hr : ReadersInOrder s)
    (hc : EntriesConserved input s) : EntriesConserved input s' := by
  cases h with
  | timeout f hpc | allDone hpc | notAllDone hpc | leave hpc =>
    refine hc.congr rfl rfl rfl ?_ (fun _ => rfl) ?_
    · simp [inFlight, hpc, DispatcherPc.held]
    · simp [hpc, DispatcherPc.pendingD]
  | readerPush p hp hfull =>
    exact hc.congr (upstream_readerPush hq hp hfull) rfl rfl rfl (fun _ => rfl) rfl
  | producersDone r hall =>
    exact hc.congr (upstream_producersDone s r) rfl rfl rfl (fun _ => rfl) rfl
  | parserPop r hpc hne =>
    exact hc.congr (upstream_parserPop hq hpc hne) rfl rfl rfl (fun _ => rfl) rfl
  | parserEnd r hpc hz hd =>
    have hsame := upstream_parser_same s r (.markers allLevels) (by rw [hpc]; rfl)
    exact hc.congr hsame rfl rfl rfl (fun _ => rfl) rfl
  | @parserPush r e hpc hfull =>
    have heof := (hr.held r e (by simp [hpc, ParserPc.held])).1
    refine ⟨?_, ?_, hc.popped, hc.priority⟩
    · rw [← hc.supply, ← upstream_parserPush hpc, ← Multiset.coe_add, add_assoc]
      exact congrArg _ (add_comm _ _)
    · have hrout := hc.routed
      simp only [inFlight, RingBuffer.toList_push hq.regionA hfull] at hrout ⊢
      rw [hrout]
      simp [heof]
  | @parserMarker r l rest hpc hfull =>
    have hsame := upstream_parser_same s r (.markers rest) (by rw [hpc]; rfl)
    refine hc.congr hsame rfl rfl ?_ (fun _ => rfl) rfl
    simp [inFlight, RingBuffer.toList_push hq.regionA hfull, eofEntry]
  | dispatcherPop hpc hne =>
    refine hc.congr rfl rfl rfl ?_ (fun _ => rfl) ?_
    · simp [inFlight, hpc, DispatcherPc.held, RingBuffer.toList_pop hq.regionA hne]
    · simp [hpc, DispatcherPc.pendingD]
  | @lastMarker e hpc heof hlast hpost =>
    refine hc.congr rfl rfl rfl ?_ (fun l => ?_) ?_
    · rw [inFlight, held_loopHead, inFlight, hpc]
      simp [DispatcherPc.held, heof]
    · exact congrArg _ (apply_update_of_eq (fun b => (RegionB.ring b).toList) (by rfl) l)
    · rw [pendingD_loopHead, hpc]
      rfl
  | marker hpc heof hlast =>
    refine hc.congr rfl rfl rfl ?_ (fun _ => rfl) ?_
    · rw [inFlight, held_loopHead, inFlight, hpc]
      simp [DispatcherPc.held, heof]
    · rw [pendingD_loopHead, hpc]
      rfl
  | route hpc heof hfull => exact entriesConserved_route hq hc hpc heof hfull
  | routePriority hpc hfull =>
    refine hc.congr rfl rfl rfl ?_ (fun _ => rfl) ?_
    · rw [inFlight, held_loopHead, inFlight, hpc]
      rfl
    · rw [pendingD_loopHead, hpc]
      simp [DispatcherPc.pendingD]
  | workerPop w hpc hne =>
    refine hc.congr rfl rfl rfl rfl (fun l => ?_) rfl
    by_cases hlw : l = w.1
    · subst hlw
      simp only [Function.update_self, RingBuffer.toList_pop (hq.regionB _) hne,
        List.append_assoc, List.singleton_append]
    · simp only [Function.update_of_ne hlw]
  | _ => exact hc.congr rfl rfl rfl rfl (fun _ => rfl) rfl

/-! ### The flow invariant of every reachable state -/

structure FlowInvariant (input : o.Input) (s : State o) : Prop where
  queues : QueuesWellFormed s
  readers : ReadersInOrder s
  markers : MarkersInOrder s
  entries : EntriesConserved input s

theorem flowInvariant_initial (input : o.Input) : FlowInvariant input (initial input) where
  queues := queuesWellFormed_initial input
  readers := readersInOrder_initial input
  markers := markersInOrder_initial input
  entries := entriesConserved_initial input

theorem flowInvariant_step {input : o.Input} {s s' : State o} {a : Action o}
    (h : Transition s a s') (hi : FlowInvariant input s) : FlowInvariant input s' where
  queues := queuesWellFormed_step h hi.queues
  readers := readersInOrder_step h hi.queues hi.readers
  markers := markersInOrder_step h hi.queues hi.readers hi.markers
  entries := entriesConserved_step h hi.queues hi.readers hi.entries

theorem flowInvariant_reachable {input : o.Input} {s : State o}
    (h : (machine input).Reachable s) : FlowInvariant input s :=
  h.invariant (flowInvariant_initial input)
    (fun _ _ _ _ hi hs => flowInvariant_step (step_transition hs) hi)

end SysProg.HW4

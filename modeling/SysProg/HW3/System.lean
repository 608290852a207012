import SysProg.HW3.SharedWord
import SysProg.HW3.Elevator

/-!
# The sorting building as a transition system

The processes of one run share the state below. An action runs one critical
section of one process, or one access that no lock protects. Sections of the
word, floor, request-table and global mutexes are single actions. The exception
is the sorter that completes a word: it keeps the mutex of the word while it
loads and stores `completed_words` and releases the floors, and `wordMutex` is
set in between. Waits with a timeout may end at any moment, so their semaphores
are left out. Signals are not delivered.

`reservedAt` is the arrival floor under which a carrier has reserved capacity
for a word and `admissions` counts how often a word has been admitted; no
process reads either.
-/

namespace SysProg.HW3
open SysProg.Lib SharedWord

abbrev maxWordCarriers : ℕ := 512
abbrev maxSorters : ℕ := 512

def isLowerEnglish (text : List Char) : Bool := text.all (fun c => 'a' ≤ c && c ≤ 'z')

/-- The options and the words that `parse_args` and `load_input` accept. -/
structure Config where
  numFloors : ℕ
  wordCarriersPerFloor : ℕ
  letterCarriersPerFloor : ℕ
  sortingProcessesPerFloor : ℕ
  maxWordsPerFloor : ℕ
  deliveryCapacity : ℕ
  repositionCapacity : ℕ
  words : List (List Char × Fin numFloors)
  numFloors_pos : 0 < numFloors
  numFloors_le : numFloors ≤ 32
  wordCarriers_pos : 0 < wordCarriersPerFloor
  letterCarriers_pos : 0 < letterCarriersPerFloor
  sorters_pos : 0 < sortingProcessesPerFloor
  maxWords_pos : 0 < maxWordsPerFloor
  delivery_pos : 0 < deliveryCapacity
  reposition_pos : 0 < repositionCapacity
  words_pos : 0 < words.length
  words_le : words.length ≤ 256
  words_valid : ∀ w ∈ words, 0 < w.1.length ∧ w.1.length < 64 ∧ isLowerEnglish w.1 = true

namespace Config

abbrev totalWords (cfg : Config) : ℕ := cfg.words.length
abbrev Floor (cfg : Config) := Fin cfg.numFloors
abbrev WordIndex (cfg : Config) := Fin cfg.totalWords
abbrev WordCarrier (cfg : Config) := cfg.Floor × Fin cfg.wordCarriersPerFloor
abbrev Sorter (cfg : Config) := cfg.Floor × Fin cfg.sortingProcessesPerFloor
abbrev Delivery (cfg : Config) := DeliveryRequest cfg.numFloors cfg.totalWords
abbrev Reposition (cfg : Config) := RepositionRequest cfg.numFloors

def wordAt (cfg : Config) (k : ℕ) : cfg.WordIndex :=
  ⟨k % cfg.totalWords, Nat.mod_lt _ cfg.words_pos⟩

def groundFloor (cfg : Config) : cfg.Floor := ⟨0, cfg.numFloors_pos⟩

def text (cfg : Config) (wi : cfg.WordIndex) : List Char := (cfg.words.get wi).1

def sortingFloor (cfg : Config) (wi : cfg.WordIndex) : cfg.Floor := (cfg.words.get wi).2

end Config
variable {cfg : Config}

inductive WordCarrierPc (cfg : Config) where
  | notStarted
  | head
  | scanning
  | holding (wi : cfg.WordIndex)
  | decided (wi : cfg.WordIndex) (ok : Bool)
  | exited
  deriving DecidableEq

/-- A carrier that fails with a full request table still has the character it held. -/
inductive LetterCarrierPc (cfg : Config) where
  | notStarted
  | head
  | scanning (floor : cfg.Floor) (pass : ℕ)
  | locking (floor : cfg.Floor) (pass : ℕ) (wi : cfg.WordIndex)
  | idle (floor : cfg.Floor)
  | requesting (floor : cfg.Floor)
  | repositionPost
  | holding (floor : cfg.Floor) (wi : cfg.WordIndex) (ci : ℕ)
  | deliveryPost
  | waiting
  | overflowed (held : Option (cfg.WordIndex × ℕ))
  | exited
  deriving DecidableEq

/-- `progress` tells whether the pass before the completion moved a character. -/
inductive SorterPc (cfg : Config) where
  | notStarted
  | head
  | scanning (off : ℕ)
  | trying (off : ℕ) (wi : cfg.WordIndex)
  | locked (off : ℕ) (wi : cfg.WordIndex)
  | counting (off : ℕ) (wi : cfg.WordIndex) (progress : Bool)
  | storing (off : ℕ) (wi : cfg.WordIndex) (progress : Bool) (loaded : ℕ)
  | releasing (off : ℕ) (wi : cfg.WordIndex) (progress : Bool)
  | exited
  deriving DecidableEq

/-- Where an elevator stands inside `move_carrier_between_floors`. -/
inductive MovePc (cfg : Config) where
  | start
  | leaving (old : cfg.Floor)
  | entering (old : cfg.Floor) (nowEmpty : Bool)
  | arriving (old : cfg.Floor) (nowEmpty : Bool)
  | rechecking (old : cfg.Floor)
  | done
  deriving DecidableEq

inductive ElevatorPc (cfg : Config) (ρ : Type) where
  | notStarted
  | head
  | waiting
  | woken
  | serving (batch : List ρ)
  | moving (req : ρ) (rest : List ρ) (pc : MovePc cfg)
  | exited
  deriving DecidableEq

inductive Job (cfg : Config) where
  | wordCarrier (c : cfg.WordCarrier)
  | letterCarrier (f : cfg.Floor)
  | sorter (x : cfg.Sorter)
  | deliveryElevator
  | repositionElevator
  deriving DecidableEq

/-- The forks of `main`, floor by floor. -/
def startJobs (cfg : Config) : List (Job cfg) :=
  (List.finRange cfg.numFloors).flatMap (fun f =>
    (List.finRange cfg.wordCarriersPerFloor).map (fun i => .wordCarrier (f, i)) ++
    List.replicate cfg.letterCarriersPerFloor (.letterCarrier f) ++
    (List.finRange cfg.sortingProcessesPerFloor).map (fun i => .sorter (f, i))) ++
  [.deliveryElevator, .repositionElevator]

inductive ParentPc (cfg : Config) where
  | starting (jobs : List (Job cfg))
  | loop
  | checking (f : ℕ)
  | deciding (f : cfg.Floor)
  | respawning (f : cfg.Floor) (left : ℕ)
  | stopping
  | waking (slot : ℕ)
  | posting (left : ℕ)
  | finalTest
  | succeeded
  | interrupted
  | failed
  deriving DecidableEq

structure State (cfg : Config) where
  completedWords : ℕ
  shutdown : Bool
  rrCursor : ℕ
  nextWordCarrierSlot : ℕ
  nextSorterSlot : ℕ
  nextCarrierSlot : Fin (maxCarriers + 1)
  deliveryDirection : ℤ
  deliveryFloor : cfg.Floor
  repositionDirection : ℤ
  repositionFloor : cfg.Floor
  respawnPending : cfg.Floor → Bool
  words : cfg.WordIndex → SharedWord cfg.numFloors
  wordMutex : cfg.WordIndex → Bool
  sorterLock : cfg.WordIndex → Bool
  activeWords : cfg.Floor → ℤ
  carrierCount : cfg.Floor → ℤ
  currentFloor : Fin maxCarriers → cfg.Floor
  eventSem : Fin maxCarriers → ℕ
  deliveryRequests : RequestTable cfg.Delivery
  repositionRequests : RequestTable cfg.Reposition
  deliveryItems : ℕ
  repositionItems : ℕ
  wordCarriers : cfg.WordCarrier → WordCarrierPc cfg
  letterCarriers : Fin maxCarriers → LetterCarrierPc cfg
  sorters : cfg.Sorter → SorterPc cfg
  deliveryElevator : ElevatorPc cfg cfg.Delivery
  repositionElevator : ElevatorPc cfg cfg.Reposition
  parent : ParentPc cfg
  reservedAt : cfg.WordIndex → Option cfg.Floor
  admissions : cfg.WordIndex → ℕ

def init (cfg : Config) : State cfg where
  completedWords := 0
  shutdown := false
  rrCursor := 0
  nextWordCarrierSlot := 0
  nextSorterSlot := 0
  nextCarrierSlot := 0
  deliveryDirection := 1
  deliveryFloor := cfg.groundFloor
  repositionDirection := 1
  repositionFloor := cfg.groundFloor
  respawnPending := fun _ => false
  words := fun wi => SharedWord.load (cfg.text wi) (cfg.sortingFloor wi) cfg.groundFloor
  wordMutex := fun _ => false
  sorterLock := fun _ => false
  activeWords := fun _ => 0
  carrierCount := fun _ => 0
  currentFloor := fun _ => cfg.groundFloor
  eventSem := fun _ => 0
  deliveryRequests := emptyTable
  repositionRequests := emptyTable
  deliveryItems := 0
  repositionItems := 0
  wordCarriers := fun _ => .notStarted
  letterCarriers := fun _ => .notStarted
  sorters := fun _ => .notStarted
  deliveryElevator := .notStarted
  repositionElevator := .notStarted
  parent := .starting (startJobs cfg)
  reservedAt := fun _ => none
  admissions := fun _ => 0

/-! ### Word carriers -/

def unclaimedWord (w : SharedWord cfg.numFloors) : Bool := !w.claimed && !w.admitted && !w.completed

/-- The round-robin scan under the global mutex. -/
def nextWord (s : State cfg) : Option cfg.WordIndex :=
  ((List.range cfg.totalWords).map (fun seen => cfg.wordAt (s.rrCursor + seen))).find?
    (fun wi => unclaimedWord (s.words wi))

def hasCapacity (s : State cfg) (af sf : cfg.Floor) : Bool :=
  decide (s.activeWords af < cfg.maxWordsPerFloor) &&
    (decide (af = sf) || decide (s.activeWords sf < cfg.maxWordsPerFloor))

/-- `active_words` changes by `d` on both floors, once where they are the same. -/
def addActive (active : cfg.Floor → ℤ) (af sf : cfg.Floor) (d : ℤ) : cfg.Floor → ℤ :=
  let one := Function.update active af (active af + d)
  if sf = af then one else Function.update one sf (one sf + d)

def wordCarrierStep (s : State cfg) (c : cfg.WordCarrier) : Option (State cfg) :=
  match s.wordCarriers c with
  | .notStarted => none
  | .head => some { s with
      wordCarriers := Function.update s.wordCarriers c (if s.shutdown then .exited else .scanning) }
  | .scanning =>
    match nextWord s with
    | some wi => some { s with
        words := Function.update s.words wi { s.words wi with claimed := true }
        rrCursor := (wi + 1) % cfg.totalWords
        wordCarriers := Function.update s.wordCarriers c (.holding wi) }
    | none => some { s with wordCarriers := Function.update s.wordCarriers c .head }
  | .holding wi =>
    let sf := (s.words wi).sortingFloor
    if hasCapacity s c.1 sf then some { s with
      activeWords := addActive s.activeWords c.1 sf 1
      wordCarriers := Function.update s.wordCarriers c (.decided wi true)
      reservedAt := Function.update s.reservedAt wi (some c.1) }
    else some { s with wordCarriers := Function.update s.wordCarriers c (.decided wi false) }
  | .decided wi ok =>
    if s.wordMutex wi then none
    else if ok then some { s with
      words := Function.update s.words wi
        { s.words wi with admitted := true, arrivalFloor := c.1, activeReservation := true }
      wordCarriers := Function.update s.wordCarriers c .head
      admissions := Function.update s.admissions wi (s.admissions wi + 1) }
    else some { s with
      words := Function.update s.words wi { s.words wi with claimed := false }
      wordCarriers := Function.update s.wordCarriers c .head }
  | .exited => none

/-! ### Letter carriers -/

def availableAt (w : SharedWord cfg.numFloors) (floor : cfg.Floor) : Bool :=
  w.admitted && !w.completed && decide (w.arrivalFloor = floor)

/-- The floor that a carrier without a task asks for. -/
def repositionTarget (floor : cfg.Floor) (draw : ℕ) : cfg.Floor :=
  let tf := draw % cfg.numFloors
  if tf = floor.val ∧ 1 < cfg.numFloors then
    ⟨(tf + 1) % cfg.numFloors, Nat.mod_lt _ cfg.numFloors_pos⟩
  else ⟨tf, Nat.mod_lt _ cfg.numFloors_pos⟩

/-- One action of a letter carrier; `rand` are the draws it makes. -/
def letterCarrierStep (s : State cfg) (k : Fin maxCarriers) (rand : ℕ → ℕ) : Option (State cfg) :=
  match s.letterCarriers k with
  | .notStarted => none
  | .head => some { s with
      letterCarriers := Function.update s.letterCarriers k
        (if s.shutdown then .exited else .scanning (s.currentFloor k) 0) }
  | .scanning floor pass =>
    if pass < cfg.totalWords then
      let wi := cfg.wordAt (pass + rand 0 % cfg.totalWords)
      some { s with
        letterCarriers := Function.update s.letterCarriers k
          (if availableAt (s.words wi) floor then .locking floor pass wi
            else .scanning floor (pass + 1)) }
    else some { s with letterCarriers := Function.update s.letterCarriers k (.idle floor) }
  | .locking floor pass wi =>
    if s.wordMutex wi then none
    else
      match (if availableAt (s.words wi) floor then (s.words wi).findChar rand else none) with
      | some ci => some { s with
          words := Function.update s.words wi ((s.words wi).claimChar ci)
          letterCarriers := Function.update s.letterCarriers k (.holding floor wi ci) }
      | none => some { s with
          letterCarriers := Function.update s.letterCarriers k (.scanning floor (pass + 1)) }
  | .idle floor => some { s with
      letterCarriers := Function.update s.letterCarriers k
        (if cfg.totalWords ≤ s.completedWords ∨ s.shutdown = true then .exited
          else .requesting floor) }
  | .requesting floor =>
    match insertRequest s.repositionRequests
        { carrierSlot := k, fromFloor := floor, toFloor := repositionTarget floor (rand 0) } with
    | some table => some { s with
        repositionRequests := table
        letterCarriers := Function.update s.letterCarriers k .repositionPost }
    | none =>
        some { s with letterCarriers := Function.update s.letterCarriers k (.overflowed none) }
  | .repositionPost => some { s with
      repositionItems := s.repositionItems + 1
      letterCarriers := Function.update s.letterCarriers k .waiting }
  | .holding floor wi ci =>
    let dest := (s.words wi).sortingFloor
    if dest = floor then
      if s.wordMutex wi then none
      else some { s with
        words := Function.update s.words wi ((s.words wi).deliverChar ci)
        letterCarriers := Function.update s.letterCarriers k .head }
    else
      match insertRequest s.deliveryRequests
          { carrierSlot := k, fromFloor := floor, toFloor := dest, wordIndex := wi, charIndex := ci,
            ch := (s.words wi).charAt ci } with
      | some table => some { s with
          deliveryRequests := table
          letterCarriers := Function.update s.letterCarriers k .deliveryPost }
      | none => some { s with
          letterCarriers := Function.update s.letterCarriers k (.overflowed (some (wi, ci))) }
  | .deliveryPost => some { s with
      deliveryItems := s.deliveryItems + 1
      letterCarriers := Function.update s.letterCarriers k .waiting }
  | .waiting =>
    if 0 < s.eventSem k then some { s with
      eventSem := Function.update s.eventSem k (s.eventSem k - 1)
      letterCarriers := Function.update s.letterCarriers k .head }
    else none
  | .overflowed _ => none
  | .exited => none

/-! ### Sorters -/

def sortable (w : SharedWord cfg.numFloors) (floor : cfg.Floor) : Bool :=
  w.admitted && !w.completed && decide (w.sortingFloor = floor)

def afterWord (off : ℕ) (progress : Bool) : SorterPc cfg :=
  if progress then .head else .scanning (off + 1)

def sorterStep (s : State cfg) (x : cfg.Sorter) (draw : ℕ) : Option (State cfg) :=
  match s.sorters x with
  | .notStarted => none
  | .head => some { s with
      sorters := Function.update s.sorters x (if s.shutdown then .exited else .scanning 0) }
  | .scanning off =>
    if off < cfg.totalWords then
      let wi := cfg.wordAt (off + draw % cfg.totalWords)
      some { s with
        sorters := Function.update s.sorters x
          (if sortable (s.words wi) x.1 then .trying off wi else .scanning (off + 1)) }
    else some { s with sorters := Function.update s.sorters x .head }
  | .trying off wi =>
    if s.sorterLock wi then
      some { s with sorters := Function.update s.sorters x (.scanning (off + 1)) }
    else some { s with
      sorterLock := Function.update s.sorterLock wi true
      sorters := Function.update s.sorters x (.locked off wi) }
  | .locked off wi =>
    if s.wordMutex wi then none
    else if sortable (s.words wi) x.1 then
      let p := (s.words wi).sortPass
      if p.1.allFixed && !p.1.completed then some { s with
        words := Function.update s.words wi { p.1 with completed := true }
        wordMutex := Function.update s.wordMutex wi true
        sorters := Function.update s.sorters x (.counting off wi p.2) }
      else some { s with
        words := Function.update s.words wi p.1
        sorterLock := Function.update s.sorterLock wi false
        sorters := Function.update s.sorters x (afterWord off p.2) }
    else some { s with
      sorterLock := Function.update s.sorterLock wi false
      sorters := Function.update s.sorters x (.scanning (off + 1)) }
  | .counting off wi progress => some { s with
      sorters := Function.update s.sorters x (.storing off wi progress s.completedWords) }
  | .storing off wi progress loaded => some { s with
      completedWords := loaded + 1
      sorters := Function.update s.sorters x (.releasing off wi progress) }
  | .releasing off wi progress =>
    let w := s.words wi
    let released := if w.activeReservation then { s with
        activeWords := addActive s.activeWords w.arrivalFloor w.sortingFloor (-1)
        words := Function.update s.words wi { w with activeReservation := false }
        reservedAt := Function.update s.reservedAt wi none }
      else s
    some { released with
      wordMutex := Function.update s.wordMutex wi false
      sorterLock := Function.update s.sorterLock wi false
      sorters := Function.update s.sorters x (afterWord off progress) }
  | .exited => none

/-! ### Elevators -/

/-- `move_carrier_between_floors`, one section at a time. -/
def moveCarrierBetweenFloors (s : State cfg) (slot : Fin maxCarriers) (toFloor : cfg.Floor) :
    MovePc cfg → State cfg × MovePc cfg
  | .start => (s, if s.currentFloor slot = toFloor then .done else .leaving (s.currentFloor slot))
  | .leaving old =>
    let count := s.carrierCount old - 1
    ({ s with carrierCount := Function.update s.carrierCount old count },
      .entering old (decide (count = 0)))
  | .entering old nowEmpty =>
    ({ s with
      carrierCount := Function.update s.carrierCount toFloor (s.carrierCount toFloor + 1)
      respawnPending := Function.update s.respawnPending toFloor false }, .arriving old nowEmpty)
  | .arriving old nowEmpty =>
    ({ s with currentFloor := Function.update s.currentFloor slot toFloor },
      if nowEmpty then .rechecking old else .done)
  | .rechecking old =>
    (if s.carrierCount old = 0 ∧ s.respawnPending old = false then
      { s with respawnPending := Function.update s.respawnPending old true } else s, .done)
  | .done => (s, .done)

def signalCarrierEvent (s : State cfg) (slot : Fin maxCarriers) : State cfg :=
  { s with eventSem := Function.update s.eventSem slot (s.eventSem slot + 1) }

def towards (floor fromFloor : cfg.Floor) (direction : ℤ) : ℤ :=
  if floor < fromFloor then 1 else if fromFloor < floor then -1 else direction

def deliveryElevatorStep (s : State cfg) : Option (State cfg) :=
  match s.deliveryElevator with
  | .notStarted => none
  | .head => some { s with deliveryElevator := if s.shutdown then .exited else .waiting }
  | .waiting =>
    if 0 < s.deliveryItems then
      some { s with deliveryItems := s.deliveryItems - 1, deliveryElevator := .woken }
    else none
  | .woken =>
    match collectDeliveryBatch s.deliveryRequests s.deliveryFloor s.deliveryDirection
        (min cfg.deliveryCapacity 64) with
    | none => some { s with deliveryElevator := .head }
    | some (table, batch, dir) =>
      let fromFloor := (batch.head?.map (·.fromFloor)).getD s.deliveryFloor
      some { s with
        deliveryRequests := table
        deliveryDirection := towards s.deliveryFloor fromFloor dir
        deliveryFloor := fromFloor
        deliveryElevator := .serving batch }
  | .serving [] => some { s with deliveryElevator := .head }
  | .serving (req :: rest) =>
    if s.wordMutex req.wordIndex then none
    else some { s with
      deliveryFloor := req.toFloor
      words := Function.update s.words req.wordIndex
        ((s.words req.wordIndex).deliverChar req.charIndex)
      deliveryElevator := .moving req rest .start }
  | .moving req rest .done =>
    some { signalCarrierEvent s req.carrierSlot with deliveryElevator := .serving rest }
  | .moving req rest pc =>
    let p := moveCarrierBetweenFloors s req.carrierSlot req.toFloor pc
    some { p.1 with deliveryElevator := .moving req rest p.2 }
  | .exited => none

def repositionElevatorStep (s : State cfg) : Option (State cfg) :=
  match s.repositionElevator with
  | .notStarted => none
  | .head => some { s with repositionElevator := if s.shutdown then .exited else .waiting }
  | .waiting =>
    if 0 < s.repositionItems then
      some { s with repositionItems := s.repositionItems - 1, repositionElevator := .woken }
    else none
  | .woken =>
    match collectRepositionBatch s.repositionRequests s.repositionFloor s.repositionDirection
        (min cfg.repositionCapacity 64) with
    | none => some { s with repositionElevator := .head }
    | some (table, batch, dir) => some { s with
        repositionRequests := table
        repositionDirection := dir
        repositionElevator := .serving batch }
  | .serving [] => some { s with repositionElevator := .head }
  | .serving (req :: rest) => some { s with
      repositionFloor := req.toFloor
      repositionElevator := .moving req rest .start }
  | .moving req rest .done =>
    some { signalCarrierEvent s req.carrierSlot with repositionElevator := .serving rest }
  | .moving req rest pc =>
    let p := moveCarrierBetweenFloors s req.carrierSlot req.toFloor pc
    some { p.1 with repositionElevator := .moving req rest p.2 }
  | .exited => none

/-! ### The parent -/

/-- `spawn_letter_carrier`; without a free slot the parent fails. -/
def spawnLetterCarrier (s : State cfg) (f : cfg.Floor) (next : ParentPc cfg) : State cfg :=
  if h : s.nextCarrierSlot.val < maxCarriers then
    let slot : Fin maxCarriers := ⟨s.nextCarrierSlot.val, h⟩
    { s with
      nextCarrierSlot := ⟨s.nextCarrierSlot.val + 1, by omega⟩
      currentFloor := Function.update s.currentFloor slot f
      carrierCount := Function.update s.carrierCount f (s.carrierCount f + 1)
      respawnPending := Function.update s.respawnPending f false
      letterCarriers := Function.update s.letterCarriers slot .head
      parent := next }
  else { s with parent := .failed }

def startJob (s : State cfg) (next : ParentPc cfg) : Job cfg → State cfg
  | .wordCarrier c =>
    if s.nextWordCarrierSlot < maxWordCarriers then { s with
      nextWordCarrierSlot := s.nextWordCarrierSlot + 1
      wordCarriers := Function.update s.wordCarriers c .head
      parent := next }
    else { s with parent := .failed }
  | .letterCarrier f => spawnLetterCarrier s f next
  | .sorter x =>
    if s.nextSorterSlot < maxSorters then { s with
      nextSorterSlot := s.nextSorterSlot + 1
      sorters := Function.update s.sorters x .head
      parent := next }
    else { s with parent := .failed }
  | .deliveryElevator => { s with deliveryElevator := .head, parent := next }
  | .repositionElevator => { s with repositionElevator := .head, parent := next }

def unfinished (s : State cfg) : Bool := !s.shutdown && decide (s.completedWords < cfg.totalWords)

def parentStep (s : State cfg) : Option (State cfg) :=
  match s.parent with
  | .starting [] => some { s with parent := .loop }
  | .starting (job :: jobs) => some (startJob s (.starting jobs) job)
  | .loop => some { s with parent := if unfinished s then .checking 0 else .stopping }
  | .checking f =>
    if h : f < cfg.numFloors then some { s with
      parent := if s.carrierCount ⟨f, h⟩ = 0 ∧ s.respawnPending ⟨f, h⟩ = true then .deciding ⟨f, h⟩
        else .checking (f + 1) }
    else some { s with parent := .loop }
  | .deciding f => some { s with
      parent := if unfinished s then .respawning f cfg.letterCarriersPerFloor
        else .checking (f + 1) }
  | .respawning f 0 => some { s with parent := .checking (f + 1) }
  | .respawning f (left + 1) => some (spawnLetterCarrier s f (.respawning f left))
  | .stopping => some { s with shutdown := true, parent := .waking 0 }
  | .waking slot =>
    if h : slot < s.nextCarrierSlot.val then
      some { signalCarrierEvent s ⟨slot, by omega⟩ with parent := .waking (slot + 1) }
    else some { s with parent := .posting 16 }
  | .posting 0 => some { s with parent := .finalTest }
  | .posting (left + 1) => some { s with
      deliveryItems := s.deliveryItems + 1
      repositionItems := s.repositionItems + 1
      parent := .posting left }
  | .finalTest => some { s with
      parent := if s.completedWords = cfg.totalWords then .succeeded else .interrupted }
  | .succeeded => none
  | .interrupted => none
  | .failed => none

inductive Action (cfg : Config) where
  | wordCarrier (c : cfg.WordCarrier)
  | letterCarrier (k : Fin maxCarriers) (rand : ℕ → ℕ)
  | sorter (x : cfg.Sorter) (draw : ℕ)
  | deliveryElevator
  | repositionElevator
  | parent

def step (s : State cfg) : Action cfg → Option (State cfg)
  | .wordCarrier c => wordCarrierStep s c
  | .letterCarrier k rand => letterCarrierStep s k rand
  | .sorter x draw => sorterStep s x draw
  | .deliveryElevator => deliveryElevatorStep s
  | .repositionElevator => repositionElevatorStep s
  | .parent => parentStep s

def building (cfg : Config) : Machine (State cfg) (Action cfg) where
  init := init cfg
  step := step

def oneFloor (words : List (List Char × Fin 1)) (words_pos : 0 < words.length)
    (words_le : words.length ≤ 256)
    (words_valid : ∀ w ∈ words, 0 < w.1.length ∧ w.1.length < 64 ∧ isLowerEnglish w.1 = true) :
    Config where
  numFloors := 1
  wordCarriersPerFloor := 1
  letterCarriersPerFloor := 1
  sortingProcessesPerFloor := 2
  maxWordsPerFloor := 2
  deliveryCapacity := 1
  repositionCapacity := 1
  words := words
  numFloors_pos := Nat.one_pos
  numFloors_le := by decide
  wordCarriers_pos := Nat.one_pos
  letterCarriers_pos := Nat.one_pos
  sorters_pos := Nat.two_pos
  maxWords_pos := Nat.two_pos
  delivery_pos := Nat.one_pos
  reposition_pos := Nat.one_pos
  words_pos := words_pos
  words_le := words_le
  words_valid := words_valid

def oneWord : Config :=
  oneFloor [(['a', 'b'], ⟨0, Nat.one_pos⟩)] (by decide) (by decide) (by decide)

def firstSlot : Fin maxCarriers := ⟨0, by decide⟩

def firstWordCarrier (cfg : Config) : cfg.WordCarrier :=
  (cfg.groundFloor, ⟨0, cfg.wordCarriers_pos⟩)

end SysProg.HW3

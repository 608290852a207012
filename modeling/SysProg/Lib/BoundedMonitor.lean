import SysProg.Lib.Execution

/-!
# Wake-ups at a bounded buffer

A bounded buffer behind one mutex with two condition variables. Any number of
producers wait while it is full and any number of consumers while it is empty;
every item announces itself with one signal, every free cell with another. A
signal wakes one waiter if there is one, waiters may also wake on their own or
time out, and a thread that woke takes the mutex at some later time, possibly
after others. Each stretch under the mutex is one step, except that raising the
end flag and its broadcast are two.
-/

open scoped BigOperators
namespace SysProg.Lib

inductive Timeout where
  | untimed
  | leaves
  | tests
  deriving DecidableEq

/-- The operations of a bounded buffer. `push` and `pop` have no result while the caller
has to wait; `pop` returns no item at the end; `close` raises the end flag if there is one. -/
structure BoundedBuffer (β ε : Type) where
  count : β → ℕ
  capacity : β → ℕ
  ended : β → Bool
  push : β → ε → Option β
  pop : β → Option (Option ε × β)
  close : β → Option β
  timeout : Timeout

structure BoundedBuffer.Lawful {β ε : Type} (B : BoundedBuffer β ε) : Prop where
  push_waits : ∀ {b : β} {e : ε}, B.push b e = none → B.count b = B.capacity b
  push_adds : ∀ {b b' : β} {e : ε}, B.push b e = some b' →
    B.count b' = B.count b + 1 ∧ B.capacity b' = B.capacity b ∧ B.ended b' = B.ended b
  pop_waits : ∀ {b : β}, B.pop b = none → B.count b = 0 ∧ B.ended b = false
  pop_takes : ∀ {b b' : β} {e : ε}, B.pop b = some (some e, b') →
    B.count b = B.count b' + 1 ∧ B.capacity b' = B.capacity b ∧ B.ended b' = B.ended b
  pop_ends : ∀ {b b' : β}, B.pop b = some (none, b') → B.count b = 0 ∧ b' = b
  close_flags : ∀ {b b' : β}, B.close b = some b' →
    B.count b' = B.count b ∧ B.capacity b' = B.capacity b

/-- A thread outside the buffer, asleep on its condition variable, woken and about to
test again, or timed out, each with what it carries. -/
inductive WaitPhase (ε : Type) where
  | outside
  | waiting (x : ε)
  | woken (x : ε)
  | timedOut (x : ε)
  deriving DecidableEq

namespace WaitPhase
variable {ε : Type}

def isWaiting : WaitPhase ε → Bool
  | .waiting _ => true
  | _ => false

def isWoken : WaitPhase ε → Bool
  | .woken _ => true
  | _ => false

def wake : WaitPhase ε → WaitPhase ε
  | .waiting x => .woken x
  | phase => phase

end WaitPhase

section Families
variable {ι ε : Type} [Fintype ι] [DecidableEq ι]

/-- `pthread_cond_signal`: one waiter wakes, or nobody waits. -/
def signal (f : ι → WaitPhase ε) : Option ι → Option (ι → WaitPhase ε)
  | none => if ∀ i, (f i).isWaiting = false then some f else none
  | some i => if (f i).isWaiting then some (Function.update f i (f i).wake) else none

def wokenCount (f : ι → WaitPhase ε) : ℕ := ∑ i, (f i).isWoken.toNat

/-- As long as somebody sleeps, at least `n` others have been woken. -/
def Served (f : ι → WaitPhase ε) (n : ℕ) : Prop :=
  (∃ i, (f i).isWaiting = true) → n ≤ wokenCount f

theorem wokenCount_update (f : ι → WaitPhase ε) (i : ι) (x : WaitPhase ε) :
    wokenCount (Function.update f i x) + (f i).isWoken.toNat = wokenCount f + x.isWoken.toNat :=
  sum_update_add (fun _ phase => phase.isWoken.toNat) f i x

omit [Fintype ι] in
theorem waiting_of_update {f : ι → WaitPhase ε} {i : ι} {x : WaitPhase ε}
    (hx : x.isWaiting = false) (h : ∃ j, (Function.update f i x j).isWaiting = true) :
    ∃ j, (f j).isWaiting = true := by
  obtain ⟨j, hj⟩ := h
  refine ⟨j, ?_⟩
  by_cases hji : j = i
  · subst hji
    rw [Function.update_self, hx] at hj
    cases hj
  · rwa [Function.update_of_ne hji] at hj

omit [DecidableEq ι] in
theorem Served.zero (f : ι → WaitPhase ε) : Served f 0 := fun _ => Nat.zero_le _

omit [DecidableEq ι] in
theorem Served.mono {f : ι → WaitPhase ε} {n n' : ℕ} (h : Served f n) (hn : n' ≤ n) :
    Served f n' := fun hw => hn.trans (h hw)

/-- A thread leaves its wait or its test; a woken one takes its share with it. -/
theorem Served.update {f : ι → WaitPhase ε} {n n' : ℕ} (h : Served f n) {i : ι} {x : WaitPhase ε}
    (hx : x.isWaiting = false) (hn : n' + (f i).isWoken.toNat ≤ n + x.isWoken.toNat) :
    Served (Function.update f i x) n' := by
  intro hw
  have hserved := h (waiting_of_update hx hw)
  have hcount := wokenCount_update f i x
  omega

theorem Served.leave {f : ι → WaitPhase ε} {n n' : ℕ} (h : Served f n) {i : ι} (hn : n' + 1 ≤ n) :
    Served (Function.update f i .outside) n' := by
  have hone : (f i).isWoken.toNat ≤ 1 := Bool.toNat_le _
  exact h.update rfl ((Nat.add_le_add_left hone n').trans hn)

theorem signal_spec {f f' : ι → WaitPhase ε} {target : Option ι} (h : signal f target = some f') :
    ((∀ i, (f i).isWaiting = false) ∧ f' = f) ∨
      ∃ i x, f i = .waiting x ∧ f' = Function.update f i (.woken x) := by
  cases target with
  | none =>
    simp only [signal, Option.ite_none_right_eq_some, Option.some.injEq] at h
    exact .inl ⟨h.1, h.2.symm⟩
  | some i =>
    simp only [signal, Option.ite_none_right_eq_some, Option.some.injEq] at h
    obtain ⟨hw, rfl⟩ := h
    refine .inr ?_
    cases hi : f i with
    | waiting x => exact ⟨i, x, hi, by rw [WaitPhase.wake]⟩
    | outside | woken | timedOut => simp [hi, WaitPhase.isWaiting] at hw

theorem Served.signal {f f' : ι → WaitPhase ε} {n : ℕ} {target : Option ι} (h : Served f n)
    (hs : signal f target = some f') : Served f' (n + 1) := by
  rcases signal_spec hs with ⟨hnone, rfl⟩ | ⟨i, x, hi, rfl⟩
  · rintro ⟨i, hw⟩
    rw [hnone i] at hw
    cases hw
  · refine h.update rfl ?_
    simp [hi, WaitPhase.isWoken]

theorem waiting_of_signal {f f' : ι → WaitPhase ε} {target : Option ι}
    (hs : signal f target = some f') (h : ∃ j, (f' j).isWaiting = true) :
    ∃ j, (f j).isWaiting = true := by
  rcases signal_spec hs with ⟨-, rfl⟩ | ⟨i, x, -, rfl⟩
  · exact h
  · exact waiting_of_update rfl h

end Families

/-! ### The monitor -/

structure MonitorState (β ε C P : Type) where
  buffer : β
  /-- The end flag is up and its broadcast is still to come, under the mutex. -/
  closing : Bool
  consumers : C → WaitPhase Unit
  producers : P → WaitPhase ε

inductive MonitorAction (ε C P : Type) where
  | produce (p : P) (e : ε) (target : Option C)
  | consume (c : C) (target : Option P)
  | consumerWakes (c : C)
  | producerWakes (p : P)
  | timeout (c : C)
  | afterTimeout (c : C) (target : Option P)
  | setEnd
  | broadcast

section Monitor
variable {β ε C P : Type} [Fintype C] [DecidableEq C] [Fintype P] [DecidableEq P]
  (B : BoundedBuffer β ε)

def testPush (s : MonitorState β ε C P) (p : P) (e : ε) (target : Option C) :
    Option (MonitorState β ε C P) :=
  match B.push s.buffer e with
  | none => some { s with producers := Function.update s.producers p (.waiting e) }
  | some b => (signal s.consumers target).map (fun consumers =>
      { s with
        buffer := b
        consumers := consumers
        producers := Function.update s.producers p .outside })

/-- The consumer's stretch under the mutex; `otherwise` is where an empty buffer leaves it. -/
def testPop (s : MonitorState β ε C P) (c : C) (otherwise : WaitPhase Unit) (target : Option P) :
    Option (MonitorState β ε C P) :=
  match B.pop s.buffer with
  | none => some { s with consumers := Function.update s.consumers c otherwise }
  | some (none, b) =>
    some { s with buffer := b, consumers := Function.update s.consumers c .outside }
  | some (some _, b) => (signal s.producers target).map (fun producers =>
      { s with
        buffer := b
        consumers := Function.update s.consumers c .outside
        producers := producers })

def monitorStep (s : MonitorState β ε C P) :
    MonitorAction ε C P → Option (MonitorState β ε C P)
  | .produce p e target =>
    if s.closing then none
    else match s.producers p with
      | .outside => testPush B s p e target
      | .woken e' => testPush B s p e' target
      | _ => none
  | .consume c target =>
    if s.closing then none
    else match s.consumers c with
      | .outside | .woken _ => testPop B s c (.waiting ()) target
      | _ => none
  | .consumerWakes c =>
    match s.consumers c with
    | .waiting x => some { s with consumers := Function.update s.consumers c (.woken x) }
    | _ => none
  | .producerWakes p =>
    match s.producers p with
    | .waiting e => some { s with producers := Function.update s.producers p (.woken e) }
    | _ => none
  | .timeout c =>
    match s.consumers c with
    | .waiting x =>
      if B.timeout = .untimed then none
      else some { s with consumers := Function.update s.consumers c (.timedOut x) }
    | _ => none
  | .afterTimeout c target =>
    if s.closing then none
    else match s.consumers c with
      | .timedOut _ =>
        if B.timeout = .leaves then
          some { s with consumers := Function.update s.consumers c .outside }
        else testPop B s c .outside target
      | _ => none
  | .setEnd =>
    if s.closing then none
    else (B.close s.buffer).map (fun b => { s with buffer := b, closing := true })
  | .broadcast =>
    if s.closing then
      some { s with closing := false, consumers := fun c => (s.consumers c).wake }
    else none

def monitor (C P : Type) [Fintype C] [DecidableEq C] [Fintype P] [DecidableEq P] (b : β) :
    Machine (MonitorState β ε C P) (MonitorAction ε C P) where
  init := ⟨b, false, fun _ => .outside, fun _ => .outside⟩
  step := monitorStep B

/-- Nobody sleeps while the buffer has something for them that no woken thread will take. -/
structure Attended (s : MonitorState β ε C P) : Prop where
  consumers : Served s.consumers (B.count s.buffer)
  flag : (∃ c, (s.consumers c).isWaiting = true) →
    B.ended s.buffer = false ∨ s.closing = true
  producers : Served s.producers (B.capacity s.buffer - B.count s.buffer)

variable {B}

theorem attended_testPush (hB : B.Lawful) {s s' : MonitorState β ε C P} {p : P} {e : ε}
    {target : Option C} (h : Attended B s) (hs : testPush B s p e target = some s') :
    Attended B s' := by
  unfold testPush at hs
  split at hs
  case h_1 hfull =>
    cases hs
    refine ⟨h.consumers, h.flag, ?_⟩
    have hcount := hB.push_waits hfull
    simp only [hcount, Nat.sub_self]
    exact .zero _
  case h_2 b hpush =>
    obtain ⟨consumers, hsignal, rfl⟩ := Option.map_eq_some_iff.mp hs
    obtain ⟨hcount, hcap, hended⟩ := hB.push_adds hpush
    refine ⟨?_, ?_, ?_⟩
    · rw [hcount]
      exact h.consumers.signal hsignal
    · intro hw
      rw [hended]
      exact h.flag (waiting_of_signal hsignal hw)
    · simp only [hcount, hcap]
      by_cases hroom : B.capacity s.buffer ≤ B.count s.buffer + 1
      · rw [Nat.sub_eq_zero_of_le hroom]
        exact .zero _
      · exact h.producers.leave (by omega)

theorem attended_testPop (hB : B.Lawful) {s s' : MonitorState β ε C P} {c : C}
    {otherwise : WaitPhase Unit} {target : Option P} (h : Attended B s)
    (hs : testPop B s c otherwise target = some s') : Attended B s' := by
  unfold testPop at hs
  split at hs
  case h_1 hempty =>
    cases hs
    obtain ⟨hcount, hended⟩ := hB.pop_waits hempty
    refine ⟨?_, fun _ => .inl hended, h.producers⟩
    simp only [hcount]
    exact .zero _
  case h_2 b hend =>
    cases hs
    obtain ⟨hcount, rfl⟩ := hB.pop_ends hend
    refine ⟨?_, fun hw => h.flag (waiting_of_update rfl hw), h.producers⟩
    simp only [hcount]
    exact .zero _
  case h_3 e b hpop =>
    obtain ⟨producers, hsignal, rfl⟩ := Option.map_eq_some_iff.mp hs
    obtain ⟨hcount, hcap, hended⟩ := hB.pop_takes hpop
    refine ⟨?_, ?_, ?_⟩
    · exact h.consumers.leave hcount.ge
    · intro hw
      simp only [hended]
      exact h.flag (waiting_of_update rfl hw)
    · refine (h.producers.signal hsignal).mono ?_
      simp only [hcap]
      omega

theorem attended_step (hB : B.Lawful) {s s' : MonitorState β ε C P} {a : MonitorAction ε C P}
    (h : Attended B s) (hs : monitorStep B s a = some s') : Attended B s' := by
  cases a with
  | produce p e target =>
    simp only [monitorStep, Option.ite_none_left_eq_some] at hs
    obtain ⟨-, hs⟩ := hs
    split at hs
    · exact attended_testPush hB h hs
    · exact attended_testPush hB h hs
    · cases hs
  | consume c target =>
    simp only [monitorStep, Option.ite_none_left_eq_some] at hs
    obtain ⟨-, hs⟩ := hs
    split at hs
    · exact attended_testPop hB h hs
    · exact attended_testPop hB h hs
    · cases hs
  | consumerWakes c =>
    simp only [monitorStep] at hs
    split at hs
    · cases hs
      refine ⟨h.consumers.update rfl ?_, fun hw => h.flag (waiting_of_update rfl hw), h.producers⟩
      simp [*, WaitPhase.isWoken]
    · cases hs
  | producerWakes p =>
    simp only [monitorStep] at hs
    split at hs
    · cases hs
      refine ⟨h.consumers, h.flag, h.producers.update rfl ?_⟩
      simp [*, WaitPhase.isWoken]
    · cases hs
  | timeout c =>
    simp only [monitorStep] at hs
    split at hs
    · simp only [Option.ite_none_left_eq_some, Option.some.injEq] at hs
      obtain ⟨-, rfl⟩ := hs
      refine ⟨h.consumers.update rfl ?_, fun hw => h.flag (waiting_of_update rfl hw), h.producers⟩
      simp [*, WaitPhase.isWoken]
    · cases hs
  | afterTimeout c target =>
    simp only [monitorStep, Option.ite_none_left_eq_some] at hs
    obtain ⟨-, hs⟩ := hs
    split at hs
    · split at hs
      · cases hs
        refine ⟨h.consumers.update rfl ?_, fun hw => h.flag (waiting_of_update rfl hw),
          h.producers⟩
        simp [*, WaitPhase.isWoken]
      · exact attended_testPop hB h hs
    · cases hs
  | setEnd =>
    simp only [monitorStep, Option.ite_none_left_eq_some] at hs
    obtain ⟨-, hs⟩ := hs
    obtain ⟨b, hclose, rfl⟩ := Option.map_eq_some_iff.mp hs
    obtain ⟨hcount, hcap⟩ := hB.close_flags hclose
    refine ⟨?_, fun _ => .inr rfl, ?_⟩
    · simp only [hcount]
      exact h.consumers
    · simp only [hcount, hcap]
      exact h.producers
  | broadcast =>
    simp only [monitorStep, Option.ite_none_right_eq_some, Option.some.injEq] at hs
    obtain ⟨-, rfl⟩ := hs
    have hnobody : ¬ ∃ c, ((s.consumers c).wake).isWaiting = true := by
      rintro ⟨c, hw⟩
      cases hc : s.consumers c <;> simp [hc, WaitPhase.wake, WaitPhase.isWaiting] at hw
    exact ⟨fun hw => absurd hw hnobody, fun hw => absurd hw hnobody, h.producers⟩

theorem attended_of_reachable (hB : B.Lawful) {b : β} {s : MonitorState β ε C P}
    (h : (monitor B C P b).Reachable s) : Attended B s := by
  refine h.invariant ?_ (fun s a s' _ hprior hs => attended_step hB hprior hs)
  refine ⟨?_, ?_, ?_⟩
  all_goals
    rintro ⟨i, hw⟩
    cases hw

end Monitor
end SysProg.Lib

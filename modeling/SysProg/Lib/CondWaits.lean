import SysProg.Lib.BoundedMonitor

/-!
# Threads that sleep on condition variables

Any number of threads and of condition variables. A thread stands in the wait
loop of at most one variable, asleep or about to test; it tests for a unit of
the variable's resource or for its flag. A step moves one awake thread and gives
one notice. If a step never adds more units than it signals and raises a flag
only with a broadcast, nobody is asleep while there is something for him that no
awake thread will find, whichever waiter each signal wakes.
-/

namespace SysProg.Lib
variable {T C : Type}

inductive Notice (C : Type) where
  | silent
  | signal (c : C)
  | broadcast (c : C)
  deriving DecidableEq

structure WaitView (T C : Type) where
  asleep : T → Bool
  waitsOn : T → Option C
  resource : C → ℕ
  flagged : C → Bool

namespace WaitView
variable (v : WaitView T C)

def Sleeps (c : C) (t : T) : Prop := v.asleep t = true ∧ v.waitsOn t = some c

/-- Whom the signals wake: somebody who sleeps on the variable, if there is one. -/
structure Picks (pick : C → Option T) : Prop where
  sleeps : ∀ {c t}, pick c = some t → v.Sleeps c t
  nobody : ∀ {c}, pick c = none → ∀ t, ¬ v.Sleeps c t

variable [DecidableEq C]

def notified [DecidableEq T] (pick : C → Option T) : Notice C → T → Bool
  | .silent => v.asleep
  | .signal c =>
    match pick c with
    | none => v.asleep
    | some t => Function.update v.asleep t false
  | .broadcast c => fun t => v.asleep t && !decide (v.waitsOn t = some c)

def phase (c : C) (t : T) : WaitPhase Unit :=
  if v.waitsOn t = some c then
    if v.asleep t then .waiting () else .woken ()
  else .outside

def credit (n : Notice C) (c : C) : ℕ := if n = .signal c then 1 else 0

def share (c : C) (t : T) : ℕ := if v.waitsOn t = some c then 1 else 0

variable {v}

theorem isWaiting_phase {c : C} {t : T} : (v.phase c t).isWaiting = true ↔ v.Sleeps c t := by
  unfold phase Sleeps
  split_ifs <;> simp_all [WaitPhase.isWaiting]

theorem isWoken_phase {c : C} {t : T} (h : v.asleep t = false) :
    (v.phase c t).isWoken.toNat = v.share c t := by
  unfold phase share
  split_ifs <;> simp_all [WaitPhase.isWoken]

theorem isWaiting_phase_of_awake {c : C} {t : T} (h : v.asleep t = false) :
    (v.phase c t).isWaiting = false := by
  rw [Bool.eq_false_iff]
  intro hw
  rw [(isWaiting_phase.mp hw).1] at h
  cases h

theorem asleep_of_notified [DecidableEq T] {pick : C → Option T} {n : Notice C} {t : T}
    (h : v.notified pick n t = true) : v.asleep t = true := by
  cases n with
  | silent => exact h
  | signal c =>
    cases hu : pick c with
    | none => simpa only [notified, hu] using h
    | some u =>
      simp only [notified, hu] at h
      by_cases ht : t = u
      · simp [ht] at h
      · rwa [Function.update_of_ne ht] at h
  | broadcast c =>
    simp only [notified, Bool.and_eq_true] at h
    exact h.1

variable [Fintype T]

structure Heard (v : WaitView T C) : Prop where
  placed : ∀ t, v.asleep t = true → v.waitsOn t ≠ none
  served : ∀ c, Served (v.phase c) (v.resource c)
  unflagged : ∀ c t, v.Sleeps c t → v.flagged c = false

/-- Where a sleeper would find something, somebody is awake to find it. -/
theorem Heard.awake (h : Heard v) {c : C} {t : T} (ht : v.Sleeps c t)
    (hfound : v.resource c ≠ 0 ∨ v.flagged c = true) :
    v.resource c ≠ 0 ∧ ∃ u, v.asleep u = false ∧ v.waitsOn u = some c := by
  have hres : v.resource c ≠ 0 := by
    rcases hfound with hres | hflag
    · exact hres
    · rw [h.unflagged c t ht] at hflag
      cases hflag
  refine ⟨hres, ?_⟩
  have hserved := h.served c ⟨t, isWaiting_phase.mpr ht⟩
  have hpos : wokenCount (v.phase c) ≠ 0 := by omega
  obtain ⟨u, -, hu⟩ := Finset.exists_ne_zero_of_sum_ne_zero hpos
  refine ⟨u, ?_⟩
  by_cases hc : v.waitsOn u = some c
  · cases hs : v.asleep u with
    | true => simp [phase, hc, hs, WaitPhase.isWoken] at hu
    | false => exact ⟨rfl, hc⟩
  · simp [phase, hc, WaitPhase.isWoken] at hu

variable [DecidableEq T]

/-! ### A thread falls asleep or wakes on its own -/

theorem Heard.sleep (h : Heard v) {c : C} {t : T} (hc : v.waitsOn t = some c)
    (hres : v.resource c = 0) (hflag : v.flagged c = false) :
    Heard { v with asleep := Function.update v.asleep t true } := by
  have hother : ∀ d, d ≠ c → WaitView.phase { v with asleep := Function.update v.asleep t true } d =
      v.phase d := by
    intro d hd
    funext u
    by_cases hu : u = t
    · subst hu
      simp [phase, hc, hd.symm]
    · simp [phase, Function.update_of_ne hu]
  refine ⟨?_, ?_, ?_⟩
  · intro u hu
    by_cases hut : u = t
    · rw [hut, hc]
      exact Option.some_ne_none c
    · exact h.placed u (by simpa [Function.update_of_ne hut] using hu)
  · intro d
    by_cases hd : d = c
    · rw [hd, hres]
      exact .zero _
    · rw [hother d hd]
      exact h.served d
  · rintro d u ⟨hs, hd⟩
    by_cases hut : u = t
    · rw [hut, hc] at hd
      rwa [← Option.some.inj hd]
    · exact h.unflagged d u ⟨by simpa [Function.update_of_ne hut] using hs, hd⟩

theorem Heard.wakes {v' : WaitView T C} (h : Heard v) {t : T} (ht : v.asleep t = true)
    (hasleep : v'.asleep = Function.update v.asleep t false)
    (hwaits : ∀ u, u ≠ t → v'.waitsOn u = v.waitsOn u) (hres : v'.resource = v.resource)
    (hflag : v'.flagged = v.flagged) : Heard v' := by
  have hsame : ∀ c u, v'.Sleeps c u → v.Sleeps c u := by
    rintro c u ⟨hs, hc⟩
    have hu : u ≠ t := by
      rintro rfl
      simp [hasleep] at hs
    rw [hasleep, Function.update_of_ne hu] at hs
    rw [hwaits u hu] at hc
    exact ⟨hs, hc⟩
  refine ⟨?_, ?_, ?_⟩
  · intro u hu
    have hne : u ≠ t := by
      rintro rfl
      simp [hasleep] at hu
    rw [hwaits u hne]
    rw [hasleep, Function.update_of_ne hne] at hu
    exact h.placed u hu
  · intro c
    have hphase : v'.phase c = Function.update (v.phase c) t (v'.phase c t) := by
      funext u
      by_cases hu : u = t
      · rw [hu, Function.update_self]
      · simp [phase, hasleep, hwaits u hu, Function.update_of_ne hu]
    have hawake : (v'.phase c t).isWaiting = false :=
      isWaiting_phase_of_awake (by rw [hasleep, Function.update_self])
    have hold : (v.phase c t).isWoken.toNat = 0 := by
      simp only [phase, ht]
      split_ifs <;> rfl
    rw [hphase, hres]
    exact (h.served c).update hawake (by omega)
  · intro c u hs
    rw [hflag]
    exact h.unflagged c u (hsame c u hs)

/-! ### A thread moves on -/

/-- An awake thread has moved, and the notice is still to be given. -/
structure Moves (t : T) (n : Notice C) (v v' : WaitView T C) : Prop where
  asleep : v'.asleep = v.asleep
  others : ∀ u, u ≠ t → v'.waitsOn u = v.waitsOn u
  resource : ∀ c, v'.resource c = 0 ∨
    v'.resource c + v.share c t ≤ v.resource c + v'.share c t + credit n c
  flagged : ∀ c, (∃ u, u ≠ t ∧ v.waitsOn u = some c) → v'.flagged c = true →
    v.flagged c = true ∨ n = .broadcast c

theorem Moves.served {v' : WaitView T C} {t : T} {n : Notice C} (hm : Moves t n v v') (h : Heard v)
    (ht : v.asleep t = false) (c : C) : Served (v'.phase c) (v'.resource c - credit n c) := by
  have hphase : v'.phase c = Function.update (v.phase c) t (v'.phase c t) := by
    funext u
    by_cases hu : u = t
    · rw [hu, Function.update_self]
    · simp [phase, hm.asleep, hm.others u hu, Function.update_of_ne hu]
  have ht' : v'.asleep t = false := by rw [hm.asleep, ht]
  have hawake : (v'.phase c t).isWaiting = false := isWaiting_phase_of_awake ht'
  have hold := isWoken_phase (v := v) (c := c) ht
  have hnew := isWoken_phase (v := v') (c := c) ht'
  rcases hm.resource c with hzero | hle
  · rw [hzero, Nat.zero_sub]
    exact .zero _
  · rw [hphase]
    by_cases hcredit : credit n c ≤ v'.resource c
    · exact (h.served c).update hawake (by omega)
    · rw [Nat.sub_eq_zero_of_le (by omega)]
      exact .zero _

theorem served_notified {v' : WaitView T C} {pick : C → Option T} (hpick : v'.Picks pick)
    (n : Notice C) {c : C} {k : ℕ} (h : Served (v'.phase c) (k - credit n c)) :
    Served (WaitView.phase { v' with asleep := v'.notified pick n } c) k := by
  cases n with
  | silent => exact h
  | signal d =>
    cases hd : pick d with
    | none =>
      have hsame : WaitView.phase { v' with asleep := v'.notified pick (.signal d) } c =
          v'.phase c := by
        funext u
        simp [phase, notified, hd]
      rw [hsame]
      by_cases hcd : c = d
      · rintro ⟨u, hu⟩
        rw [hcd] at hu
        exact absurd (isWaiting_phase.mp hu) (hpick.nobody hd u)
      · simpa [credit, Ne.symm hcd] using h
    | some t =>
      obtain ⟨hs, hw⟩ := hpick.sleeps hd
      by_cases hcd : c = d
      · subst hcd
        have hwoken : WaitView.phase { v' with asleep := v'.notified pick (.signal c) } c =
            Function.update (v'.phase c) t (.woken ()) := by
          funext u
          by_cases hu : u = t
          · simp [phase, notified, hd, hu, hw]
          · simp [phase, notified, hd, Function.update_of_ne hu]
        have hold : (v'.phase c t).isWoken.toNat = 0 := by simp [phase, hs, hw, WaitPhase.isWoken]
        have hone : (WaitPhase.woken ()).isWoken.toNat = 1 := rfl
        rw [hwoken]
        refine h.update rfl ?_
        simp only [credit, if_true] at h ⊢
        omega
      · have hsame : WaitView.phase { v' with asleep := v'.notified pick (.signal d) } c =
            v'.phase c := by
          funext u
          by_cases hu : u = t
          · simp [phase, hu, hw, Ne.symm hcd]
          · simp [phase, notified, hd, Function.update_of_ne hu]
        rw [hsame]
        simpa [credit, Ne.symm hcd] using h
  | broadcast d =>
    simp only [credit, reduceCtorEq, if_false, Nat.sub_zero] at h
    by_cases hcd : c = d
    · rintro ⟨u, hu⟩
      obtain ⟨hs, hw⟩ := isWaiting_phase.mp hu
      simp only [notified, Bool.and_eq_true, Bool.not_eq_true', decide_eq_false_iff_not] at hs
      exact absurd (hcd ▸ hw) hs.2
    · have hsame : WaitView.phase { v' with asleep := v'.notified pick (.broadcast d) } c =
          v'.phase c := by
        funext u
        by_cases hu : v'.waitsOn u = some c
        · simp [phase, notified, hu, hcd]
        · simp [phase, hu]
      rw [hsame]
      exact h

theorem Heard.moves {v' : WaitView T C} {t : T} {n : Notice C} {pick : C → Option T}
    (h : Heard v) (ht : v.asleep t = false) (hm : Moves t n v v') (hpick : v'.Picks pick) :
    Heard { v' with asleep := v'.notified pick n } := by
  have hother : ∀ u, v'.notified pick n u = true → u ≠ t ∧ v.asleep u = true := by
    intro u hu
    have hs := asleep_of_notified hu
    rw [hm.asleep] at hs
    refine ⟨?_, hs⟩
    rintro rfl
    rw [ht] at hs
    cases hs
  refine ⟨?_, ?_, ?_⟩
  · intro u hu
    obtain ⟨hut, hs⟩ := hother u hu
    exact (hm.others u hut).symm ▸ h.placed u hs
  · intro c
    exact served_notified hpick n (hm.served h ht c)
  · rintro c u ⟨hu, hw⟩
    obtain ⟨hut, hs⟩ := hother u hu
    have hwv : v.waitsOn u = some c := (hm.others u hut).symm.trans hw
    rw [Bool.eq_false_iff]
    intro hflag
    rcases hm.flagged c ⟨u, hut, hwv⟩ hflag with hold | rfl
    · rw [h.unflagged c u ⟨hs, hwv⟩] at hold
      cases hold
    · simp only [notified, Bool.and_eq_true, Bool.not_eq_true', decide_eq_false_iff_not] at hu
      exact hu.2 hw

end WaitView
end SysProg.Lib

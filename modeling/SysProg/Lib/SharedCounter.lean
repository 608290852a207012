import Mathlib.Data.Fintype.BigOperators
import SysProg.Lib.Execution

/-!
# A shared counter that is incremented by separate loads and stores

Each process announces an increment, loads the counter and stores the value it
has loaded plus one. A store is stale when the counter has changed since the
load. Without stale stores the counter and the increments in flight together
make up the number of announcements. One stale store loses an increment, and no
later step can make up for it.
-/

open scoped BigOperators
namespace SysProg.Lib

inductive Increment where
  | idle
  | announced
  | loaded (value : ℕ)
  deriving DecidableEq

def Increment.inFlight : Increment → ℕ
  | .idle => 0
  | _ => 1

structure Counter (ι : Type*) where
  value : ℕ
  announcements : ℕ
  phase : ι → Increment

namespace Counter
variable {ι : Type*} [Fintype ι] [DecidableEq ι] {c c' : Counter ι} {i : ι}

def inFlight (c : Counter ι) : ℕ := ∑ i, (c.phase i).inFlight

inductive Step (c : Counter ι) (i : ι) : Counter ι → Prop where
  | announce : c.phase i = .idle →
      Step c i { c with
        announcements := c.announcements + 1, phase := Function.update c.phase i .announced }
  | load : c.phase i = .announced →
      Step c i { c with phase := Function.update c.phase i (.loaded c.value) }
  | store {v : ℕ} : c.phase i = .loaded v →
      Step c i { c with value := v + 1, phase := Function.update c.phase i .idle }

def StaleStore (c : Counter ι) (i : ι) : Prop := ∃ v, c.phase i = .loaded v ∧ v ≠ c.value

structure Exact (c : Counter ι) : Prop where
  total : c.value + c.inFlight = c.announcements
  loaded : ∀ i v, c.phase i = .loaded v → v ≤ c.value

/-- `bound` is what the counter and all stores to come can reach. -/
structure Short (c : Counter ι) : Prop where
  lost : ∃ bound, c.value ≤ bound ∧ (∀ i v, c.phase i = .loaded v → v ≤ bound) ∧
    bound + c.inFlight < c.announcements

theorem inFlight_update (c : Counter ι) (i : ι) (p : Increment) :
    (∑ j, (Function.update c.phase i p j).inFlight) + (c.phase i).inFlight =
      c.inFlight + p.inFlight :=
  sum_update_add (fun _ => Increment.inFlight) c.phase i p

omit [Fintype ι] in
theorem loaded_of_update {f : ι → Increment} {p : Increment} {j : ι} {v : ℕ}
    (h : Function.update f i p j = .loaded v) : p = .loaded v ∨ f j = .loaded v := by
  by_cases hj : j = i
  · subst hj
    left
    simpa using h
  · right
    simpa [hj] using h

theorem Exact.step (h : Exact c) (hs : Step c i c') (hfresh : ¬ c.StaleStore i) : Exact c' := by
  obtain ⟨htotal, hloaded⟩ := h
  cases hs with
  | announce hi =>
    have hsum := inFlight_update c i .announced
    rw [hi] at hsum
    refine ⟨?_, ?_⟩
    · simp only [inFlight, Increment.inFlight] at hsum htotal ⊢
      omega
    · intro j v hj
      rcases loaded_of_update hj with hp | hp
      · cases hp
      · exact hloaded j v hp
  | load hi =>
    have hsum := inFlight_update c i (.loaded c.value)
    rw [hi] at hsum
    refine ⟨?_, ?_⟩
    · simp only [inFlight, Increment.inFlight] at hsum htotal ⊢
      omega
    · intro j v hj
      rcases loaded_of_update hj with hp | hp
      · cases hp
        exact le_refl _
      · exact hloaded j v hp
  | @store v hi =>
    have hsum := inFlight_update c i .idle
    have hv : v = c.value := by
      by_contra hne
      exact hfresh ⟨v, hi, hne⟩
    rw [hi] at hsum
    refine ⟨?_, ?_⟩
    · simp only [inFlight, Increment.inFlight] at hsum htotal ⊢
      omega
    · intro j u hj
      rcases loaded_of_update hj with hp | hp
      · cases hp
      · have hle := hloaded j u hp
        simp only
        omega

/-- The first stale store: the counter does not grow and one increment leaves the flight. -/
theorem Exact.short_of_stale (h : Exact c) (hs : Step c i c') (hstale : c.StaleStore i) :
    Short c' := by
  obtain ⟨htotal, hloaded⟩ := h
  obtain ⟨v, hv, hne⟩ := hstale
  have hle := hloaded i v hv
  cases hs with
  | announce hi =>
    rw [hv] at hi
    cases hi
  | load hi =>
    rw [hv] at hi
    cases hi
  | @store u hi =>
    obtain rfl : v = u := by simpa [hv] using hi
    have hsum := inFlight_update c i .idle
    rw [hi] at hsum
    refine ⟨c.value, ?_, ?_, ?_⟩
    · simp only
      omega
    · intro j w hj
      rcases loaded_of_update hj with hp | hp
      · cases hp
      · exact hloaded j w hp
    · simp only [inFlight, Increment.inFlight] at hsum htotal ⊢
      omega

theorem Short.step (h : Short c) (hs : Step c i c') : Short c' := by
  obtain ⟨bound, hvalue, hloaded, hlost⟩ := h
  cases hs with
  | announce hi =>
    have hsum := inFlight_update c i .announced
    rw [hi] at hsum
    refine ⟨bound, hvalue, ?_, ?_⟩
    · intro j v hj
      rcases loaded_of_update hj with hp | hp
      · cases hp
      · exact hloaded j v hp
    · simp only [inFlight, Increment.inFlight] at hsum hlost ⊢
      omega
  | load hi =>
    have hsum := inFlight_update c i (.loaded c.value)
    rw [hi] at hsum
    refine ⟨bound, hvalue, ?_, ?_⟩
    · intro j v hj
      rcases loaded_of_update hj with hp | hp
      · cases hp
        exact hvalue
      · exact hloaded j v hp
    · simp only [inFlight, Increment.inFlight] at hsum hlost ⊢
      omega
  | @store v hi =>
    have hsum := inFlight_update c i .idle
    rw [hi] at hsum
    have hv := hloaded i v hi
    refine ⟨bound + 1, ?_, ?_, ?_⟩
    · simp only
      omega
    · intro j u hj
      rcases loaded_of_update hj with hp | hp
      · cases hp
      · have hle := hloaded j u hp
        omega
    · simp only [inFlight, Increment.inFlight] at hsum hlost ⊢
      omega

omit [DecidableEq ι] in
theorem Exact.value_le (h : Exact c) : c.value ≤ c.announcements := by
  have htotal := h.total
  omega

omit [DecidableEq ι] in
theorem Short.value_lt (h : Short c) : c.value < c.announcements := by
  obtain ⟨bound, hvalue, -, hlost⟩ := h
  omega

end Counter

/-- A machine whose steps leave the counter alone or take one of its steps. -/
theorem Machine.Execution.exact_or_short {σ α ι : Type*} [Fintype ι] [DecidableEq ι]
    {M : Machine σ α} {view : σ → Counter ι} {stale : σ → α → Prop}
    (init : (view M.init).Exact)
    (step : ∀ s a s', M.Reachable s → M.step s a = some s' → (¬ stale s a ∧ view s' = view s) ∨
      ∃ i, (view s).Step i (view s') ∧ (stale s a ↔ (view s).StaleStore i))
    {tr : List (σ × α)} {s : σ} (h : M.Execution tr s) :
    ((∀ p ∈ tr, ¬ stale p.1 p.2) ∧ (view s).Exact) ∨
      ((∃ p ∈ tr, stale p.1 p.2) ∧ (view s).Short) := by
  induction h with
  | start => exact .inl ⟨by simp, init⟩
  | @next tr s s' a prior hs ih =>
    have hstep := step s a s' prior.reachable hs
    rcases ih with ⟨hfresh, hexact⟩ | ⟨⟨p, hp, hold⟩, hshort⟩
    · have hall : ¬ stale s a → ∀ p ∈ tr ++ [(s, a)], ¬ stale p.1 p.2 := by
        intro hnot p hp
        rcases List.mem_append.mp hp with hp | hp
        · exact hfresh p hp
        · obtain rfl := List.mem_singleton.mp hp
          exact hnot
      rcases hstep with ⟨hnot, hview⟩ | ⟨i, hi, hiff⟩
      · exact .inl ⟨hall hnot, hview ▸ hexact⟩
      · by_cases hstale : stale s a
        · exact .inr ⟨⟨(s, a), by simp, hstale⟩, hexact.short_of_stale hi (hiff.mp hstale)⟩
        · exact .inl ⟨hall hstale, hexact.step hi (fun hc => hstale (hiff.mpr hc))⟩
    · refine .inr ⟨⟨p, List.mem_append_left _ hp, hold⟩, ?_⟩
      rcases hstep with ⟨-, hview⟩ | ⟨i, hi, -⟩
      · exact hview ▸ hshort
      · exact hshort.step hi

end SysProg.Lib

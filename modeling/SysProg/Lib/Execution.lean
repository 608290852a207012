import Mathlib.Data.List.Basic
import Mathlib.Data.Fintype.BigOperators
import Mathlib.Tactic.Abel

/-!
# Finite executions of a guarded step function

A machine has one initial state and a partial step function; an action whose
guard fails has no successor. An execution keeps every state it stepped from
with the action it took, so a property of a whole run can refer to its steps.
Interleavings of several threads are executions whose actions name the thread.

The second part is the bookkeeping of a state made of indexed components: a
step replaces one component, and a total over the index changes by exactly
that component's contribution.
-/

open scoped BigOperators
namespace SysProg.Lib

structure Machine (σ α : Type*) where
  init : σ
  step : σ → α → Option σ

namespace Machine
variable {σ α : Type*} {M : Machine σ α}

inductive Execution (M : Machine σ α) : List (σ × α) → σ → Prop where
  | start : Execution M [] M.init
  | next {tr : List (σ × α)} {s s' : σ} {a : α} :
      Execution M tr s → M.step s a = some s' → Execution M (tr ++ [(s, a)]) s'

def Reachable (M : Machine σ α) (s : σ) : Prop := ∃ tr, M.Execution tr s

theorem Reachable.start : M.Reachable M.init := ⟨[], .start⟩

theorem Reachable.next {s s' : σ} {a : α} (h : M.Reachable s) (hs : M.step s a = some s') :
    M.Reachable s' := by
  obtain ⟨tr, htr⟩ := h
  exact ⟨_, htr.next hs⟩

theorem Execution.reachable {tr : List (σ × α)} {s : σ} (h : M.Execution tr s) :
    M.Reachable s := ⟨tr, h⟩

/-- The induction rule for safety: the predicate may use that the state it is
preserved from is itself reachable. -/
theorem Reachable.invariant {P : σ → Prop} {s : σ} (h : M.Reachable s) (init : P M.init)
    (step : ∀ s a s', M.Reachable s → P s → M.step s a = some s' → P s') : P s := by
  obtain ⟨tr, htr⟩ := h
  induction htr with
  | start => exact init
  | next prior hs ih => exact step _ _ _ prior.reachable ih hs

/-- The same rule along one execution whose every step meets a condition on
the state it is taken from. -/
theorem Execution.invariant {P : σ → Prop} {ok : σ → α → Prop} {tr : List (σ × α)} {s : σ}
    (h : M.Execution tr s) (guarded : ∀ p ∈ tr, ok p.1 p.2) (init : P M.init)
    (step : ∀ s a s', M.Reachable s → ok s a → P s → M.step s a = some s' → P s') : P s := by
  induction h with
  | start => exact init
  | next prior hs ih =>
    have hprior := ih (fun p hp => guarded p (List.mem_append_left _ hp))
    have hok := guarded _ (List.mem_append_right _ (List.mem_singleton_self _))
    exact step _ _ _ prior.reachable hok hprior hs

def run (M : Machine σ α) : σ → List α → Option σ
  | s, [] => some s
  | s, a :: as => (M.step s a).bind (fun s' => M.run s' as)

def trace (M : Machine σ α) : σ → List α → List (σ × α)
  | _, [] => []
  | s, a :: as => (s, a) :: (M.step s a).elim [] (fun s' => M.trace s' as)

theorem action_of_mem_trace {s : σ} {as : List α} {x : σ × α} (h : x ∈ M.trace s as) :
    x.2 ∈ as := by
  induction as generalizing s with
  | nil => cases h
  | cons a as ih =>
    rcases List.mem_cons.mp h with rfl | hrest
    · exact List.mem_cons_self
    · cases hstep : M.step s a with
      | none => simp [hstep] at hrest
      | some s' => exact List.mem_cons_of_mem _ (ih (by simpa [hstep] using hrest))

theorem Execution.append_run {tr : List (σ × α)} {s s' : σ} {as : List α}
    (h : M.Execution tr s) (hr : M.run s as = some s') :
    M.Execution (tr ++ M.trace s as) s' := by
  induction as generalizing tr s with
  | nil =>
    obtain rfl : s = s' := by simpa [run] using hr
    simpa [trace] using h
  | cons a as ih =>
    obtain ⟨t, ht, hrest⟩ := Option.bind_eq_some_iff.mp hr
    have hnext := ih (h.next ht) hrest
    simpa [trace, ht, List.append_assoc] using hnext

theorem Reachable.run {s s' : σ} {as : List α} (h : M.Reachable s) (hr : M.run s as = some s') :
    M.Reachable s' := by
  obtain ⟨tr, htr⟩ := h
  exact (htr.append_run hr).reachable

theorem execution_of_run {s : σ} {as : List α} (h : M.run M.init as = some s) :
    M.Execution (M.trace M.init as) s := by
  simpa using Execution.start.append_run h

theorem execution_of_isSome {as : List α} (h : (M.run M.init as).isSome) :
    M.Execution (M.trace M.init as) ((M.run M.init as).get h) :=
  execution_of_run (Option.some_get h).symm

end Machine

section Totals
variable {ι β N : Type*} [Fintype ι] [DecidableEq ι] [AddCommMonoid N]

/-- Replacing one component exchanges its contribution to a total. The form
without subtraction also serves multisets. -/
theorem sum_update_add (g : ι → β → N) (f : ι → β) (i : ι) (x : β) :
    (∑ j, g j (Function.update f i x j)) + g i (f i) = (∑ j, g j (f j)) + g i x := by
  rw [← Finset.add_sum_erase _ _ (Finset.mem_univ i),
    ← Finset.add_sum_erase _ (fun j => g j (f j)) (Finset.mem_univ i)]
  have hrest : ∑ j ∈ Finset.univ.erase i, g j (Function.update f i x j) =
      ∑ j ∈ Finset.univ.erase i, g j (f j) := by
    refine Finset.sum_congr rfl (fun j hj => ?_)
    rw [Function.update_of_ne (Finset.ne_of_mem_erase hj)]
  rw [hrest, Function.update_self]
  abel

omit [DecidableEq ι] in
theorem sum_indicator_le_card (p : ι → Bool) :
    (∑ i, if p i then 1 else 0) ≤ Fintype.card ι := by
  rw [← Finset.card_filter]
  exact Finset.card_le_univ _

omit [DecidableEq ι] in
theorem sum_indicator_eq_card (p : ι → Bool) :
    (∑ i, if p i then 1 else 0) = Fintype.card ι ↔ ∀ i, p i = true := by
  rw [← Finset.card_filter, Finset.card_eq_iff_eq_univ, Finset.filter_eq_self]
  simp

end Totals

theorem apply_update_of_eq {ι β γ : Type*} [DecidableEq ι] {f : ι → β} {i : ι} {x : β} (g : β → γ)
    (h : g x = g (f i)) (j : ι) : g (Function.update f i x j) = g (f j) := by
  by_cases hj : j = i
  · subst hj
    simpa using h
  · rw [Function.update_of_ne hj]

/-- When the old and the new component share a part, only the rest moves. -/
theorem sum_update_exchange {ι β N : Type*} [Fintype ι] [DecidableEq ι] [AddCancelCommMonoid N]
    (g : ι → β → N) (f : ι → β) (i : ι) (x : β) {c u v : N}
    (hold : g i (f i) = c + u) (hnew : g i x = c + v) :
    (∑ j, g j (Function.update f i x j)) + u = (∑ j, g j (f j)) + v := by
  have h := sum_update_add g f i x
  rw [hold, hnew, add_left_comm, add_left_comm _ c] at h
  exact add_left_cancel h

end SysProg.Lib

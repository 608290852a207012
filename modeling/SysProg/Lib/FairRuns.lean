import SysProg.Lib.Execution
import Mathlib.Order.WellFounded

/-!
# Infinite runs under weak fairness

A run takes one action of the machine at each instant or pauses; finite
executions that nothing can extend are runs that pause for ever. Under weak
fairness an action that stays enabled is taken some time. The progress rule
needs a rank in a well-founded order that no step raises, and for each state
short of the goal a component whose own next actions, one after the other, lead
to a lower rank unless another step lowers it first.
-/

namespace SysProg.Lib
namespace Machine
variable {σ α ι W : Type*} {M : Machine σ α} {fair : Set α}

structure FairRun (M : Machine σ α) (fair : Set α) where
  state : ℕ → σ
  action : ℕ → Option α
  start : state 0 = M.init
  moves : ∀ n a, action n = some a → M.step (state n) a = some (state (n + 1))
  pauses : ∀ n, action n = none → state (n + 1) = state n
  fairness : ∀ a ∈ fair, ∀ n, ∃ m ≥ n, M.step (state m) a = none ∨ action m = some a

namespace FairRun

theorem execution (r : FairRun M fair) (n : ℕ) :
    ∃ tr, M.Execution tr (r.state n) ∧
      ∀ p, p ∈ tr ↔ ∃ m < n, r.state m = p.1 ∧ r.action m = some p.2 := by
  induction n with
  | zero =>
    rw [r.start]
    exact ⟨[], .start, by simp⟩
  | succ n ih =>
    obtain ⟨tr, htr, hsteps⟩ := ih
    cases ha : r.action n with
    | none =>
      rw [r.pauses n ha]
      refine ⟨tr, htr, ?_⟩
      intro p
      rw [hsteps p]
      constructor
      · rintro ⟨m, hm, hstep⟩
        exact ⟨m, Nat.lt_succ_of_lt hm, hstep⟩
      · rintro ⟨m, hm, hstep⟩
        rcases Nat.lt_succ_iff_lt_or_eq.mp hm with hlt | rfl
        · exact ⟨m, hlt, hstep⟩
        · rw [ha] at hstep
          cases hstep.2
    | some a =>
      refine ⟨tr ++ [(r.state n, a)], htr.next (r.moves n a ha), ?_⟩
      intro p
      rw [List.mem_append, hsteps p, List.mem_singleton]
      constructor
      · rintro (⟨m, hm, hstep⟩ | rfl)
        · exact ⟨m, Nat.lt_succ_of_lt hm, hstep⟩
        · exact ⟨n, Nat.lt_succ_self n, rfl, ha⟩
      · rintro ⟨m, hm, hstep⟩
        rcases Nat.lt_succ_iff_lt_or_eq.mp hm with hlt | rfl
        · exact Or.inl ⟨m, hlt, hstep⟩
        · rw [ha] at hstep
          exact Or.inr (Prod.ext hstep.1.symm (Option.some.inj hstep.2).symm)

theorem reachable (r : FairRun M fair) (n : ℕ) : M.Reachable (r.state n) := by
  obtain ⟨tr, htr, -⟩ := r.execution n
  exact htr.reachable

theorem stable (r : FairRun M fair) {P : σ → Prop} {n : ℕ} (hn : P (r.state n))
    (step : ∀ m a, r.action m = some a → P (r.state m) → P (r.state (m + 1))) :
    ∀ m, n ≤ m → P (r.state m) := by
  intro m hm
  induction m, hm using Nat.le_induction with
  | base => exact hn
  | succ m hm ih =>
    cases ha : r.action m with
    | none => rw [r.pauses m ha]; exact ih
    | some a => exact step m a ha ih

def drop (r : FairRun M fair) (k : ℕ) : FairRun ⟨r.state k, M.step⟩ fair where
  state n := r.state (k + n)
  action n := r.action (k + n)
  start := rfl
  moves n _ ha := r.moves (k + n) _ ha
  pauses n hn := r.pauses (k + n) hn
  fairness a ha n := by
    obtain ⟨m, hm, hfair⟩ := r.fairness a ha (k + n)
    apply Exists.intro (m - k)
    rw [Nat.add_sub_cancel' (Nat.le_of_add_right_le hm)]
    exact ⟨Nat.le_sub_of_add_le' hm, hfair⟩

/-! ### A script that runs into a state at rest -/

theorem run_append (s : σ) (as bs : List α) :
    M.run s (as ++ bs) = (M.run s as).bind (fun t => M.run t bs) := by
  induction as generalizing s with
  | nil => rfl
  | cons a as ih =>
    simp only [List.cons_append, run, Option.bind_assoc]
    congr 1
    funext t
    exact ih t

def scripted (M : Machine σ α) (as : List α) (n : ℕ) : σ :=
  (M.run M.init (as.take n)).getD M.init

theorem run_scripted {as : List α} {s : σ} (h : M.run M.init as = some s) (n : ℕ) :
    M.run M.init (as.take n) = some (scripted M as n) := by
  have hsplit := run_append (M := M) M.init (as.take n) (as.drop n)
  rw [List.take_append_drop, h] at hsplit
  cases hn : M.run M.init (as.take n) with
  | none => simp [hn] at hsplit
  | some t => simp [scripted, hn]

theorem step_scripted {as : List α} {s : σ} (h : M.run M.init as = some s) {n : ℕ} {a : α}
    (ha : as[n]? = some a) : M.step (scripted M as n) a = some (scripted M as (n + 1)) := by
  have hnext := run_scripted h (n + 1)
  rw [List.take_add_one, ha, run_append, run_scripted h n] at hnext
  cases hs : M.step (scripted M as n) a with
  | none => simp [run, hs] at hnext
  | some t => simpa [run, hs] using hnext

/-- The script is taken to its end, where no fair action is left. -/
def ofScript (as : List α) (s : σ) (h : M.run M.init as = some s)
    (rest : ∀ a ∈ fair, M.step s a = none) : FairRun M fair where
  state := scripted M as
  action n := as[n]?
  start := by simp [scripted, run]
  moves _ _ ha := step_scripted h ha
  pauses n hn := by
    have hlen := List.getElem?_eq_none_iff.mp hn
    rw [scripted, scripted, List.take_of_length_le hlen,
      List.take_of_length_le (Nat.le_succ_of_le hlen)]
  fairness a ha n := by
    apply Exists.intro (max n as.length)
    refine ⟨le_max_left _ _, Or.inl ?_⟩
    have hend := run_scripted h (max n as.length)
    rw [List.take_of_length_le (le_max_right _ _), h] at hend
    rw [← Option.some.inj hend]
    exact rest a ha

/-! ### Progress -/

variable [Preorder W]

/-- A certificate of progress along one run. A live component of the system has
a next action, which is fair and enabled; the component stays live, and its
distance does not grow, until the rank falls, and the next action brings it
nearer. -/
structure Progress (r : FairRun M fair) (goal : σ → Prop) (rank : σ → W) (live : σ → ι → Prop)
    (next : σ → ι → α) (dist : σ → ι → ℕ) : Prop where
  some_live : ∀ n, ¬ goal (r.state n) → ∃ i, live (r.state n) i
  enabled : ∀ n i, live (r.state n) i →
    next (r.state n) i ∈ fair ∧ M.step (r.state n) (next (r.state n) i) ≠ none
  moves : ∀ n a i, r.action n = some a → live (r.state n) i →
    rank (r.state (n + 1)) < rank (r.state n) ∨
      rank (r.state (n + 1)) = rank (r.state n) ∧ live (r.state (n + 1)) i ∧
        (dist (r.state (n + 1)) i < dist (r.state n) i ∨
          dist (r.state (n + 1)) i = dist (r.state n) i ∧
            next (r.state (n + 1)) i = next (r.state n) i ∧ a ≠ next (r.state n) i)

variable {r : FairRun M fair} {goal : σ → Prop} {rank : σ → W} {live : σ → ι → Prop}
  {next : σ → ι → α} {dist : σ → ι → ℕ}

structure Waits (r : FairRun M fair) (rank : σ → W) (live : σ → ι → Prop) (next : σ → ι → α)
    (i : ι) (n m : ℕ) : Prop where
  sameRank : rank (r.state m) = rank (r.state n)
  stillLive : live (r.state m) i
  sameNext : next (r.state m) i = next (r.state n) i
  untaken : r.action m ≠ some (next (r.state n) i)

/-- From any instant on, the rank falls, or the distance of the component falls
at the same rank, or the component waits for ever. -/
theorem Progress.falls_or_waits (h : r.Progress goal rank live next dist) {n : ℕ} {i : ι}
    (hi : live (r.state n) i) :
    (∃ m ≥ n, rank (r.state m) < rank (r.state n)) ∨
      (∃ m ≥ n, rank (r.state m) = rank (r.state n) ∧ live (r.state m) i ∧
        dist (r.state m) i < dist (r.state n) i) ∨
      ∀ m ≥ n, r.Waits rank live next i n m := by
  by_contra hcon
  push Not at hcon
  obtain ⟨hrank, hdist, k, hk, hwait⟩ := hcon
  have hall : ∀ m ≥ n, dist (r.state m) i = dist (r.state n) i ∧ r.Waits rank live next i n m := by
    intro m hm
    have hcore : rank (r.state m) = rank (r.state n) ∧ live (r.state m) i ∧
        next (r.state m) i = next (r.state n) i ∧ dist (r.state m) i = dist (r.state n) i := by
      induction m, hm using Nat.le_induction with
      | base => exact ⟨rfl, hi, rfl, rfl⟩
      | succ m hm ih =>
        obtain ⟨heq, hlive, hnext, hsame⟩ := ih
        cases hact : r.action m with
        | none => rw [r.pauses m hact]; exact ⟨heq, hlive, hnext, hsame⟩
        | some b =>
          rcases h.moves m b i hact hlive with hlt | ⟨heq', hlive', hlt | ⟨hsame', hnext', -⟩⟩
          · rw [heq] at hlt
            exact absurd hlt (hrank (m + 1) (Nat.le_succ_of_le hm))
          · rw [hsame] at hlt
            have hge := hdist (m + 1) (Nat.le_succ_of_le hm) (heq'.trans heq) hlive'
            omega
          · exact ⟨heq'.trans heq, hlive', hnext'.trans hnext, hsame'.trans hsame⟩
    obtain ⟨heq, hlive, hnext, hsame⟩ := hcore
    refine ⟨hsame, heq, hlive, hnext, ?_⟩
    intro hact
    rcases h.moves m _ i hact hlive with hlt | ⟨heq', hlive', hlt | ⟨-, -, hne⟩⟩
    · rw [heq] at hlt
      exact hrank (m + 1) (Nat.le_succ_of_le hm) hlt
    · rw [hsame] at hlt
      have hge := hdist (m + 1) (Nat.le_succ_of_le hm) (heq'.trans heq) hlive'
      omega
    · exact hne hnext.symm
  exact hwait (hall k hk).2

theorem Progress.not_waits (h : r.Progress goal rank live next dist) {n : ℕ} {i : ι}
    (hi : live (r.state n) i) : ¬ ∀ m ≥ n, r.Waits rank live next i n m := by
  intro hwait
  obtain ⟨m, hm, hfair⟩ := r.fairness _ (h.enabled n i hi).1 n
  have hw := hwait m hm
  rcases hfair with hstuck | htaken
  · apply (h.enabled m i hw.stillLive).2
    rw [hw.sameNext]
    exact hstuck
  · exact hw.untaken htaken

theorem Progress.rank_falls (h : r.Progress goal rank live next dist) (d : ℕ) :
    ∀ n i, live (r.state n) i → dist (r.state n) i = d →
      ∃ m ≥ n, rank (r.state m) < rank (r.state n) := by
  induction d using Nat.strong_induction_on with
  | h d ih =>
    intro n i hi hd
    rcases h.falls_or_waits hi with hrank | ⟨m, hm, heq, hlive, hlt⟩ | hwait
    · exact hrank
    · rw [hd] at hlt
      obtain ⟨k, hk, hfall⟩ := ih _ hlt m i hlive rfl
      rw [heq] at hfall
      exact ⟨k, hm.trans hk, hfall⟩
    · exact absurd hwait (h.not_waits hi)

/-- The progress rule. -/
theorem Progress.reaches [WellFoundedLT W] (h : r.Progress goal rank live next dist) :
    ∃ n, goal (r.state n) := by
  by_contra hnone
  have hdescent : ∀ w : W, ∀ n, rank (r.state n) = w → False := by
    intro w
    induction w using WellFoundedLT.induction with
    | ind w ih =>
      intro n hn
      obtain ⟨i, hi⟩ := h.some_live n (fun hgoal => hnone ⟨n, hgoal⟩)
      obtain ⟨m, -, hlt⟩ := h.rank_falls _ n i hi rfl
      rw [hn] at hlt
      exact ih _ hlt m rfl
  exact hdescent _ 0 rfl

end FairRun
end Machine
end SysProg.Lib
